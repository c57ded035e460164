import Nftables.CommandLine.Arguments
import Nftables.CommandLine.Directory
import Nftables.CommandLine.Listing
import Nftables.Config.Read
import Nftables.Engine
import Nftables.LineDiff
import Nftables.Report

/-!
# Running a command line

What a command line prints and how it ends, given the files that it can read. A failure is reported
at the end; what was printed before it stays.
-/

namespace Nftables.CommandLine

/-- What is printed, and why the task ended early, if it did. -/
structure Output where
  out : String := ""
  err : String := ""
  failure : Option Report := none

/-- What a task prints if nothing fails. -/
def Output.ofExcept : Except Report String → Output
  | .ok out => { out }
  | .error failure => { failure := some failure }

/-! ## Files and engines -/

/-- The text of a file. `context` says what was being attempted if it cannot be read. -/
def readText (files : Files) (context path : String) : Except Report String :=
  (files path).mapError fun fault => (Report.ofText fault.message).within context

def readFile (files : Files) (path : String) : Except Report String :=
  readText files s!"Failed to read {path}" path

/-- Runs the commands of a file. -/
def replay (files : Files) (e : Engine) (path : String) : Except Report Engine := do
  let text ← readFile files path
  match e.replay text with
  | (e, .ok ()) => pure e
  | (_, .error err) => .error ((Report.ofError err).within s!"Failed to apply {path}")

/-- A new engine with the commands of a file. -/
def load (files : Files) (config : Config) (path : String) : Except Report Engine :=
  replay files (.ofConfig config) path

/-- The settings in a file. -/
def readConfig (files : Files) (path : String) : Except Report Config := do
  let text ← readText files s!"Failed to read engine config from {Text.quote path}" path
  match Config.ofYaml? text with
  | some config => pure config
  | none => .error (.ofText Config.unreadable)

/-- The settings in the file that is named, with the options over them. -/
def engineConfig (files : Files) (o : EngineOptions) : Except Report Config := do
  let config ← match o.config with
    | some path => readConfig files path
    | none => pure {}
  -- only now, so that a fault in the settings is the one that is reported
  let family ← match o.family with
    | some name =>
      (Family.read name).map some |>.mapError fun v =>
        (Report.ofError (.invalid v)).within s!"Invalid --family '{name}'"
    | none => pure none
  pure
    { config with
      family := family.or config.family
      table := o.table.or config.table
      emulateDestroy := o.emulateDestroy || config.emulateDestroy }

/-! ## Tasks -/

/-- Applies files in order; each that is done is reported at once. -/
def applyFiles (files : Files) (e : Engine) (err : String) : List String → Output
  | [] => { out := e.dump, err }
  | path :: rest =>
    match replay files e path with
    | .ok e => applyFiles files e (err ++ s!"✅ Applied {path}\n") rest
    | .error failure => { err, failure := some failure }

/-- Checks a file against what another one builds. -/
def checkFile (files : Files) (config : Config) (path : String) (base : Option String) :
    Except Report String := do
  let e ← match base with
    | some path => load files config path
    | none => pure (.ofConfig config)
  let text ← readFile files path
  match e.readTransaction text with
  | .error err => .error ((Report.ofError err).within s!"Failed to parse {path}")
  | .ok tx =>
    match (e.check tx).2 with
    | .error err => .error ((Report.ofError err).within s!"Check failed for {path}")
    | .ok () => pure s!"✅ {tx.size} operations would apply cleanly\n"

/-- The report on the difference of two dumps. -/
def diffReport (current desired : String) : String :=
  match LineDiff.diff? current desired with
  | none => "✅ Rulesets match\n"
  | some diff => "⚠️  Rulesets differ:\n\n" ++ diff

/-- The answer to a query, or its failure. -/
def answer {α : Type} (r : Except Error α) : Except Report α :=
  r.mapError .ofError

def Task.run (files : Files) (config : Config) : Task → Output
  | .apply paths => applyFiles files (.ofConfig config) "" paths
  | .check path base => .ofExcept (checkFile files config path base)
  | .dump path => .ofExcept do
    let e ← load files config path
    pure e.dump
  | .diff current desired => .ofExcept do
    let current ← load files config current
    let desired ← load files config desired
    pure (diffReport current.dump desired.dump)
  | .status path => .ofExcept do
    let e ← load files config path
    pure (TableStatus.reportAll e.ruleset.status)
  | .list path kind json => .ofExcept do
    let e ← load files config path
    let names ← answer (e.list kind)
    pure (listNames json names)
  | .rules path chain json => .ofExcept do
    let e ← load files config path
    let rules ← answer (e.listRules chain)
    pure (listRules json rules)

def versionLine : String := "nftsim 0.1.0\n"

def Request.run (files : Files) : Request → Output
  | .version => { out := versionLine }
  | .task options t =>
    match engineConfig files options with
    | .error failure => { failure := some failure }
    | .ok config => t.run files config

/-! ## Streams and exit status -/

/-- All that is printed to the error stream. -/
def Output.errorText (o : Output) : String := o.err ++ (o.failure.map Report.text).getD ""

def Output.status (o : Output) : Nat := if o.failure = none then 0 else 1

/-- The exit status of a command line that cannot be read. -/
def usageStatus : Nat := 2

end Nftables.CommandLine
