/-!
# Arguments

What the words of a command line ask for. Options that concern the engine may stand before or
after the name of the task; where one is given in both places, the later place counts. An option may
not be given twice in one place.
-/

namespace Nftables.CommandLine

/-! ## Options and words -/

/-- The options of one part of a command line. -/
structure Options where
  /-- The options that take a value. -/
  values : List String
  /-- The options that are given or not. -/
  switches : List String

/-- What one part of a command line gives. -/
structure Given where
  values : List (String × String) := []
  switches : List String := []
  words : List String := []

namespace Given

def addValue (g : Given) (name value : String) : Option Given :=
  if (g.values.lookup name).isSome then none
  else some { g with values := (name, value) :: g.values }

def addSwitch (g : Given) (name : String) : Option Given :=
  if name ∈ g.switches then none else some { g with switches := name :: g.switches }

def value? (g : Given) (name : String) : Option String := g.values.lookup name

def has (g : Given) (name : String) : Bool := g.switches.contains name

end Given

/-- An argument that is no option. A single dash is none. -/
def isWord (arg : String) : Bool := !(arg.startsWith "-") || arg = "-"

/-- The name of a long option and the value that is attached to it. -/
def longOption? (arg : String) : Option (String × Option String) :=
  match arg.toList with
  | '-' :: '-' :: text =>
    let name := String.ofList (text.takeWhile (· ≠ '='))
    match text.dropWhile (· ≠ '=') with
    | [] => some (name, none)
    | _ :: value => some (name, some (String.ofList value))
  | _ => none

/-- The long name of a switch of one letter. -/
def shortSwitch? (c : Char) : Option String :=
  if c = 'v' then some "verbose" else if c = 'V' then some "version" else none

/-- The switch after which nothing else counts. -/
def versionSwitch : String := "version"

/-- Adds the switches of an argument such as `-v`. Behind the one for the version, all is passed. -/
def addSwitches (options : Options) (g : Given) : List Char → Option Given
  | [] => some g
  | c :: rest => do
    let name ← shortSwitch? c
    if name ∉ options.switches then none
    else
      let g ← g.addSwitch name
      if name = versionSwitch then some g else addSwitches options g rest

/--
Reads arguments. With `upToWord`, the first word and all after it are left over. Behind `--`
everything is a word, and none of them can be left over.
-/
def readArguments (options : Options) (upToWord : Bool) (g : Given) :
    List String → Option (Given × List String)
  | [] => some (g, [])
  | arg :: rest =>
    if g.has versionSwitch then some (g, [])
    else if arg = "--" then
      if upToWord then none else some ({ g with words := g.words ++ rest }, [])
    else if isWord arg then
      if upToWord then some (g, arg :: rest)
      else readArguments options upToWord { g with words := g.words ++ [arg] } rest
    else
      match longOption? arg with
      | none => do
        let g ← addSwitches options g (arg.toList.drop 1)
        readArguments options upToWord g rest
      | some (name, some value) =>
        if name ∈ options.values then do
          let g ← g.addValue name value
          readArguments options upToWord g rest
        else none
      | some (name, none) =>
        if name ∈ options.switches then do
          let g ← g.addSwitch name
          readArguments options upToWord g rest
        else if name ∈ options.values then
          match rest with
          | [] => none
          | value :: rest =>
            -- an option is not taken for the value of the one before it
            if isWord value then do
              let g ← g.addValue name value
              readArguments options upToWord g rest
            else none
        else none

/-! ## Tasks -/

/-- The options that concern the engine. -/
structure EngineOptions where
  config : Option String := none
  family : Option String := none
  table : Option String := none
  emulateDestroy : Bool := false
deriving DecidableEq, Repr

/-- What a command line asks for. -/
inductive Task
  | apply (files : List String)
  | check (file : String) (base : Option String)
  | dump (file : String)
  | diff (current desired : String)
  | status (file : String)
  | list (file kind : String) (json : Bool)
  | rules (file chain : String) (json : Bool)
deriving DecidableEq, Repr

inductive Request
  | version
  | task (options : EngineOptions) (task : Task)
deriving DecidableEq, Repr

/-- The options that may stand in both places. -/
def engineOptions : Options :=
  ⟨["config", "family", "table"], ["emulate-destroy", "verbose"]⟩

def topOptions : Options :=
  { engineOptions with switches := versionSwitch :: engineOptions.switches }

/-- The options of a task by its name. -/
def taskOptions? (name : String) : Option Options :=
  let only (values switches : List String) : Options :=
    ⟨values ++ engineOptions.values, switches ++ engineOptions.switches⟩
  match name with
  | "apply" | "dump" | "diff" | "status" => some engineOptions
  | "check" => some (only ["base"] [])
  | "list" => some (only ["kind"] ["json"])
  | "rules" => some (only ["chain"] ["json"])
  | _ => none

/-- The task of this name, with what is given to it. -/
def readTask? (name : String) (g : Given) : Option Task :=
  match name, g.words with
  | "apply", file :: files => some (.apply (file :: files))
  | "check", [file] => some (.check file (g.value? "base"))
  | "dump", [file] => some (.dump file)
  | "diff", [current, desired] => some (.diff current desired)
  | "status", [file] => some (.status file)
  | "list", [file] => (g.value? "kind").map fun kind => .list file kind (g.has "json")
  | "rules", [file] => (g.value? "chain").map fun chain => .rules file chain (g.has "json")
  | _, _ => none

/-- The engine's options from both places. -/
def mergeOptions (top sub : Given) : EngineOptions where
  config := (sub.value? "config").or (top.value? "config")
  family := (sub.value? "family").or (top.value? "family")
  table := (sub.value? "table").or (top.value? "table")
  emulateDestroy := sub.has "emulate-destroy" || top.has "emulate-destroy"

/-- The files that are named in one part of a command line. A file has to have a name. -/
def filesNamed (g : Given) : Bool :=
  !g.words.contains "" && g.value? "config" ≠ some "" && g.value? "base" ≠ some ""

/-- What the arguments ask for; `none` if they cannot be read. -/
def readRequest? (args : List String) : Option Request := do
  let (top, rest) ← readArguments topOptions true {} args
  if !filesNamed top then none
  else if top.has versionSwitch then some .version
  else
    match rest with
    | [] => none
    | name :: rest => do
      let options ← taskOptions? name
      let (sub, _) ← readArguments options false {} rest
      let task ← readTask? name sub
      if filesNamed sub then some (.task (mergeOptions top sub) task) else none

/-- The files that a task reads. -/
def Task.files : Task → List String
  | .apply files => files
  | .check file base => file :: base.toList
  | .dump file | .status file | .list file _ _ | .rules file _ _ => [file]
  | .diff current desired => [current, desired]

/-- All files that a request reads. -/
def Request.files : Request → List String
  | .version => []
  | .task options t => options.config.toList ++ t.files

end Nftables.CommandLine
