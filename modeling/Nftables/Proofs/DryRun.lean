import Nftables.CommandLine.Run
import Nftables.Proofs.Turns

/-!
# A dry run predicts the run

A check goes through the operations of a transaction like a run, and throws away what comes out. It
leaves a trace in the handle counter alone, so a run after it draws other numbers than a run in its
place. Those that were given out before are the same for both; what the two runs commit differs in
the others, which all lie as much higher as the check has drawn numbers.

The run after a check is thus a run of the same operations on the same ruleset, with the counter
further on. Comparing two such runs is the subject of the module on renamed handles; what is added
here is the renaming itself, `raiseAbove`, which leaves every number up to the last one alone. A
transaction that names numbers from before the check keeps its meaning under it, and a transaction
that guesses numbers yet to be drawn would not: hence the condition on the handles of the requests.

The command line comes last. Its two tasks read the files in the same order and fail with the same
reports up to the words around the cause, so `Output.EndsLike` compares the exit status and the
cause.
-/

namespace Nftables

/-! ## The numbers that are drawn -/

namespace Ruleset

variable {defines : List Define}

/-- The operations that are tried, the one that fails included. -/
def attempted (defines : List Define) (r : Ruleset) (last : Nat) : List Operation → List Operation
  | [] => []
  | op :: rest => op ::
    match r.step defines (nextHandle last op) op with
    | .error _ => []
    | .ok r => attempted defines r (nextHandle last op) rest

/-- How many numbers the operations draw that are tried. -/
def draws (defines : List Define) (r : Ruleset) (last : Nat) (ops : List Operation) : Nat :=
  (attempted defines r last ops).countP fun op => op.verb.allocates

theorem draws_cons (r : Ruleset) (last : Nat) (op : Operation) (rest : List Operation) :
    last + draws defines r last (op :: rest) = nextHandle last op +
      match r.step defines (nextHandle last op) op with
      | .error _ => 0
      | .ok r => draws defines r (nextHandle last op) rest := by
  have hnext : nextHandle last op = last + if op.verb.allocates then 1 else 0 := by
    unfold nextHandle
    split <;> rfl
  rw [draws, attempted, List.countP_cons]
  cases r.step defines (nextHandle last op) op with
  | error e =>
    dsimp only
    rw [List.countP_nil]
    omega
  | ok r' =>
    dsimp only [draws]
    omega

/-- The handle counter has gone on by as many numbers as were drawn. -/
theorem lastHandle_apply (r : Ruleset) (last : Nat) (ops : List Operation) :
    (r.apply defines last ops).lastHandle = last + draws defines r last ops := by
  induction ops generalizing r last with
  | nil => rfl
  | cons op rest ih =>
    rw [draws_cons, apply]
    cases r.step defines (nextHandle last op) op with
    | error e => rfl
    | ok r' => exact ih r' _

/-- The numbers above `last` are raised by `n`. -/
def raiseAbove (last n h : Nat) : Nat := if h ≤ last then h else h + n

theorem raiseAbove_eq (last n : Nat) : raiseAbove last n = inStepFrom id (last + n) last := by
  funext h
  unfold raiseAbove inStepFrom
  split
  · rfl
  · omega

/--
**Later numbers change nothing but themselves.** Operations that name only numbers that were given
out already come to the same result when the counter stands higher, and what they build differs in
the numbers that they draw.
-/
theorem apply_raiseAbove (defines : List Define) {r : Ruleset} {last : Nat} (hr : r.Numbered last)
    {ops : List Operation} (hops : ∀ op ∈ ops, ∀ n ∈ op.object.handle, n ≤ last) (n : Nat) :
    (r.apply defines (last + n) ops).result = (r.apply defines last ops).result ∧
      (r.apply defines (last + n) ops).ruleset
        = (r.apply defines last ops).ruleset.rename (raiseAbove last n) := by
  -- raised numbers stay apart from each other and from the old ones
  have hmono : StrictMono (raiseAbove last n) :=
    raiseAbove_eq last n ▸ strictMono_inStepFrom strictMono_id (Nat.le_add_right last n)
  have hstep : InStep (raiseAbove last n) (last + n) last :=
    raiseAbove_eq last n ▸ inStep_inStepFrom id (last + n) last
  -- the ruleset itself holds no number above `last`
  have hsame : r = r.rename (raiseAbove last n) := by
    rw [raiseAbove_eq, rename_inStepFrom hr, rename, Option.map_id]
    exact r.mapHandles_id.symm
  -- the numbers that the operations name are not raised
  have hseen : ∀ op ∈ ops, op.object.SeenAlike id (Option.map (raiseAbove last n)) :=
    fun op hop m hm => seenAlike_rename hmono.injective (if_pos (hops op hop m hm))
  obtain ⟨hresult, hruleset, -⟩ := apply_rename defines hseen hsame hstep
  exact ⟨hresult, hruleset⟩

end Ruleset

/-! ## Checks and runs -/

namespace Engine

theorem lastTransaction_check (e : Engine) (tx : Transaction) :
    (e.check tx).1.lastTransaction = e.lastTransaction := by
  unfold check
  split <;> rfl

/-- A check answers as a run in its place would. -/
theorem answer_check (e : Engine) (tx : Transaction) : (e.check tx).2 = (e.run tx).2 := by
  unfold check run
  cases tx.refusal with
  | some v => rfl
  | none =>
    dsimp only
    cases (e.attempt tx).result <;> rfl

/-- A run comes to the result of its attempt, and commits what is attempted if that is a success. -/
theorem run_eq {e : Engine} {tx : Transaction} (h : tx.refusal = none) :
    (e.run tx).2 = (e.attempt tx).result ∧
      ((e.run tx).2 = .ok () → (e.run tx).1.ruleset = (e.attempt tx).ruleset) := by
  simp only [run, h]
  cases (e.attempt tx).result with
  | ok u => exact ⟨rfl, fun _ => rfl⟩
  | error err => exact ⟨rfl, fun hok => by cases hok⟩

/-- After a check, a transaction is attempted with the counter higher by what was drawn for it. -/
theorem attempt_check {e : Engine} {tx : Transaction} (h : tx.refusal = none) :
    (e.check tx).1.attempt tx = Ruleset.apply e.config.effectiveDefines e.ruleset
      (e.lastHandle + Ruleset.draws e.config.effectiveDefines e.ruleset e.lastHandle tx.operations)
      tx.operations := by
  rw [← Ruleset.lastHandle_apply]
  simp only [check, h]
  rfl

end Engine

/-! ## The command line -/

namespace CommandLine

/-- Both tasks succeed, or both fail for the same reason. -/
structure Output.EndsLike (o₁ o₂ : Output) : Prop where
  status : o₁.status = o₂.status
  cause : o₁.failure.map Report.cause = o₂.failure.map Report.cause

theorem Output.endsLike_of_cause {o₁ o₂ : Output}
    (h : o₁.failure.map Report.cause = o₂.failure.map Report.cause) : o₁.EndsLike o₂ := by
  refine ⟨?_, h⟩
  have hnone : o₁.failure = none ↔ o₂.failure = none := by
    rw [← Option.map_eq_none_iff (f := Report.cause), h, Option.map_eq_none_iff]
  unfold status
  simp only [hnone]

/-- What the arguments make the program print, if they can be read. -/
def outcome (files : Files) (args : List String) : Option Output :=
  (readRequest? args).map (Request.run files)

/-- Checking one file against another fails as applying both does. -/
theorem cause_checkFile (files : Files) (config : Config) (file base : String) :
    (Output.ofExcept (checkFile files config file (some base))).failure.map Report.cause
      = (applyFiles files (.ofConfig config) "" [base, file]).failure.map Report.cause := by
  unfold checkFile load
  dsimp only
  rw [applyFiles]
  -- the base is replayed by both, and then the file is checked or run
  cases replay files (.ofConfig config) base with
  | error failure => rfl
  | ok e =>
    dsimp only [bind, Except.bind]
    rw [applyFiles, replay]
    cases readFile files file with
    | error failure => rfl
    | ok text =>
      dsimp only [bind, Except.bind]
      -- reading it does not depend on what is done with it afterwards
      rw [Engine.replay]
      cases e.readTransaction text with
      | error err => rfl
      | ok tx =>
        dsimp only
        rw [Engine.answer_check]
        obtain ⟨e', result⟩ := e.run tx
        cases result <;> rfl

/-- **A file passes the check against another exactly if both can be applied.** -/
theorem check_endsLike (files : Files) (options : EngineOptions) (file base : String) :
    ((Request.task options (.check file (some base))).run files).EndsLike
      ((Request.task options (.apply [base, file])).run files) := by
  refine Output.endsLike_of_cause ?_
  unfold Request.run
  dsimp only
  cases engineConfig files options with
  | error failure => rfl
  | ok config => exact cause_checkFile files config file base

/-- A word is not what ends the options. -/
theorem ne_of_isWord {arg : String} (h : isWord arg = true) : arg ≠ "--" := by
  rintro rfl
  exact absurd h (by decide +kernel)

/-- Without options in front, a command line is its task and what is given to it. -/
theorem readRequest?_task {name : String} {rest left : List String} {options : Options}
    {given : Given} {task : Task} (hname : isWord name = true)
    (hoptions : taskOptions? name = some options)
    (hgiven : readArguments options false {} rest = some (given, left))
    (htask : readTask? name given = some task) : readRequest? (name :: rest)
      = if filesNamed given then some (.task (mergeOptions {} given) task) else none := by
  -- options in front end at the first word, which is the task
  have htop : readArguments topOptions true {} (name :: rest) = some ({}, name :: rest) := by
    simp [readArguments, Given.has, hname, ne_of_isWord hname]
  have hnone : filesNamed {} = true := rfl
  simp [readRequest?, htop, hnone, Given.has, hoptions, hgiven, htask]

/-- The arguments of a check can be read, unless a file has no name. -/
theorem readRequest?_check {file base : String} (hfile : isWord file = true)
    (hbase : isWord base = true) : readRequest? ["check", file, "--base", base]
      = if file ≠ "" ∧ base ≠ "" then some (.task {} (.check file (some base))) else none := by
  have hoption : isWord "--base" = false := by decide +kernel
  have hlong : longOption? "--base" = some ("base", none) := by decide
  have hgiven : readArguments ⟨"base" :: engineOptions.values, engineOptions.switches⟩ false {}
      [file, "--base", base] = some ({ values := [("base", base)], words := [file] }, []) := by
    simp [readArguments, Given.has, Given.addValue, hfile, ne_of_isWord hfile, hoption, hlong,
      hbase, versionSwitch, engineOptions]
  rw [readRequest?_task (by decide +kernel) rfl hgiven rfl]
  refine if_congr ?_ rfl rfl
  simp [filesNamed, Given.value?]

theorem readRequest?_apply {file base : String} (hfile : isWord file = true)
    (hbase : isWord base = true) : readRequest? ["apply", base, file]
      = if file ≠ "" ∧ base ≠ "" then some (.task {} (.apply [base, file])) else none := by
  have hgiven : readArguments engineOptions false {} [base, file]
      = some ({ words := [base, file] }, []) := by
    simp [readArguments, Given.has, hfile, ne_of_isWord hfile, hbase, ne_of_isWord hbase]
  rw [readRequest?_task (by decide +kernel) rfl hgiven rfl]
  refine if_congr ?_ rfl rfl
  simp only [filesNamed, Given.value?]
  simp [and_comm]

/-- Both command lines cannot be read, or they end alike. -/
theorem outcome_check (files : Files) {file base : String} (hfile : isWord file = true)
    (hbase : isWord base = true) :
    Option.Rel Output.EndsLike (outcome files ["check", file, "--base", base])
      (outcome files ["apply", base, file]) := by
  rw [outcome, outcome, readRequest?_check hfile hbase, readRequest?_apply hfile hbase]
  split
  · exact .some (check_endsLike files {} file base)
  · exact .none

end CommandLine

/-! ## What a check predicts -/

namespace Engine

open CommandLine

/--
**A dry run predicts the run.** After any history, a check of a transaction that names only numbers
that were given out answers as a run in its place would, and as a run after it. It changes neither
the ruleset nor the last transaction; and where the run after it succeeds, that commits what the
run in its place would have committed, with each number above the last one raised by as many as the
check has drawn. So a file passes the check of the command line against another one exactly if the
two can be applied in turn, and fails for the same reason.
-/
theorem check_predicts_run (config : Config) (calls : List Call) (settings : Config)
    (requests : List Operation)
    (hgiven : ∀ request ∈ requests, ∀ n ∈ request.object.handle,
      n ≤ ((ofConfig config).after calls).lastHandle) :
    let e := (ofConfig config).after calls
    let tx := Transaction.build settings requests
    let checked := (e.check tx).1
    let drawn := Ruleset.draws e.config.effectiveDefines e.ruleset e.lastHandle tx.operations
    ((e.check tx).2 = (e.run tx).2 ∧ (e.check tx).2 = (checked.run tx).2) ∧
      (checked.ruleset = e.ruleset ∧ checked.lastTransaction = e.lastTransaction) ∧
      ((checked.run tx).2 = .ok () → (checked.run tx).1.ruleset
        = (e.run tx).1.ruleset.rename (Ruleset.raiseAbove e.lastHandle drawn)) ∧
      (∀ files options file base,
        ((Request.task options (.check file (some base))).run files).EndsLike
          ((Request.task options (.apply [base, file])).run files)) ∧
      ∀ files file base, isWord file = true → isWord base = true →
        Option.Rel Output.EndsLike (outcome files ["check", file, "--base", base])
          (outcome files ["apply", base, file]) := by
  intro e tx checked drawn
  have hlines : ∀ files file base, isWord file = true → isWord base = true → _ :=
    fun files _ _ hfile hbase => outcome_check files hfile hbase
  have hkept := And.intro (ruleset_check e tx) (lastTransaction_check e tx)
  have hanswer := answer_check e tx
  cases hrefusal : tx.refusal with
  | some v =>
    -- nothing is attempted, then or later
    have hrun : ∀ d : Engine, (d.run tx).2 = .error (.invalid v) := fun d => by
      simp only [run, hrefusal]
    refine ⟨⟨hanswer, ?_⟩, hkept, fun hok => ?_, check_endsLike, hlines⟩
    · rw [hanswer, hrun, hrun]
    · rw [hrun] at hok
      cases hok
  | none =>
    -- what is queued names the numbers that the requests name
    have hops : ∀ op ∈ tx.operations, ∀ n ∈ op.object.handle, n ≤ e.lastHandle := by
      intro op hop n hn
      obtain ⟨request, hrequest, hhandle⟩ := Transaction.handle_of_mem_build hop
      exact hgiven request hrequest n (hhandle ▸ hn)
    obtain ⟨hresult, hruleset⟩ := Ruleset.apply_raiseAbove e.config.effectiveDefines
      (numbered_after config calls) hops drawn
    obtain ⟨hrun, hcommit⟩ := run_eq (e := e) hrefusal
    obtain ⟨hrun', hcommit'⟩ := run_eq (e := checked) hrefusal
    have hattempt : checked.attempt tx = _ := attempt_check hrefusal
    have hsame : (e.run tx).2 = (checked.run tx).2 := by
      rw [hrun, hrun', hattempt]
      exact hresult.symm
    refine ⟨⟨hanswer, hanswer.trans hsame⟩, hkept, fun hok => ?_, check_endsLike, hlines⟩
    rw [hcommit' hok, hattempt, hcommit (hsame.trans hok)]
    exact hruleset

/-- A chain with a rule, and a check after that. -/
def ruleHistory (settings : Config) : List Call :=
  [.run settings
      [⟨.add, .table {}⟩, ⟨.add, .chain { name := "in" }⟩,
        ⟨.add, .rule { chain := "in", body := "drop" }⟩],
    .check settings [⟨.add, .chain { name := "out" }⟩]]

/-- Requests that name the rule and the chain by their handles. -/
def ruleRequests : List Operation :=
  [⟨.add, .chain { name := "out" }⟩,
    ⟨.insert, .rule { chain := "in", body := "jump out", handle := some 3 }⟩,
    ⟨.delete, .rule { chain := "in", handle := some 3 }⟩,
    ⟨.add, .rule { chain := "out", body := "accept" }⟩]

theorem check_predicts_run_ruleRequests :
    let settings : Config := { family := some .ip, table := some "t" }
    let e := (ofConfig settings).after (ruleHistory settings)
    let tx := Transaction.build settings ruleRequests
    let checked := (e.check tx).1
    let drawn := Ruleset.draws e.config.effectiveDefines e.ruleset e.lastHandle tx.operations
    (e.lastHandle = 4 ∧ drawn = 3) ∧ ((checked.run tx).2 = .ok () ∧
      (checked.run tx).1.ruleset
        = (e.run tx).1.ruleset.rename (Ruleset.raiseAbove e.lastHandle drawn)) ∧
      ∀ files, Option.Rel Output.EndsLike (outcome files ["check", "new.nft", "--base", "old.nft"])
        (outcome files ["apply", "old.nft", "new.nft"]) := by
  intro settings
  have hgiven : ∀ request ∈ ruleRequests, ∀ n ∈ request.object.handle,
      n ≤ ((ofConfig settings).after (ruleHistory settings)).lastHandle := by
    decide +kernel
  obtain ⟨-, -, hcommit, -, hlines⟩ :=
    check_predicts_run settings (ruleHistory settings) settings ruleRequests hgiven
  -- the names of the intermediate states would be unfolded at every step
  dsimp only at hcommit hlines ⊢
  refine ⟨⟨by decide +kernel, by decide +kernel⟩, ⟨?_, hcommit ?_⟩, ?_⟩
  · decide +kernel
  · decide +kernel
  · exact fun files => hlines files "new.nft" "old.nft" (by decide +kernel) (by decide +kernel)

end Engine

end Nftables
