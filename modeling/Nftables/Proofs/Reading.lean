import Nftables.Command.File
import Nftables.Proofs.Plain
import Nftables.Proofs.WellFormed

/-!
# The lines of commands are read back

A plain object that is fit for a verb is written as one line, and that line is read as the command
for the verb on the object. The lines of all kinds start alike, with the verb, the kind and the
table; what stands behind the table is taken kind by kind.

`ReadsBack` is the statement that is proved of each kind. It has two objects, the one whose command
is written and the one that is read, since not every verb writes all of its object; and it cuts the
line at the table, as reading does: the `tail` is what follows the table, and the `rest` what is
left of it for the reader of the kind. `Tail` is what the front of the line needs of that text, so
that the words are found and the line survives trimming.

What a line then queues depends on the state of the reader only through the settings and the known
maps (`State.line_eq_push`, `State.line_eq`), and a list of such lines queues the list of their
operations (`State.lines_queue`). Chains are done here, as the first of the named kinds; their hook
clause is the one place where a name may be quoted, which is why the comment behind it has to be
looked for with care. Sets and maps, contents, and the rest of a table have modules of their own.
-/

namespace Nftables

open Text Clause

/-! ## What stands behind the table -/

/-- The line of a command on an object of the table. -/
def commandLine (verb : Verb) (kind : Kind) (key : TableKey) (tail : List Char) : List Char :=
  verb.name.toList ++ ' ' :: (kind.name.toList ++ ' ' :: (key.family.name.toList ++
    ' ' :: (key.name.toList ++ tail)))

/-- The text of a command is this line and its line feed. -/
structure Command.LineOf (command : String) (s : List Char) : Prop where
  text : command.toList = s ++ ['\n']
  line : '\n' ∉ s
  trimmed : Trimmed s

theorem Command.LineOf.dropLast_eq {command : String} {s : List Char} (h : LineOf command s) :
    command.toList.dropLast = s := by
  rw [h.text]
  exact List.dropLast_concat

/-- A file of commands has their lines. -/
theorem Command.LineOf.lines_join {α : Type} {text : α → String} {line : α → List Char} {l : List α}
    (h : ∀ a ∈ l, LineOf (text a) (line a)) :
    lines (String.join (l.map text)).toList = l.map line := by
  have htext : (String.join (l.map text)).toList = (l.map line).flatMap (· ++ ['\n']) := by
    rw [String.toList_join, List.flatMap_map, List.flatMap_map]
    exact List.flatMap_congr fun a ha => (h a ha).text
  rw [htext]
  refine lines_ended fun s hs => ?_
  obtain ⟨a, ha, rfl⟩ := List.mem_map.mp hs
  refine ⟨(h a ha).line, fun hlast => ?_⟩
  -- a carriage return is blank
  have hblank := (h a ha).trimmed.2 _ hlast
  cases hblank

/-- A text that can end a line: it is on the line, and stands apart from what is before it. -/
structure Tail (s : List Char) : Prop where
  line : '\n' ∉ s
  front : ∀ c ∈ s.head?, isBlank c = true
  back : ∀ c ∈ s.getLast?, isBlank c = false

/-- The map that the object's line declares, if it is one. -/
def TableKey.declares (key : TableKey) : Object → List Command.MapName
  | .map m => [⟨key.family, key.name, m.name⟩]
  | _ => []

/-- The table of a family that only its handle names. -/
def Table.byHandle (family : Family) (number : Nat) : Table :=
  { scope := { family := some family }, handle := some number }

/-- The line that is written for a verb on `o` is read as the command for it on `o'`. -/
structure ReadsBack (known : List Command.MapName) (key : TableKey) (verb : Verb) (o o' : Object)
    (tail rest : List Char) : Prop where
  apart : Tail tail
  cut : Command.readRest tail = some rest
  text : (o.command verb).toList = commandLine verb o.kind key tail ++ ['\n']
  reading : Command.readObject known verb o.kind key.family key.name.toList rest
    = .ok ⟨⟨verb, o'⟩, key.declares o'⟩

theorem Verb.bareWord_name (verb : Verb) : BareWord verb.name.toList := by
  cases verb <;> decide

theorem Verb.isWordChar_name (verb : Verb) : ∀ c ∈ verb.name.toList, isWordChar c = true := by
  cases verb <;> decide

theorem Kind.bareWord_name (kind : Kind) : BareWord kind.name.toList := by
  cases kind <;> decide

theorem Kind.isWordChar_name (kind : Kind) : ∀ c ∈ kind.name.toList, isWordChar c = true := by
  cases kind <;> decide

theorem Family.bareWord_name (family : Family) : BareWord family.name.toList := by
  cases family <;> decide

namespace Tail

variable {key : TableKey} {tail : List Char} (h : Tail tail) (hname : Word key.name.toList)
  (verb : Verb) (kind : Kind)

include h hname

theorem not_mem_commandLine : '\n' ∉ commandLine verb kind key tail := by
  have hverb : '\n' ∉ verb.name.toList := verb.bareWord_name.not_mem (by decide)
  have hkind : '\n' ∉ kind.name.toList := kind.bareWord_name.not_mem (by decide)
  have hfamily : '\n' ∉ key.family.name.toList := key.family.bareWord_name.not_mem (by decide)
  have htable : '\n' ∉ key.name.toList := hname.not_mem (by decide)
  simp [commandLine, hkind, hfamily, htable, hverb, h.line]

theorem trimmed_commandLine : Trimmed (commandLine verb kind key tail) := by
  constructor
  · intro c hc
    rw [commandLine, List.head?_append_of_ne_nil _ verb.bareWord_name.1] at hc
    exact verb.bareWord_name.word.trimmed.1 c hc
  · -- the line ends in its tail, or in the name of the table
    have hlast : ∀ c ∈ (key.name.toList ++ tail).getLast?, isBlank c = false := by
      intro c hc
      by_cases htail : tail = []
      · rw [htail, List.append_nil] at hc
        exact hname.trimmed.2 c hc
      · rw [List.getLast?_append_of_ne_nil _ htail] at hc
        exact h.back c hc
    intro c hc
    refine hlast c ?_
    have hne : key.name.toList ++ tail ≠ [] := by simp [hname.1]
    simpa [commandLine, List.getLast?_append, List.getLast?_cons,
      List.getLast?_eq_some_getLast hne] using hc

variable {verb kind}

theorem lineOf {command : String}
    (htext : command.toList = commandLine verb kind key tail ++ ['\n']) :
    Command.LineOf command (commandLine verb kind key tail) :=
  ⟨htext, h.not_mem_commandLine hname verb kind, h.trimmed_commandLine hname verb kind⟩

end Tail

theorem Command.word_of_read {α : Type} {read : String → Except Violation α} {s : String} {a : α}
    (h : read s = .ok a) : word read s.toList = .ok a := by
  rw [word, String.ofList_toList, h]
  rfl

theorem Command.of_word {α : Type} {read : String → Except Violation α} {s : List Char} {a : α}
    (h : Command.word read s = .ok a) : read (String.ofList s) = .ok a := by
  unfold word at h
  cases hr : read (String.ofList s) with
  | error v =>
    rw [hr] at h
    cases h
  | ok b =>
    rw [hr] at h
    cases h
    rfl

theorem of_orRefuse {α : Type} {v : Violation} {x : Option α} {a : α}
    (h : orRefuse v x = .ok a) : x = some a := by
  cases x with
  | none => cases h
  | some b =>
    cases h
    rfl

/-- A line that is written for an object of the table is cut at its words again. -/
theorem Command.Line.read?_commandLine (verb : Verb) (kind : Kind) {key : TableKey}
    {tail rest : List Char} (hname : Word key.name.toList)
    (hfront : ∀ c ∈ tail.head?, isBlank c = true) (hcut : readRest tail = some rest) :
    Line.read? (commandLine verb kind key tail) = some ⟨verb.name.toList, kind.name.toList,
      key.family.name.toList, key.name.toList, rest⟩ := by
  have hline := Line.read?_append ⟨verb.bareWord_name.1, verb.isWordChar_name⟩
    ⟨kind.bareWord_name.1, kind.isWordChar_name⟩ key.family.bareWord_name.word hname hfront
  rw [hcut] at hline
  exact hline

/-- Of a line that is written for an object of the table, what stands behind the table is left. -/
theorem Command.readCommand_commandLine (known : List MapName) (verb : Verb) (kind : Kind)
    {key : TableKey} {tail rest : List Char} (hname : Word key.name.toList)
    (hfront : ∀ c ∈ tail.head?, isBlank c = true) (hcut : readRest tail = some rest) :
    readCommand known (commandLine verb kind key tail)
      = readObject known verb kind key.family key.name.toList rest := by
  have hverb : word Verb.read verb.name.toList = .ok verb :=
    word_of_read (by rw [Verb.read, Verb.ofName?_name]; rfl)
  have hkind : word Kind.read kind.name.toList = .ok kind :=
    word_of_read (by rw [Kind.read, Kind.ofName?_name]; rfl)
  have hfamily : word Family.read key.family.name.toList = .ok key.family :=
    word_of_read (by rw [Family.read, Family.ofName?_name]; rfl)
  have hline := Line.read?_commandLine verb kind hname hfront hcut
  -- the words of the line one after the other
  refine bind_of_ok (congrArg (orFault _) hline) |>.trans ?_
  refine bind_of_ok hverb |>.trans ?_
  refine bind_of_ok hkind |>.trans ?_
  exact bind_of_ok hfamily

/-! ## Lines that are read -/

namespace Command

theorem orFault_eq_ok {α : Type} {fault : LineFault} {x : Option α} {a : α} :
    orFault fault x = .ok a ↔ x = some a := by
  cases x <;> simp [orFault]

/-- A command that is read is that of an object, for the verb and of the kind that are named. -/
theorem readObject_of_readCommand {known : List MapName} {line : List Char} {c : Parsed}
    (h : readCommand known line = .ok c) :
    ∃ l verb kind family, Line.read? line = some l ∧ word Verb.read l.verb = .ok verb ∧
      word Kind.read l.kind = .ok kind ∧
      readObject known verb kind family l.table l.rest = .ok c := by
  obtain ⟨l, hl, h⟩ := bind_ok h
  obtain ⟨verb, hverb, h⟩ := bind_ok h
  obtain ⟨kind, hkind, h⟩ := bind_ok h
  obtain ⟨family, -, h⟩ := bind_ok h
  exact ⟨l, verb, kind, family, orFault_eq_ok.mp hl, hverb, hkind, h⟩

/-- A map is read with its name and clauses, none of which is `auto-merge`. -/
theorem eq_of_readMap {scope : Scope} {rest : List Char} {m : NamedMap}
    (h : readMap scope rest = .ok m) : ∃ target clauses, readTarget rest = .ok target ∧
      readKeyClauses target.body = .ok clauses ∧ clauses.autoMerge = none ∧
      m = { scope, name := target.name, spec := clauses.spec, handle := target.handle } := by
  obtain ⟨target, htarget, h⟩ := bind_ok h
  obtain ⟨clauses, hclauses, h⟩ := bind_ok h
  split at h
  · rename_i hnone
    exact ⟨target, clauses, htarget, hclauses, hnone, (Except.ok.inj h).symm⟩
  · cases h

section Scopes

variable {scope : Scope} {rest : List Char}

theorem scope_of_readChain {c : Chain} (h : readChain scope rest = .ok c) : c.scope = scope := by
  obtain ⟨target, -, h⟩ := bind_ok h
  dsimp only at h
  split at h
  · cases h
    rfl
  · obtain ⟨chainType, -, h⟩ := bind_ok h
    obtain ⟨hook, -, h⟩ := bind_ok h
    cases h
    rfl

theorem scope_of_readRule {r : Rule} (h : readRule scope rest = .ok r) : r.scope = scope := by
  unfold readRule at h
  dsimp only at h
  split at h
  · cases h
  · obtain ⟨⟨index, handle, text⟩, -, h⟩ := bind_ok h
    cases h
    rfl

theorem scope_of_readSet {s : NamedSet} (h : readSet scope rest = .ok s) : s.scope = scope := by
  obtain ⟨target, -, h⟩ := bind_ok h
  obtain ⟨clauses, -, h⟩ := bind_ok h
  cases h
  rfl

theorem scope_of_readMap {m : NamedMap} (h : readMap scope rest = .ok m) : m.scope = scope := by
  obtain ⟨target, clauses, -, -, -, rfl⟩ := eq_of_readMap h
  rfl

theorem scope_of_readElement {isMap : String → Bool} {e : Element}
    (h : readElement isMap scope rest = .ok e) : e.scope = scope := by
  obtain ⟨⟨name, body⟩, -, h⟩ := bind_ok h
  dsimp only at h
  split at h
  · cases h
    rfl
  · cases h
    split <;> rfl

theorem scope_of_readFlowtable {f : Flowtable} (h : readFlowtable scope rest = .ok f) :
    f.scope = scope := by
  obtain ⟨target, -, h⟩ := bind_ok h
  cases h
  rfl

theorem scope_of_readCounter {c : Counter} (h : readCounter scope rest = .ok c) :
    c.scope = scope := by
  obtain ⟨target, -, h⟩ := bind_ok h
  dsimp only at h
  split at h
  · cases h
    rfl
  · obtain ⟨packets, -, h⟩ := bind_ok h
    obtain ⟨bytes, -, h⟩ := bind_ok h
    cases h
    rfl

theorem readTable_cases {family : Family} {table : List Char} {t : Table}
    (h : readTable family table rest = .ok t) :
    t.scope = TableKey.scope ⟨family, String.ofList table⟩ ∨
      ∃ number, t = .byHandle family number := by
  unfold readTable at h
  split at h
  · obtain ⟨number, -, h⟩ := bind_ok h
    cases h
    exact .inr ⟨number, rfl⟩
  · cases h
    exact .inl rfl

/-- What is read lies in the table of its line, unless it is a table that only its handle names. -/
theorem placed_of_readCommand {known : List MapName} {line : List Char} {c : Parsed}
    (h : readCommand known line = .ok c) : ∃ key : TableKey,
      c.declares = key.declares c.operation.object ∧
      (c.operation.object.scope = key.scope ∨
        ∃ number, c.operation.object = .table (.byHandle key.family number)) := by
  obtain ⟨l, verb, kind, family, -, -, -, h⟩ := readObject_of_readCommand h
  refine ⟨⟨family, String.ofList l.table⟩, ?_⟩
  unfold readObject at h
  cases kind with
  | table =>
    obtain ⟨t, ht, h⟩ := bind_ok h
    cases h
    exact ⟨rfl, (readTable_cases ht).imp_right fun ⟨number, ht⟩ => ⟨number, congrArg _ ht⟩⟩
  | chain =>
    obtain ⟨c, hc, h⟩ := bind_ok h
    cases h
    exact ⟨rfl, .inl (scope_of_readChain hc)⟩
  | rule =>
    obtain ⟨r, hr, h⟩ := bind_ok h
    cases h
    exact ⟨rfl, .inl (scope_of_readRule hr)⟩
  | set =>
    obtain ⟨s, hs, h⟩ := bind_ok h
    cases h
    exact ⟨rfl, .inl (scope_of_readSet hs)⟩
  | map =>
    obtain ⟨m, hm, h⟩ := bind_ok h
    cases h
    exact ⟨rfl, .inl (scope_of_readMap hm)⟩
  | element =>
    obtain ⟨e, he, h⟩ := bind_ok h
    cases h
    exact ⟨rfl, .inl (scope_of_readElement he)⟩
  | flowtable =>
    obtain ⟨f, hf, h⟩ := bind_ok h
    cases h
    exact ⟨rfl, .inl (scope_of_readFlowtable hf)⟩
  | counter =>
    obtain ⟨c, hc, h⟩ := bind_ok h
    cases h
    exact ⟨rfl, .inl (scope_of_readCounter hc)⟩

end Scopes

end Command

namespace ReadsBack

variable {known : List Command.MapName} {key : TableKey} {verb : Verb} {o o' : Object}
  {tail rest : List Char}

theorem readCommand (h : ReadsBack known key verb o o' tail rest) (hname : Word key.name.toList) :
    Command.readCommand known (commandLine verb o.kind key tail)
      = .ok ⟨⟨verb, o'⟩, key.declares o'⟩ :=
  (Command.readCommand_commandLine known verb o.kind hname h.apart.front h.cut).trans h.reading

theorem lineOf (h : ReadsBack known key verb o o' tail rest) (hname : Word key.name.toList) :
    Command.LineOf (o.command verb) (commandLine verb o.kind key tail) :=
  h.apart.lineOf hname h.text

end ReadsBack

/-! ## What a line queues -/

/-- In a complete scope there is nothing for the defaults to fill in. -/
theorem Object.applyDefaults_eq {o : Object} {key : TableKey} (h : o.scope = key.scope)
    (defaults : Scope) : o.applyDefaults defaults = o := by
  have hfull : o.scope.orElse defaults = o.scope := by
    rw [h]
    rfl
  rw [applyDefaults, hfull, withScope_scope]

namespace Transaction

/-- The transaction with more operations at its end. -/
def queue (tx : Transaction) (ops : List Operation) : Transaction :=
  { tx with operations := tx.operations ++ ops }

theorem queue_queue (tx : Transaction) (ops₁ ops₂ : List Operation) :
    (tx.queue ops₁).queue ops₂ = tx.queue (ops₁ ++ ops₂) := by
  simp [queue]

/-- What is fit for the verb is queued. -/
theorem push_of_fit {tx : Transaction} {verb : Verb} {o : Object} (hrefusal : tx.refusal = none)
    (hfit : (o.applyDefaults tx.defaults).validate verb = .ok ()) :
    tx.push verb o = tx.queue (expand tx.emulateDestroy verb (o.applyDefaults tx.defaults)) := by
  unfold push
  rw [hrefusal]
  dsimp only
  rw [hfit]
  dsimp only
  rw [queue, hrefusal]

/-- What is not fit for it is refused. -/
theorem push_of_unfit {tx : Transaction} {verb : Verb} {o : Object} {v : Violation}
    (hrefusal : tx.refusal = none)
    (hunfit : (o.applyDefaults tx.defaults).validate verb = .error v) :
    tx.push verb o = { tx with refusal := some v } := by
  unfold push
  rw [hrefusal]
  dsimp only
  rw [hunfit]

/-- A verb that is not expanded queues the object once. -/
theorem push_of_validate {tx : Transaction} {verb : Verb} {o : Object}
    (hrefusal : tx.refusal = none) (hverb : verb = .destroy → tx.emulateDestroy = false)
    (hfit : (o.applyDefaults tx.defaults).validate verb = .ok ()) :
    tx.push verb o = tx.queue [⟨verb, o.applyDefaults tx.defaults⟩] := by
  have hexpand : expand tx.emulateDestroy verb (o.applyDefaults tx.defaults)
      = [⟨verb, o.applyDefaults tx.defaults⟩] :=
    if_neg fun h => Bool.false_ne_true ((hverb h.1).symm.trans h.2)
  rw [push_of_fit hrefusal hfit, hexpand]

end Transaction

namespace Command

section Lines

variable {s : State} {key : TableKey} {verb : Verb} {o o' : Object} {tail rest : List Char}

/-- A line that is read back is queued as callers queue what was read. -/
theorem State.line_eq_push (h : ReadsBack s.known key verb o o' tail rest)
    (hname : Word key.name.toList) : s.line (commandLine verb o.kind key tail)
      = match (s.transaction.push verb o').refusal with
        | some v => .error (.violation v)
        | none => .ok ⟨key.declares o' ++ s.known, s.transaction.push verb o'⟩ := by
  -- a line that begins with a verb is no comment
  have hsignificant : Significant (commandLine verb o.kind key tail) := by
    cases verb <;> constructor <;> simp [commandLine, Verb.name]
  rw [State.line, if_pos hsignificant]
  exact bind_of_ok (h.readCommand hname)

/-- **A line that is read back queues what was read**, if that is fit for the verb. -/
theorem State.line_readsBack (h : ReadsBack s.known key verb o o' tail rest)
    (hname : Word key.name.toList) (hverb : verb = .destroy → s.transaction.emulateDestroy = false)
    (hfit : (o'.applyDefaults s.transaction.defaults).validate verb = .ok ())
    (hrefusal : s.transaction.refusal = none) :
    s.line (commandLine verb o.kind key tail) = .ok ⟨key.declares o' ++ s.known,
      s.transaction.queue [⟨verb, o'.applyDefaults s.transaction.defaults⟩]⟩ := by
  rw [line_eq_push h hname, Transaction.push_of_validate hrefusal hverb hfit,
    show (s.transaction.queue _).refusal = none from hrefusal]

/-- A line that is read back is refused, if what was read is not fit for the verb. -/
theorem State.line_refused {v : Violation} (h : ReadsBack s.known key verb o o' tail rest)
    (hname : Word key.name.toList)
    (hunfit : (o'.applyDefaults s.transaction.defaults).validate verb = .error v)
    (hrefusal : s.transaction.refusal = none) :
    s.line (commandLine verb o.kind key tail) = .error (.violation v) := by
  rw [line_eq_push h hname, Transaction.push_of_unfit hrefusal hunfit]

end Lines

section Significant

variable {s s' : State} {line : List Char}

/-- A line that says something is read, completed, checked and queued. -/
theorem State.line_eq (hrefusal : s.transaction.refusal = none) (hline : Significant line) :
    s.line line = readCommand s.known line >>= fun c =>
      match (c.operation.object.applyDefaults s.transaction.defaults).validate
        c.operation.verb with
      | .error v => .error (.violation v)
      | .ok () => .ok ⟨c.declares ++ s.known, s.transaction.queue (Transaction.expand
          s.transaction.emulateDestroy c.operation.verb
          (c.operation.object.applyDefaults s.transaction.defaults))⟩ := by
  rw [State.line, if_pos hline]
  refine bind_congr fun c => ?_
  cases hv : (c.operation.object.applyDefaults s.transaction.defaults).validate
      c.operation.verb with
  | error v => rw [Transaction.push_of_unfit hrefusal hv]
  | ok u =>
    rw [Transaction.push_of_fit hrefusal hv]
    dsimp only [Transaction.queue]
    rw [hrefusal]
    rfl

/-- What a line queues, and the maps that are known after it. -/
theorem State.line_eq_ok (hrefusal : s.transaction.refusal = none) (hline : Significant line) :
    s.line line = .ok s' ↔ ∃ c, readCommand s.known line = .ok c ∧
      (c.operation.object.applyDefaults s.transaction.defaults).validate c.operation.verb
        = .ok () ∧
      s' = ⟨c.declares ++ s.known, s.transaction.queue (Transaction.expand
        s.transaction.emulateDestroy c.operation.verb
        (c.operation.object.applyDefaults s.transaction.defaults))⟩ := by
  rw [State.line_eq hrefusal hline]
  constructor
  · intro h
    obtain ⟨c, hc, h⟩ := bind_ok h
    split at h
    · cases h
    · rename_i hv
      exact ⟨c, hc, hv, (Except.ok.inj h).symm⟩
  · rintro ⟨c, hc, hv, rfl⟩
    rw [bind_of_ok hc, hv]

/-- Why a line is refused. -/
theorem State.line_eq_error (hrefusal : s.transaction.refusal = none) (hline : Significant line)
    {fault : LineFault} : s.line line = .error fault ↔ readCommand s.known line = .error fault ∨
      ∃ c v, readCommand s.known line = .ok c ∧
        (c.operation.object.applyDefaults s.transaction.defaults).validate c.operation.verb
          = .error v ∧
        fault = .violation v := by
  rw [State.line_eq hrefusal hline]
  cases hread : readCommand s.known line with
  | error e =>
    rw [bind_of_error rfl]
    simp
  | ok c =>
    rw [bind_of_ok rfl]
    cases hv : (c.operation.object.applyDefaults s.transaction.defaults).validate
        c.operation.verb with
    | error v => simp [hv, eq_comm]
    | ok u => simp [hv]

end Significant

/-- The line queues one operation with `Q`, wherever only maps with `P` are known. -/
def Queues (P : MapName → Prop) (Q : Operation → Prop) (line : List Char) : Prop :=
  ∀ s : State, (∀ n ∈ s.known, P n) → s.transaction.refusal = none →
    ∃ known op, (∀ n ∈ known, P n) ∧ Q op ∧ s.line line = .ok ⟨known, s.transaction.queue [op]⟩

/-- Wherever the line of a complete object is read back, it queues what was read. -/
theorem queues_of_readsBack {P : MapName → Prop} {key : TableKey} {verb : Verb} {o o' : Object}
    (hname : Word key.name.toList) (hverb : verb ≠ .destroy) (hscope : o'.scope = key.scope)
    (hfit : o'.validate verb = .ok ()) (hdeclares : ∀ n ∈ key.declares o', P n)
    (hread : ∀ known : List MapName, (∀ n ∈ known, P n) →
      ∃ tail rest, ReadsBack known key verb o o' tail rest) :
    LineOf (o.command verb) (o.command verb).toList.dropLast ∧
      Queues P (· = ⟨verb, o'⟩) (o.command verb).toList.dropLast := by
  constructor
  · -- the text of the line does not depend on the maps that are known
    obtain ⟨tail, rest, h⟩ := hread [] fun n hn => absurd hn List.not_mem_nil
    have hline := h.lineOf hname
    rwa [hline.dropLast_eq]
  · intro s hknown hrefusal
    obtain ⟨tail, rest, h⟩ := hread s.known hknown
    -- there is nothing for the defaults to fill in
    have hcomplete := Object.applyDefaults_eq hscope s.transaction.defaults
    have hqueued := State.line_readsBack h hname (fun hdestroy => absurd hdestroy hverb)
      (by rwa [hcomplete]) hrefusal
    rw [hcomplete, ← (h.lineOf hname).dropLast_eq] at hqueued
    refine ⟨key.declares o' ++ s.known, _, fun n hn => ?_, rfl, hqueued⟩
    exact (List.mem_append.mp hn).elim (hdeclares n) (hknown n)

/-- **Lines that queue one operation each queue them in their order**, as `g` sees them. -/
theorem State.lines_queue {α β : Type} {P : MapName → Prop} (g : Operation → β) {f : α → β}
    {line : α → List Char} {l : List α}
    (h : ∀ a ∈ l, Trimmed (line a) ∧ Queues P (g · = f a) (line a)) (s : State) (n : Nat)
    (hknown : ∀ m ∈ s.known, P m) (hrefusal : s.transaction.refusal = none) :
    ∃ known ops, ops.map g = l.map f ∧
      s.lines n (l.map line) = .ok ⟨known, s.transaction.queue ops⟩ := by
  induction l generalizing s n with
  | nil => exact ⟨s.known, [], rfl, by simp [State.lines, Transaction.queue]⟩
  | cons a l ih =>
    obtain ⟨htrimmed, hqueues⟩ := h a List.mem_cons_self
    obtain ⟨known, op, hmaps, hop, hline⟩ := hqueues s hknown hrefusal
    -- the maps that the first line adds are of the kind that the others allow
    obtain ⟨known', ops, hops, hlines⟩ := ih (fun a ha => h a (.tail _ ha))
      ⟨known, s.transaction.queue [op]⟩ (n + 1) hmaps hrefusal
    refine ⟨known', op :: ops, congrArg₂ List.cons hop hops, ?_⟩
    rw [List.map_cons, State.lines, trim_eq_self htrimmed, hline]
    dsimp only
    rw [hlines, Transaction.queue_queue]
    rfl

end Command

/-! ## Named objects -/

theorem toString_string (s : String) : toString s = s := rfl

/-- The text of a body is read as these clauses, and can end a line. -/
structure BodyOf (body : String) (clauses : List String) : Prop where
  read : readBody body.toList = some (inside clauses)
  line : '\n' ∉ body.toList
  back : ∀ c ∈ body.toList.getLast?, isBlank c = false

theorem bodyOf_empty : BodyOf "" [] := ⟨rfl, by decide, by decide⟩

theorem bodyOf_braced {clauses : List String} (h : ∀ c ∈ clauses, '\n' ∉ c.toList) :
    BodyOf (braced clauses) clauses := by
  refine ⟨readBody_braced clauses, ?_, ?_⟩
  · have hinside := not_mem_inside (by decide) h
    rw [toList_braced]
    cases clauses with
    | nil => decide
    | cons c cs =>
      rw [padded_cons]
      simp [hinside]
  · rw [toList_braced, ← List.append_assoc]
    intro c hc
    rw [List.getLast?_append_of_ne_nil _ (by decide)] at hc
    cases hc
    decide

theorem not_mem_commentClause (comment : Option String) :
    ∀ c ∈ commentClause comment, '\n' ∉ c.toList := by
  cases comment with
  | none => simp [commentClause, clause?]
  | some s =>
    have hquote := not_mem_quoteBody s.toList
    simp [commentClause, clause?, quote, hquote]

theorem bodyOf_clauses {clauses : List String} (hclean : ∀ c ∈ clauses, Clean c)
    (comment : Option String) :
    BodyOf (braced (clauses ++ commentClause comment)) (clauses ++ commentClause comment) := by
  refine bodyOf_braced fun c hc => ?_
  rcases List.mem_append.mp hc with hc | hc
  · exact (hclean c hc).not_mem (by decide)
  · exact not_mem_commentClause comment c hc

theorem comment_toList (comment : Option String) :
    Command.comment (comment.map String.toList) = comment := by
  cases comment <;> simp [Command.comment]

theorem number_numeral {fault : String → LineFault} {n : Nat} (h : n ≤ maxWord) :
    Command.number fault (numeral n) = .ok n := by
  rw [Command.number, readWord?_numeral h]
  rfl

/-- A plain name does not stand for a handle. -/
theorem expect_handle_eq_none {name : String} (hname : PlainName name) {body : List Char}
    (hbody : ∀ c ∈ body.head?, isBlank c = true) :
    expect "handle " (name.toList ++ body) = none := by
  refine expect_eq_none ?_
  rintro ⟨r, hr⟩
  -- the first word of the text is the name
  have hword := readWord_append hname.1 hbody
  have hkeyword := readWord_append (show Word "handle".toList by decide)
    (blank_head " " (by decide) r)
  rw [← hr] at hword
  have hsame := hkeyword.symm.trans hword
  exact hname.2 (String.toList_injective (congrArg Prod.fst (Option.some.inj hsame)).symm)

theorem readTarget_append {name body : String} {clauses : List String} (hname : PlainName name)
    (hbody : BodyOf body clauses) :
    Command.readTarget (name.toList ++ body.toList) = .ok ⟨name, none, inside clauses⟩ := by
  rw [Command.readTarget, expect_handle_eq_none hname (head_of_readBody hbody.read)]
  dsimp only
  rw [readNameAndBody_append hname.1 hbody.read]
  change Except.ok (Command.Target.mk (String.ofList name.toList) none (inside clauses)) = _
  rw [String.ofList_toList]

/-- What the verb writes behind the name of an object. -/
def Verb.bodyOf (verb : Verb) (body : String) : String := if verb.writesBody then body else ""

theorem Verb.puts_iff {verb : Verb} : verb.Puts ↔ verb.writesBody = true := by
  cases verb <;> simp [Puts, writesBody]

/-- The verbs that put an object there write the whole of it. -/
theorem Verb.Puts.bodyOf {verb : Verb} (h : verb.Puts) (body : String) :
    verb.bodyOf body = body := by
  rw [Verb.bodyOf, if_pos (puts_iff.mp h)]

theorem namedLine_none (verb : Verb) (kind : Kind) (scope name body : String) :
    namedLine verb kind scope name none body
      = s!"{verb.name} {kind.name} {scope} {name}" ++ verb.bodyOf body ++ "\n" := by
  cases verb <;> rfl

theorem toList_namedLine (verb : Verb) (kind : Kind) (key : TableKey) (name body : String) :
    (namedLine verb kind key.scope.text name none body).toList = commandLine verb kind key
      (' ' :: (name.toList ++ (verb.bodyOf body).toList)) ++ ['\n'] := by
  simp [namedLine_none, commandLine, Scope.text, TableKey.scope, familyText, toString_string]

theorem tail_named {name body : String} {clauses : List String} (hname : PlainName name)
    (hbody : BodyOf body clauses) : Tail (' ' :: (name.toList ++ body.toList)) := by
  refine ⟨?_, blank_head " " (by decide) _, ?_⟩
  · have hline : '\n' ∉ name.toList := hname.1.not_mem (by decide)
    simp [hline, hbody.line]
  · intro c hc
    by_cases hnil : body.toList = []
    · -- without a body, the name ends the line
      rw [hnil, List.append_nil, ← List.singleton_append,
        List.getLast?_append_of_ne_nil _ hname.1.1] at hc
      exact hname.1.trimmed.2 c hc
    · rw [← List.cons_append, List.getLast?_append_of_ne_nil _ hnil] at hc
      exact hbody.back c hc

/-- A named object is read back if its kind reads back what stands behind its scope. -/
theorem readsBack_named {known : List Command.MapName} {key : TableKey} {verb : Verb}
    {o o' : Object} {name body : String} {clauses : List String} (hname : PlainName name)
    (hbody : BodyOf (verb.bodyOf body) clauses)
    (htext : o.command verb = namedLine verb o.kind key.scope.text name none body)
    (hreading : Command.readObject known verb o.kind key.family key.name.toList
      (name.toList ++ (verb.bodyOf body).toList) = .ok ⟨⟨verb, o'⟩, key.declares o'⟩) :
    ∃ tail rest, ReadsBack known key verb o o' tail rest :=
  ⟨_, _, tail_named hname hbody, expect_append " " _, by rw [htext, toList_namedLine], hreading⟩

theorem readsBack_whole {known : List Command.MapName} {key : TableKey} {verb : Verb}
    {o o' : Object} {name body : String} {clauses : List String} (hverb : verb.Puts)
    (hname : PlainName name) (hbody : BodyOf body clauses)
    (htext : o.command verb = namedLine verb o.kind key.scope.text name none body)
    (hreading : Command.readObject known verb o.kind key.family key.name.toList
      (name.toList ++ body.toList) = .ok ⟨⟨verb, o'⟩, key.declares o'⟩) :
    ∃ tail rest, ReadsBack known key verb o o' tail rest := by
  have hwhole := hverb.bodyOf body
  exact readsBack_named hname (hwhole.symm ▸ hbody) htext (hwhole.symm ▸ hreading)

/-! ### Chains -/

section Chains

variable {key : TableKey} {verb : Verb} {c : Chain}

/-- The hook clause of a base chain. -/
theorem toList_hookClause {chainType : ChainType} {hook : Hook} {priority : String}
    (htype : c.chainType = some chainType) (hhook : c.hook = some hook)
    (hpriority : c.priority = some priority) : ∃ clause, c.hookClause = [clause] ∧
      clause.toList = "type ".toList ++ (chainType.name.toList ++ (" hook ".toList ++
        (hook.name.toList ++ (deviceText c.device ++
          (" priority ".toList ++ priority.toList))))) := by
  refine ⟨_, by rw [Chain.hookClause, htype, hhook, hpriority], ?_⟩
  simp [deviceText, toString_string]

theorem ChainType.bareWord_name (t : ChainType) : BareWord t.name.toList := by
  cases t <;> decide

theorem Hook.bareWord_name (hook : Hook) : BareWord hook.name.toList := by
  cases hook <;> decide

/-- What the hook clause of a chain is read as. -/
structure HookReads (c : Chain) : Prop where
  solid : ∀ k ∈ c.hookClause, Solid k
  line : ∀ k ∈ c.hookClause, '\n' ∉ k.toList
  noComment : ¬ "comment \"".toList <:+: inside c.hookClause
  read : find? readHookClause (inside c.hookClause) = match c.chainType, c.hook, c.priority with
    | some chainType, some hook, some priority =>
      some ⟨chainType.name.toList, hook.name.toList, c.device.map String.toList, priority.toList⟩
    | _, _, _ => none

theorem hookReads (hscope : c.scope = key.scope) (hv : c.validate verb = .ok ()) (hp : c.Plain) :
    HookReads c := by
  rcases (Chain.shape_of_validate hv).1 with
    ⟨hhook, htype, hpriority⟩ | ⟨hhook, htype, hpriority⟩
  · obtain ⟨hook, hhook⟩ := Option.isSome_iff_exists.mp hhook
    obtain ⟨chainType, htype⟩ := Option.isSome_iff_exists.mp htype
    obtain ⟨priority, hpriority⟩ := Option.isSome_iff_exists.mp hpriority
    have hfits : PriorityFits key.family c.priority :=
      Chain.priority_of_validate (by rw [hscope]; rfl) hv
    -- the priority has passed its check, so it is one word
    obtain ⟨v, hv⟩ := hfits priority hpriority
    have hbare := Priority.bareWord_of_read hv
    obtain ⟨clause, hclause, htext⟩ := toList_hookClause htype hhook hpriority
    -- all words of the clause are bare, but for the quotes of the device
    have hnot : ∀ d, ¬ Bare d → d ∉ chainType.name.toList ∧ d ∉ hook.name.toList ∧
        d ∉ priority.toList := fun d hd =>
      ⟨chainType.bareWord_name.not_mem hd, hook.bareWord_name.not_mem hd, hbare.not_mem hd⟩
    have hinside : inside [clause] = "type ".toList ++ (chainType.name.toList ++
        (" hook ".toList ++ (hook.name.toList ++ (deviceText c.device ++ (" priority ".toList ++
          (priority.toList ++ (" ;".toList ++ []))))))) := by
      simp [inside, padded, htext]
    refine ⟨?_, ?_, ?_, ?_⟩
    · rw [hclause, List.forall_mem_singleton]
      refine ⟨by simp [htext], ?_⟩
      have htrimmed := Trimmed.between (s := ['t']) (by decide) hbare.word.trimmed (by simp) hbare.1
        ("ype ".toList ++ (chainType.name.toList ++ (" hook ".toList ++ (hook.name.toList ++
          (deviceText c.device ++ " priority ".toList)))))
      have hcut : clause.toList = ['t'] ++ ("ype ".toList ++ (chainType.name.toList ++
          (" hook ".toList ++ (hook.name.toList ++ (deviceText c.device ++
            " priority ".toList))))) ++ priority.toList := by
        simp [htext]
      rwa [hcut]
    · rw [hclause, List.forall_mem_singleton]
      obtain ⟨ht, hh, hpr⟩ := hnot '\n' (by decide)
      have hdevice : '\n' ∉ deviceText c.device := not_mem_deviceText hp.device
      simp [htext, ht, hh, hpr, hdevice]
    · obtain ⟨ht, hh, hpr⟩ := hnot '"' (by decide)
      have hcut : inside [clause] = ("type ".toList ++ (chainType.name.toList ++
          (" hook ".toList ++ hook.name.toList))) ++ (deviceText c.device ++
            (" priority ".toList ++ (priority.toList ++ " ;".toList))) := by
        rw [hinside]
        simp
      rw [hclause, hcut]
      exact not_infix_comment_device hp.device (by simp [ht, hh]) (by simp [hpr])
    · rw [hclause, hinside, hhook, htype, hpriority]
      exact find?_head (readHookClause_append chainType.bareWord_name.word hook.bareWord_name.word
        hp.device hbare.word [])
  · -- a regular chain has no hook clause
    have hclause : c.hookClause = [] := by rw [Chain.hookClause, hhook, htype]
    refine ⟨by simp [hclause], by simp [hclause], ?_, ?_⟩
    · rw [hclause]
      decide
    · rw [hclause, htype]
      rfl

theorem bodyOf_chain (hhook : HookReads c) :
    BodyOf c.body (c.hookClause ++ commentClause c.comment) := by
  unfold Chain.body
  split
  · rename_i hnone
    rw [Chain.hookClause, hnone.1, hnone.2]
    -- without a hook and a comment there is no body
    cases c.chainType <;> exact bodyOf_empty
  · refine bodyOf_braced fun k hk => ?_
    rcases List.mem_append.mp hk with hk | hk
    · exact hhook.line k hk
    · exact not_mem_commentClause c.comment k hk

theorem readChain_text (hscope : c.scope = key.scope) (hhandle : c.handle = none)
    (hv : c.validate verb = .ok ()) (hp : c.Plain) :
    Command.readChain key.scope (c.name.toList ++ c.body.toList) = .ok c := by
  have hhook := hookReads hscope hv hp
  have hcomment := takeComment_inside hhook.noComment hhook.solid hp.comment
  refine (bind_of_ok (readTarget_append hp.name (bodyOf_chain hhook))).trans ?_
  dsimp only
  rw [hcomment]
  dsimp only
  rw [hhook.read]
  obtain ⟨hattached, hfits⟩ := Chain.shape_of_validate hv
  obtain ⟨scope, cname, chainType, hook, priority, device, comment, handle⟩ := c
  obtain rfl : scope = key.scope := hscope
  obtain rfl : handle = none := hhandle
  have hfound := comment_toList comment
  rcases hattached with ⟨hhook, htype, hpriority⟩ | ⟨hhook, htype, hpriority⟩
  · obtain ⟨hook, rfl⟩ := Option.isSome_iff_exists.mp hhook
    obtain ⟨chainType, rfl⟩ := Option.isSome_iff_exists.mp htype
    obtain ⟨priority, rfl⟩ := Option.isSome_iff_exists.mp hpriority
    have hwordType : Command.word ChainType.read chainType.name.toList = .ok chainType :=
      Command.word_of_read (by rw [ChainType.read, ChainType.ofName?_name]; rfl)
    have hwordHook : Command.word Hook.read hook.name.toList = .ok hook :=
      Command.word_of_read (by rw [Hook.read, Hook.ofName?_name]; rfl)
    refine (bind_of_ok hwordType).trans ((bind_of_ok hwordHook).trans ?_)
    have hdevice : (device.map String.toList).map String.ofList = device := by
      cases device <;> simp
    dsimp only
    rw [hfound, hdevice, String.ofList_toList]
    rfl
  · cases hhook
    cases htype
    cases hpriority
    -- only a hook takes a device
    have hdevice : device = none := by
      by_contra hsome
      rcases hfits hsome with h | h <;> cases h
    rw [hfound, hdevice]
    rfl

theorem readsBack_chain (known : List Command.MapName) (hscope : c.scope = key.scope)
    (hhandle : c.handle = none) (hverb : verb.Puts) (hv : c.validate verb = .ok ())
    (hp : c.Plain) : ∃ tail rest, ReadsBack known key verb (.chain c) (.chain c) tail rest := by
  have hbody := bodyOf_chain (hookReads hscope hv hp)
  refine readsBack_whole hverb hp.name hbody ?_ ?_
  · show Chain.command verb c = _
    rw [Chain.command, hscope, hhandle]
    rfl
  · show Command.readObject _ _ .chain _ _ _ = _
    unfold Command.readObject
    dsimp only
    rw [String.ofList_toList]
    exact bind_of_ok (readChain_text hscope hhandle hv hp)

end Chains

end Nftables
