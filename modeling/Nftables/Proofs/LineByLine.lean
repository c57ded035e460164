import Nftables.Proofs.Accepted
import Nftables.Proofs.KnownMaps
import Nftables.Proofs.Reading

/-!
# Reading line by line

What a line of a command file adds to the transaction, or why it is refused, depends on the
settings, on the line, and on the maps that are known by then; the lines behind it have no part in
it. A file is read if none of its lines is refused, and else the first line that is refused is
reported by its number, with its fault.

The statement is about the lines, so it must not go through the reader's loop: `Adds` and `Refuses`
say for one line, given the settings and the known maps, what it adds and with what fault it is
refused, and `knownBefore` gives the maps that are known in front of line `i` by what the lines
above name. Then `AllAdd` and `FirstRefused` speak of places in a list of lines, and nothing of a
state that is handed on is left in them.

The loop does hand on a state. Its transaction is always that of the settings with some operations
queued, which is what `State.line_eq_ok_iff` and `State.lines_eq_ok_iff` assume; so no line can
refuse what an earlier one has left. Each of the two outcomes is characterised by an equivalence,
and as the loop ends in one of them, so does the theorem.
-/

namespace Nftables.Command

open Text Clause

/-! ## One line -/

/-- The verb that the first word of a line names. -/
def verbOf? (line : List Char) : Option Verb :=
  Verb.ofName? (String.ofList (line.takeWhile isWordChar))

/-- The verbs of what a line queues. An emulated `destroy` is an `add` and a `delete`. -/
def queuedVerbs (emulateDestroy : Bool) (line : List Char) : List Verb :=
  match verbOf? line with
  | some .destroy => if emulateDestroy then [.add, .delete] else [.destroy]
  | some verb => [verb]
  | none => []

/-- What a line adds to the operations, where these maps are known. -/
inductive Adds (config : Config) (known : List MapName) (line : List Char) :
    List Operation → Prop
  | nothing (h : ¬ Significant line) : Adds config known line []
  | command {c : Parsed} (h : Significant line) (hread : readCommand known line = .ok c)
    (hfit : (c.operation.object.applyDefaults config.scope).validate c.operation.verb = .ok ()) :
    Adds config known line (c.operation.queued config)

/-- Why a line is refused, where these maps are known: it is no command, or one that is not fit. -/
inductive Refuses (config : Config) (known : List MapName) (line : List Char) : LineFault → Prop
  | unread {fault : LineFault} (h : Significant line)
    (hread : readCommand known line = .error fault) : Refuses config known line fault
  | unfit {c : Parsed} {v : Violation} (h : Significant line)
    (hread : readCommand known line = .ok c)
    (hunfit : (c.operation.object.applyDefaults config.scope).validate c.operation.verb
      = .error v) : Refuses config known line (.violation v)

section Line

variable {config : Config} {known : List MapName} {line : List Char}

theorem verb_of_readObject {verb : Verb} {kind : Kind} {family : Family} {table rest : List Char}
    {c : Parsed} (h : readObject known verb kind family table rest = .ok c) :
    c.operation.verb = verb := by
  cases kind with
  | _ =>
    obtain ⟨o, -, h⟩ := bind_ok h
    cases h
    rfl

theorem Line.verb_of_read? {l : Line} (h : Line.read? line = some l) :
    l.verb = line.takeWhile isWordChar := by
  -- the first word is read before anything else is looked at
  simp only [Line.read?, Option.bind_eq_bind, Option.bind_eq_some_iff] at h
  obtain ⟨⟨verb, s⟩, hverb, _, -, _, -, _, -, _, -, _, -, _, -, _, -, h⟩ := h
  cases h
  unfold readRun at hverb
  split at hverb
  · cases hverb
  · cases hverb
    rfl

/-- The verb that is read is the one that the line names. -/
theorem verbOf?_of_readCommand {c : Parsed} (h : readCommand known line = .ok c) :
    verbOf? line = some c.operation.verb := by
  obtain ⟨l, verb, kind, family, hl, hverb, -, h⟩ := readObject_of_readCommand h
  rw [verb_of_readObject h, verbOf?, ← Line.verb_of_read? hl]
  exact of_orRefuse (of_word hverb)

theorem Adds.map_verb {ops : List Operation} (h : Adds config known line ops) :
    ops.map Operation.verb
      = if Significant line then queuedVerbs config.emulateDestroy line else [] := by
  cases h with
  | nothing h =>
    rw [if_neg h]
    rfl
  | @command c h hread hfit =>
    rw [if_pos h, queuedVerbs, verbOf?_of_readCommand hread, Operation.queued, Transaction.expand]
    generalize c.operation.verb = verb
    cases verb <;> cases config.emulateDestroy <;> rfl

theorem Adds.unique {ops ops' : List Operation} (h : Adds config known line ops)
    (h' : Adds config known line ops') : ops = ops' := by
  cases h with
  | nothing h =>
    cases h' with
    | nothing => rfl
    | command h' => exact absurd h' h
  | command h hread =>
    cases h' with
    | nothing h' => exact absurd h h'
    | command _ hread' =>
      cases hread.symm.trans hread'
      rfl

theorem Refuses.unique {fault fault' : LineFault} (h : Refuses config known line fault)
    (h' : Refuses config known line fault') : fault = fault' := by
  cases h with
  | unread _ hread =>
    cases h' with
    | unread _ hread' => exact Except.error.inj (hread.symm.trans hread')
    | unfit _ hread' => cases hread.symm.trans hread'
  | unfit _ hread hunfit =>
    cases h' with
    | unread _ hread' => cases hread.symm.trans hread'
    | unfit _ hread' hunfit' =>
      cases hread.symm.trans hread'
      cases hunfit.symm.trans hunfit'
      rfl

variable {s s' : State} {ops : List Operation}

/-- A line that is read adds to the operations and to the known maps. -/
theorem State.line_eq_ok_iff (hs : s.transaction = (Transaction.ofConfig config).queue ops) :
    s.line line = .ok s' ↔ ∃ added, Adds config s.known line added ∧
      s' = ⟨mapsOfLine line ++ s.known, s.transaction.queue added⟩ := by
  have hrefusal : s.transaction.refusal = none := by
    rw [hs]
    rfl
  by_cases hline : Significant line
  · rw [State.line_eq_ok hrefusal hline, hs]
    constructor
    · rintro ⟨c, hread, hfit, rfl⟩
      refine ⟨_, .command hline hread hfit, ?_⟩
      rw [← declares_of_readCommand hread]
      rfl
    · rintro ⟨added, hadds, rfl⟩
      cases hadds with
      | nothing h => exact absurd hline h
      | @command c _ hread hfit =>
        refine ⟨c, hread, hfit, ?_⟩
        rw [← declares_of_readCommand hread]
        rfl
  · rw [State.line, if_neg hline, mapsOfLine_of_not_significant hline]
    constructor
    · intro h
      cases h
      exact ⟨[], .nothing hline, by simp [Transaction.queue]⟩
    · rintro ⟨added, hadds, rfl⟩
      cases hadds with
      | nothing => simp [Transaction.queue]; rfl
      | command h => exact absurd h hline

/-- A line that is refused is refused with its fault. -/
theorem State.line_eq_error_iff (hs : s.transaction = (Transaction.ofConfig config).queue ops)
    {fault : LineFault} : s.line line = .error fault ↔ Refuses config s.known line fault := by
  have hrefusal : s.transaction.refusal = none := by
    rw [hs]
    rfl
  by_cases hline : Significant line
  · rw [State.line_eq_error hrefusal hline, hs]
    constructor
    · rintro (hread | ⟨c, v, hread, hunfit, rfl⟩)
      · exact .unread hline hread
      · exact .unfit hline hread hunfit
    · intro h
      cases h with
      | unread _ hread => exact .inl hread
      | unfit _ hread hunfit => exact .inr ⟨_, _, hread, hunfit, rfl⟩
  · rw [State.line, if_neg hline]
    refine iff_of_false (by simp [pure, Except.pure]) fun h => ?_
    cases h with
    | unread h => exact hline h
    | unfit h => exact hline h

end Line

/-! ## The lines of a file -/

/-- The maps that are known in front of a line: those from before, and those of the lines above. -/
def knownBefore (known : List MapName) (l : List (List Char)) (i : Nat) : List MapName :=
  (l.take i).reverse.flatMap (fun line => mapsOfLine (trim line)) ++ known

/-- What the lines add, line by line. -/
structure AllAdd (config : Config) (known : List MapName) (l : List (List Char))
    (added : List (List Operation)) : Prop where
  length : added.length = l.length
  each : ∀ i line ops, l[i]? = some line → added[i]? = some ops →
    Adds config (knownBefore known l i) (trim line) ops

/-- The line at this place is refused, and none above it is. -/
structure FirstRefused (config : Config) (known : List MapName) (l : List (List Char)) (i : Nat)
    (fault : LineFault) : Prop where
  refused : ∃ line, l[i]? = some line ∧ Refuses config (knownBefore known l i) (trim line) fault
  above : ∀ j < i, ∀ line fault, l[j]? = some line →
    ¬ Refuses config (knownBefore known l j) (trim line) fault

section Lines

variable {config : Config} {known : List MapName} {line : List Char} {l rest : List (List Char)}

theorem knownBefore_succ (i : Nat) : knownBefore known (line :: rest) (i + 1)
    = knownBefore (mapsOfLine (trim line) ++ known) rest i := by
  simp [knownBefore]

theorem allAdd_cons {added : List (List Operation)} :
    AllAdd config known (line :: rest) added ↔ ∃ ops more, added = ops :: more ∧
      Adds config known (trim line) ops ∧
      AllAdd config (mapsOfLine (trim line) ++ known) rest more := by
  constructor
  · rintro ⟨hlength, heach⟩
    obtain ⟨ops, more, rfl⟩ := List.exists_cons_of_length_eq_add_one hlength
    refine ⟨ops, more, rfl, heach 0 line ops rfl rfl, Nat.succ.inj hlength, ?_⟩
    intro i line' ops' hline hops
    rw [← knownBefore_succ]
    exact heach (i + 1) line' ops' hline hops
  · rintro ⟨ops, more, rfl, hfirst, hlength, heach⟩
    refine ⟨congrArg (· + 1) hlength, ?_⟩
    intro i line' ops' hline hops
    cases i with
    | zero =>
      cases hline
      cases hops
      exact hfirst
    | succ i =>
      rw [knownBefore_succ]
      exact heach i line' ops' hline hops

theorem firstRefused_cons {i : Nat} {fault : LineFault} :
    FirstRefused config known (line :: rest) i fault ↔
      i = 0 ∧ Refuses config known (trim line) fault ∨
      ∃ j, i = j + 1 ∧ (∀ fault, ¬ Refuses config known (trim line) fault) ∧
        FirstRefused config (mapsOfLine (trim line) ++ known) rest j fault := by
  constructor
  · rintro ⟨⟨line', hline, hrefused⟩, habove⟩
    cases i with
    | zero =>
      cases hline
      exact .inl ⟨rfl, hrefused⟩
    | succ j =>
      refine .inr ⟨j, rfl, fun fault => habove 0 (Nat.zero_lt_succ j) line fault rfl, ?_, ?_⟩
      · rw [knownBefore_succ] at hrefused
        exact ⟨line', hline, hrefused⟩
      · intro k hk line' fault hline
        rw [← knownBefore_succ]
        exact habove (k + 1) (Nat.succ_lt_succ hk) line' fault hline
  · rintro (⟨rfl, hrefused⟩ | ⟨j, rfl, hfirst, ⟨line', hline, hrefused⟩, habove⟩)
    · exact ⟨⟨line, rfl, hrefused⟩, fun k hk => absurd hk (Nat.not_lt_zero k)⟩
    · refine ⟨⟨line', hline, ?_⟩, ?_⟩
      · rw [knownBefore_succ]
        exact hrefused
      · intro k hk line' fault hline
        cases k with
        | zero =>
          cases hline
          exact hfirst fault
        | succ k =>
          rw [knownBefore_succ]
          exact habove k (Nat.lt_of_succ_lt_succ hk) line' fault hline

/-- Whether a line is the first that is refused is settled by it and the lines above it. -/
theorem FirstRefused.of_take {l' : List (List Char)} {i : Nat} {fault : LineFault}
    (h : FirstRefused config known l i fault) (htake : l'.take (i + 1) = l.take (i + 1)) :
    FirstRefused config known l' i fault := by
  -- the two lists have the same lines up to there, and so the same known maps
  have hget : ∀ j ≤ i, l'[j]? = l[j]? := by
    intro j hj
    have hsame := congrArg (·[j]?) htake
    simpa [List.getElem?_take, Nat.lt_succ_of_le hj] using hsame
  have hknown : ∀ j ≤ i, knownBefore known l' j = knownBefore known l j := by
    intro j hj
    have hsame := congrArg (List.take j) htake
    rw [List.take_take, List.take_take, Nat.min_eq_left (Nat.le_succ_of_le hj)] at hsame
    rw [knownBefore, hsame, knownBefore]
  obtain ⟨⟨line, hline, hrefused⟩, habove⟩ := h
  refine ⟨⟨line, (hget i (Nat.le_refl i)).trans hline, ?_⟩, ?_⟩
  · rwa [hknown i (Nat.le_refl i)]
  · intro j hj line' fault' hline'
    rw [hknown j (Nat.le_of_lt hj)]
    exact habove j hj line' fault' ((hget j (Nat.le_of_lt hj)).symm.trans hline')

/-! ## The file -/

variable {s s' : State} {ops : List Operation} {n : Nat}

/-- **The lines are read if each of them is**, and then they add what each of them adds. -/
theorem State.lines_eq_ok_iff (hs : s.transaction = (Transaction.ofConfig config).queue ops) :
    s.lines n l = .ok s' ↔ ∃ added, AllAdd config s.known l added ∧
      s' = ⟨knownBefore s.known l l.length, s.transaction.queue added.flatten⟩ := by
  induction l generalizing s ops n with
  | nil =>
    rw [lines]
    constructor
    · intro h
      cases h
      exact ⟨[], ⟨rfl, by simp⟩, by simp [knownBefore, Transaction.queue]⟩
    · rintro ⟨added, ⟨hlength, -⟩, rfl⟩
      rw [List.eq_nil_of_length_eq_zero hlength]
      simp [knownBefore, Transaction.queue]
  | cons line rest ih =>
    rw [lines]
    cases hline : s.line (trim line) with
    | error fault =>
      -- were all lines read, so would be the first
      refine iff_of_false (by simp) ?_
      rintro ⟨added, hadded, -⟩
      obtain ⟨first, more, -, hfirst, -⟩ := allAdd_cons.mp hadded
      rw [(State.line_eq_ok_iff hs).mpr ⟨first, hfirst, rfl⟩] at hline
      cases hline
    | ok t =>
      obtain ⟨first, hfirst, rfl⟩ := (State.line_eq_ok_iff hs).mp hline
      have hnext : s.transaction.queue first
          = (Transaction.ofConfig config).queue (ops ++ first) := by
        rw [hs, Transaction.queue_queue]
      dsimp only
      rw [ih (s := ⟨_, s.transaction.queue first⟩) hnext, List.length_cons, knownBefore_succ]
      constructor
      · rintro ⟨more, hmore, rfl⟩
        refine ⟨first :: more, allAdd_cons.mpr ⟨_, _, rfl, hfirst, hmore⟩, ?_⟩
        rw [List.flatten_cons, Transaction.queue_queue]
      · rintro ⟨added, hadded, rfl⟩
        obtain ⟨first', more, rfl, hfirst', hmore⟩ := allAdd_cons.mp hadded
        -- the first line adds the same both times
        obtain rfl := hfirst.unique hfirst'
        refine ⟨more, hmore, ?_⟩
        rw [List.flatten_cons, Transaction.queue_queue]

/-- **The first line that is refused is reported** by its number, with its fault. -/
theorem State.lines_eq_error_iff (hs : s.transaction = (Transaction.ofConfig config).queue ops)
    {e : Error} : s.lines n l = .error e ↔ ∃ i fault, FirstRefused config s.known l i fault ∧
      e = .parse (n + i) fault := by
  induction l generalizing s ops n with
  | nil =>
    refine iff_of_false (by simp [lines]) ?_
    rintro ⟨i, fault, ⟨⟨line, hline, -⟩, -⟩, -⟩
    cases hline
  | cons line rest ih =>
    rw [lines]
    cases hline : s.line (trim line) with
    | error fault =>
      have hrefused := (State.line_eq_error_iff hs).mp hline
      dsimp only
      constructor
      · intro h
        cases h
        exact ⟨0, fault, firstRefused_cons.mpr (.inl ⟨rfl, hrefused⟩), rfl⟩
      · rintro ⟨i, fault', hfirst, rfl⟩
        -- the first line is refused, so no other one is the first to be
        rcases firstRefused_cons.mp hfirst with ⟨rfl, hfault⟩ | ⟨j, -, hfits, -⟩
        · rw [hfault.unique hrefused]
          rfl
        · exact absurd hrefused (hfits fault)
    | ok t =>
      obtain ⟨first, hfirst, rfl⟩ := (State.line_eq_ok_iff hs).mp hline
      -- a line that is read is not refused
      have hfits : ∀ fault, ¬ Refuses config s.known (trim line) fault := by
        intro fault h
        rw [(State.line_eq_error_iff hs).mpr h] at hline
        cases hline
      have hnext : s.transaction.queue first
          = (Transaction.ofConfig config).queue (ops ++ first) := by
        rw [hs, Transaction.queue_queue]
      dsimp only
      rw [ih (s := ⟨_, s.transaction.queue first⟩) hnext]
      constructor
      · rintro ⟨j, fault, hrest, rfl⟩
        refine ⟨j + 1, fault, firstRefused_cons.mpr (.inr ⟨j, rfl, hfits, hrest⟩), ?_⟩
        rw [Nat.add_assoc, Nat.add_comm 1]
      · rintro ⟨i, fault, hwhole, rfl⟩
        rcases firstRefused_cons.mp hwhole with ⟨-, h⟩ | ⟨j, rfl, -, hrest⟩
        · exact absurd h (hfits fault)
        · exact ⟨j, fault, hrest, by rw [Nat.add_assoc, Nat.add_comm 1]⟩

end Lines

section File

variable {config : Config} {known : List MapName} {text : String}

theorem queue_nil_ofConfig (config : Config) :
    Transaction.ofConfig config = (Transaction.ofConfig config).queue [] := by
  simp [Transaction.queue]

theorem readCommands_eq_ok_iff {tx : Transaction} : readCommands config known text = .ok tx ↔
    ∃ added, AllAdd config known (lines text.toList) added ∧
      tx = { Transaction.ofConfig config with operations := added.flatten } := by
  have hstart : (State.mk known (.ofConfig config)).transaction
      = (Transaction.ofConfig config).queue [] := queue_nil_ofConfig config
  rw [readCommands]
  constructor
  · intro h
    cases hread : (State.mk known (.ofConfig config)).lines 1 (lines text.toList) with
    | error e =>
      rw [hread] at h
      cases h
    | ok s =>
      obtain ⟨added, hadded, rfl⟩ := (State.lines_eq_ok_iff hstart).mp hread
      rw [hread] at h
      cases h
      exact ⟨added, hadded, rfl⟩
  · rintro ⟨added, hadded, rfl⟩
    rw [(State.lines_eq_ok_iff hstart).mpr ⟨added, hadded, rfl⟩]
    rfl

theorem readCommands_eq_error_iff {e : Error} : readCommands config known text = .error e ↔
    ∃ i fault, FirstRefused config known (lines text.toList) i fault ∧
      e = .parse (i + 1) fault := by
  have hlines := State.lines_eq_error_iff (s := ⟨known, .ofConfig config⟩) (e := e) (n := 1)
    (l := lines text.toList) (queue_nil_ofConfig config)
  -- lines are counted from one
  simp only [Nat.add_comm 1] at hlines
  rw [← hlines, readCommands]
  cases (State.mk known (.ofConfig config)).lines 1 (lines text.toList) <;> simp [Except.map]

/-- The operations have the verbs of the lines that say something. -/
theorem AllAdd.map_verb {l : List (List Char)} {added : List (List Operation)}
    (h : AllAdd config known l added) : added.flatten.map Operation.verb
      = ((l.map trim).filter (Significant ·)).flatMap (queuedVerbs config.emulateDestroy) := by
  induction l generalizing known added with
  | nil =>
    rw [List.eq_nil_of_length_eq_zero h.length]
    rfl
  | cons line rest ih =>
    obtain ⟨ops, more, rfl, hfirst, hmore⟩ := allAdd_cons.mp h
    rw [List.flatten_cons, List.map_append, hfirst.map_verb, ih hmore, List.map_cons,
      List.filter_cons]
    by_cases hline : Significant (trim line) <;> simp [hline]

end File

/--
**A command file is read line by line.** Either each line that says something is queued, in their
order and under its own verb; or the first line that is refused is reported, with its number among
all lines and its fault, and so it is whatever stands behind it.
-/
theorem readCommands_line_by_line (config : Config) (known : List MapName) (text : String) :
    (∃ added, AllAdd config known (lines text.toList) added ∧
      readCommands config known text
        = .ok { Transaction.ofConfig config with operations := added.flatten } ∧
      added.flatten.map Operation.verb
        = (((lines text.toList).map trim).filter (Significant ·)).flatMap
            (queuedVerbs config.emulateDestroy)) ∨
    ∃ i fault, FirstRefused config known (lines text.toList) i fault ∧
      ∀ text' : String, (lines text'.toList).take (i + 1) = (lines text.toList).take (i + 1) →
        readCommands config known text' = .error (.parse (i + 1) fault) := by
  cases hread : readCommands config known text with
  | ok tx =>
    obtain ⟨added, hadded, rfl⟩ := readCommands_eq_ok_iff.mp hread
    exact .inl ⟨added, hadded, rfl, hadded.map_verb⟩
  | error e =>
    obtain ⟨i, fault, hfirst, rfl⟩ := readCommands_eq_error_iff.mp hread
    refine .inr ⟨i, fault, hfirst, fun text' htake => ?_⟩
    exact readCommands_eq_error_iff.mpr ⟨i, fault, hfirst.of_take htake, rfl⟩

end Nftables.Command
