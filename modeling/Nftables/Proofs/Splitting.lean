import Nftables.Proofs.KnownMaps
import Nftables.Proofs.RoundTrip

/-!
# Splitting a command file

A command file that is cut between two lines can be replayed in two turns. Both turns queue what
the whole file does, but the reader of the second part knows only the maps that are committed by
then, where the reader of the whole file knows all maps that the first part has named, deleted ones
too. So the whole file fails where the second part has an element of a set with such a name.

The two readers of the second part get the same lines. One of them is `Ahead`: it knows the maps of
the first part as well, and has the operations of the first part before its own. It keeps pace as
long as its lines are read the same, and what may differ is where an element goes, and then whether
the operation passes its check (`Ahead.lines`).

So if no element is led astray the whole queues the operations of both parts, and `apply_append`
makes one run of the two. If one is, the reader may still accept the line, since a deletion needs no
value; but then the run fails, as there is no such map at that point (`not_astray_of_step`). Were
there one, the reader of the second part would have known it and have sent the element there itself,
which is what `Routed` says of all that a reader queues.
-/

namespace Nftables

open Text

/-! ## Lines -/

namespace Text

theorem lines_of_splitOn {s last : List Char} {ended : List (List Char)}
    (h : s.splitOn '\n' = ended ++ [last]) :
    lines s = ended.map dropReturn ++ if last = [] then [] else [last] := by
  rw [lines, h, List.reverse_append]
  simp

/-- Behind a line feed, a text has lines of its own. -/
theorem lines_append {s : List Char} (h : s.getLast? = some '\n') (t : List Char) :
    lines (s ++ t) = lines s ++ lines t := by
  obtain ⟨front, rfl⟩ := List.getLast?_eq_some_iff.mp h
  obtain ⟨ended, last, ht⟩ := List.eq_nil_or_concat (t.splitOn '\n') |>.resolve_left
    (List.splitOn_ne_nil _ _)
  rw [List.concat_eq_append] at ht
  -- the last piece of the first text is empty, so nothing of it is joined to the second
  have hfront : (front ++ ['\n']).splitOn '\n' = front.splitOn '\n' ++ [[]] :=
    List.splitOn_append_cons_self front []
  have hwhole : (front ++ ['\n'] ++ t).splitOn '\n' = (front.splitOn '\n' ++ ended) ++ [last] := by
    rw [List.append_assoc, List.singleton_append, List.splitOn_append_cons_self, ht,
      List.append_assoc]
  rw [lines_of_splitOn hwhole, lines_of_splitOn hfront, lines_of_splitOn ht, List.map_append]
  simp

end Text

/-! ## Reading -/

/-- The map that the object is, by its name. -/
def Object.mapNames (o : Object) : List Command.MapName :=
  match o, o.scope with
  | .map m, ⟨some family, some place⟩ => [⟨family, place, m.name⟩]
  | _, _ => []

theorem Object.mapNames_eq {o : Object} {key : TableKey} (h : o.scope = key.scope) :
    o.mapNames = key.declares o := by
  unfold mapNames
  rw [h]
  cases o <;> rfl

namespace Command

section Reading

variable {known : List MapName} {line : List Char} {c : Parsed}

theorem not_astray_of_readCommand (h : readCommand known line = .ok c) :
    ¬ c.operation.object.Astray known := by
  rw [readCommand_eq] at h
  cases hread : readCommand [] line with
  | error fault =>
    rw [hread] at h
    cases h
  | ok c₀ =>
    rw [hread] at h
    cases h
    exact Object.not_astray_reroute

/-- What is queued for a line, in view of what was read. -/
structure Completed (known : List MapName) (defaults : Scope) (c : Parsed) (o : Object) : Prop where
  placed : ¬ o.Astray known
  names : o.mapNames = c.declares
  /-- Where more maps are known, it goes where what was read goes. -/
  reroute : ∀ more, (c.operation.object.reroute more).applyDefaults defaults = o.reroute more

theorem completed_of_readCommand (h : readCommand known line = .ok c) (defaults : Scope) :
    Completed known defaults c (c.operation.object.applyDefaults defaults) := by
  have hplaced := not_astray_of_readCommand h
  obtain ⟨key, hdeclares, hscope⟩ := placed_of_readCommand h
  obtain ⟨⟨verb, o⟩, declares⟩ := c
  obtain rfl : declares = key.declares o := hdeclares
  cases o with
  | element e =>
    have hscope : (Object.element e).scope = key.scope := hscope.resolve_right nofun
    have heq := Object.applyDefaults_eq hscope defaults
    refine ⟨heq.symm ▸ hplaced, heq.symm ▸ rfl, fun more => ?_⟩
    rw [heq]
    exact Object.applyDefaults_eq ((Object.scope_reroute _).trans hscope) defaults
  | map m =>
    have hscope : (Object.map m).scope = key.scope := hscope.resolve_right nofun
    have heq := Object.applyDefaults_eq hscope defaults
    refine ⟨id, ?_, fun _ => rfl⟩
    rw [heq]
    exact Object.mapNames_eq hscope
  | _ => exact ⟨id, rfl, fun _ => rfl⟩

end Reading

/-! ## Where the operations belong -/

/--
No operation is on an element of a set that has the name of a map: not of one in `known`, nor of one
that an operation before it names.
-/
def Routed (known : List MapName) : List Operation → Prop
  | [] => True
  | op :: rest => ¬ op.object.Astray known ∧ Routed (op.object.mapNames ++ known) rest

section Routed

variable {known known' : List MapName} {ops ops' : List Operation}

theorem astray_mono {o : Object} (h : o.Astray known)
    (hsub : ∀ n ∈ known, n ∈ known') : o.Astray known' := by
  cases o with
  | element e =>
    obtain ⟨n, hn, hplace⟩ := h
    exact ⟨n, hsub n hn, hplace⟩
  | _ => exact h

theorem Routed.anti (h : Routed known ops) (hsub : ∀ n ∈ known', n ∈ known) :
    Routed known' ops := by
  induction ops generalizing known known' with
  | nil => trivial
  | cons op rest ih =>
    refine ⟨fun hastray => h.1 (astray_mono hastray hsub), ih h.2 fun n hn => ?_⟩
    exact List.mem_append.mpr ((List.mem_append.mp hn).imp id (hsub n))

theorem Routed.append (h : Routed known ops) (h' : Routed known' ops')
    (hsub : ∀ n ∈ known, n ∈ known') (hnames : ∀ op ∈ ops, ∀ n ∈ op.object.mapNames, n ∈ known') :
    Routed known (ops ++ ops') := by
  induction ops generalizing known with
  | nil => exact h'.anti hsub
  | cons op rest ih =>
    obtain ⟨hop, hrest⟩ := List.forall_mem_cons.mp hnames
    refine ⟨h.1, ih h.2 (fun n hn => ?_) hrest⟩
    exact (List.mem_append.mp hn).elim (hop n) (hsub n)

theorem object_of_mem_expand {emulateDestroy : Bool} {verb : Verb} {o : Object} {op : Operation}
    (h : op ∈ Transaction.expand emulateDestroy verb o) : op.object = o := by
  unfold Transaction.expand at h
  split at h
  · rcases List.mem_pair.mp h with rfl | rfl <;> rfl
  · cases List.mem_singleton.mp h
    rfl

theorem exists_mem_expand (emulateDestroy : Bool) (verb : Verb) (o : Object) :
    ∃ op ∈ Transaction.expand emulateDestroy verb o, op.object = o := by
  unfold Transaction.expand
  split <;> exact ⟨_, List.mem_cons_self, rfl⟩

/-- An object that is where it belongs stays there, by itself or added and deleted. -/
theorem routed_expand {o : Object} (h : ¬ o.Astray known) (emulateDestroy : Bool) (verb : Verb) :
    Routed known (Transaction.expand emulateDestroy verb o) := by
  unfold Transaction.expand
  split
  · refine ⟨h, fun hastray => ?_, trivial⟩
    -- what names a map is no element
    cases o with
    | element e => exact h hastray
    | _ => exact hastray
  · exact ⟨h, trivial⟩

end Routed

section Lines

variable {s s' : State}

/-- What reading a line adds to the transaction. -/
theorem State.line_queues {line : List Char} (hrefusal : s.transaction.refusal = none)
    (h : s.line line = .ok s') : ∃ ops, s'.transaction = s.transaction.queue ops ∧
      Routed s.known ops ∧ (∀ n ∈ s.known, n ∈ s'.known) ∧
      ∀ op ∈ ops, ∀ n ∈ op.object.mapNames, n ∈ s'.known := by
  by_cases hline : Significant line
  · obtain ⟨c, hc, hv, rfl⟩ := (State.line_eq_ok hrefusal hline).mp h
    have hcompleted := completed_of_readCommand hc s.transaction.defaults
    refine ⟨_, rfl, routed_expand hcompleted.placed _ _, fun n hn => List.mem_append_right _ hn, ?_⟩
    intro op hop n hn
    rw [object_of_mem_expand hop, hcompleted.names] at hn
    exact List.mem_append_left _ hn
  · rw [State.line, if_neg hline] at h
    cases h
    exact ⟨[], by simp [Transaction.queue], trivial, fun n hn => hn, by simp⟩

theorem State.lines_queue_routed {n : Nat} {l : List (List Char)}
    (hrefusal : s.transaction.refusal = none) (h : s.lines n l = .ok s') :
    ∃ ops, s'.transaction = s.transaction.queue ops ∧ Routed s.known ops ∧
      (∀ n ∈ s.known, n ∈ s'.known) ∧ ∀ op ∈ ops, ∀ n ∈ op.object.mapNames, n ∈ s'.known := by
  induction l generalizing s n with
  | nil =>
    cases h
    exact ⟨[], by simp [Transaction.queue], trivial, fun n hn => hn, by simp⟩
  | cons line rest ih =>
    rw [lines] at h
    split at h
    · cases h
    · rename_i t ht
      obtain ⟨ops, htransaction, hrouted, hkeeps, hnames⟩ := State.line_queues hrefusal ht
      obtain ⟨ops', htransaction', hrouted', hkeeps', hnames'⟩ :=
        ih (by rw [htransaction]; exact hrefusal) h
      refine ⟨ops ++ ops', ?_, hrouted.append hrouted' hkeeps hnames, ?_, ?_⟩
      · rw [htransaction', htransaction, Transaction.queue_queue]
      · exact fun n hn => hkeeps' n (hkeeps n hn)
      · intro op hop n hn
        rcases List.mem_append.mp hop with hop | hop
        · exact hkeeps' n (hnames op hop n hn)
        · exact hnames' op hop n hn

end Lines

/-! ## Reading on, with more maps known -/

/-- The operation as it is read where these maps are known as well. -/
def rerouteOp (known : List MapName) (op : Operation) : Operation :=
  ⟨op.verb, op.object.reroute known⟩

/--
The second reader has got the same lines as the first. It knows the maps in `more` besides, and has
had operations before them.
-/
structure Ahead (more : List MapName) (before : List Operation) (s₁ s₂ : State) : Prop where
  known : ∀ n, n ∈ s₂.known ↔ n ∈ more ∨ n ∈ s₁.known
  refusal : s₁.transaction.refusal = none
  transaction : s₂.transaction = { s₁.transaction with
    operations := before ++ s₁.transaction.operations.map (rerouteOp more) }

section Ahead

variable {more : List MapName} {before : List Operation} {s₁ s₁' s₂ s₂' : State}

theorem expand_reroute (emulateDestroy : Bool) (verb : Verb) (o : Object) :
    Transaction.expand emulateDestroy verb (o.reroute more)
      = (Transaction.expand emulateDestroy verb o).map (rerouteOp more) := by
  unfold Transaction.expand
  split <;> rfl

theorem Ahead.line (h : Ahead more before s₁ s₂) {line : List Char}
    (h₁ : s₁.line line = .ok s₁') :
    (∀ s₂', s₂.line line = .ok s₂' → Ahead more before s₁' s₂') ∧
      ((∀ op ∈ s₁'.transaction.operations, ¬ op.object.Astray more) →
        ∃ s₂', s₂.line line = .ok s₂') := by
  by_cases hline : Significant line
  · obtain ⟨c, hc, hv, rfl⟩ := (State.line_eq_ok h.refusal hline).mp h₁
    have hcompleted := completed_of_readCommand hc s₁.transaction.defaults
    generalize ho : c.operation.object.applyDefaults s₁.transaction.defaults = o at hv hcompleted ⊢
    have hrefusal₂ : s₂.transaction.refusal = none := by
      rw [h.transaction]
      exact h.refusal
    have hdefaults₂ : s₂.transaction.defaults = s₁.transaction.defaults := by rw [h.transaction]
    -- the second reader reads the same, and reroutes it
    have hread₂ : readCommand s₂.known line = .ok (c.reroute more) := by
      rw [readCommand_union h.known, hc]
      rfl
    have hline₂ : ∀ s₂', s₂.line line = .ok s₂' ↔
        (o.reroute more).validate c.operation.verb = .ok () ∧
          s₂' = ⟨c.declares ++ s₂.known, s₂.transaction.queue (Transaction.expand
            s₁.transaction.emulateDestroy c.operation.verb (o.reroute more))⟩ := by
      intro s₂'
      rw [State.line_eq_ok hrefusal₂ hline, hread₂, ← hcompleted.reroute, h.transaction]
      constructor
      · rintro ⟨c', hc', hv', rfl⟩
        cases hc'
        exact ⟨hv', rfl⟩
      · rintro ⟨hv', rfl⟩
        exact ⟨_, rfl, hv', rfl⟩
    constructor
    · intro s₂' h₂
      obtain ⟨-, rfl⟩ := (hline₂ s₂').mp h₂
      refine ⟨fun n => ?_, h.refusal, ?_⟩
      · rw [List.mem_append, List.mem_append, h.known]
        tauto
      · rw [h.transaction, expand_reroute]
        simp [Transaction.queue]
    · intro hplaced
      -- what the line queues is an operation on its object, so that is not astray
      obtain ⟨op, hop, hobject⟩ := exists_mem_expand s₁.transaction.emulateDestroy
        c.operation.verb o
      have hstays : o.reroute more = o :=
        Object.reroute_of_not_astray (hobject ▸ hplaced op (List.mem_append_right _ hop))
      exact ⟨_, (hline₂ _).mpr ⟨hstays.symm ▸ hv, rfl⟩⟩
  · rw [State.line, if_neg hline] at h₁ ⊢
    cases h₁
    refine ⟨fun s₂' h₂ => ?_, fun _ => ⟨s₂, rfl⟩⟩
    cases h₂
    exact h

/-- **The second reader keeps pace**, unless an element goes astray. -/
theorem Ahead.lines (h : Ahead more before s₁ s₂) {n m : Nat} {l : List (List Char)}
    (h₁ : s₁.lines n l = .ok s₁') :
    (∀ s₂', s₂.lines m l = .ok s₂' → Ahead more before s₁' s₂') ∧
      ((∀ op ∈ s₁'.transaction.operations, ¬ op.object.Astray more) →
        ∃ s₂', s₂.lines m l = .ok s₂') := by
  induction l generalizing s₁ s₂ n m with
  | nil =>
    cases h₁
    refine ⟨fun s₂' h₂ => ?_, fun _ => ⟨s₂, rfl⟩⟩
    cases h₂
    exact h
  | cons line rest ih =>
    rw [State.lines] at h₁ ⊢
    split at h₁
    · cases h₁
    · rename_i t₁ ht₁
      obtain ⟨hkeeps, hreads⟩ := h.line ht₁
      constructor
      · intro s₂' h₂
        split at h₂
        · cases h₂
        · rename_i t₂ ht₂
          exact (ih (hkeeps t₂ ht₂) h₁).1 s₂' h₂
      · intro hplaced
        have hrefusal : t₁.transaction.refusal = none := by
          obtain ⟨ops, htransaction, -⟩ := State.line_queues h.refusal ht₁
          rw [htransaction]
          exact h.refusal
        -- what this line has queued is among the operations in the end
        obtain ⟨ops, htransaction, -⟩ := State.lines_queue_routed hrefusal h₁
        obtain ⟨t₂, ht₂⟩ := hreads fun op hop => hplaced op (by
          rw [htransaction]
          exact List.mem_append_left _ hop)
        rw [ht₂]
        exact (ih (hkeeps t₂ ht₂) h₁).2 hplaced

end Ahead

end Command

/-! ## The maps of the ruleset -/

section Maps

variable {defines : List Define} {verb : Verb} {handle : Nat} {o : Object}

/-- A map that a command leaves in a table was there, or is the one that the command names. -/
theorem TableState.Effect.map_of_contains {t t' : TableState}
    (he : t.Effect defines verb handle o t') {name : String}
    (h : t'.maps.contains name = true) :
    t.maps.contains name = true ∨ ∃ m, o = .map m ∧ m.name = name := by
  cases he with
  | map m maps he =>
    have hall : maps.All fun k _ => t.maps.contains k = true ∨
        ∃ m', Object.map m = .map m' ∧ m'.name = k := by
      refine he.all (fun k a ha => .inl ?_) (fun _ => .inr ⟨m, rfl, rfl⟩) fun f hf k a ha => ha
      exact SortedMap.contains_iff.mpr ⟨a, ha⟩
    obtain ⟨a, ha⟩ := SortedMap.contains_iff.mp h
    exact hall name a ha
  | mapElement e name' m elements hs hn hm href he =>
    exact .inl ((SortedMap.contains_modify _ _ _ _).symm.trans h)
  | _ => exact .inl h

/-- The maps of the table were in the ruleset before, or the object is one of them. -/
def TableState.MapsFrom (r : Ruleset) (o : Object) (key : TableKey) (t : TableState) : Prop :=
  ∀ name, t.maps.contains name = true →
    r.HasMap ⟨key.family, key.name, name⟩ ∨ ⟨key.family, key.name, name⟩ ∈ o.mapNames

theorem Ruleset.map_of_step {r r' : Ruleset} {op : Operation}
    (hs : r.step defines handle op = .ok r') {n : Command.MapName} (h : r'.HasMap n) :
    r.HasMap n ∨ n ∈ op.object.mapNames := by
  have hall : r'.tables.All fun key t => t.MapsFrom r op.object key := by
    have hold : r.tables.All fun key t => t.MapsFrom r op.object key :=
      fun key t ht name hname => .inl ⟨t, ht, hname⟩
    cases step_effect hs with
    | table t family tables ho hf he =>
      refine he.all hold (fun _ name hname => ?_) ?_
      · cases hname
      · rintro f (hf | hf) key t ht <;> cases hf
        exact fun name hname => ht name ((SortedMap.contains_map _ _ _).symm.trans hname)
    | inside key t t' hscope ht he =>
      refine SortedMap.all_modify hold fun _ _ name hname => ?_
      rcases he.map_of_contains hname with hname | ⟨m, hm, rfl⟩
      · exact .inl ⟨t, ht, hname⟩
      · refine .inr ?_
        rw [Object.mapNames_eq hscope, hm]
        exact List.mem_singleton_self _
  obtain ⟨t, ht, hname⟩ := h
  exact hall _ t ht _ hname

/-- An operation on an element of a map fails where there is no such map. -/
theorem Ruleset.not_astray_of_step {r r' : Ruleset} {op : Operation}
    {known more : List Command.MapName} (hmaps : ∀ n, r.HasMap n → n ∈ known)
    (hplaced : ¬ op.object.Astray known)
    (hs : r.step defines handle (Command.rerouteOp more op) = .ok r') :
    ¬ op.object.Astray more := by
  intro hastray
  obtain ⟨verb, o⟩ := op
  cases o with
  | element e =>
    obtain ⟨n, hn, hscope, hset⟩ := hastray
    have hop : Command.rerouteOp more ⟨verb, .element e⟩
        = ⟨verb, .element { e with set := none, map := e.set }⟩ :=
      congrArg (fun e => Operation.mk verb (.element e)) (if_pos ⟨n, hn, hscope, hset⟩)
    rw [hop] at hs
    refine hplaced ⟨n, hmaps n ?_, hscope, hset⟩
    cases step_effect hs with
    | table t family tables ho hf he => cases ho
    | inside key t t' hplace ht he =>
      have hkey : key = ⟨n.family, n.table⟩ := by
        have hsame := hplace.symm.trans hscope
        cases key
        cases hsame
        rfl
      subst hkey
      -- rerouted, the element has a map and no set; and that map is there
      cases he with
      | setElement e' name s elements hn hs' => cases hn
      | mapElement e' name m elements hs' hname hm =>
        cases hset.symm.trans hname
        exact ⟨t, ht, SortedMap.contains_iff.mpr ⟨m, hm⟩⟩
  | _ => exact hastray

theorem Ruleset.not_astray_of_apply {r : Ruleset} {known more : List Command.MapName}
    {ops : List Operation} {last : Nat} (hmaps : ∀ n, r.HasMap n → n ∈ known)
    (hrouted : Command.Routed known ops)
    (hok : (r.apply defines last (ops.map (Command.rerouteOp more))).result = .ok ()) :
    ∀ op ∈ ops, ¬ op.object.Astray more := by
  induction ops generalizing r known last with
  | nil => simp
  | cons op rest ih =>
    obtain ⟨hop, hrest⟩ := hrouted
    rw [List.map_cons, apply] at hok
    split at hok
    · cases hok
    · rename_i r' hs
      have hplaced := not_astray_of_step hmaps hop hs
      refine List.forall_mem_cons.mpr ⟨hplaced, ih (fun n hn => ?_) hrest hok⟩
      -- the operation was applied as it is
      have hstays : Command.rerouteOp more op = op := by
        rw [Command.rerouteOp, Object.reroute_of_not_astray hplaced]
      rw [hstays] at hs
      exact List.mem_append.mpr ((map_of_step hs hn).symm.imp id (hmaps n))

theorem Ruleset.map_of_apply {r : Ruleset} {ops : List Operation} {last : Nat}
    {n : Command.MapName} (h : (r.apply defines last ops).ruleset.HasMap n) :
    r.HasMap n ∨ ∃ op ∈ ops, n ∈ op.object.mapNames := by
  induction ops generalizing r last with
  | nil => exact .inl h
  | cons op rest ih =>
    rw [apply] at h
    split at h
    · exact .inl h
    · rename_i r' hs
      rcases ih h with h | ⟨op', hop', hn⟩
      · exact (map_of_step hs h).imp id fun hn => ⟨op, List.mem_cons_self, hn⟩
      · exact .inr ⟨op', .tail _ hop', hn⟩

end Maps

/-- What has been applied in one turn is where the next goes on. -/
theorem Ruleset.apply_append (defines : List Define) (r : Ruleset) (last : Nat)
    {ops ops' : List Operation} (hok : (r.apply defines last ops).result = .ok ()) :
    r.apply defines last (ops ++ ops') = (r.apply defines last ops).ruleset.apply defines
      (r.apply defines last ops).lastHandle ops' := by
  induction ops generalizing r last with
  | nil => rfl
  | cons op rest ih =>
    rw [apply] at hok
    rw [List.cons_append, apply, apply]
    split at hok
    · cases hok
    · exact ih _ _ hok

/-- Reading stops at the first line that is refused, or goes on with what the lines have left. -/
theorem Command.State.lines_append (s : State) (n : Nat) (l l' : List (List Char)) :
    s.lines n (l ++ l') = s.lines n l >>= fun s' => s'.lines (n + l.length) l' := by
  induction l generalizing s n with
  | nil => rfl
  | cons line rest ih =>
    rw [List.cons_append, lines, lines]
    cases s.line (trim line) with
    | error fault => rfl
    | ok t =>
      dsimp only
      rw [ih, List.length_cons, Nat.add_assoc, Nat.add_comm 1]

/-! ## Two turns and one -/

namespace Engine

theorem mem_knownMaps {e : Engine} {n : Command.MapName} :
    n ∈ e.knownMaps ↔ e.ruleset.HasMap n := by
  unfold knownMaps
  rw [List.mem_flatMap]
  constructor
  · rintro ⟨⟨key, t⟩, hentry, hn⟩
    obtain ⟨name, hname, rfl⟩ := List.mem_map.mp hn
    obtain ⟨⟨name', m⟩, hm, rfl⟩ := List.mem_map.mp hname
    exact ⟨t, SortedMap.mem_entries_iff.mp hentry,
      SortedMap.contains_iff.mpr ⟨m, SortedMap.mem_entries_iff.mp hm⟩⟩
  · rintro ⟨t, ht, hname⟩
    obtain ⟨m, hm⟩ := SortedMap.contains_iff.mp hname
    exact ⟨_, SortedMap.mem_entries_iff.mpr ht, List.mem_map.mpr
      ⟨n.name, List.mem_map.mpr ⟨_, SortedMap.mem_entries_iff.mpr hm, rfl⟩, rfl⟩⟩

/-- What a run that succeeds leaves behind. -/
structure Ran (e : Engine) (tx : Transaction) (e' : Engine) : Prop where
  refusal : tx.refusal = none
  result : (e.attempt tx).result = .ok ()
  ruleset : e'.ruleset = (e.attempt tx).ruleset
  lastHandle : e'.lastHandle = (e.attempt tx).lastHandle
  config : e'.config = e.config

theorem run_eq_ok {e e' : Engine} {tx : Transaction} (h : e.run tx = (e', .ok ())) :
    e.Ran tx e' := by
  obtain ⟨hrefusal, hresult⟩ := ok_of_run (congrArg Prod.snd h)
  rw [run_of_ok hrefusal hresult] at h
  cases h
  exact ⟨hrefusal, hresult, rfl, rfl, rfl⟩

theorem readTransaction_eq (e : Engine) (text : String) : e.readTransaction text =
    (Command.State.lines ⟨e.knownMaps, e.newTransaction⟩ 1 (lines text.toList)).map
      Command.State.transaction := rfl

/-- A text is replayed by reading its lines and running what they queue. -/
theorem replay_eq_ok {e e' : Engine} {text : String} : e.replay text = (e', .ok ()) ↔
    ∃ s, Command.State.lines ⟨e.knownMaps, e.newTransaction⟩ 1 (lines text.toList) = .ok s ∧
      e.run s.transaction = (e', .ok ()) := by
  rw [replay, readTransaction_eq]
  cases Command.State.lines ⟨e.knownMaps, e.newTransaction⟩ 1 (lines text.toList) with
  | error err =>
    dsimp only [Except.map]
    refine iff_of_false (by simp) ?_
    rintro ⟨s, hs, -⟩
    cases hs
  | ok s =>
    dsimp only [Except.map]
    constructor
    · exact fun h => ⟨s, rfl, h⟩
    · rintro ⟨s', hs', h⟩
      cases hs'
      exact h

/-- What replaying a text leaves behind, where a reader of more would go on. -/
structure FirstTurn (config : Config) (text : String) (e : Engine) (s : Command.State)
    (ops : List Operation) : Prop where
  reading : Command.State.lines ⟨[], .ofConfig config⟩ 1 (lines text.toList) = .ok s
  result : (Ruleset.apply config.effectiveDefines {} 0 ops).result = .ok ()
  ruleset : e.ruleset = (Ruleset.apply config.effectiveDefines {} 0 ops).ruleset
  lastHandle : e.lastHandle = (Ruleset.apply config.effectiveDefines {} 0 ops).lastHandle
  config : e.config = config
  /-- The reader of more is ahead of one that begins now. -/
  ahead : Command.Ahead (Command.mapsNamed text) ops ⟨e.knownMaps, e.newTransaction⟩ s

section Turns

variable {config : Config} {a b : String} {e e₁ : Engine} {s₁ s₂ s : Command.State}
  {ops₁ ops₂ : List Operation}

theorem firstTurn_of_replay (h : (ofConfig config).replay a = (e₁, .ok ())) :
    ∃ s ops, FirstTurn config a e₁ s ops := by
  obtain ⟨s, hlines, hrun⟩ := replay_eq_ok.mp h
  have hran := run_eq_ok hrun
  obtain ⟨ops, htx, -, -, hnames⟩ := Command.State.lines_queue_routed rfl hlines
  have hattempt : (ofConfig config).attempt s.transaction
      = Ruleset.apply config.effectiveDefines {} 0 ops := by
    rw [htx]
    rfl
  have hknown : ∀ n, n ∈ s.known ↔ n ∈ Command.mapsNamed a := fun n =>
    (Command.State.mem_known_lines hlines n).trans (or_iff_left List.not_mem_nil)
  -- the maps that are committed by then are among those that the text names
  have hcommitted : ∀ n ∈ e₁.knownMaps, n ∈ Command.mapsNamed a := by
    intro n hn
    rw [mem_knownMaps, hran.ruleset, hattempt] at hn
    rcases Ruleset.map_of_apply hn with ⟨t, ht, -⟩ | ⟨op, hop, hn⟩
    · cases ht
    · exact (hknown n).mp (hnames op hop n hn)
  have hnew : e₁.newTransaction = .ofConfig config := congrArg Transaction.ofConfig hran.config
  refine ⟨s, ops, hlines, hattempt ▸ hran.result, hattempt ▸ hran.ruleset,
    hattempt ▸ hran.lastHandle, hran.config, ?_⟩
  refine ⟨fun n => (hknown n).trans (or_iff_left_of_imp (hcommitted n)).symm, rfl, ?_⟩
  rw [htx, hnew]
  exact congrArg _ (List.append_nil _).symm

/-- The whole is replayed by reading and running on. -/
theorem FirstTurn.replay_append_iff (h : FirstTurn config a e₁ s₁ ops₁)
    (ha : a.toList.getLast? = some '\n') : (ofConfig config).replay (a ++ b) = (e, .ok ()) ↔
      ∃ s, s₁.lines (1 + (lines a.toList).length) (lines b.toList) = .ok s ∧
        (ofConfig config).run s.transaction = (e, .ok ()) := by
  rw [replay_eq_ok, String.toList_append, lines_append ha]
  have hlines : Command.State.lines ⟨(ofConfig config).knownMaps, (ofConfig config).newTransaction⟩
      1 (lines a.toList ++ lines b.toList)
        = s₁.lines (1 + (lines a.toList).length) (lines b.toList) :=
    (Command.State.lines_append _ _ _ _).trans (bind_of_ok h.reading)
  rw [hlines]

/-- The operations of the whole go on where the first part has ended. -/
theorem FirstTurn.attempt_eq (h : FirstTurn config a e₁ s₁ ops₁)
    (hs : Command.Ahead (Command.mapsNamed a) ops₁ s₂ s)
    (hops : s₂.transaction.operations = ops₂) : (ofConfig config).attempt s.transaction
      = e₁.ruleset.apply e₁.config.effectiveDefines e₁.lastHandle
          (ops₂.map (Command.rerouteOp (Command.mapsNamed a))) := by
  rw [attempt, hs.transaction, hops, h.config, h.ruleset, h.lastHandle]
  exact Ruleset.apply_append _ _ _ h.result

/-- Where no element goes astray, they are those of the second part. -/
theorem FirstTurn.attempt_eq_of_placed (h : FirstTurn config a e₁ s₁ ops₁)
    (hs : Command.Ahead (Command.mapsNamed a) ops₁ s₂ s)
    (hplaced : ∀ op ∈ s₂.transaction.operations, ¬ op.object.Astray (Command.mapsNamed a)) :
    (ofConfig config).attempt s.transaction = e₁.attempt s₂.transaction := by
  have hstays : s₂.transaction.operations.map (Command.rerouteOp (Command.mapsNamed a))
      = s₂.transaction.operations := by
    refine (List.map_congr_left fun op hop => ?_).trans (List.map_id _)
    rw [Command.rerouteOp, Object.reroute_of_not_astray (hplaced op hop)]
    rfl
  rw [h.attempt_eq hs rfl, hstays, attempt]

end Turns

/--
**A command file can be cut where no element goes astray.** If its two parts are replayed one after
the other, the whole of it is replayed to the same ruleset and handles, unless the second part has
an element of a set that has the name of a map in the first; then the whole fails.
-/
theorem replay_append (config : Config) {a b : String} (ha : a.toList.getLast? = some '\n')
    {e₁ e₂ : Engine} (h₁ : (ofConfig config).replay a = (e₁, .ok ()))
    (h₂ : e₁.replay b = (e₂, .ok ())) :
    ∃ tx, e₁.readTransaction b = .ok tx ∧
      ((∃ e, (ofConfig config).replay (a ++ b) = (e, .ok ())) ↔
        ∀ op ∈ tx.operations, ¬ op.object.Astray (Command.mapsNamed a)) ∧
      ∀ e, (ofConfig config).replay (a ++ b) = (e, .ok ()) →
        e.ruleset = e₂.ruleset ∧ e.lastHandle = e₂.lastHandle := by
  obtain ⟨s₁, ops₁, hfirst⟩ := firstTurn_of_replay h₁
  obtain ⟨s₂, hlines₂, hrun₂⟩ := replay_eq_ok.mp h₂
  have hran₂ := run_eq_ok hrun₂
  obtain ⟨ops₂, htx₂, hrouted, -⟩ := Command.State.lines_queue_routed rfl hlines₂
  have hops : s₂.transaction.operations = ops₂ := by
    rw [htx₂]
    rfl
  obtain ⟨hkeeps, hreads⟩ :=
    hfirst.ahead.lines (m := 1 + (lines a.toList).length) hlines₂
  have hwhole := fun e => hfirst.replay_append_iff (b := b) (e := e) ha
  have hplaced : ∀ e, (ofConfig config).replay (a ++ b) = (e, .ok ()) →
      ∀ op ∈ s₂.transaction.operations, ¬ op.object.Astray (Command.mapsNamed a) := by
    intro e he
    obtain ⟨s, hs, hrun⟩ := (hwhole e).mp he
    -- the run of the whole goes on from the first turn with what the reader ahead has queued
    have hok := (run_eq_ok hrun).result
    rw [hfirst.attempt_eq (hkeeps s hs) hops] at hok
    rw [hops]
    exact Ruleset.not_astray_of_apply (fun n hn => mem_knownMaps.mpr hn) hrouted hok
  refine ⟨s₂.transaction, by rw [readTransaction_eq, hlines₂]; rfl, ⟨?_, fun hall => ?_⟩, ?_⟩
  · rintro ⟨e, he⟩
    exact hplaced e he
  · obtain ⟨s, hs⟩ := hreads hall
    have hrefusal : s.transaction.refusal = none := by
      rw [(hkeeps s hs).transaction]
      exact hran₂.refusal
    have hok : ((ofConfig config).attempt s.transaction).result = .ok () := by
      rw [hfirst.attempt_eq_of_placed (hkeeps s hs) hall]
      exact hran₂.result
    exact ⟨_, (hwhole _).mpr ⟨s, hs, run_of_ok hrefusal hok⟩⟩
  · intro e he
    obtain ⟨s, hs, hrun⟩ := (hwhole e).mp he
    have hran := run_eq_ok hrun
    rw [hran.ruleset, hran.lastHandle, hran₂.ruleset, hran₂.lastHandle,
      hfirst.attempt_eq_of_placed (hkeeps s hs) (hplaced e he)]
    exact ⟨rfl, rfl⟩

theorem eq_of_snd {x : Engine × Except Error Unit} (h : x.2 = .ok ()) : x = (x.1, .ok ()) :=
  Prod.ext rfl h

/-- A table with a map and a set. -/
def containersText : String :=
  "add table ip t\nadd map ip t m \x7b type a : b ; \x7d\nadd set ip t s \x7b type a ; \x7d\n"

def containersEngine : Engine := ((ofConfig {}).replay containersText).1

/-- An element for each of them; that of the map goes again. -/
def contentsText : String :=
  "add element ip t s \x7b 1 \x7d\nadd element ip t m \x7b 2 : 3 \x7d\n" ++
    "delete element ip t m \x7b 2 \x7d\n"

theorem replay_append_containersText :
    ∃ e₂ e, (ofConfig {}).replay containersText = (containersEngine, .ok ()) ∧
      containersEngine.replay contentsText = (e₂, .ok ()) ∧
      (ofConfig {}).replay (containersText ++ contentsText) = (e, .ok ()) ∧
      e.ruleset = e₂.ruleset ∧ e.lastHandle = e₂.lastHandle := by
  obtain ⟨hfirst, hsecond, hplaced⟩ : ((ofConfig {}).replay containersText).2 = .ok () ∧
      (containersEngine.replay contentsText).2 = .ok () ∧
      (containersEngine.readTransaction contentsText).map (fun tx => decide (∀ op ∈ tx.operations,
        ¬ op.object.Astray (Command.mapsNamed containersText))) = .ok true := by
    decide +kernel
  have h₁ : (ofConfig {}).replay containersText = (containersEngine, .ok ()) := by
    unfold containersEngine
    exact eq_of_snd hfirst
  have h₂ := eq_of_snd hsecond
  obtain ⟨tx, htx, hiff, hsame⟩ := replay_append {} (by decide +kernel) h₁ h₂
  rw [htx] at hplaced
  obtain ⟨e, he⟩ := hiff.mpr (of_decide_eq_true (Except.ok.inj hplaced))
  exact ⟨_, e, h₁, h₂, he, hsame e he⟩

/-- A map that is deleted is still known, and the set of its name cannot be given an element. -/
theorem replay_reusedName :
    let a := "add table ip t\nadd map ip t m \x7b type a : b ; \x7d\n" ++
      "delete map ip t m\nadd set ip t m \x7b type a ; \x7d\n"
    let b := "add element ip t m \x7b 1 \x7d\n"
    let first := (ofConfig {}).replay a
    first.2 = .ok () ∧ (first.1.replay b).2 = .ok () ∧
      ((ofConfig {}).replay (a ++ b)).2 = .error (.parse 5 (.violation .valueMissing)) := by
  decide +kernel

end Engine

end Nftables
