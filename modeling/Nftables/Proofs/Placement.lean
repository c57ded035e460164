import Nftables.Proofs.Accepted
import Nftables.Proofs.Dangling

/-!
# Where rules stand

A rule command refers to a rule of its chain by handle or by index, or to none. `Rule.Edits` says
what each verb makes of the chain, cut at the rule that is referred to; a command does exactly that,
or it is refused and nothing changes. No edit moves the rules that stay, and no chain that is made
anew holds a rule of an old one, so rules keep their order through every history.

The edits are written with the chain cut in two, `before ++ old :: after`, and not with positions:
what a user means by a rule is the rule, and the place comes out of it. The commands do compute a
position, from the handle or from the index. `position?_of_refersTo` says that it is the length of
what is before the rule; for a handle this needs that no rule before it has the same one. From there
the operations on lists are the edits, by `insertIdx_split` and `modify_split`.

Order is a relation between two handles and not between two rules (`ChainState.Before`), since the
rule under a handle may be replaced. A property that is kept step by step has to allow for chains
that go and come back, so `KeepsOrder` says that the handles up to some bound are a sublist of what
they were: it holds of a chain that has none of them, and a chain that is made anew holds higher
numbers only. `before_iff` gets the relation back from it, in both directions, as all handles
differ.
-/

namespace Nftables

namespace Rule

/-! ## What a rule command says -/

/-- The command's rule refers to `old`, which stands behind the rules `before`. -/
inductive RefersTo (x : Rule) (before : List Rule) (old : Rule) : Prop
  | byHandle (n : Nat) (hx : x.handle = some n) (hold : old.handle = some n)
  | byIndex (hx : x.handle = none) (hi : x.index = some before.length)

/-- The command's rule refers to none. -/
structure Unplaced (x : Rule) : Prop where
  handle : x.handle = none
  index : x.index = none

/-- The command's rule refers to one that the chain does not have. -/
structure Dangles (x : Rule) (rules : List Rule) : Prop where
  placed : ¬ x.Unplaced
  nowhere : ∀ before old after, rules = before ++ old :: after → ¬ x.RefersTo before old

/-- The command's rule, placed at the one with this handle. -/
def atHandle (n : Nat) (x : Rule) : Rule := { x with handle := some n, index := none }

/-- The command's rule, placed at the one with this index. -/
def atIndex (i : Nat) (x : Rule) : Rule := { x with handle := none, index := some i }

/-- The rule as it is stored under a handle. -/
def stored (defines : List Define) (handle : Option Nat) (x : Rule) : Rule :=
  { x with body := substituteIn defines x.body, index := none, handle }

/-- What a command on the rule `x`, with `handle` for a new rule, makes of the rules of a chain. -/
inductive Edits (defines : List Define) (handle : Nat) (x : Rule) :
    Verb → List Rule → List Rule → Prop
  | addLast (rules : List Rule) (hx : x.Unplaced) :
    Edits defines handle x .add rules (rules ++ [x.stored defines (some handle)])
  | addBehind (before : List Rule) (old : Rule) (after : List Rule) (hx : x.RefersTo before old) :
    Edits defines handle x .add (before ++ old :: after)
      (before ++ old :: x.stored defines (some handle) :: after)
  | insertFirst (rules : List Rule) (hx : x.Unplaced) :
    Edits defines handle x .insert rules (x.stored defines (some handle) :: rules)
  | insertBefore (before : List Rule) (old : Rule) (after : List Rule)
    (hx : x.RefersTo before old) :
    Edits defines handle x .insert (before ++ old :: after)
      (before ++ x.stored defines (some handle) :: old :: after)
  /-- The new rule takes over the handle of the one it stands for. -/
  | replace (before : List Rule) (old : Rule) (after : List Rule) (hx : x.RefersTo before old) :
    Edits defines handle x .replace (before ++ old :: after)
      (before ++ x.stored defines old.handle :: after)
  | delete (before : List Rule) (old : Rule) (after : List Rule) (hx : x.RefersTo before old) :
    Edits defines handle x .delete (before ++ old :: after) (before ++ after)

/-- What the command would write refers only to what is in the table. -/
def Resolves (defines : List Define) (t : TableState) (verb : Verb) (x : Rule) : Prop :=
  verb.writesRule = true → t.checkReferences (substituteIn defines x.body) = .ok ()

variable {verb : Verb} {x : Rule}

/-- An accepted rule command places a rule, or it names the rule that it is about. -/
theorem verb_of_validate (h : x.validate verb = .ok ()) :
    (verb = .add ∨ verb = .insert) ∨ ((verb = .replace ∨ verb = .delete) ∧ x.handle ≠ none) := by
  unfold validate at h
  rw [andThen_eq_ok, andThen_eq_ok] at h
  have h := h.2.2
  cases verb with
  | add => exact .inl (.inl rfl)
  | insert => exact .inl (.inr rfl)
  | replace =>
    rw [andThen_eq_ok, requireHandle, refuseIf_eq_ok] at h
    exact .inr ⟨.inl rfl, h.2⟩
  | delete =>
    rw [requireHandle, refuseIf_eq_ok] at h
    exact .inr ⟨.inr rfl, h⟩
  | create => cases h
  | destroy => cases h
  | flush => cases h
  | reset => cases h

/-- An accepted rule command has an edit to make, unless it refers to a rule that is not there. -/
theorem edits_or_dangles (defines : List Define) (handle : Nat) (h : x.validate verb = .ok ())
    (rules : List Rule) :
    (∃ rules', x.Edits defines handle verb rules rules') ∨ x.Dangles rules := by
  -- a verb that names a rule has an edit wherever that rule stands; without a rule, `add` and
  -- `insert` have one
  by_cases hthere : ∃ before old after, rules = before ++ old :: after ∧ x.RefersTo before old
  · obtain ⟨before, old, after, rfl, hx⟩ := hthere
    left
    rcases verb_of_validate h with (rfl | rfl) | ⟨rfl | rfl, -⟩
    · exact ⟨_, .addBehind before old after hx⟩
    · exact ⟨_, .insertBefore before old after hx⟩
    · exact ⟨_, .replace before old after hx⟩
    · exact ⟨_, .delete before old after hx⟩
  · by_cases hnone : x.Unplaced
    · left
      rcases verb_of_validate h with (rfl | rfl) | ⟨-, hhandle⟩
      · exact ⟨_, .addLast rules hnone⟩
      · exact ⟨_, .insertFirst rules hnone⟩
      · exact absurd hnone.handle hhandle
    · exact .inr ⟨hnone, fun before old after hrules hx =>
        hthere ⟨before, old, after, hrules, hx⟩⟩

end Rule

/-! ## The place that is found -/

theorem insertIdx_split {α : Type} (before after : List α) (a : α) :
    (before ++ after).insertIdx before.length a = before ++ a :: after := by
  induction before with
  | nil => simp
  | cons b before ih => simp [ih]

theorem modify_split {α : Type} (before after : List α) (a : α) (f : α → α) :
    (before ++ a :: after).modify before.length f = before ++ f a :: after := by
  induction before with
  | nil => simp
  | cons b before ih => simp [ih]

namespace ChainState

variable {c : ChainState} {x : Rule} {before after : List Rule} {old : Rule}

/-- A handle is held by one rule at most, so the first that is found is the one that is meant. -/
theorem position?_of_refersTo (hn : (c.rules.map Rule.handle).Nodup)
    (hc : c.rules = before ++ old :: after) (h : x.RefersTo before old) :
    c.position? x = .ok (some before.length) := by
  unfold position?
  cases h with
  | byHandle n hx hold =>
    have hbefore : before.findIdx? (·.handle = some n) = none := by
      refine List.findIdx?_eq_none_iff.mpr fun d hd => ?_
      rw [hc, List.map_append] at hn
      have hne := (List.nodup_append.mp hn).2.2 d.handle (List.mem_map_of_mem hd) old.handle
        List.mem_cons_self
      rw [hold] at hne
      exact decide_eq_false hne
    have hfind : c.rules.findIdx? (·.handle = some n) = some before.length := by
      rw [hc, List.findIdx?_append, hbefore, List.findIdx?_cons]
      simp [hold]
    simp only [hx, hfind]
  | byIndex hx hi =>
    have hlt : before.length < c.rules.length := by simp [hc]
    simp only [hx, hi, if_pos hlt]

theorem position?_of_unplaced (h : x.Unplaced) : c.position? x = .ok none := by
  unfold position?
  rw [h.handle, h.index]

theorem position?_of_dangles (h : x.Dangles c.rules) :
    ∃ missing, c.position? x = .error (.notFound missing) := by
  -- were a place found, the chain could be cut there
  have hcut : ∀ {i : Nat} (hi : i < c.rules.length), ¬ x.RefersTo (c.rules.take i) c.rules[i] := by
    intro i hi
    refine h.nowhere _ _ (c.rules.drop (i + 1)) ?_
    rw [← List.drop_eq_getElem_cons hi, List.take_append_drop]
  unfold position?
  cases hx : x.handle with
  | some n =>
    cases hfind : c.rules.findIdx? (·.handle = some n) with
    | none => exact ⟨_, by simp only [hfind]; rfl⟩
    | some i =>
      obtain ⟨hi, hp, -⟩ := List.findIdx?_eq_some_iff_getElem.mp hfind
      exact absurd (.byHandle n hx (of_decide_eq_true hp)) (hcut hi)
  | none =>
    cases hindex : x.index with
    | none => exact absurd ⟨hx, hindex⟩ h.placed
    | some i =>
      by_cases hi : i < c.rules.length
      · refine absurd (.byIndex hx ?_) (hcut hi)
        rw [hindex, List.length_take, Nat.min_eq_left (Nat.le_of_lt hi)]
      · exact ⟨_, if_neg hi⟩

/-- **What a command makes of the rules is its edit.** -/
theorem editRules_of_edits {defines : List Define} {handle : Nat} {verb : Verb}
    {rules rules' : List Rule} (hn : (c.rules.map Rule.handle).Nodup) (hc : c.rules = rules)
    (h : x.Edits defines handle verb rules rules') :
    (c.position? x >>= fun position =>
      editRules c.rules verb { x with body := substituteIn defines x.body } position handle)
        = .ok rules' := by
  cases h with
  | addLast _ hx =>
    rw [bind_of_ok (position?_of_unplaced hx), hc]
    exact congrArg Except.ok List.insertIdx_length_self
  | addBehind before old after hx =>
    rw [bind_of_ok (position?_of_refersTo hn hc hx), hc]
    -- behind the rule, so one farther than its own place
    have hplace := insertIdx_split (before ++ [old]) after (x.stored defines (some handle))
    rw [List.length_append, List.append_assoc, List.append_assoc] at hplace
    exact congrArg Except.ok hplace
  | insertFirst _ hx =>
    rw [bind_of_ok (position?_of_unplaced hx), hc]
    exact congrArg Except.ok List.insertIdx_zero
  | insertBefore before old after hx =>
    rw [bind_of_ok (position?_of_refersTo hn hc hx), hc]
    exact congrArg Except.ok (insertIdx_split before (old :: after) _)
  | replace before old after hx =>
    rw [bind_of_ok (position?_of_refersTo hn hc hx), hc]
    exact congrArg Except.ok (modify_split before after old _)
  | delete before old after hx =>
    rw [bind_of_ok (position?_of_refersTo hn hc hx), hc]
    have herase : (before ++ old :: after).eraseIdx before.length = before ++ after := by
      rw [List.eraseIdx_append_of_length_le (Nat.le_refl _), Nat.sub_self, List.eraseIdx_cons_zero]
    exact congrArg Except.ok herase

/-- The index of a rule addresses it as well as its handle does. -/
theorem position?_index (hn : (c.rules.map Rule.handle).Nodup)
    (hc : c.rules = before ++ old :: after) {n : Nat} (hold : old.handle = some n) (x : Rule) :
    c.position? (x.atHandle n) = c.position? (x.atIndex before.length) :=
  (position?_of_refersTo hn hc (.byHandle n rfl hold)).trans
    (position?_of_refersTo hn hc (.byIndex rfl rfl)).symm

end ChainState

/-! ## Rule commands on a ruleset -/

namespace TableState

variable {defines : List Define} {verb : Verb} {handle : Nat} {t : TableState} {c : ChainState}
  {x : Rule}

theorem applyRule_of_edits (hc : t.chains.get? x.chain = some c)
    (hn : (c.rules.map Rule.handle).Nodup) (hres : x.Resolves defines t verb) {rules : List Rule}
    (h : x.Edits defines handle verb c.rules rules) :
    t.applyRule defines verb handle x
      = .ok { t with chains := t.chains.modify x.chain fun c => { c with rules } } := by
  unfold applyRule
  rw [hc]
  refine (check_of_ok hres).trans ?_
  rw [← bind_assoc]
  exact bind_of_ok (ChainState.editRules_of_edits hn rfl h)

/-- A text refers to what is in the table, or something that it refers to is reported missing. -/
theorem checkReferences_or (t : TableState) (text : String) :
    t.checkReferences text = .ok () ∨
      ∃ missing, t.checkReferences text = .error (.notFound missing) := by
  unfold checkReferences
  split
  · exact .inr ⟨_, rfl⟩
  · exact .inl rfl

theorem applyRule_of_unresolved (hc : t.chains.get? x.chain = some c)
    (hres : ¬ x.Resolves defines t verb) :
    ∃ missing, t.applyRule defines verb handle x = .error (.notFound missing) := by
  obtain ⟨hw, hne⟩ := Classical.not_imp.mp hres
  obtain ⟨missing, hmissing⟩ := (t.checkReferences_or _).resolve_left hne
  refine ⟨missing, ?_⟩
  unfold applyRule
  rw [hc]
  exact (if_pos hw).trans (bind_of_error hmissing)

theorem applyRule_of_dangles (hc : t.chains.get? x.chain = some c)
    (hres : x.Resolves defines t verb) (h : x.Dangles c.rules) :
    ∃ missing, t.applyRule defines verb handle x = .error (.notFound missing) := by
  obtain ⟨missing, hmissing⟩ := ChainState.position?_of_dangles h
  refine ⟨missing, ?_⟩
  unfold applyRule
  rw [hc]
  exact (check_of_ok hres).trans (bind_of_error hmissing)

/-- A command does not see how its rule is addressed, only which rule is found. -/
theorem applyRule_address (hc : t.chains.get? x.chain = some c) {n i : Nat}
    (h : c.position? (x.atHandle n) = c.position? (x.atIndex i)) :
    t.applyRule defines verb handle (x.atHandle n)
      = t.applyRule defines verb handle (x.atIndex i) := by
  have hedit : ∀ position, ChainState.editRules c.rules verb
        { x.atHandle n with body := substituteIn defines x.body } position handle
      = ChainState.editRules c.rules verb
        { x.atIndex i with body := substituteIn defines x.body } position handle := by
    intro position
    cases verb <;> rfl
  have hposition : c.position? { x.atHandle n with body := substituteIn defines x.body }
      = c.position? { x.atIndex i with body := substituteIn defines x.body } := h
  unfold applyRule
  simp only [Rule.atHandle, Rule.atIndex] at hc hedit hposition ⊢
  simp only [hc, hposition, hedit]

end TableState

namespace Ruleset

/-- The ruleset with other rules in one chain. -/
def withRules (r : Ruleset) (key : TableKey) (chain : String) (rules : List Rule) : Ruleset where
  tables := r.tables.modify key fun t =>
    { t with chains := t.chains.modify chain fun c => { c with rules } }

theorem apply_singleton (defines : List Define) (r : Ruleset) (last : Nat) (op : Operation) :
    r.apply defines last [op] = (match r.step defines (nextHandle last op) op with
      | .ok r' => ⟨r', nextHandle last op, .ok ()⟩
      | .error e => ⟨r, nextHandle last op, .error e⟩) := by
  rw [apply]
  cases r.step defines (nextHandle last op) op <;> rfl

/-- What a rule command does to a chain of the ruleset, for all that can be the matter with it. -/
structure RulePlaced (defines : List Define) (r : Ruleset) (last : Nat) (key : TableKey)
    (t : TableState) (c : ChainState) (verb : Verb) (x : Rule) : Prop where
  /-- An edit of the chain is made, unless the text that is written refers to what is not there. -/
  edited : ∀ rules, x.Resolves defines t verb →
    x.Edits defines (nextHandle last ⟨verb, .rule x⟩) verb c.rules rules →
    r.apply defines last [⟨verb, .rule x⟩]
      = ⟨r.withRules key x.chain rules, nextHandle last ⟨verb, .rule x⟩, .ok ()⟩
  /-- What is referred to and is not there is reported, and nothing changes. -/
  refused : ¬ x.Resolves defines t verb ∨ x.Dangles c.rules → ∃ missing,
    r.apply defines last [⟨verb, .rule x⟩]
      = ⟨r, nextHandle last ⟨verb, .rule x⟩, .error (.notFound missing)⟩
  /-- There is an edit to make, or the rule that is referred to is not there. -/
  either : (∃ rules, x.Edits defines (nextHandle last ⟨verb, .rule x⟩) verb c.rules rules) ∨
    x.Dangles c.rules
  /-- A rule can be addressed by its handle and by its index alike. -/
  addressed : ∀ before old after n, c.rules = before ++ old :: after → old.handle = some n →
    r.apply defines last [⟨verb, .rule (x.atHandle n)⟩]
      = r.apply defines last [⟨verb, .rule (x.atIndex before.length)⟩]

variable {defines : List Define} {r : Ruleset} {last : Nat} {key : TableKey} {t : TableState}
  {c : ChainState} {verb : Verb} {x : Rule}

theorem step_rule (ht : r.tables.get? key = some t) (hx : x.scope = key.scope) (handle : Nat) :
    r.step defines handle ⟨verb, .rule x⟩ = (t.applyRule defines verb handle x).map fun t =>
      { r with tables := r.tables.modify key fun _ => t } := by
  have hscope : (Object.rule x).scope = ⟨some key.family, some key.name⟩ := hx
  rw [step_inside Kind.noConfusion hscope, ht]
  show (t.applyRule defines verb handle x >>= _) = _
  cases t.applyRule defines verb handle x <;> rfl

theorem rulePlaced (ht : r.tables.get? key = some t) (hc : t.chains.get? x.chain = some c)
    (hn : (c.rules.map Rule.handle).Nodup) (hx : x.scope = key.scope)
    (hv : x.validate verb = .ok ()) : RulePlaced defines r last key t c verb x where
  edited rules hres hedit := by
    have hstep := TableState.applyRule_of_edits hc hn hres hedit
    rw [apply_singleton, step_rule ht hx, hstep]
    refine congrArg (Outcome.mk · _ _) (congrArg Ruleset.mk (SortedMap.modify_congr ?_))
    intro t' ht'
    cases ht.symm.trans ht'
    rfl
  refused := by
    intro h
    have hstep : ∃ missing, t.applyRule defines verb (nextHandle last ⟨verb, .rule x⟩) x
        = .error (.notFound missing) := by
      -- the text is checked before the place is looked for
      by_cases hres : x.Resolves defines t verb
      · exact TableState.applyRule_of_dangles hc hres (h.resolve_left (not_not_intro hres))
      · exact TableState.applyRule_of_unresolved hc hres
    obtain ⟨missing, hmissing⟩ := hstep
    refine ⟨missing, ?_⟩
    rw [apply_singleton, step_rule ht hx, hmissing]
    rfl
  either := Rule.edits_or_dangles defines _ hv c.rules
  addressed before old after n hrules hold := by
    have hposition := ChainState.position?_index hn hrules hold x
    have hstep : ∀ handle, r.step defines handle ⟨verb, .rule (x.atHandle n)⟩
        = r.step defines handle ⟨verb, .rule (x.atIndex before.length)⟩ := by
      intro handle
      rw [step_rule (x := x.atHandle n) ht hx, step_rule (x := x.atIndex before.length) ht hx,
        TableState.applyRule_address hc hposition]
    rw [apply_singleton, apply_singleton, hstep]
    rfl

end Ruleset

/-! ## The order of rules -/

namespace ChainState

/-- The handles of the rules, in the order of the rules. -/
def handles (c : ChainState) : List Nat := c.rules.filterMap Rule.handle

/-- The rule with handle `a` stands in front of the one with handle `b`. -/
def Before (c : ChainState) (a b : Nat) : Prop := [a, b].Sublist c.handles

/-- An edit leaves the rules that stay in order. Only a number that was drawn for it is new. -/
theorem RulesEffect.handles_sublist {rules rules' : List Rule} {verb : Verb} {x : Rule}
    {handle bound : Nat} (he : RulesEffect rules verb x handle rules')
    (hnew : verb.allocates = true → bound < handle) :
    ((rules'.filterMap Rule.handle).filter (· ≤ bound)).Sublist
      ((rules.filterMap Rule.handle).filter (· ≤ bound)) := by
  cases he with
  | place i hv hi =>
    have hlt : bound < handle := hnew (by rcases hv with rfl | rfl <;> rfl)
    -- the new number lies above the bound and is filtered out
    obtain ⟨before, after, rfl, rfl⟩ : ∃ before after, rules = before ++ after ∧
        i = before.length :=
      ⟨rules.take i, rules.drop i, (List.take_append_drop i rules).symm, by simp [hi]⟩
    rw [insertIdx_split]
    simp [List.filterMap_append, hlt]
  | replace i hv hi hold =>
    -- the handle stays where it is
    have hcut : rules = rules.take i ++ rules[i] :: rules.drop (i + 1) := by
      rw [← List.drop_eq_getElem_cons hi, List.take_append_drop]
    rw [List.modify_eq_take_cons_drop hi]
    conv => rhs; rw [hcut]
    rw [List.filterMap_append, List.filterMap_append, List.filterMap_cons, List.filterMap_cons]
  | remove i hv hi =>
    exact ((List.eraseIdx_sublist rules i).filterMap _).filter _

end ChainState

namespace Ruleset

/--
Of the rules that stood in a chain in this order, those with numbers up to `bound` still do, as far
as they are there.
-/
structure KeepsOrder (key : TableKey) (chain : String) (bound : Nat) (old : List Nat) (r : Ruleset)
    (last : Nat) : Prop where
  reached : bound ≤ last
  order : r.tables.All fun k t => t.chains.All fun name c => k = key → name = chain →
    (c.handles.filter (· ≤ bound)).Sublist old

/-- A chain that was taken out and comes back is empty, and what it is given is numbered anew. -/
theorem keepsOrder_preserved (key : TableKey) (chain : String) (bound : Nat) (old : List Nat)
    (defines : List Define) : Preserved defines (KeepsOrder key chain bound old) where
  rise h := ⟨Nat.le_succ_of_le h.reached, h.order⟩
  step := by
    intro r r' last op h _ hs
    have hnew : op.verb.allocates = true → bound < nextHandle last op := by
      intro halloc
      rw [nextHandle, if_pos halloc]
      exact Nat.lt_succ_of_le h.reached
    -- a chain that has lost its rules has none that could be out of order
    have hflush : ∀ c : ChainState, (c.flush.handles.filter (· ≤ bound)).Sublist old :=
      fun c => List.nil_sublist old
    refine ⟨Nat.le_trans h.reached (le_nextHandle last op), ?_⟩
    cases step_effect hs with
    | table t family tables ho hf he =>
      refine he.all h.order (fun _ name c hc => ?_) ?_
      · -- a new table has no chains
        cases hc
      · rintro f (hf | hf) k t ht <;> cases hf
        exact SortedMap.all_map ht fun _ c _ _ _ => hflush c
    | inside k t t' hscope ht he =>
      refine SortedMap.all_modify h.order fun _ _ => ?_
      have hchains := h.order k t ht
      generalize op.object = o at he
      cases he with
      | chain c chains he =>
        refine he.all hchains (fun _ _ _ => List.nil_sublist old) ?_
        rintro f (hf | hf) name c _ _ _ <;> cases hf
        exact hflush c
      | rule x c rules hc href he =>
        refine SortedMap.all_modify hchains fun d hd hk hname => ?_
        exact (he.handles_sublist hnew).trans (hchains x.chain c hc hk hname)
      | set => exact hchains
      | map => exact hchains
      | setElement => exact hchains
      | mapElement => exact hchains
      | flowtable => exact hchains
      | counter => exact hchains

/-- The numbers of the rules of a chain differ, and all of them have been given out. -/
theorem Numbered.ruleHandles {r : Ruleset} {last : Nat} (h : r.Numbered last) {key : TableKey}
    {t : TableState} {chain : String} {c : ChainState} (ht : r.tables.get? key = some t)
    (hc : t.chains.get? chain = some c) : c.handles.Nodup ∧ ∀ a ∈ c.handles, a ≤ last := by
  constructor
  · have hnodup : (List.filterMap id (c.rules.map Rule.handle)).Nodup :=
      (h.rules ht chain c hc).filterMap fun _ _ _ hb hb' => hb.trans hb'.symm
    rwa [List.filterMap_map] at hnodup
  · intro a ha
    obtain ⟨x, hx, hxa⟩ := List.mem_filterMap.mp ha
    have hmem : (⟨.rule, key, chain⟩, some a) ∈ t.chains.collect (TableState.ruleHandles key) :=
      SortedMap.mem_collect.mpr ⟨chain, c, hc, List.mem_map.mpr ⟨x, hx, by rw [hxa]⟩⟩
    have hheld : (⟨.rule, key, chain⟩, some a) ∈ r.handles :=
      SortedMap.mem_collect.mpr ⟨key, t, ht, .tail _ (List.mem_append_right _ hmem)⟩
    obtain ⟨n, hn, -, hle⟩ := h.given _ hheld
    cases hn
    exact hle

end Ruleset

/-- Of two members of a list, one stands in front of the other. -/
theorem sublist_pair_or {α : Type} {l : List α} {a b : α} (ha : a ∈ l) (hb : b ∈ l) (hne : a ≠ b) :
    [a, b].Sublist l ∨ [b, a].Sublist l := by
  obtain ⟨l₁, l₂, rfl⟩ := List.append_of_mem ha
  rcases List.mem_append.mp hb with hb | hb
  · have hfront : [b].Sublist l₁ := List.singleton_sublist.mpr hb
    exact .inr (hfront.append (List.singleton_sublist.mpr List.mem_cons_self))
  · have hbehind : [b].Sublist l₂ :=
      List.singleton_sublist.mpr ((List.mem_cons.mp hb).resolve_left (Ne.symm hne))
    exact .inl (List.sublist_append_of_sublist_right (hbehind.cons_cons a))

/-- Where all members differ, none stands on both sides of another. -/
theorem not_sublist_pair {α : Type} {l : List α} {a b : α} (hn : l.Nodup)
    (h : [a, b].Sublist l) : ¬ [b, a].Sublist l := by
  intro h'
  induction l with
  | nil => cases h
  | cons x l ih =>
    obtain ⟨hx, hl⟩ := List.nodup_cons.mp hn
    cases h with
    | cons _ h =>
      cases h' with
      | cons _ h' => exact ih hl h h'
      | cons_cons _ h' => exact hx (h.subset (.tail _ List.mem_cons_self))
    | cons_cons _ h =>
      cases h' with
      | cons _ h' => exact hx (h'.subset (.tail _ List.mem_cons_self))
      | cons_cons _ h' => exact hx (h.subset List.mem_cons_self)

/-- Rules that stand in two chains have the same order in both, if one keeps that of the other. -/
theorem ChainState.before_iff {c c' : ChainState} {bound : Nat} (hn : c.handles.Nodup)
    (hbound : ∀ a ∈ c.handles, a ≤ bound)
    (hsub : (c'.handles.filter (· ≤ bound)).Sublist c.handles) {a b : Nat} (ha : a ∈ c.handles)
    (hb : b ∈ c.handles) (ha' : a ∈ c'.handles) (hb' : b ∈ c'.handles) :
    c.Before a b ↔ c'.Before a b := by
  have hback : ∀ {a b : Nat}, a ∈ c.handles → b ∈ c.handles → [a, b].Sublist c'.handles →
      [a, b].Sublist c.handles := by
    intro a b ha hb h
    have hfilter := h.filter (· ≤ bound)
    rw [List.filter_eq_self.mpr (by simp [hbound a ha, hbound b hb])] at hfilter
    exact hfilter.trans hsub
  -- in the later chain one of the two orders holds; it is this one, as the other would hold before
  -- too
  refine ⟨fun h => ?_, hback ha hb⟩
  have hne : a ≠ b := by
    rintro rfl
    exact not_sublist_pair hn h h
  exact (sublist_pair_or ha' hb' hne).resolve_right fun h' =>
    not_sublist_pair hn h (hback hb ha h')

namespace Engine

theorem keepsOrder_after (e : Engine) (calls : List Call) {key : TableKey} {chain : String}
    {t : TableState} {c : ChainState} (ht : e.ruleset.tables.get? key = some t)
    (hc : t.chains.get? chain = some c) :
    Ruleset.KeepsOrder key chain e.lastHandle c.handles (e.after calls).ruleset
      (e.after calls).lastHandle := by
  refine preserved_after (Ruleset.keepsOrder_preserved key chain _ _ _) calls ⟨Nat.le_refl _, ?_⟩
  intro k t₁ ht₁ name c₁ hc₁ hk hname
  subst hk
  subst hname
  cases ht.symm.trans ht₁
  cases hc.symm.trans hc₁
  exact List.filter_sublist

/--
**Rules stand where commands put them, and keep their order.** On every ruleset that is reached,
an accepted rule command makes its edit of the chain, or it is refused for what is missing and
nothing changes. Whatever calls follow, two rules that are still in their chain stand in the order
in which they stood.
-/
theorem rules_placed (config : Config) :
    (∀ (r : Ruleset) (last : Nat) (key : TableKey) (t : TableState) (c : ChainState) (verb : Verb)
      (x : Rule), Reached config r last → r.tables.get? key = some t →
      t.chains.get? x.chain = some c → x.scope = key.scope →
      (Object.rule x).validate verb = .ok () →
      Ruleset.RulePlaced config.effectiveDefines r last key t c verb x) ∧
    ∀ (calls more : List Call) (key : TableKey) (chain : String) (t t' : TableState)
      (c c' : ChainState), ((ofConfig config).after calls).ruleset.tables.get? key = some t →
      t.chains.get? chain = some c →
      ((ofConfig config).after (calls ++ more)).ruleset.tables.get? key = some t' →
      t'.chains.get? chain = some c' →
      ∀ a b, a ∈ c.handles → b ∈ c.handles → a ∈ c'.handles → b ∈ c'.handles →
        (c.Before a b ↔ c'.Before a b) := by
  constructor
  · intro r last key t c verb x hr ht hc hx hv
    have hnumbered : r.Numbered last :=
      hr.preserved (Ruleset.numbered_preserved _) Ruleset.numbered_empty
    exact Ruleset.rulePlaced ht hc (hnumbered.rules ht x.chain c hc) hx
      (Object.validateKind_of_validate hv)
  · intro calls more key chain t t' c c' ht hc ht' hc' a b ha hb ha' hb'
    obtain ⟨hn, hbound⟩ := (numbered_after config calls).ruleHandles ht hc
    rw [after_append] at ht'
    have horder := (keepsOrder_after _ more ht hc).order key t' ht' chain c' hc' rfl rfl
    exact ChainState.before_iff hn hbound horder ha hb ha' hb'

/-- A chain with three rules. -/
def rulesHistory (settings : Config) : List Call :=
  [.run settings
    [⟨.add, .table {}⟩, ⟨.add, .chain { name := "in" }⟩,
      ⟨.add, .rule { chain := "in", body := "accept" }⟩,
      ⟨.add, .rule { chain := "in", body := "drop" }⟩,
      ⟨.insert, .rule { chain := "in", body := "log", index := some 1 }⟩]]

/-- The rule in the middle goes, and a new one comes to the front. -/
def tidying (settings : Config) : List Call :=
  [.run settings
    [⟨.delete, .rule { chain := "in", handle := some 5 }⟩,
      ⟨.replace, .rule { chain := "in", body := "reject", handle := some 4 }⟩,
      ⟨.insert, .rule { chain := "in", body := "jump in" }⟩]]

theorem rules_placed_tidying :
    let settings : Config := { family := some .ip, table := some "t" }
    let key : TableKey := ⟨.ip, "t"⟩
    let x : Rule := { scope := key.scope, chain := "in", body := "jump in", handle := some 5 }
    let e := (ofConfig settings).after (rulesHistory settings)
    let e' := (ofConfig settings).after (rulesHistory settings ++ tidying settings)
    ∃ t c t' c', (e.ruleset.tables.get? key = some t ∧ t.chains.get? "in" = some c) ∧
      (e'.ruleset.tables.get? key = some t' ∧ t'.chains.get? "in" = some c') ∧
      (c.handles = [3, 5, 4] ∧ c'.handles = [6, 3, 4]) ∧
      Ruleset.RulePlaced settings.effectiveDefines e.ruleset e.lastHandle key t c .insert x ∧
      (c.Before 3 4 ↔ c'.Before 3 4) := by
  intro settings key x e e'
  have hx : (Object.rule x).validate .insert = .ok () := by decide +kernel
  have hlook : ∀ (r : Ruleset) (l : List Nat),
      ((r.tables.get? key).bind fun t => t.chains.get? "in").map ChainState.handles = some l →
      ∃ t c, r.tables.get? key = some t ∧ t.chains.get? "in" = some c ∧ c.handles = l := by
    intro r l h
    obtain ⟨c, hc, hl⟩ := Option.map_eq_some_iff.mp h
    obtain ⟨t, ht, hc⟩ := Option.bind_eq_some_iff.mp hc
    exact ⟨t, c, ht, hc, hl⟩
  obtain ⟨t, c, ht, hc, hl⟩ := hlook e.ruleset [3, 5, 4] (by decide +kernel)
  obtain ⟨t', c', ht', hc', hl'⟩ := hlook e'.ruleset [6, 3, 4] (by decide +kernel)
  have hreached : Reached settings e.ruleset e.lastHandle := .committed (rulesHistory settings)
  obtain ⟨hplaced, horder⟩ := rules_placed settings
  have horder := horder (rulesHistory settings) (tidying settings) key "in" t t' c c'
  have he : (ofConfig settings).after (rulesHistory settings) = e := rfl
  have he' : (ofConfig settings).after (rulesHistory settings ++ tidying settings) = e' := rfl
  rw [he, he'] at horder
  exact ⟨t, c, t', c', ⟨ht, hc⟩, ⟨ht', hc'⟩, ⟨hl, hl'⟩,
    hplaced e.ruleset e.lastHandle key t c .insert x hreached ht hc rfl hx,
    horder ht hc ht' hc' 3 4 (by simp [hl]) (by simp [hl]) (by simp [hl']) (by simp [hl'])⟩

end Engine

end Nftables
