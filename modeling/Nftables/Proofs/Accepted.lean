import Nftables.Proofs.History

/-!
# What an accepted transaction can run into

Objects are checked when they are queued, and the commands that are applied later take it for
granted that they were. An accepted operation has a meaning for its kind, and where it edits the
rules of a chain, its position is one of them; so it fails only for what the ruleset holds or lacks.

Two of the errors that applying an operation can give would be faults of the program: a verb without
a meaning for its kind, and a position that a chain does not have. Neither is shut out by a test
where it would arise. What shuts them out is the check of the object, made long before, and the
theorems here carry it there: from `validate` to what a shelf handles and to the handle of a rule
that is replaced, from there to one step (`Ruleset.step_ordinary`), and from one step to all of
them.

The other half is about what the check is made of. A transaction is built by pushing one request
after the other, and `Transaction.build_eq` says in one equation what that comes to: the requests in
front of the first refusal, expanded, and that refusal.
-/

namespace Nftables

/-! ## Results that are to be expected -/

/-- A computation that succeeds, or fails for what the ruleset holds or does not hold. -/
inductive Ordinary {α : Type} : Except Error α → Prop
  | ok (a : α) : Ordinary (.ok a)
  | notFound (missing : Missing) : Ordinary (.error (.notFound missing))
  | alreadyExists (clash : Clash) : Ordinary (.error (.alreadyExists clash))

namespace Ordinary

variable {α β : Type}

theorem bind {x : Except Error α} {f : α → Except Error β} (hx : Ordinary x)
    (hf : ∀ a, x = .ok a → Ordinary (f a)) : Ordinary (x >>= f) := by
  cases hx with
  | ok a => exact hf a rfl
  | notFound missing => exact .notFound missing
  | alreadyExists clash => exact .alreadyExists clash

theorem map {x : Except Error α} {f : α → β} (hx : Ordinary x) : Ordinary (x.map f) := by
  cases hx with
  | ok a => exact .ok _
  | notFound missing => exact .notFound missing
  | alreadyExists clash => exact .alreadyExists clash

/-- A check that is made under a condition, before the rest of a computation. -/
theorem check {p : Prop} [Decidable p] {x : Except Error Unit} {rest : Unit → Except Error β}
    (hx : Ordinary x) (h : Ordinary (rest ())) :
    Ordinary (if p then x >>= rest else rest ()) := by
  split
  · exact hx.bind fun _ _ => h
  · exact h

end Ordinary

theorem checkExistence_ordinary (verb : Verb) (present : Bool) (kind : Kind) (name : String) :
    Ordinary (checkExistence verb present kind name) := by
  -- of each verb and answer, one of the three constructors
  cases present <;> cases verb <;> constructor

theorem TableState.checkReferences_ordinary (t : TableState) (text : String) :
    Ordinary (t.checkReferences text) := by
  unfold checkReferences
  split
  · exact .notFound _
  · exact .ok _

/-! ## Named objects -/

namespace Shelf

variable {κ σ : Type} [Ord κ] [Std.TransOrd κ]

/-- The verbs that have a meaning for the objects of a shelf. -/
def Handles (s : Shelf κ σ) : Verb → Prop
  | .add | .create | .delete | .destroy => True
  | .flush => s.flush ≠ none
  | .reset => s.reset ≠ none
  | .insert | .replace => False

omit [Std.TransOrd κ] in
theorem resolve_ordinary (s : Shelf κ σ) (m : SortedMap κ σ) (among : κ → Bool) (verb : Verb)
    (key : κ) (handle : Option Nat) : Ordinary (s.resolve m among verb key handle) := by
  unfold resolve
  split
  · split
    · exact .ok _
    · exact .notFound _
  · exact .ok _

theorem act_ordinary {s : Shelf κ σ} {verb : Verb} (h : s.Handles verb) (m : SortedMap κ σ)
    (key : κ) (new : σ) : Ordinary (s.act m verb key new) := by
  cases verb with
  | add => exact .ok _
  | create => exact .ok _
  | delete => exact .ok _
  | destroy => exact .ok _
  | flush =>
    obtain ⟨f, hf⟩ := Option.ne_none_iff_exists'.mp h
    simp only [act, hf]
    exact .ok _
  | reset =>
    obtain ⟨f, hf⟩ := Option.ne_none_iff_exists'.mp h
    simp only [act, hf]
    exact .ok _
  -- no shelf handles the verbs that place rules
  | insert => exact h.elim
  | replace => exact h.elim

/-- **A verb that has a meaning fails only on what is there or not.** -/
theorem apply_ordinary {s : Shelf κ σ} {verb : Verb} (h : s.Handles verb) (m : SortedMap κ σ)
    (among : κ → Bool) (key : κ) (handle : Option Nat) (new : σ) :
    Ordinary (s.apply m among verb key handle new) :=
  -- finding the key, asking for it, and the act itself: each can fail only in the ordinary ways
  (s.resolve_ordinary m among verb key handle).bind fun _ _ =>
    (checkExistence_ordinary _ _ _ _).bind fun _ _ => act_ordinary h m _ new

end Shelf

/-! ## Rules -/

/-- The place that a rule command changes. -/
inductive RuleEdit
  | placeAt (i : Nat)
  | replaceAt (i : Nat)
  | removeAt (i : Nat)

namespace RuleEdit

/-- A rule is placed before one of the rules or behind the last, and another edit is of a rule. -/
def InRange (rules : List Rule) : RuleEdit → Prop
  | .placeAt i => i ≤ rules.length
  | .replaceAt i | .removeAt i => i < rules.length

/-- The rules after the edit, for a command on `r` that has drawn `handle`. -/
def perform (r : Rule) (handle : Nat) (rules : List Rule) : RuleEdit → List Rule
  | .placeAt i => rules.insertIdx i { r with index := none, handle := some handle }
  | .replaceAt i => rules.modify i fun old => { r with index := none, handle := old.handle }
  | .removeAt i => rules.eraseIdx i

end RuleEdit

namespace ChainState

variable {c : ChainState} {verb : Verb} {r : Rule}

/-- The place in the chain that a command is about. -/
def edit (c : ChainState) (verb : Verb) (r : Rule) : Except Error RuleEdit := do
  let position ← c.position? r
  match verb with
  | .add => pure (.placeAt ((position.map (· + 1)).getD c.rules.length))
  | .insert => pure (.placeAt (position.getD 0))
  | .replace => return .replaceAt (← requirePosition verb position)
  | .delete => return .removeAt (← requirePosition verb position)
  | _ => .error (unhandled verb .rule)

/-- A command on a rule finds its place, and changes the chain there. -/
theorem editRules_eq_edit (c : ChainState) (verb : Verb) (r : Rule) (handle : Nat) :
    (c.position? r >>= fun position => editRules c.rules verb r position handle)
      = (c.edit verb r).map fun edit => edit.perform r handle c.rules := by
  unfold edit
  -- a position that is not found is the error of both; else the verb decides
  cases c.position? r with
  | error e => rfl
  | ok position => cases verb <;> cases position <;> rfl

/-- **Whatever place a command finds, it is one of the chain's.** -/
theorem edit_inRange {edit : RuleEdit} (h : c.edit verb r = .ok edit) : edit.InRange c.rules := by
  obtain ⟨position, hp, h⟩ := bind_ok h
  have hlt : ∀ i, position = some i → i < c.rules.length := by
    rintro i rfl
    exact position?_lt hp
  -- replacing and deleting ask for a position, and then it is that of a rule
  have required : ∀ {i : Nat}, requirePosition verb position = .ok i → i < c.rules.length :=
    fun hi => hlt _ (eq_some_of_requirePosition hi)
  cases verb with
  | add =>
    cases h
    cases position with
    | none => exact Nat.le_refl _
    | some i => exact hlt i rfl
  | insert =>
    cases h
    cases position with
    | none => exact Nat.zero_le _
    | some i => exact Nat.le_of_lt (hlt i rfl)
  | replace =>
    obtain ⟨i, hi, h⟩ := bind_ok h
    cases h
    exact required hi
  | delete =>
    obtain ⟨i, hi, h⟩ := bind_ok h
    cases h
    exact required hi
  | create => cases h
  | destroy => cases h
  | flush => cases h
  | reset => cases h

theorem position?_ordinary (c : ChainState) (r : Rule) : Ordinary (c.position? r) := by
  unfold position?
  split
  · split
    · exact .ok _
    · exact .notFound _
  · split
    · exact .ok _
    · exact .notFound _
  · exact .ok _

/-- A rule that is named by its handle has a position, if it is there at all. -/
theorem position_of_handle {position : Option Nat} (hr : r.handle ≠ none)
    (h : c.position? r = .ok position) : position ≠ none := by
  obtain ⟨n, hn⟩ := Option.ne_none_iff_exists'.mp hr
  simp only [position?, hn] at h
  split at h
  · cases h
    exact Option.some_ne_none _
  · cases h

theorem requirePosition_ordinary {position : Option Nat} (h : position ≠ none) :
    Ordinary (requirePosition verb position) := by
  cases position with
  | none => exact absurd rfl h
  | some i => exact .ok i

/-- The check has made sure of the handle of a rule that is replaced or deleted. -/
theorem edit_ordinary (c : ChainState) (hv : r.validate verb = .ok ()) :
    Ordinary (c.edit verb r) := by
  unfold Rule.validate at hv
  rw [andThen_eq_ok, andThen_eq_ok] at hv
  -- what is left of the check is what the verb asks of the rule
  have hv := hv.2.2
  refine (c.position?_ordinary r).bind fun position hp => ?_
  cases verb with
  | add => exact .ok _
  | insert => exact .ok _
  | replace =>
    -- the handle was asked for, so there is a position
    rw [andThen_eq_ok, Rule.requireHandle, refuseIf_eq_ok] at hv
    exact (requirePosition_ordinary (position_of_handle hv.2 hp)).bind fun i _ => .ok _
  | delete =>
    rw [Rule.requireHandle, refuseIf_eq_ok] at hv
    exact (requirePosition_ordinary (position_of_handle hv hp)).bind fun i _ => .ok _
  | create => cases hv
  | destroy => cases hv
  | flush => cases hv
  | reset => cases hv

end ChainState

/-! ## Elements -/

namespace Elements

theorem apply_ordinary {verb : Verb} {e : Element} (hv : e.validate verb = .ok ())
    (elements : List Element) (d : Element) : Ordinary (apply elements verb d) := by
  unfold Element.validate at hv
  rw [andThen_eq_ok, andThen_eq_ok, andThen_eq_ok] at hv
  -- only the last of the checks looks at the verb
  have hv := hv.2.2.2
  refine (checkExistence_ordinary _ _ _ _).bind fun _ _ => ?_
  cases verb with
  | add => exact .ok _
  | create => exact .ok _
  | delete => exact .ok _
  | destroy => exact .ok _
  | insert => cases hv
  | replace => cases hv
  | flush => cases hv
  | reset => cases hv

end Elements

/-! ## Operations -/

section Handles

variable {verb : Verb}

theorem Table.handles_of_validate {t : Table} (h : t.validate verb = .ok ()) :
    tableShelf.Handles verb := by
  cases verb with
  | add | create | delete | destroy => trivial
  | flush => exact Option.some_ne_none _
  | insert | replace | reset => cases h

theorem Chain.handles_of_validate {c : Chain} (h : c.validate verb = .ok ()) :
    chainShelf.Handles verb := by
  unfold validate at h
  rw [andThen_eq_ok, andThen_eq_ok, andThen_eq_ok, andThen_eq_ok] at h
  have h := h.2.2.2.2
  cases verb with
  | add | create | delete | destroy => trivial
  | flush => exact Option.some_ne_none _
  | insert | replace | reset => cases h

/-- Sets and maps can be flushed. -/
theorem KeySpec.handles_of_validate {spec : KeySpec} {kind : Kind} {name : String}
    {handle : Option Nat} {σ : Type} {s : Shelf String σ} (hs : s.flush ≠ none)
    (h : spec.validate verb kind name handle = .ok ()) : s.Handles verb := by
  cases verb with
  | add | create | delete | destroy => trivial
  | flush => exact hs
  | insert | replace | reset => cases h

theorem Flowtable.handles_of_validate {f : Flowtable} (h : f.validate verb = .ok ()) :
    flowtableShelf.Handles verb := by
  unfold validate at h
  rw [andThen_eq_ok] at h
  have h := h.2
  cases verb with
  | add | create | delete | destroy => trivial
  | insert | replace | flush | reset => cases h

theorem Counter.handles_of_validate {c : Counter} (h : c.validate verb = .ok ()) :
    counterShelf.Handles verb := by
  cases verb with
  | add | create | delete | destroy => trivial
  | reset => exact Option.some_ne_none _
  | insert | replace | flush => cases h

end Handles

namespace TableState

variable {defines : List Define} {verb : Verb} {handle : Nat}

theorem applyRule_ordinary (t : TableState) {r : Rule} (hv : r.validate verb = .ok ()) :
    Ordinary (t.applyRule defines verb handle r) := by
  unfold applyRule
  split
  · exact .notFound _
  · rename_i c hc
    refine Ordinary.check (t.checkReferences_ordinary _) ?_
    rw [← bind_assoc, ChainState.editRules_eq_edit]
    -- the new body does not move the rule
    have hedit : c.edit verb { r with body := substituteIn defines r.body } = c.edit verb r := rfl
    rw [hedit]
    exact (c.edit_ordinary hv).map.bind fun rules _ => .ok _

theorem applyElement_ordinary (t : TableState) {e : Element} (hv : e.validate verb = .ok ()) :
    Ordinary (t.applyElement defines verb e) := by
  have hcontainer := Element.container_of_validate hv
  unfold applyElement
  refine Ordinary.check (t.checkReferences_ordinary _) ?_
  dsimp only
  split
  · split
    · exact .notFound _
    · exact (Elements.apply_ordinary hv _ _).bind fun _ _ => .ok _
  · split
    · exact .notFound _
    · exact (Elements.apply_ordinary hv _ _).bind fun _ _ => .ok _
  · rename_i hset hmap
    -- an element without a container has not been accepted
    have hset : e.set = none := hset
    have hmap : e.map = none := hmap
    rw [Element.container, hset, hmap] at hcontainer
    exact absurd rfl hcontainer

/-- **A verb that an object was accepted for has a meaning for its kind.** -/
theorem step_ordinary (t : TableState) {o : Object} (htable : o.kind ≠ .table)
    (hv : o.validateKind verb = .ok ()) : Ordinary (t.step defines verb handle o) := by
  cases o with
  | table x => exact absurd rfl htable
  | rule r => exact t.applyRule_ordinary hv
  | element e => exact t.applyElement_ordinary hv
  | chain c =>
    exact (Shelf.apply_ordinary (Chain.handles_of_validate hv) ..).bind fun _ _ => .ok _
  | set s =>
    have hflush : setShelf.flush ≠ none := Option.some_ne_none _
    exact (Shelf.apply_ordinary (KeySpec.handles_of_validate hflush hv) ..).bind fun _ _ => .ok _
  | map m =>
    have hflush : mapShelf.flush ≠ none := Option.some_ne_none _
    exact (Shelf.apply_ordinary (KeySpec.handles_of_validate hflush hv) ..).bind fun _ _ => .ok _
  | flowtable f =>
    exact (Shelf.apply_ordinary (Flowtable.handles_of_validate hv) ..).bind fun _ _ => .ok _
  | counter c =>
    exact (Shelf.apply_ordinary (Counter.handles_of_validate hv) ..).bind fun _ _ => .ok _

end TableState

/-- A table always says its family, and an object inside a table also the table's name. -/
theorem Object.scope_of_accepted {verb : Verb} {o : Object} (h : o.validate verb = .ok ()) :
    ∃ family, o.scope.family = some family ∧
      (o.kind ≠ .table → ∃ name, o.scope = ⟨some family, some name⟩) := by
  unfold validate at h
  rw [andThen_eq_ok] at h
  have hfull : Nftables.requireScope o.kind o.scope = .ok () → ∃ family,
      o.scope.family = some family ∧
        (o.kind ≠ .table → ∃ name, o.scope = ⟨some family, some name⟩) := by
    intro hs
    obtain ⟨family, name, hscope, -⟩ := requireScope_eq_ok.mp hs
    exact ⟨family, by rw [hscope], fun _ => ⟨name, hscope⟩⟩
  have hs := h.1
  unfold requireScope at hs
  split at hs
  · rename_i scope comment handle
    obtain ⟨family, hfamily⟩ := Option.ne_none_iff_exists'.mp (refuseIf_eq_ok.mp hs)
    exact ⟨family, hfamily, fun hkind => absurd rfl hkind⟩
  · exact hfull hs

namespace Ruleset

/-- **An accepted operation fails only on what the ruleset holds or lacks.** -/
theorem step_ordinary (r : Ruleset) (defines : List Define) (handle : Nat) {op : Operation}
    (hv : op.object.validate op.verb = .ok ()) : Ordinary (r.step defines handle op) := by
  obtain ⟨verb, o⟩ := op
  obtain ⟨family, hfamily, hscope⟩ := Object.scope_of_accepted hv
  have hkind := Object.validateKind_of_validate hv
  by_cases htable : o.kind = .table
  · cases o with
    | table t =>
      have hfamily : t.scope.family = some family := hfamily
      show Ordinary (r.applyTable verb handle t)
      unfold applyTable
      rw [hfamily]
      exact (Shelf.apply_ordinary (Table.handles_of_validate hkind) ..).bind fun _ _ => .ok _
    | _ => cases htable
  · obtain ⟨name, hscope⟩ := hscope htable
    rw [step_inside htable hscope]
    split
    · exact .notFound _
    · exact (TableState.step_ordinary _ htable hkind).bind fun _ _ => .ok _

theorem apply_ordinary (defines : List Define) {ops : List Operation}
    (hops : ∀ op ∈ ops, op.object.validate op.verb = .ok ()) (r : Ruleset) (last : Nat) :
    Ordinary (r.apply defines last ops).result := by
  induction ops generalizing r last with
  | nil => exact .ok ()
  | cons op rest ih =>
    obtain ⟨hop, hrest⟩ := List.forall_mem_cons.mp hops
    have hstep := r.step_ordinary defines (nextHandle last op) hop
    rw [apply]
    -- the first failure ends the run, and is the failure of a step
    generalize r.step defines (nextHandle last op) op = x at hstep ⊢
    cases hstep with
    | ok r' => exact ih hrest r' _
    | notFound missing => exact .notFound missing
    | alreadyExists clash => exact .alreadyExists clash

end Ruleset

/-! ## What requests become -/

namespace Operation

/-- Why a request is refused, once its object is completed; if it is. -/
def refusal? (defaults : Scope) (request : Operation) : Option Violation :=
  match (request.object.applyDefaults defaults).validate request.verb with
  | .error v => some v
  | .ok () => none

/-- What is queued for a request that is not refused. -/
def queued (settings : Config) (request : Operation) : List Operation :=
  Transaction.expand settings.emulateDestroy request.verb
    (request.object.applyDefaults settings.scope)

end Operation

namespace Transaction

/-- The requests in front of the first that is refused. -/
def accepted (defaults : Scope) (requests : List Operation) : List Operation :=
  requests.takeWhile fun request => (request.refusal? defaults).isNone

theorem foldl_push_of_refused {tx : Transaction} (h : tx.refusal ≠ none)
    (requests : List Operation) :
    requests.foldl (fun tx request => tx.push request.verb request.object) tx = tx := by
  obtain ⟨v, hv⟩ := Option.ne_none_iff_exists'.mp h
  induction requests with
  | nil => rfl
  | cons request rest ih =>
    have hpush : tx.push request.verb request.object = tx := by
      unfold push
      rw [hv]
    rw [List.foldl_cons, hpush]
    exact ih

/-- **A transaction is made of the requests in front of the first refusal, and that refusal.** -/
theorem build_eq (settings : Config) (requests : List Operation) :
    build settings requests = { ofConfig settings with
      operations := (accepted settings.scope requests).flatMap (Operation.queued settings)
      refusal := requests.findSome? (Operation.refusal? settings.scope) } := by
  -- with operations that are queued already, which is what the next push meets
  have key : ∀ ops : List Operation,
      requests.foldl (fun tx request => tx.push request.verb request.object)
          { ofConfig settings with operations := ops }
        = { ofConfig settings with
            operations :=
              ops ++ (accepted settings.scope requests).flatMap (Operation.queued settings)
            refusal := requests.findSome? (Operation.refusal? settings.scope) } := by
    induction requests with
    | nil =>
      intro ops
      rw [accepted, List.takeWhile_nil, List.flatMap_nil, List.append_nil]
      rfl
    | cons request rest ih =>
      intro ops
      rw [List.foldl_cons, accepted, List.takeWhile_cons, List.findSome?_cons]
      cases hv : (request.object.applyDefaults settings.scope).validate request.verb with
      | error v =>
        have hrefusal : request.refusal? settings.scope = some v := by
          rw [Operation.refusal?, hv]
        have hpush : push { ofConfig settings with operations := ops } request.verb request.object
            = { ofConfig settings with operations := ops, refusal := some v } := by
          simp only [push, ofConfig, hv]
        rw [hpush, hrefusal, foldl_push_of_refused (Option.some_ne_none v)]
        simp
      | ok u =>
        have hrefusal : request.refusal? settings.scope = none := by
          rw [Operation.refusal?, hv]
        have hpush : push { ofConfig settings with operations := ops } request.verb request.object
            = { ofConfig settings with operations := ops ++ request.queued settings } := by
          simp only [push, ofConfig, hv, Operation.queued]
        rw [hpush, hrefusal, ih]
        simp [accepted]
  exact key []

/-- What callers can rely on when they have built a transaction. -/
structure Sound (settings : Config) (requests : List Operation) (tx : Transaction) : Prop where
  operations : tx.operations
    = (accepted settings.scope requests).flatMap (Operation.queued settings)
  refusal : tx.refusal = requests.findSome? (Operation.refusal? settings.scope)
  /-- Requests behind a refusal change nothing. -/
  settled : tx.refusal ≠ none → ∀ more, build settings (requests ++ more) = tx
  /-- Every queued operation has been checked for its own verb. -/
  checked : tx.Checked
  /-- Whatever the operations are applied to, they fail only on what it holds or lacks. -/
  ordinary : ∀ (r : Ruleset) (defines : List Define) (last : Nat),
    Ordinary (r.apply defines last tx.operations).result
  /-- A command on a rule changes a chain where it has a rule, or behind its last one. -/
  edits : ∀ op ∈ tx.operations, ∀ rule, op.object = .rule rule → ∀ c : ChainState,
    Ordinary (c.edit op.verb rule) ∧
    (∀ edit, c.edit op.verb rule = .ok edit → edit.InRange c.rules) ∧
    ∀ body handle, let r := { rule with body }
      (c.position? r >>= fun position => ChainState.editRules c.rules op.verb r position handle)
        = (c.edit op.verb rule).map fun edit => edit.perform r handle c.rules

/--
**What has been accepted cannot fail in a way that a check should have caught.** That is so for all
settings and requests, and whatever ruleset, defines and last handle the transaction meets.
-/
theorem build_sound (settings : Config) (requests : List Operation) :
    (build settings requests).Sound settings requests where
  operations := by rw [build_eq]
  refusal := by rw [build_eq]
  settled h more := by
    rw [build, List.foldl_append]
    exact foldl_push_of_refused h more
  checked := checked_build settings requests
  ordinary r defines last := r.apply_ordinary defines (checked_build settings requests) last
  edits op hop rule hrule c := by
    have hv := Object.validateKind_of_validate (checked_build settings requests op hop)
    rw [hrule] at hv
    exact ⟨c.edit_ordinary hv, fun _ => ChainState.edit_inRange,
      fun body handle => c.editRules_eq_edit op.verb { rule with body } handle⟩

end Transaction

end Nftables
