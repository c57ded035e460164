import Nftables.Proofs.CommandText

/-!
# The text of a transaction that destroys

An object that is destroyed is checked like one that is added, and its line has no more than its
name. So the line of a set or map does not say enough to be accepted again, nor does that of an
element in a known map. All others are read as objects of the same name, which is all that
destroying them looks at.

What a line is read as is the *outline* of the object, and two questions are asked of it. Is it fit
to be destroyed? `Object.validateKind_outline` answers that exactly: if and only if the name
suffices. Does destroying it come to the same? For everything but an element of a map it does
(`Ruleset.step_outline`); such an element is told apart by its value, which its line does not have.

The first question is settled line by line, and since no line of this kind declares a map, the known
maps stay those of the engine from the first line to the last (`State.lines_destroy`). That is what
allows an equivalence for the whole text, and not only an implication.
-/

namespace Nftables

open Text Clause

/-! ## What the line says -/

/-- To be destroyed, a set or map has to give a key type. -/
theorem KeySpec.not_validate_destroy {kind : Kind} {name : String} {handle : Option Nat} :
    ¬ ({} : KeySpec).validate .destroy kind name handle = .ok () := by
  intro h
  unfold validate at h
  rw [andThen_eq_ok, andThen_eq_ok, refuseIf_eq_ok] at h
  exact h.2.1 rfl

/-- The element's container has the name of a known map of its table. -/
def Element.InKnown (known : List Command.MapName) (e : Element) : Prop :=
  ∃ n ∈ known, e.scope = ⟨some n.family, some n.table⟩ ∧ e.container = n.name

instance (known : List Command.MapName) (e : Element) : Decidable (e.InKnown known) :=
  inferInstanceAs (Decidable (∃ _ ∈ _, _))

namespace Object

/-- The object as a line without its body is read. -/
def outline (known : List Command.MapName) : Object → Object
  | .table t => .table { scope := t.scope }
  | .element e => .element (.ofKey (decide (e.InKnown known)) e.scope e.container e.key none)
  | o => o.bare

/-- To be destroyed, the object need not say more than its line does. -/
def NameSuffices (known : List Command.MapName) : Object → Prop
  | .set _ | .map _ => False
  | .element e => ¬ e.InKnown known
  | _ => True

instance (known : List Command.MapName) : (o : Object) → Decidable (o.NameSuffices known)
  | .element e => inferInstanceAs (Decidable ¬ e.InKnown known)
  | .set _ | .map _ => inferInstanceAs (Decidable False)
  | .table _ | .chain _ | .rule _ | .flowtable _ | .counter _ => inferInstanceAs (Decidable True)

/-- The object is an element of a map. -/
def InMap : Object → Prop
  | .element e => e.map ≠ none
  | _ => False

instance : (o : Object) → Decidable o.InMap
  | .element e => inferInstanceAs (Decidable (e.map ≠ none))
  | .table _ | .chain _ | .rule _ | .set _ | .map _ | .flowtable _ | .counter _ =>
    inferInstanceAs (Decidable False)

variable {known : List Command.MapName} {o : Object} {name : String}

theorem outline_named (hname : o.name? = some name) : o.outline known = o.bare := by
  cases o with
  | table t => cases hname
  | element e => cases hname
  | _ => rfl

@[simp] theorem scope_outline (o : Object) : (o.outline known).scope = o.scope := by
  cases o with
  | element e => exact Element.scope_ofKey
  | _ => rfl

@[simp] theorem kind_outline (o : Object) : (o.outline known).kind = o.kind := by
  cases o <;> rfl

/-- No rule is destroyed, and of all else only tables and elements have no name of their own. -/
theorem named_of_destroy (h : o.validateKind .destroy = .ok ()) :
    o.kind = .table ∨ o.kind = .element ∨ ∃ name, o.name? = some name := by
  cases o with
  | table t => exact .inl rfl
  | element e => exact .inr (.inl rfl)
  | rule r =>
    simp only [validateKind, Rule.validate, andThen_eq_ok] at h
    cases h.2.2
  | _ => exact .inr (.inr ⟨_, rfl⟩)

/-- **What is read from the line is fit to be destroyed** exactly if the name suffices for that. -/
theorem validateKind_outline (h : o.validateKind .destroy = .ok ()) :
    (o.outline known).validateKind .destroy = .ok () ↔ o.NameSuffices known := by
  -- all named objects but sets and maps are destroyed by their name alone
  have hbare : ∀ name, o.name? = some name → o.kind ≠ .set ∧ o.kind ≠ .map →
      (o.outline known).validateKind .destroy = .ok () := by
    intro name hname hkind
    rw [outline_named hname]
    exact validateKind_bare hname rfl (fun _ => hkind) h
  cases o with
  | table t => exact iff_of_true rfl trivial
  | rule r =>
    simp only [validateKind, Rule.validate, andThen_eq_ok] at h
    cases h.2.2
  | set s => exact iff_of_false KeySpec.not_validate_destroy id
  | map m => exact iff_of_false KeySpec.not_validate_destroy id
  | element e =>
    -- the line has no value, which only an element of a map wants
    have h : e.validate .destroy = .ok () := h
    have hcontainer := Element.container_of_validate h
    have hkey := (Element.shape_of_validate h).2
    simp only [validateKind, outline, Element.validate, andThen_eq_ok, refuseIf_eq_ok,
      Element.container_ofKey, Element.key_ofKey, Element.value_ofKey, NameSuffices]
    by_cases hknown : e.InKnown known <;> simp [Element.ofKey, hknown, hcontainer, hkey]
  | chain c => exact iff_of_true (hbare _ rfl (by simp [kind])) trivial
  | flowtable f => exact iff_of_true (hbare _ rfl (by simp [kind])) trivial
  | counter c => exact iff_of_true (hbare _ rfl (by simp [kind])) trivial

end Object

/-- The operation as its line is read. -/
def Operation.outline (known : List Command.MapName) (op : Operation) : Operation :=
  ⟨op.verb, op.object.outline known⟩

/-! ## Reading the lines -/

section Lines

variable {known : List Command.MapName} {key : TableKey} {o : Object} {op : Operation}

theorem Element.inKnown_iff {e : Element} (hscope : e.scope = key.scope) :
    e.InKnown known ↔ ⟨key.family, key.name, e.container⟩ ∈ known := by
  constructor
  · rintro ⟨⟨family, table, name⟩, hmem, hplace, rfl⟩
    rw [hscope] at hplace
    cases hplace
    exact hmem
  · exact fun hmem => ⟨_, hmem, hscope, rfl⟩

/-- The line of a plain object that is destroyed is read as the outline of it. -/
theorem readsBack_outline (known : List Command.MapName) (hscope : o.scope = key.scope)
    (hkey : PlainName key.name) (hv : o.validateKind .destroy = .ok ())
    (hp : Operation.Plain ⟨.destroy, o⟩) :
    ∃ tail rest, ReadsBack known key .destroy o (o.outline known) tail rest := by
  have hhandle : o.handle = none := (Object.validateKind_of_destroy hv).1
  -- a table, an element, or an object with a name of its own
  rcases Object.named_of_destroy hv with hkind | hkind | ⟨name, hname⟩
  · cases o with
    | table t =>
      exact readsBack_table known hscope hhandle hscope rfl rfl hkey (by simp [PlainComment])
    | _ => cases hkind
  · cases o with
    | element e =>
      obtain ⟨hcontainer, hparts, -⟩ := hp.text
      have hv : e.validate .destroy = .ok () := hv
      have hne := (Element.shape_of_validate hv).2
      have hbodiless : Verb.destroy.writesBody = false := rfl
      have hread := readsBack_bareElement known hbodiless hscope hcontainer hne hparts
      rw [← decide_eq_decide.mpr (Element.inKnown_iff hscope), ← hscope] at hread
      exact hread
    | _ => cases hkind
  · rw [Object.outline_named hname]
    have haddressed := Object.addressed_of_validate hname hv
    refine readsBack_bare known hname hscope rfl haddressed (fun _ => ?_) hp.handle
    exact hp.name.resolve_left (by simp [Operation.ByHandle]) name hname

theorem declares_outline (h : o.NameSuffices known) : key.declares (o.outline known) = [] := by
  cases o with
  | map m => exact h.elim
  | _ => rfl

/-- An accepted operation that destroys, with plain texts. -/
structure Operation.Destroys (op : Operation) : Prop where
  verb : op.verb = .destroy
  fit : op.object.validate .destroy = .ok ()
  plain : op.Plain

theorem Operation.Destroys.reading (h : op.Destroys) (known : List Command.MapName) :
    ∃ key tail rest, op.object.scope = TableKey.scope key ∧ PlainName key.name ∧
      ReadsBack known key .destroy op.object (op.object.outline known) tail rest := by
  obtain ⟨verb, o⟩ := op
  obtain ⟨rfl, hfit, hplain⟩ := h
  obtain ⟨family, name, hscope, -⟩ := Object.scope_of_validate (by decide) hfit
  have hkey : PlainName name :=
    hplain.table.resolve_left (by simp [Operation.ByHandle]) name (by rw [hscope]; rfl)
  have hscope : o.scope = (TableKey.mk family name).scope := hscope
  obtain ⟨tail, rest, hreading⟩ := readsBack_outline known hscope hkey
    (Object.validateKind_of_validate hfit) hplain
  exact ⟨⟨family, name⟩, tail, rest, hscope, hkey, hreading⟩

theorem Operation.Destroys.lineOf (h : op.Destroys) : Command.LineOf op.command op.line := by
  -- the text of the line does not depend on the maps that are known
  obtain ⟨key, tail, rest, -, hkey, hreading⟩ := h.reading []
  have hline := hreading.lineOf hkey.1
  rw [← h.verb] at hline
  rw [Operation.line, Operation.command, hline.dropLast_eq]
  exact hline

end Lines

namespace Command

variable {s s' : State}

/-- **The line of a `destroy` is read if the name suffices**, and then it queues the outline. -/
theorem State.line_destroy {op : Operation} (h : op.Destroys)
    (hrefusal : s.transaction.refusal = none) (hnative : s.transaction.emulateDestroy = false) :
    s.line op.line = .ok s' ↔ op.object.NameSuffices s.known ∧
      s' = ⟨s.known, s.transaction.queue [op.outline s.known]⟩ := by
  obtain ⟨key, tail, rest, hscope, hkey, hreading⟩ := h.reading s.known
  have hfit := Object.validateKind_of_validate h.fit
  have hscope' : (op.object.outline s.known).scope = key.scope :=
    (Object.scope_outline op.object).trans hscope
  have hdefaults := Object.applyDefaults_eq hscope' s.transaction.defaults
  have hline : op.line = commandLine .destroy op.object.kind key tail := by
    rw [Operation.line, Operation.command, h.verb, (hreading.lineOf hkey.1).dropLast_eq]
  rw [hline]
  by_cases hsuffices : op.object.NameSuffices s.known
  · have hvalid := Object.validate_of_scope hscope' (fun hempty => hkey.1.1 (by rw [hempty]; rfl))
      ((Object.validateKind_outline hfit).mpr hsuffices)
    rw [← hdefaults] at hvalid
    rw [State.line_readsBack hreading hkey.1 (fun _ => hnative) hvalid hrefusal, hdefaults,
      declares_outline hsuffices, Operation.outline, h.verb]
    exact ⟨fun hs => ⟨hsuffices, (Except.ok.inj hs).symm⟩, fun hs => congrArg Except.ok hs.2.symm⟩
  · -- what was read is refused
    have hunfit : (op.object.outline s.known).validate .destroy ≠ .ok () := fun hvalid =>
      hsuffices ((Object.validateKind_outline hfit).mp (Object.validateKind_of_validate hvalid))
    rw [← hdefaults] at hunfit
    cases hv : ((op.object.outline s.known).applyDefaults s.transaction.defaults).validate
        .destroy with
    | ok u => exact absurd hv hunfit
    | error v =>
      rw [State.line_refused hreading hkey.1 hv hrefusal]
      exact iff_of_false (by simp) fun hs => hsuffices hs.1

/-- **Lines that destroy are read if the names suffice**; they teach the reader no map. -/
theorem State.lines_destroy {ops : List Operation} (h : ∀ op ∈ ops, op.Destroys) (n : Nat)
    (hrefusal : s.transaction.refusal = none) (hnative : s.transaction.emulateDestroy = false) :
    s.lines n (ops.map Operation.line) = .ok s' ↔
      (∀ op ∈ ops, op.object.NameSuffices s.known) ∧
        s' = ⟨s.known, s.transaction.queue (ops.map (Operation.outline s.known))⟩ := by
  induction ops generalizing s n with
  | nil =>
    have hempty : s.transaction.queue [] = s.transaction := by simp [Transaction.queue]
    rw [List.map_nil, List.map_nil, State.lines, hempty]
    exact ⟨fun hs => ⟨by simp, (Except.ok.inj hs).symm⟩, fun hs => congrArg Except.ok hs.2.symm⟩
  | cons op rest ih =>
    obtain ⟨hop, hrest⟩ := List.forall_mem_cons.mp h
    rw [List.map_cons, List.map_cons, State.lines, trim_eq_self hop.lineOf.trimmed,
      List.forall_mem_cons]
    have hline : ∀ t, s.line op.line = .ok t ↔ _ := fun t =>
      State.line_destroy hop hrefusal hnative
    cases hread : s.line op.line with
    | error fault =>
      -- had its name sufficed, the line would have been read
      have hnot : ¬ op.object.NameSuffices s.known := fun hsuffices => by
        have hok := (hline _).mpr ⟨hsuffices, rfl⟩
        rw [hread] at hok
        cases hok
      exact iff_of_false (by simp) fun hs => hnot hs.1.1
    | ok t =>
      obtain ⟨hsuffices, rfl⟩ := (hline t).mp hread
      have hqueue := Transaction.queue_queue s.transaction [op.outline s.known]
        (rest.map (Operation.outline s.known))
      rw [List.singleton_append] at hqueue
      dsimp only
      rw [ih (s := ⟨s.known, s.transaction.queue [op.outline s.known]⟩) hrest _ hrefusal hnative,
        hqueue, and_assoc]
      exact (and_iff_right hsuffices).symm

end Command

/-! ## Applying what was read -/

section Steps

variable {known : List Command.MapName} {defines : List Define} {o : Object}

/-- **Inside a table, destroying the outline is destroying the object.** -/
theorem TableState.step_outline (t : TableState) (h : Nat) (hv : o.validateKind .destroy = .ok ())
    (hsuffices : o.NameSuffices known) (hset : ¬ o.InMap) :
    t.step defines .destroy h (o.outline known) = t.step defines .destroy h o := by
  have hhandle : o.handle = none := (Object.validateKind_of_destroy hv).1
  cases o with
  | table _ => rfl
  | rule _ => rfl
  | set _ => exact hsuffices.elim
  | map _ => exact hsuffices.elim
  | chain c =>
    obtain ⟨_, _, _, _, _, _, _, _⟩ := c
    cases hhandle
    rfl
  | flowtable f =>
    obtain ⟨_, _, _, _, _⟩ := f
    cases hhandle
    rfl
  | counter c =>
    obtain ⟨_, _, _, _, _, _⟩ := c
    cases hhandle
    rfl
  | element e =>
    -- it is one of a set, so it has no value whose references would be checked
    have hadd : e.validate .add = .ok () := (Object.validateKind_of_destroy hv).2.1
    obtain ⟨scope, set, map, key, value, comment⟩ := e
    obtain rfl : map = none := Decidable.not_not.mp hset
    cases set with
    | none => exact absurd rfl (Element.container_of_validate hadd)
    | some name =>
      obtain rfl : value = [] := (Element.value_of_validate (.inl rfl) hadd).2 (by simp)
      rw [Object.outline, decide_eq_false hsuffices]
      rfl

theorem Ruleset.step_outline (r : Ruleset) (h : Nat) (hv : o.validate .destroy = .ok ())
    (hsuffices : o.NameSuffices known) (hset : ¬ o.InMap) :
    r.step defines h ⟨.destroy, o.outline known⟩ = r.step defines h ⟨.destroy, o⟩ := by
  obtain ⟨family, name, hscope, -⟩ := Object.scope_of_validate (by decide) hv
  have hfit := Object.validateKind_of_validate hv
  by_cases htable : o.kind = .table
  · cases o with
    | table t =>
      obtain ⟨scope, comment, handle⟩ := t
      obtain rfl : handle = none := (Object.validateKind_of_destroy hfit).1
      obtain rfl : scope = _ := hscope
      rfl
    | _ => cases htable
  · have htable' : (o.outline known).kind ≠ .table := by rwa [Object.kind_outline]
    rw [step_inside htable' ((Object.scope_outline o).trans hscope), step_inside htable hscope]
    cases r.tables.get? ⟨family, name⟩ with
    | none => rfl
    | some t =>
      dsimp only
      rw [t.step_outline h hfit hsuffices hset]

end Steps

/-! ## The text of a transaction -/

namespace Engine

open Transaction (build)

/-- What is queued for requests to destroy something, where that is not emulated. -/
theorem destroys_of_mem_build {settings : Config} {requests : List Operation}
    (hnative : settings.emulateDestroy = false)
    (hverbs : ∀ request ∈ requests, request.verb = .destroy)
    (hplain : ∀ op ∈ (build settings requests).operations, op.Plain) {op : Operation}
    (hop : op ∈ (build settings requests).operations) : op.Destroys := by
  obtain ⟨request, hrequest, hsame⟩ := Transaction.verb_of_mem_build (fun _ _ _ => hnative) hop
  have hverb : op.verb = .destroy := hsame.trans (hverbs request hrequest)
  refine ⟨hverb, ?_, hplain op hop⟩
  rw [← hverb]
  exact Transaction.checked_build settings requests op hop

section Outline

variable {e : Engine} {tx : Transaction}

/-- Lines that destroy are read as one transaction if the names in all of them suffice. -/
theorem readTransaction_destroys (hengine : e.config.emulateDestroy = false)
    (h : ∀ op ∈ tx.operations, op.Destroys) {tx' : Transaction} :
    e.readTransaction tx.text = .ok tx' ↔
      (∀ op ∈ tx.operations, op.object.NameSuffices e.knownMaps) ∧
        tx' = e.newTransaction.queue (tx.operations.map (Operation.outline e.knownMaps)) := by
  have hcut := Command.LineOf.lines_join fun op hop => (h op hop).lineOf
  have hlines : ∀ s', Command.State.lines ⟨e.knownMaps, .ofConfig e.config⟩ 1
      (tx.operations.map Operation.line) = .ok s' ↔ _ :=
    fun s' => Command.State.lines_destroy h 1 rfl hengine
  rw [readTransaction, Command.readCommands, Transaction.text, hcut]
  cases hread : Command.State.lines ⟨e.knownMaps, .ofConfig e.config⟩ 1
      (tx.operations.map Operation.line) with
  | error err =>
    refine iff_of_false (by simp [Except.map]) fun hs => ?_
    have hok := (hlines _).mpr ⟨hs.1, rfl⟩
    rw [hread] at hok
    cases hok
  | ok s' =>
    obtain ⟨hsuffices, rfl⟩ := (hlines s').mp hread
    rw [and_iff_right hsuffices]
    exact ⟨fun hs => (Except.ok.inj hs).symm, fun hs => congrArg Except.ok hs.symm⟩

/-- To run the outlines is to run the transaction, if no element is one of a map. -/
theorem run_outline (hrefusal : tx.refusal = none) (h : ∀ op ∈ tx.operations, op.Destroys)
    (hsuffices : ∀ op ∈ tx.operations, op.object.NameSuffices e.knownMaps)
    (hsets : ∀ op ∈ tx.operations, ¬ op.object.InMap) :
    let tx' := e.newTransaction.queue (tx.operations.map (Operation.outline e.knownMaps))
    (e.run tx').2 = (e.run tx).2 ∧ (e.run tx').1.ruleset = (e.run tx).1.ruleset := by
  intro tx'
  -- operation by operation, the outline does what the object does
  have hattempt : e.attempt tx' = e.attempt tx := by
    refine Ruleset.apply_map (f := Operation.outline e.knownMaps) (fun _ _ => rfl)
      (fun op hop r n => ?_) _ _
    have hop' := h op hop
    obtain ⟨verb, o⟩ := op
    obtain rfl : verb = .destroy := hop'.verb
    exact r.step_outline n hop'.fit (hsuffices _ hop) (hsets _ hop)
  have hrefusal' : tx'.refusal = none := rfl
  unfold run
  rw [hrefusal, hrefusal', hattempt]
  dsimp only
  cases (e.attempt tx).result <;> exact ⟨rfl, rfl⟩

end Outline

/--
**The text of a transaction that destroys is read back if the names in it suffice.** That is so
unless it destroys a set, a map or an element of what is a map by its name; and what has then been
read does to the engine what the transaction does, if no element is one of a map.
-/
theorem readTransaction_destroy (e : Engine) (settings : Config) (requests : List Operation)
    (hengine : e.config.emulateDestroy = false) (hnative : settings.emulateDestroy = false)
    (hverbs : ∀ request ∈ requests, request.verb = .destroy)
    (haccepted : (build settings requests).refusal = none)
    (hplain : ∀ op ∈ (build settings requests).operations, op.Plain) :
    ((∃ tx, e.readTransaction (build settings requests).text = .ok tx) ↔
      ∀ op ∈ (build settings requests).operations, op.object.NameSuffices e.knownMaps) ∧
    ((∀ op ∈ (build settings requests).operations, ¬ op.object.InMap) →
      ∀ tx, e.readTransaction (build settings requests).text = .ok tx →
        (e.run tx).2 = (e.run (build settings requests)).2 ∧
          (e.run tx).1.ruleset = (e.run (build settings requests)).1.ruleset) := by
  have hdestroys : ∀ op ∈ (build settings requests).operations, op.Destroys := fun op =>
    destroys_of_mem_build hnative hverbs hplain
  have hread : ∀ tx, e.readTransaction (build settings requests).text = .ok tx ↔ _ := fun tx =>
    readTransaction_destroys hengine hdestroys
  refine ⟨⟨?_, fun hs => ⟨_, (hread _).mpr ⟨hs, rfl⟩⟩⟩, fun hsets tx htx => ?_⟩
  · rintro ⟨tx, htx⟩
    exact ((hread tx).mp htx).1
  · obtain ⟨hsuffices, rfl⟩ := (hread tx).mp htx
    exact run_outline haccepted hdestroys hsuffices hsets

/-- The settings of an engine that destroys natively. -/
def nativeConfig : Config := { family := some .ip, table := some "t" }

/-- An engine with a table, and in it a set with an element. -/
def nativeEngine : Engine :=
  ((ofConfig nativeConfig).run (build nativeConfig
    [⟨.add, .table {}⟩, ⟨.add, .chain { name := "c" }⟩,
      ⟨.add, .set { name := "s", spec := { keyType := some "ipv4_addr" } }⟩,
      ⟨.add, .element { set := some "s", key := ["10.0.0.1"], comment := some "gone soon" }⟩,
      ⟨.add, .map { name := "m", spec := { keyType := some "ipv4_addr : verdict" } }⟩,
      ⟨.add, .counter { name := "hits" }⟩])).1

/-- Some of this is there, some is not, and much that is said here is not written. -/
def destroyRequests : List Operation :=
  [⟨.destroy, .element { set := some "s", key := ["10.0.0.1"], comment := some "x : y" }⟩,
    ⟨.destroy, .chain { name := "c", comment := some "\n" }⟩,
    ⟨.destroy, .counter { name := "hits", packets := some 3 }⟩,
    ⟨.destroy, .flowtable { name := "fast", devices := ["eth0"] }⟩,
    ⟨.destroy, .table { scope := { table := some "other" }, comment := some "none" }⟩]

theorem readTransaction_destroy_destroyRequests :
    let tx := build nativeConfig destroyRequests
    tx.refusal = none ∧ (∀ op ∈ tx.operations, op.object.NameSuffices nativeEngine.knownMaps) ∧
      ∃ tx', nativeEngine.readTransaction tx.text = .ok tx' ∧
        (nativeEngine.run tx').2 = (nativeEngine.run tx).2 ∧
        (nativeEngine.run tx').1.ruleset = (nativeEngine.run tx).1.ruleset := by
  intro tx
  have hrefusal : tx.refusal = none := by decide +kernel
  have hsuffices : ∀ op ∈ tx.operations, op.object.NameSuffices nativeEngine.knownMaps := by
    decide +kernel
  have h := readTransaction_destroy nativeEngine nativeConfig destroyRequests
    (by decide +kernel) rfl (by decide) hrefusal (by decide +kernel)
  obtain ⟨tx', htx'⟩ := h.1.mpr hsuffices
  exact ⟨hrefusal, hsuffices, tx', htx', h.2 (by decide +kernel) tx' htx'⟩

/-- The line of a set that is destroyed does not say its key type, and is refused for that. -/
theorem readTransaction_destroySet :
    let tx := build nativeConfig
      [⟨.destroy, .set { name := "s", spec := { keyType := some "ipv4_addr" } }⟩]
    tx.refusal = none ∧ (∀ op ∈ tx.operations, op.Plain) ∧ tx.text = "destroy set ip t s\n" ∧
      (nativeEngine.run tx).2 = .ok () ∧
      nativeEngine.readTransaction tx.text = .error (.parse 1 (.violation (.keyType .set))) := by
  decide +kernel

end Engine

end Nftables
