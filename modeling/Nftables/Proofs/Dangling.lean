import Nftables.Proofs.Log

/-!
# References that lead nowhere

The body of a rule and the value of a map's element are checked when they are written: what they
refer to is there. It may be taken out later on, and then the reference is left behind. So for every
reference that leads nowhere the log has a step, behind the one that wrote the text last, that took
an object of that name out of the table.

The reading of a text is not what makes this hard; that a chain is gone today says nothing about
when, and the ruleset does not remember. The log does. `Explained` is a statement about one text and
the whole log, and each further step either writes the text anew or does not touch it. In the first
case everything it refers to has just been checked (`Explained.of_written`). In the second the
explanation is carried over: a name that was there is there still, or the step is the one that took
it out (`Explained.append`). Nothing else can happen to a name, which is what `Effect.holds` says
for every kind of command.

A text has to be followed from step to step, so it needs a place that does not move. That is the
handle of a rule, or the key of an element of a map, and both are unique by invariants that are
proved elsewhere; `Traced` takes them along.
-/

namespace Nftables

/-! ## Texts and their places -/

/-- The place of a text that can refer to objects: that of a rule, or of an element of a map. -/
inductive Slot
  | rule (table : TableKey) (chain : String) (handle : Nat)
  | element (table : TableKey) (map : String) (key : List String)

def Slot.table : Slot → TableKey
  | .rule table _ _ | .element table _ _ => table

/-- A text that the table holds, and its place. -/
inductive TableState.Stores (t : TableState) : Slot → String → Prop
  | rule {key : TableKey} {chain : String} {c : ChainState} {r : Rule} {n : Nat}
    (hc : t.chains.get? chain = some c) (hr : r ∈ c.rules) (hn : r.handle = some n) :
    Stores t (.rule key chain n) r.body
  | element {key : TableKey} {name : String} {m : MapState} {e : Element}
    (hm : t.maps.get? name = some m) (he : e ∈ m.elements) :
    Stores t (.element key name e.key) (joinParts e.value)

/-- The handle under which a command writes its rule: a new one, or that of the rule it replaces. -/
def Rule.writtenAs (verb : Verb) (r : Rule) (handle : Nat) : Option Nat :=
  match verb with
  | .add | .insert => some handle
  | .replace => r.handle
  | _ => none

/-- A text that a command on the object writes, and its place. -/
inductive Object.Writes (defines : List Define) (verb : Verb) (handle : Nat) :
    Object → Slot → String → Prop
  | rule {key : TableKey} {r : Rule} {n : Nat} (hs : r.scope = key.scope)
    (hn : r.writtenAs verb handle = some n) :
    Writes defines verb handle (.rule r) (.rule key r.chain n) (substituteIn defines r.body)
  | element {key : TableKey} {e : Element} {name : String} (hs : e.scope = key.scope)
    (hset : e.set = none) (hmap : e.map = some name) (hv : verb.Puts) :
    Writes defines verb handle (.element e)
      (.element key name (e.substitute defines).key) (joinParts (e.substitute defines).value)

/-- A text that the step wrote, and its place. -/
def Committed.Writes (defines : List Define) (s : Committed) (slot : Slot) (text : String) : Prop :=
  s.op.object.Writes defines s.op.verb s.handle slot text

/-! ## Names and what takes them out -/

/-- The kinds of objects that a reference can mean. -/
def Reference.kinds : Reference → List Kind
  | .map _ => [.map]
  | .flowtable _ => [.flowtable]
  | .setOrMap _ => [.set, .map]
  | .chain _ => [.chain]

def Reference.name : Reference → String
  | .map name | .flowtable name | .setOrMap name | .chain name => name

/-- The table has an object of this kind and name; of the kinds that texts can refer to. -/
def TableState.holds (t : TableState) (kind : Kind) (name : String) : Bool :=
  match kind with
  | .chain => t.chains.contains name
  | .set => t.sets.contains name
  | .map => t.maps.contains name
  | .flowtable => t.flowtables.contains name
  | _ => false

def Ruleset.Holds (r : Ruleset) (key : TableKey) (kind : Kind) (name : String) : Prop :=
  ∃ t, r.tables.get? key = some t ∧ t.holds kind name = true

/-- The verbs that take an object out. -/
def Verb.Removes (verb : Verb) : Prop := verb = .delete ∨ verb = .destroy

/-- The step took the object out of the table. -/
structure Committed.Removes (s : Committed) (key : TableKey) (kind : Kind) (name : String) :
    Prop where
  verb : s.op.verb.Removes
  object : s.op.object.kind = kind
  scope : s.op.object.scope = key.scope
  before : s.before.Holds key kind name
  after : ¬ s.after.Holds key kind name

/--
Of the log, one step wrote the text last, and whatever the text refers to is in the table or has
been taken out after that step.
-/
def Explained (defines : List Define) (log : List Committed) (t : TableState) (slot : Slot)
    (text : String) : Prop :=
  ∃ earlier s later, log = earlier ++ s :: later ∧ s.Writes defines slot text ∧
    (∀ s' ∈ later, ∀ text', ¬ s'.Writes defines slot text') ∧
    ∀ ref ∈ Reference.ofText text, ref.resolvesIn t = true ∨
      ∃ s' ∈ later, ∃ kind ∈ ref.kinds, s'.Removes slot.table kind ref.name

namespace Reference

theorem resolvesIn_iff {ref : Reference} {t : TableState} :
    ref.resolvesIn t = true ↔ ∃ kind ∈ ref.kinds, t.holds kind ref.name = true := by
  cases ref <;> simp [resolvesIn, kinds, TableState.holds, name]

/-- Nothing refers to a rule or an element. -/
theorem kind_of_mem_kinds {ref : Reference} {kind : Kind} (h : kind ∈ ref.kinds) :
    kind = .chain ∨ kind = .set ∨ kind = .map ∨ kind = .flowtable := by
  cases ref with
  | map | flowtable | chain =>
    cases List.mem_singleton.mp h
    simp
  | setOrMap =>
    rcases List.mem_pair.mp h with rfl | rfl <;> simp

end Reference

theorem TableState.checkReferences_eq_ok {t : TableState} {text : String} :
    t.checkReferences text = .ok () ↔ ∀ ref ∈ Reference.ofText text, ref.resolvesIn t = true := by
  unfold checkReferences
  cases hfind : (Reference.ofText text).find? fun r => !r.resolvesIn t with
  | none =>
    simpa using hfind
  | some ref =>
    have hmem := List.mem_of_find?_eq_some hfind
    have hfails : ref.resolvesIn t = false := by simpa using List.find?_some hfind
    simp only [reduceCtorEq, false_iff]
    exact fun h => Bool.false_ne_true (hfails.symm.trans (h ref hmem))

/-! ## What a step does to the names -/

theorem Shelf.Effect.contains {κ σ : Type} [Ord κ] [Std.TransOrd κ] [Std.LawfulEqOrd κ]
    [DecidableEq κ] {s : Shelf κ σ} {m m' : SortedMap κ σ} {among : κ → Bool} {verb : Verb}
    {key : κ} {handle : Option Nat} {new : σ} (he : s.Effect m among verb key handle new m') {k : κ}
    (h : m.contains k = true) : m'.contains k = true ∨ verb.Removes := by
  cases he with
  | keep hv hp => exact .inl h
  | put hv ha =>
    refine .inl ?_
    obtain ⟨v, hv⟩ := SortedMap.contains_iff.mp h
    rw [SortedMap.contains, SortedMap.get?_insert]
    split
    · rfl
    · rw [hv]
      rfl
  | drop k hv hr hp => exact .inr hv
  | change f hv hp =>
    rw [SortedMap.contains_modify]
    exact .inl h

namespace TableState

variable {defines : List Define} {verb : Verb} {handle : Nat} {t t' : TableState} {o : Object}

/-- A name stays, unless the command is one that takes an object of its kind out. -/
theorem Effect.holds (he : t.Effect defines verb handle o t') {kind : Kind} {name : String}
    (h : t.holds kind name = true) :
    t'.holds kind name = true ∨ (verb.Removes ∧ o.kind = kind) := by
  cases he with
  | chain c chains he =>
    cases kind with
    | chain => exact (he.contains h).imp id fun hv => ⟨hv, rfl⟩
    | _ => exact .inl h
  | rule r c rules hc href he =>
    cases kind with
    | chain => exact .inl ((SortedMap.contains_modify _ _ _ _).trans h)
    | _ => exact .inl h
  | set s sets he =>
    cases kind with
    | set => exact (he.contains h).imp id fun hv => ⟨hv, rfl⟩
    | _ => exact .inl h
  | map m maps he =>
    cases kind with
    | map => exact (he.contains h).imp id fun hv => ⟨hv, rfl⟩
    | _ => exact .inl h
  | setElement e name s elements hn hs href he =>
    cases kind with
    | set => exact .inl ((SortedMap.contains_modify _ _ _ _).trans h)
    | _ => exact .inl h
  | mapElement e name m elements hset hn hm href he =>
    cases kind with
    | map => exact .inl ((SortedMap.contains_modify _ _ _ _).trans h)
    | _ => exact .inl h
  | flowtable f flowtables he =>
    cases kind with
    | flowtable => exact (he.contains h).imp id fun hv => ⟨hv, rfl⟩
    | _ => exact .inl h
  | counter c counters he => cases kind <;> exact .inl h

end TableState

/-! ## What a step does to the texts -/

namespace ChainState

variable {rules rules' : List Rule} {verb : Verb} {r : Rule} {handle : Nat}

/-- A rule of the chain was there before, or is the one that the command has written. -/
theorem RulesEffect.mem_or (he : RulesEffect rules verb r handle rules')
    (hr : verb = .replace → r.handle ≠ none) {d : Rule} (hd : d ∈ rules') :
    d ∈ rules ∨ (d.handle = r.writtenAs verb handle ∧ d.body = r.body) := by
  cases he with
  | place i hv hi =>
    -- the new rule, or one that was there
    rcases (List.mem_insertIdx hi).mp hd with rfl | hd
    · exact .inr ⟨by rcases hv with rfl | rfl <;> rfl, rfl⟩
    · exact .inl hd
  | replace i hv hi hold =>
    -- in front of the rule that is replaced, that one itself, or behind it
    rw [List.modify_eq_take_cons_drop hi] at hd
    rcases List.mem_append.mp hd with hd | hd
    · exact .inl (List.mem_of_mem_take hd)
    · rcases List.mem_cons.mp hd with rfl | hd
      · obtain ⟨n, hn⟩ := Option.ne_none_iff_exists'.mp (hr hv)
        refine .inr ⟨?_, rfl⟩
        subst hv
        exact (hold n hn).trans hn.symm
      · exact .inl (List.mem_of_mem_drop hd)
  | remove i hv hi => exact .inl (List.mem_of_mem_eraseIdx hd)

/-- What a command writes, the chain then has. -/
theorem RulesEffect.mem_of_written (he : RulesEffect rules verb r handle rules') {n : Nat}
    (hn : r.writtenAs verb handle = some n) :
    ∃ d ∈ rules', d.handle = some n ∧ d.body = r.body := by
  cases he with
  | place i hv hi =>
    refine ⟨_, (List.mem_insertIdx hi).mpr (.inl rfl), ?_, rfl⟩
    rcases hv with rfl | rfl <;> exact hn
  | replace i hv hi hold =>
    subst hv
    refine ⟨{ r with index := none, handle := rules[i].handle }, ?_, hold n hn, rfl⟩
    rw [List.modify_eq_take_cons_drop hi]
    exact List.mem_append_right _ List.mem_cons_self
  | remove i hv hi =>
    subst hv
    cases hn

end ChainState

theorem Elements.mem_write_self (e : Element) (elements : List Element) :
    e ∈ write e elements := by
  induction elements with
  | nil => exact List.mem_singleton_self e
  | cons d rest ih =>
    rw [write]
    split
    · exact List.mem_cons_self
    · exact List.mem_cons_of_mem d ih

theorem Rule.handle_of_replace {r : Rule} (h : r.validate .replace = .ok ()) : r.handle ≠ none := by
  unfold Rule.validate at h
  rw [andThen_eq_ok, andThen_eq_ok, andThen_eq_ok] at h
  exact refuseIf_eq_ok.mp h.2.2.2

namespace TableState

variable {defines : List Define} {verb : Verb} {handle : Nat} {t t' : TableState} {o : Object}
  {slot : Slot} {text : String}

/-- **A text of the table was there before, or the command has written it.** -/
theorem Effect.stores (he : t.Effect defines verb handle o t') (hv : o.validateKind verb = .ok ())
    (hs : o.scope = slot.table.scope) (h : t'.Stores slot text) :
    t.Stores slot text ∨ o.Writes defines verb handle slot text := by
  cases he with
  | chain c chains he =>
    cases h with
    | element hm he => exact .inl (.element hm he)
    | @rule key chain c' r n hc hr hn =>
      -- a new chain has no rules, and a flushed one has none left
      have hall : chains.All fun name c => ∀ r ∈ c.rules,
          ∃ c₀, t.chains.get? name = some c₀ ∧ r ∈ c₀.rules := by
        refine he.all (fun name c hc r hr => ⟨c, hc, hr⟩) (fun _ => by simp) ?_
        rintro f (hf | hf) name c hc <;> cases hf
        exact fun r hr => absurd hr List.not_mem_nil
      obtain ⟨c₀, hc₀, hr₀⟩ := hall chain c' hc r hr
      exact .inl (.rule hc₀ hr₀ hn)
  | rule x c rules hc href he =>
    cases h with
    | element hm he => exact .inl (.element hm he)
    | @rule key chain c' r n hc' hr hn =>
      rw [SortedMap.get?_modify] at hc'
      -- in another chain nothing has changed
      by_cases hchain : chain = x.chain
      · subst hchain
        rw [if_pos rfl, hc] at hc'
        cases hc'
        have hnamed : verb = .replace → x.handle ≠ none := by
          rintro rfl
          exact Rule.handle_of_replace hv
        rcases he.mem_or hnamed hr with hr | ⟨hhandle, hbody⟩
        · exact .inl (.rule hc hr hn)
        · rw [hbody]
          exact .inr (.rule hs (hhandle.symm.trans hn))
      · rw [if_neg hchain] at hc'
        exact .inl (.rule hc' hr hn)
  | map m maps he =>
    cases h with
    | rule hc hr hn => exact .inl (.rule hc hr hn)
    | @element key name m' e hm hmem =>
      have hall : maps.All fun name m => ∀ e ∈ m.elements,
          ∃ m₀, t.maps.get? name = some m₀ ∧ e ∈ m₀.elements := by
        refine he.all (fun name m hm e he => ⟨m, hm, he⟩) (fun _ => by simp) ?_
        rintro f (hf | hf) name m hm <;> cases hf
        exact fun e he => absurd he List.not_mem_nil
      obtain ⟨m₀, hm₀, he₀⟩ := hall name m' hm e hmem
      exact .inl (.element hm₀ he₀)
  | mapElement x name m elements hset hn hm href he =>
    cases h with
    | rule hc hr hn => exact .inl (.rule hc hr hn)
    | @element key name' m' e hm' hmem =>
      rw [SortedMap.get?_modify] at hm'
      -- in another map nothing has changed
      by_cases hname : name' = name
      · subst hname
        rw [if_pos rfl, hm] at hm'
        cases hm'
        have hall := he.all (P := fun e => e ∈ m.elements ∨ (e = x.substitute defines ∧ verb.Puts))
          (fun e he => .inl he) fun hputs => .inr ⟨rfl, hputs⟩
        rcases hall e hmem with hmem | ⟨rfl, hputs⟩
        · exact .inl (.element hm hmem)
        · exact .inr (.element hs hset hn hputs)
      · rw [if_neg hname] at hm'
        exact .inl (.element hm' hmem)
  | set | setElement | flowtable | counter =>
    cases h with
    | rule hc hr hn => exact .inl (.rule hc hr hn)
    | element hm he => exact .inl (.element hm he)

/-- **What a command writes, the table then has.** -/
theorem Effect.stores_of_writes (he : t.Effect defines verb handle o t')
    (h : o.Writes defines verb handle slot text) : t'.Stores slot text := by
  cases h with
  | @rule key r n hs hn =>
    cases he with
    | rule x c rules hc href he =>
      obtain ⟨d, hd, hhandle, hbody⟩ := he.mem_of_written hn
      rw [show substituteIn defines r.body = d.body from hbody.symm]
      refine .rule (c := { c with rules }) ?_ hd hhandle
      rw [SortedMap.get?_modify, if_pos rfl, hc]
      rfl
  | @element key e name hs hset hmap hputs =>
    cases he with
    | setElement x name' s elements hn hs href he =>
      rw [hset] at hn
      cases hn
    | mapElement x name' m elements hset' hn hm href he =>
      rw [hmap] at hn
      cases hn
      have hmem : e.substitute defines ∈ elements := by
        cases he with
        | write hv hp => exact Elements.mem_write_self _ _
        | erase hv => rcases hputs with rfl | rfl <;> rcases hv with hv | hv <;> cases hv
      refine .element (m := { m with elements }) ?_ hmem
      rw [SortedMap.get?_modify, if_pos rfl, hm]
      rfl

/-- **What a command writes has been checked: all that it refers to is there.** -/
theorem Effect.resolves_of_writes (he : t.Effect defines verb handle o t')
    (hv : o.validateKind verb = .ok ()) (h : o.Writes defines verb handle slot text) :
    ∀ ref ∈ Reference.ofText text, ref.resolvesIn t' = true := by
  have hbefore : t.checkReferences text = .ok () := by
    cases h with
    | @rule key r n hs hn =>
      cases he with
      | rule x c rules hc href he =>
        refine href ?_
        cases verb <;> first | rfl | cases hn
    | @element key e name hs hset hmap hputs =>
      have hvalue : (e.substitute defines).value ≠ [] := fun hnil =>
        (Element.value_of_validate hputs hv).1 (by simp [hmap]) (List.map_eq_nil_iff.mp hnil)
      have hchecks : verb.checksValue = true := by rcases hputs with rfl | rfl <;> rfl
      cases he with
      | setElement x name' s elements hn hs href he => exact href hchecks hvalue
      | mapElement x name' m elements hset' hn hm href he => exact href hchecks hvalue
  -- a command on a rule or an element leaves all names alone
  have hkind : o.kind = .rule ∨ o.kind = .element := by
    cases h with
    | rule => exact .inl rfl
    | element => exact .inr rfl
  intro ref href
  obtain ⟨kind, hmem, hholds⟩ :=
    Reference.resolvesIn_iff.mp (checkReferences_eq_ok.mp hbefore ref href)
  rcases he.holds hholds with hholds | ⟨-, hsame⟩
  · exact Reference.resolvesIn_iff.mpr ⟨kind, hmem, hholds⟩
  · have hof := Reference.kind_of_mem_kinds hmem
    rw [← hsame] at hof
    rcases hkind with hkind | hkind <;> simp [hkind] at hof

/-- A place holds one text. -/
theorem Stores.unique (hrules : t.chains.All fun _ c => (c.rules.map Rule.handle).Nodup)
    (hmaps : t.maps.All fun _ m => Elements.Keyed m.elements) {text₁ text₂ : String}
    (h₁ : t.Stores slot text₁) (h₂ : t.Stores slot text₂) : text₁ = text₂ := by
  cases h₁ with
  | @rule key chain c r n hc hr hn =>
    cases h₂ with
    | @rule _ _ c' r' _ hc' hr' hn' =>
      cases hc.symm.trans hc'
      cases List.inj_on_of_nodup_map (hrules chain c hc) hr hr' (hn.trans hn'.symm)
      rfl
  | @element key name m e hm he =>
    generalize hslot : Slot.element key name e.key = slot at h₂
    cases h₂ with
    | rule => cases hslot
    | @element _ _ m' e' hm' he' =>
      injection hslot with _ hname hkey
      subst hname
      cases hm.symm.trans hm'
      cases List.inj_on_of_nodup_map (hmaps name m hm).distinct he he' hkey
      rfl

end TableState

namespace Ruleset

variable {defines : List Define} {handle : Nat} {op : Operation} {r r' : Ruleset} {slot : Slot}
  {text : String}

/-- **A text that a step writes stands in the ruleset then, and all that it refers to.** -/
theorem stores_of_writes (hs : r.step defines handle op = .ok r')
    (hv : op.object.validate op.verb = .ok ())
    (h : op.object.Writes defines op.verb handle slot text) :
    ∃ t, r'.tables.get? slot.table = some t ∧ t.Stores slot text ∧
      ∀ ref ∈ Reference.ofText text, ref.resolvesIn t = true := by
  have hscope : op.object.scope = slot.table.scope := by
    generalize op.object = o at h
    cases h with
    | rule hs hn => exact hs
    | element hs hset hmap hputs => exact hs
  cases step_effect hs with
  | table x family tables ho hf he =>
    rw [ho] at h
    cases h
  | inside key t t' hkey ht he =>
    obtain ⟨family, name⟩ := key
    -- the place is in the table that the command is about
    have hsame : slot.table = ⟨family, name⟩ := by
      generalize slot.table = table at hscope
      cases hscope.symm.trans hkey
      rfl
    refine ⟨t', ?_, he.stores_of_writes h,
      he.resolves_of_writes (Object.validateKind_of_validate hv) h⟩
    rw [hsame, SortedMap.get?_modify, if_pos rfl, ht]
    rfl

/-- A text that a step has not written stood in the table before, and names go only by removal. -/
theorem stores_of_step (hs : r.step defines handle op = .ok r')
    (hv : op.object.validate op.verb = .ok ())
    (hnot : ∀ text, ¬ op.object.Writes defines op.verb handle slot text) {t' : TableState}
    (ht' : r'.tables.get? slot.table = some t') (h : t'.Stores slot text) :
    ∃ t, r.tables.get? slot.table = some t ∧ t.Stores slot text ∧
      ∀ kind name, t.holds kind name = true → t'.holds kind name = true ∨
        (op.verb.Removes ∧ op.object.kind = kind ∧ op.object.scope = slot.table.scope) := by
  cases step_effect hs with
  | table x family tables ho hf he =>
    -- what is done to a whole table leaves it no texts, or leaves it alone
    have hall : tables.All fun key t => ∀ slot text, t.Stores slot text →
        r.tables.get? key = some t := by
      refine he.all (fun key t ht _ _ _ => ht) (fun _ slot text hstores => ?_) ?_
      · cases hstores with
        | rule hc => cases hc
        | element hm => cases hm
      · rintro f (hf | hf) key t ht slot text hstores <;> cases hf
        cases hstores with
        | rule hc hr =>
          simp only [TableState.flush, SortedMap.get?_map, Option.map_eq_some_iff] at hc
          obtain ⟨c, -, rfl⟩ := hc
          exact absurd hr List.not_mem_nil
        | element hm he =>
          simp only [TableState.flush, SortedMap.get?_map, Option.map_eq_some_iff] at hm
          obtain ⟨m, -, rfl⟩ := hm
          exact absurd he List.not_mem_nil
    exact ⟨t', hall _ t' ht' slot text h, h, fun _ _ hholds => .inl hholds⟩
  | inside key t t₁ hkey ht he =>
    have ht' : (r.tables.modify key fun _ => t₁).get? slot.table = some t' := ht'
    rw [SortedMap.get?_modify] at ht'
    -- a place in another table is as it was
    by_cases hsame : slot.table = key
    · subst hsame
      rw [if_pos rfl, ht] at ht'
      cases ht'
      rcases he.stores (Object.validateKind_of_validate hv) hkey h with h | h
      · refine ⟨t, ht, h, fun kind name hholds => ?_⟩
        rcases he.holds hholds with hstill | ⟨hverb, hkind⟩
        · exact .inl hstill
        · exact .inr ⟨hverb, hkind, hkey⟩
      · exact absurd h (hnot text)
    · rw [if_neg hsame] at ht'
      exact ⟨t', ht', h, fun _ _ hholds => .inl hholds⟩

theorem Numbered.rules {last : Nat} (h : r.Numbered last) {key : TableKey} {t : TableState}
    (ht : r.tables.get? key = some t) :
    t.chains.All fun _ c => (c.rules.map Rule.handle).Nodup := by
  intro name c hc
  have htable : (t.handles key).Sublist r.handles := SortedMap.sublist_collect TableState.handles ht
  have hchains : (t.chains.collect (TableState.ruleHandles key)).Sublist (t.handles key) :=
    (List.sublist_append_right _ _).trans (List.sublist_cons_self _ _)
  have hrules : (TableState.ruleHandles key name c).Sublist
      (t.chains.collect (TableState.ruleHandles key)) := SortedMap.sublist_collect _ hc
  have hnodup := h.distinct.sublist (((hrules.trans hchains).trans htable).map Prod.snd)
  rwa [TableState.ruleHandles, List.map_map] at hnodup

end Ruleset

/-! ## Along the log -/

/-- What the log explains of the ruleset, with the invariants that the argument rests on. -/
structure Traced (defines : List Define) (log : List Committed) (r : Ruleset) (last : Nat) :
    Prop where
  numbered : r.Numbered last
  wellFormed : r.WellFormed
  explained : ∀ slot t text, r.tables.get? slot.table = some t → t.Stores slot text →
    Explained defines log t slot text

/-- The step that writes a text is the last that has, and all that the text refers to is there. -/
theorem Explained.of_written {defines : List Define} {log : List Committed} {s : Committed}
    {t : TableState} {slot : Slot} {text : String} (h : s.Writes defines slot text)
    (hrefs : ∀ ref ∈ Reference.ofText text, ref.resolvesIn t = true) :
    Explained defines (log ++ [s]) t slot text :=
  ⟨log, s, [], rfl, h, fun _ hs => absurd hs List.not_mem_nil,
    fun ref href => .inl (hrefs ref href)⟩

/-- A step that does not write the text explains what it has taken out. -/
theorem Explained.append {defines : List Define} {log : List Committed} {s : Committed}
    {t t' : TableState} {slot : Slot} {text : String} (h : Explained defines log t slot text)
    (hnot : ∀ text, ¬ s.Writes defines slot text) (ht : s.before.tables.get? slot.table = some t)
    (ht' : s.after.tables.get? slot.table = some t')
    (hholds : ∀ kind name, t.holds kind name = true → t'.holds kind name = true ∨
      (s.op.verb.Removes ∧ s.op.object.kind = kind ∧ s.op.object.scope = slot.table.scope)) :
    Explained defines (log ++ [s]) t' slot text := by
  obtain ⟨earlier, w, later, rfl, hw, hlast, hrefs⟩ := h
  refine ⟨earlier, w, later ++ [s], by simp, hw, fun s' hs' => ?_, fun ref href => ?_⟩
  · rcases List.mem_append.mp hs' with hs' | hs'
    · exact hlast s' hs'
    · cases List.mem_singleton.mp hs'
      exact hnot
  · rcases hrefs ref href with hres | ⟨s', hs', hremoved⟩
    · obtain ⟨kind, hkind, hname⟩ := Reference.resolvesIn_iff.mp hres
      -- what is gone now was there before, so this step is its removal
      by_cases hafter : t'.holds kind ref.name = true
      · exact .inl (Reference.resolvesIn_iff.mpr ⟨kind, hkind, hafter⟩)
      · obtain ⟨hverb, hobject, hscope⟩ := (hholds kind ref.name hname).resolve_left hafter
        refine .inr ⟨s, List.mem_append_right _ List.mem_cons_self, kind, hkind, hverb, hobject,
          hscope, ⟨t, ht, hname⟩, ?_⟩
        rintro ⟨t₁, ht₁, hname₁⟩
        cases ht'.symm.trans ht₁
        exact hafter hname₁
    · exact .inr ⟨s', List.mem_append_left _ hs', hremoved⟩

/-- **Every committed operation leaves all texts explained.** -/
theorem traced_recorded (defines : List Define) : Recorded defines (Traced defines) where
  rise h := ⟨(Ruleset.numbered_preserved defines).rise h.numbered, h.wellFormed, h.explained⟩
  step := by
    intro log r r' last op h hv hs
    have hnumbered := (Ruleset.numbered_preserved defines).step h.numbered hv hs
    have hwell : r'.WellFormed :=
      (Ruleset.wellFormed_preserved defines).step h.wellFormed hv hs
    refine ⟨hnumbered, hwell, fun slot t' text ht' hstores => ?_⟩
    by_cases hwrites :
        ∃ text, op.object.Writes defines op.verb (Ruleset.nextHandle last op) slot text
    · -- the text that stands there now is the one that was written
      obtain ⟨written, hwrites⟩ := hwrites
      obtain ⟨t₁, ht₁, hstores₁, hrefs⟩ := Ruleset.stores_of_writes hs hv hwrites
      cases ht'.symm.trans ht₁
      have hmaps : t'.maps.All fun _ m => Elements.Keyed m.elements :=
        fun name m hm => ((hwell _ t' ht').maps name m hm).keyed
      cases TableState.Stores.unique (hnumbered.rules ht') hmaps hstores hstores₁
      exact .of_written hwrites hrefs
    · have hnot := not_exists.mp hwrites
      obtain ⟨t, ht, hold, hholds⟩ := Ruleset.stores_of_step hs hv hnot ht' hstores
      exact (h.explained slot t text ht hold).append hnot ht ht' hholds

namespace Engine

/--
**Every reference that leads nowhere is explained by a removal.** Of each stored rule and each
element of a map, the log has the operation that wrote it last; whatever its text refers to is in
the table, or an operation behind that one has taken it out. So after a history that takes out no
chain, set, map or flowtable, all references resolve.
-/
theorem dangling_explained (config : Config) (calls : List Call) :
    let log := (ofConfig config).log calls
    let r := ((ofConfig config).after calls).ruleset
    (r.tables.All fun key t =>
      (t.chains.All fun chain c => ∀ x ∈ c.rules, ∃ n, x.handle = some n ∧
        Explained config.effectiveDefines log t (.rule key chain n) x.body) ∧
      (t.maps.All fun name m => ∀ e ∈ m.elements,
        Explained config.effectiveDefines log t (.element key name e.key) (joinParts e.value))) ∧
    ((∀ s ∈ log, s.op.verb.Removes → s.op.object.kind ∉ [.chain, .set, .map, .flowtable]) →
      r.Resolved) := by
  intro log r
  have htraced : Traced config.effectiveDefines log r _ :=
    recorded_after (e := ofConfig config) (l := []) (traced_recorded _) calls
      ⟨Ruleset.numbered_empty, Ruleset.wellFormed_empty, fun _ _ _ ht => nomatch ht⟩
  have hrules : ∀ key t chain c x, r.tables.get? key = some t → t.chains.get? chain = some c →
      x ∈ c.rules → ∃ n, x.handle = some n ∧
        Explained config.effectiveDefines log t (.rule key chain n) x.body := by
    intro key t chain c x ht hc hx
    have hhandle := (((htraced.wellFormed key t ht).chains chain c hc).rules x hx).handle
    obtain ⟨n, hn⟩ := Option.isSome_iff_exists.mp hhandle
    exact ⟨n, hn, htraced.explained (.rule key chain n) t _ ht (.rule hc hx hn)⟩
  have hmaps : ∀ key t name m e, r.tables.get? key = some t → t.maps.get? name = some m →
      e ∈ m.elements →
        Explained config.effectiveDefines log t (.element key name e.key) (joinParts e.value) :=
    fun key t name m e ht hm he =>
      htraced.explained (.element key name e.key) t _ ht (.element hm he)
  refine ⟨fun key t ht => ⟨fun chain c hc x hx => hrules key t chain c x ht hc hx,
    fun name m hm e he => hmaps key t name m e ht hm he⟩, fun hnone key t ht => ?_⟩
  have hresolved : ∀ {slot text}, Explained config.effectiveDefines log t slot text →
      t.checkReferences text = .ok () := by
    intro slot text hexplained
    obtain ⟨earlier, s, later, hlog, -, -, hrefs⟩ := hexplained
    refine TableState.checkReferences_eq_ok.mpr fun ref href => ?_
    refine (hrefs ref href).resolve_right ?_
    rintro ⟨s', hs', kind, hkind, hremoves⟩
    have hmem : s' ∈ log := hlog ▸ List.mem_append_right _ (List.mem_cons_of_mem s hs')
    refine hnone s' hmem hremoves.verb ?_
    rw [hremoves.object]
    rcases Reference.kind_of_mem_kinds hkind with rfl | rfl | rfl | rfl <;> simp
  refine ⟨fun chain c hc x hx => ?_,
    fun name m hm e he => hresolved (hmaps key t name m e ht hm he)⟩
  obtain ⟨n, -, hexplained⟩ := hrules key t chain c x ht hc hx
  exact hresolved hexplained

/-- A chain is deleted that a rule jumps to. -/
def jumpHistory : List Call :=
  let settings : Config := { family := some .ip, table := some "t" }
  [.run settings [⟨.add, .table {}⟩, ⟨.add, .chain { name := "a" }⟩, ⟨.add, .chain { name := "b" }⟩,
      ⟨.add, .rule { chain := "a", body := "jump b" }⟩],
    .run settings [⟨.delete, .chain { name := "b" }⟩]]

/--
The chain is gone while the rule, under handle 4, still jumps to it; behind the step that wrote the
rule, the log has the one that took the chain out.
-/
theorem dangling_explained_jumpHistory :
    ¬ ((ofConfig {}).after jumpHistory).ruleset.Resolved ∧
      ∃ earlier s later, (ofConfig {}).log jumpHistory = earlier ++ s :: later ∧
        s.Writes [] (.rule ⟨.ip, "t"⟩ "a" 4) "jump b" ∧
        ∃ s' ∈ later, s'.Removes ⟨.ip, "t"⟩ .chain "b" := by
  let r := ((ofConfig {}).after jumpHistory).ruleset
  have hstored : (r.tables.get? ⟨.ip, "t"⟩).any fun t =>
      !(Reference.chain "b").resolvesIn t && (t.chains.get? "a").any fun c =>
        c.rules.any fun x => x.handle = some 4 ∧ x.body = "jump b" := by decide +kernel
  simp only [Option.any_eq_true, List.any_eq_true, Bool.and_eq_true, decide_eq_true_eq] at hstored
  obtain ⟨t, ht, hfails, c, hc, x, hx, hhandle, hbody⟩ := hstored
  have hmem : .chain "b" ∈ Reference.ofText "jump b" := by decide +kernel
  refine ⟨by decide +kernel, ?_⟩
  obtain ⟨hall, -⟩ := dangling_explained {} jumpHistory
  obtain ⟨hrules, -⟩ := hall _ t ht
  obtain ⟨n, hn, earlier, s, later, hlog, hwrites, -, hrefs⟩ := hrules _ c hc x hx
  cases hn.symm.trans hhandle
  rw [hbody] at hwrites hrefs
  -- the rule's one reference leads nowhere, so it is the removal that explains it
  obtain ⟨s', hs', kind, hkind, hremoves⟩ :=
    (hrefs _ hmem).resolve_left (by simpa using hfails)
  cases List.mem_singleton.mp hkind
  exact ⟨earlier, s, later, hlog, hwrites, s', hs', hremoves⟩

end Engine

end Nftables
