import Nftables.LineDiff
import Nftables.Proofs.Reload

/-!
# Different rulesets have different dumps

Each line of a dump tells the object that it was written for, so two dumps that agree have the same
objects in the same order. The objects say which table they are of, and the rules and elements say
which chain, set or map; so their list tells the ruleset, up to the handles.

The first half is about lines. For most kinds the line of an object is read back to it, so the
reader is the inverse that proves injectivity. Rules are the exception: a body such as `index 3
accept` is read as a place and a shorter body, and two rules could seem to share a line. They do
not, since a dump writes no places, and `Rule.ofLine?` is the reader that knows that.

The second half is about lists. The dump of a table is a concatenation of eight lists, the rules of
all chains among them, without marks between chains. Nothing but what the objects say of themselves
tells where one list ends (`TableState.Filed`): the kinds separate the lists, and the name of the
chain in each rule separates the chains, also those that are empty.
-/

namespace Nftables

open Text Clause

/-! ## Lines that tell their objects -/

/-- The body and the comment of the rule can be told apart. -/
@[mk_iff]
structure Rule.Legible (r : Rule) : Prop where
  nonempty : r.body.toList ≠ []
  trimmed : Trimmed r.body.toList
  line : '\n' ∉ r.body.toList
  comment : PlainComment r.comment
  bare : r.comment = none → ¬ EndsInComment r.body.toList

instance (r : Rule) : Decidable r.Legible := decidable_of_iff _ (Rule.legible_iff r).symm

/--
The object can be told from its line: its texts are plain, and nothing of it is left out there, as
the parts of a second and the refusal to merge elements are. A rule may begin like a place.
-/
def Object.Legible : Object → Prop
  | .rule r => (∀ name ∈ r.scope.table, PlainName name) ∧ PlainName r.chain ∧ r.Legible
  | o => o.Writable ∧ o.written = o

instance : (o : Object) → Decidable o.Legible
  | .rule _ => inferInstanceAs (Decidable (_ ∧ _))
  | .table _ | .chain _ | .set _ | .map _ | .element _ | .flowtable _ | .counter _ =>
    inferInstanceAs (Decidable (_ ∧ _))

def Ruleset.Legible (r : Ruleset) : Prop := ∀ o ∈ r.objects, o.Legible

instance (r : Ruleset) : Decidable r.Legible := inferInstanceAs (Decidable (∀ _ ∈ _, _))

/-- The rule of a line, as it stands there: what begins like a place is a part of its body. -/
def Rule.ofLine? (l : Command.Line) : Option Rule :=
  let (name, text) := splitOnce ' ' l.rest
  let (body, comment) := splitComment text
  (Family.ofName? (String.ofList l.family)).map fun family =>
    { scope := ⟨family, String.ofList l.table⟩, chain := String.ofList name
      body := String.ofList body, comment := Command.comment comment }

theorem Rule.ofLine?_text {key : TableKey} {verb kind : List Char} {r : Rule}
    (hscope : r.scope = key.scope) (hindex : r.index = none) (hhandle : r.handle = none)
    (hchain : PlainName r.chain) (hr : r.Legible) :
    ofLine? ⟨verb, kind, key.family.name.toList, key.name.toList,
      r.chain.toList ++ ' ' :: r.text.toList⟩ = some r := by
  have hcut := splitOnce_append (hchain.1.not_mem (c := ' ') (by decide)) r.text.toList
  have hsplit := splitComment_commentText hr.line hr.bare
  rw [← toList_ruleText] at hsplit
  simp only [ofLine?, hcut, hsplit, String.ofList_toList, Family.ofName?_name, comment_toList,
    map_reread hr.comment]
  obtain ⟨_, _, _, _, _, _⟩ := r
  cases hscope
  cases hindex
  cases hhandle
  rfl

namespace Object

/-- The object that a line of a dump was written for: the one that is read, but for the rules. -/
def ofLine? (line : List Char) : Option Object :=
  (Command.Line.read? line).bind fun l =>
    if l.kind = Kind.rule.name.toList then (Rule.ofLine? l).map .rule
    else (Command.readCommand [] line).toOption.map fun c => c.operation.object

variable {key : TableKey} {o o' : Object} {tail rest : List Char}

theorem ofLine?_readsBack (h : ReadsBack [] key .add o o' tail rest) (hname : Word key.name.toList)
    (hkind : o.kind ≠ .rule) : ofLine? (commandLine .add o.kind key tail) = some o' := by
  have hline := Command.Line.read?_commandLine .add o.kind hname h.apart.front h.cut
  -- the word of its kind is not that of rules
  have hnot : o.kind.name.toList ≠ Kind.rule.name.toList := fun hsame =>
    hkind (Kind.name_injective (String.toList_injective hsame))
  rw [ofLine?, hline, Option.bind_some, if_neg hnot, h.readCommand hname]
  rfl

theorem ofLine?_rule {r : Rule} (hscope : r.scope = key.scope) (hindex : r.index = none)
    (hhandle : r.handle = none) (hname : Word key.name.toList) (hchain : PlainName r.chain)
    (hr : r.Legible) : ∃ line, Command.LineOf (r.command .add) line ∧
      ofLine? line = some (.rule r) := by
  have htext := toList_ruleText r
  have hne : r.text.toList ≠ [] := by simp [htext, hr.nonempty]
  have htrimmed : Trimmed r.text.toList := by
    rw [htext]
    exact trimmed_commentText hr.trimmed hr.nonempty r.comment
  have hnewline : '\n' ∉ r.text.toList := by
    rw [htext, List.mem_append, not_or]
    exact ⟨hr.line, not_mem_commentText r.comment⟩
  have htail := tail_rule hchain hne htrimmed hnewline
  have hcommand : (r.command .add).toList = commandLine .add .rule key
      (' ' :: (r.chain.toList ++ ' ' :: r.text.toList)) ++ ['\n'] := by
    rw [toList_ruleCommand hscope, Rule.position, hindex, hhandle]
    simp [Verb.ruleText]
  refine ⟨_, htail.lineOf hname hcommand, ?_⟩
  have hline := Command.Line.read?_commandLine .add .rule hname htail.front
    (expect_append " " (r.chain.toList ++ ' ' :: r.text.toList))
  rw [ofLine?, hline, Option.bind_some, if_pos rfl,
    Rule.ofLine?_text hscope hindex hhandle hchain hr]
  rfl

/-- A stored object can be told from its line. -/
theorem ofLine?_line (hscope : o.scope = key.scope)
    (hfit : o.eraseHandle.validateKind .add = .ok ()) (hl : o.Legible) :
    Command.LineOf (o.eraseHandle.command .add) o.line ∧ ofLine? o.line = some o.eraseHandle := by
  -- all kinds but rules are read back as they are written
  have hnamed : o.Writable → o.written = o → o.kind ≠ .rule →
      Command.LineOf (o.eraseHandle.command .add) o.line ∧
        ofLine? o.line = some o.eraseHandle := by
    intro hp hwritten hkind
    obtain ⟨tail, rest, h⟩ := readsBack_written [] hscope hfit hp fun _ _ _ _ => nofun
    have hname := (hp.table hscope).1
    have hline := h.lineOf hname
    have hkind' : o.eraseHandle.kind ≠ .rule := by
      rwa [kind_eraseHandle]
    rw [← eraseHandle_written, hwritten] at h
    rw [hline.line_eq]
    exact ⟨hline, ofLine?_readsBack h hname hkind'⟩
  cases o with
  | rule r =>
    obtain ⟨htable, hchain, hr⟩ := hl
    have hname : PlainName key.name := htable _ (by rw [show r.scope = key.scope from hscope]; rfl)
    obtain ⟨line, hline, hread⟩ := ofLine?_rule (r := { r with index := none, handle := none })
      hscope rfl rfl hname.1 hchain
      ⟨hr.nonempty, hr.trimmed, hr.line, hr.comment, hr.bare⟩
    rw [show (Object.rule r).line = line from Command.LineOf.line_eq hline]
    exact ⟨hline, hread⟩
  | _ => exact hnamed hl.1 hl.2 nofun

end Object

/-! ## Dumps that tell their objects -/

namespace Ruleset

variable {r r₁ r₂ : Ruleset}

theorem WellFormed.ofLine?_line (hw : r.WellFormed) (hl : r.Legible) : ∀ o ∈ r.objects,
    Command.LineOf (o.eraseHandle.command .add) o.line ∧
      Object.ofLine? o.line = some o.eraseHandle := by
  intro o ho
  obtain ⟨t, ht, hot⟩ := List.mem_flatMap.mp ho
  obtain ⟨key, hkey⟩ := SortedMap.mem_values_iff.mp ht
  have hwt := hw key t hkey
  have hbodies := TableState.forall_rules (t := t) fun r hr =>
    (show Object.Legible (.rule r) from hl _ (List.mem_flatMap.mpr ⟨t, ht, hr⟩)).2.2.nonempty
  exact Object.ofLine?_line (hwt.scope_of_mem_objects o hot)
    (Object.validateKind_of_validate (hwt.fit hbodies o hot)) (hl o ho)

/-- **A dump tells the objects of its ruleset**, one after the other. -/
theorem objects_of_dump_eq (hw₁ : r₁.WellFormed) (hw₂ : r₂.WellFormed) (hl₁ : r₁.Legible)
    (hl₂ : r₂.Legible) (h : r₁.dump = r₂.dump) :
    r₁.objects.map Object.eraseHandle = r₂.objects.map Object.eraseHandle := by
  -- reading the lines of a dump gives its objects, so equal dumps give equal objects
  have hread : ∀ r : Ruleset, r.WellFormed → r.Legible →
      (lines r.dump.toList).map Object.ofLine? = (r.objects.map Object.eraseHandle).map some := by
    intro r hw hl
    have hobjects := hw.ofLine?_line hl
    rw [dump, Command.LineOf.lines_join fun o ho => (hobjects o ho).1, List.map_map, List.map_map]
    exact List.map_congr_left fun o ho => (hobjects o ho).2
  refine List.map_injective_iff.mpr (fun _ _ => Option.some.inj) ?_
  rw [← hread r₁ hw₁ hl₁, ← hread r₂ hw₂ hl₂, h]

end Ruleset

/-! ## Objects that tell their ruleset -/

/-- Every object says in which table it stands, and under which name or in what. -/
structure TableState.Filed (key : TableKey) (t : TableState) : Prop where
  scope : ∀ o ∈ t.objects, o.scope = key.scope
  flowtables : t.flowtables.All fun name f => f.name = name
  chains : t.chains.All fun name c => c.chain.name = name ∧ ∀ r ∈ c.rules, r.chain = name
  sets : t.sets.All fun name s => s.set.name = name ∧ ∀ e ∈ s.elements, e.set = some name
  maps : t.maps.All fun name m =>
    m.map.name = name ∧ ∀ e ∈ m.elements, e.set = none ∧ e.map = some name
  counters : t.counters.All fun name c => c.name = name

namespace TableState

variable {key : TableKey} {t t₁ t₂ : TableState}

/-- The lists that the objects of two tables share. -/
structure SameParts (t₁ t₂ : TableState) : Prop where
  table : t₁.table = t₂.table
  flowtables : t₁.flowtables.values = t₂.flowtables.values
  chains : t₁.chains.values.map ChainState.chain = t₂.chains.values.map ChainState.chain
  rules : t₁.chains.values.flatMap ChainState.rules = t₂.chains.values.flatMap ChainState.rules
  sets : t₁.sets.values.map SetState.set = t₂.sets.values.map SetState.set
  maps : t₁.maps.values.map MapState.map = t₂.maps.values.map MapState.map
  elements : t₁.sets.values.flatMap SetState.elements ++ t₁.maps.values.flatMap MapState.elements
    = t₂.sets.values.flatMap SetState.elements ++ t₂.maps.values.flatMap MapState.elements
  counters : t₁.counters.values = t₂.counters.values

theorem sameParts (h : t₁.objects = t₂.objects) : SameParts t₁ t₂ := by
  have hkind (kind : Kind) : t₁.ofKind kind = t₂.ofKind kind := by
    rw [← filter_objects, h, filter_objects]
  exact {
    table := Object.table.inj (List.singleton_inj.mp (hkind .table))
    flowtables := (List.map_inj_right fun _ _ => Object.flowtable.inj).mp (hkind .flowtable)
    chains := (List.map_inj_right fun _ _ => Object.chain.inj).mp (hkind .chain)
    rules := (List.map_inj_right fun _ _ => Object.rule.inj).mp (hkind .rule)
    sets := (List.map_inj_right fun _ _ => Object.set.inj).mp (hkind .set)
    maps := (List.map_inj_right fun _ _ => Object.map.inj).mp (hkind .map)
    elements := (List.map_inj_right fun _ _ => Object.element.inj).mp (hkind .element)
    counters := (List.map_inj_right fun _ _ => Object.counter.inj).mp (hkind .counter) }

/-- The elements of sets and those of maps can be told apart. -/
theorem Filed.elements (h : t.Filed key) :
    (t.sets.values.flatMap SetState.elements ++ t.maps.values.flatMap MapState.elements).filter
        (·.set.isSome) = t.sets.values.flatMap SetState.elements ∧
    (t.sets.values.flatMap SetState.elements ++ t.maps.values.flatMap MapState.elements).filter
        (·.set.isNone) = t.maps.values.flatMap MapState.elements := by
  -- an element of a set names a set, and one of a map does not
  have hsets : ∀ e ∈ t.sets.values.flatMap SetState.elements, e.set.isSome = true := by
    intro e he
    obtain ⟨s, hs, he⟩ := List.mem_flatMap.mp he
    obtain ⟨name, hs⟩ := SortedMap.mem_values_iff.mp hs
    rw [(h.sets name s hs).2 e he]
    rfl
  have hmaps : ∀ e ∈ t.maps.values.flatMap MapState.elements, e.set = none := by
    intro e he
    obtain ⟨m, hm, he⟩ := List.mem_flatMap.mp he
    obtain ⟨name, hm⟩ := SortedMap.mem_values_iff.mp hm
    exact ((h.maps name m hm).2 e he).1
  constructor
  · rw [List.filter_append, List.filter_eq_self.mpr hsets,
      List.filter_eq_nil_iff.mpr fun e he => by simp [hmaps e he], List.append_nil]
  · rw [List.filter_append, List.filter_eq_nil_iff.mpr fun e he => by
      simp [Option.isSome_iff_ne_none.mp (hsets e he)],
      List.filter_eq_self.mpr fun e he => by simp [hmaps e he], List.nil_append]

/-- **The objects of a table tell the table.** -/
theorem Filed.eq_of_objects_eq (h₁ : t₁.Filed key) (h₂ : t₂.Filed key)
    (h : t₁.objects = t₂.objects) : t₁ = t₂ := by
  have hparts := sameParts h
  have helements := congrArg (List.filter (·.set.isSome)) hparts.elements
  have helements' := congrArg (List.filter (·.set.isNone)) hparts.elements
  rw [h₁.elements.1, h₂.elements.1] at helements
  rw [h₁.elements.2, h₂.elements.2] at helements'
  have hflowtables := SortedMap.map_eq_of_values id Flowtable.name Function.injective_id
    h₁.flowtables h₂.flowtables (congrArg (List.map id) hparts.flowtables)
  -- heads and parts: the chains themselves, and the rules that name them
  have hchains := SortedMap.map_eq_of_heads_parts ChainState.chain ChainState.rules id Chain.name
    Rule.chain Function.injective_id Function.injective_id h₁.chains h₂.chains hparts.chains
    hparts.rules fun _ _ _ _ _ => congrArg₂ ChainState.mk
  have hsets := SortedMap.map_eq_of_heads_parts SetState.set SetState.elements id NamedSet.name
    Element.set Function.injective_id (fun _ _ => Option.some.inj) h₁.sets h₂.sets hparts.sets
    helements fun _ _ _ _ _ => congrArg₂ SetState.mk
  have hmaps := SortedMap.map_eq_of_heads_parts MapState.map MapState.elements id NamedMap.name
    Element.map Function.injective_id (fun _ _ => Option.some.inj)
    (fun k m hm => (h₁.maps k m hm).imp id fun he e hmem => (he e hmem).2)
    (fun k m hm => (h₂.maps k m hm).imp id fun he e hmem => (he e hmem).2) hparts.maps
    helements' fun _ _ _ _ _ => congrArg₂ MapState.mk
  have hcounters := SortedMap.map_eq_of_values id Counter.name Function.injective_id
    h₁.counters h₂.counters (congrArg (List.map id) hparts.counters)
  simp only [SortedMap.map_id] at hflowtables hchains hsets hmaps hcounters
  obtain ⟨_, _, _, _, _, _⟩ := t₁
  obtain ⟨_, _, _, _, _, _⟩ := t₂
  cases hparts.table
  cases hflowtables
  cases hchains
  cases hsets
  cases hmaps
  cases hcounters
  rfl

end TableState

section Stored

variable {key : TableKey} {t : TableState}

/-- Rules are stored without a place, so the handles are all that there is to erase. -/
theorem TableState.WellFormed.objects_eraseHandles (hw : t.WellFormed key) :
    t.eraseHandles.objects = t.objects.map Object.eraseHandle := by
  -- erasing an object takes its place off as well, but none is stored with one
  have herased : ∀ o ∈ t.eraseHandles.objects, o.eraseHandle = o := by
    refine TableState.forall_objects rfl (SortedMap.all_map hw.flowtables fun _ _ _ => rfl)
      (SortedMap.all_map hw.chains fun _ c hc => ⟨rfl, fun r hr => ?_⟩)
      (SortedMap.all_map hw.sets fun _ _ _ => ⟨rfl, fun _ _ => rfl⟩)
      (SortedMap.all_map hw.maps fun _ _ _ => ⟨rfl, fun _ _ => rfl⟩)
      (SortedMap.all_map hw.counters fun _ _ _ => rfl)
    obtain ⟨r', hr', rfl⟩ := List.mem_map.mp hr
    have hindex := (hc.rules r' hr').index
    obtain ⟨_, _, _, _, _, _⟩ := r'
    cases hindex
    rfl
  have hsame := t.map_eraseHandle_objects fun _ => none
  rw [← hsame]
  exact ((List.map_congr_left herased).trans (List.map_id' _)).symm

theorem TableState.WellFormed.filed (hw : t.WellFormed key) : t.eraseHandles.Filed key where
  scope := by
    rw [hw.objects_eraseHandles]
    intro o ho
    obtain ⟨o', ho', rfl⟩ := List.mem_map.mp ho
    exact (Object.scope_eraseHandle o').trans (hw.scope_of_mem_objects o' ho')
  flowtables := SortedMap.all_map hw.flowtables fun _ _ hf => hf.named.1
  chains := SortedMap.all_map hw.chains fun _ _ hc =>
    ⟨hc.chain.named.1, List.forall_mem_map.mpr fun r hr => (hc.rules r hr).chain⟩
  sets := SortedMap.all_map hw.sets fun _ _ hs =>
    ⟨hs.set.named.1, fun e he => (hs.elements e he).set⟩
  maps := SortedMap.all_map hw.maps fun _ _ hm =>
    ⟨hm.map.named.1, fun e he => ⟨(hm.elements e he).set, (hm.elements e he).map⟩⟩
  counters := SortedMap.all_map hw.counters fun _ _ hc => hc.named.1

end Stored

namespace Ruleset

variable {r r₁ r₂ : Ruleset}

theorem WellFormed.objects_eraseHandles (hw : r.WellFormed) :
    r.eraseHandles.objects = r.objects.map Object.eraseHandle := by
  rw [objects, objects, eraseHandles, listing_mapHandles, List.flatMap_map, List.map_flatMap]
  refine List.flatMap_congr fun t ht => ?_
  obtain ⟨key, hkey⟩ := SortedMap.mem_values_iff.mp ht
  exact (hw key t hkey).objects_eraseHandles

theorem WellFormed.filed (hw : r.WellFormed) : r.eraseHandles.tables.All fun key t => t.Filed key :=
  SortedMap.all_map hw fun _ _ ht => ht.filed

theorem filter_tables (r : Ruleset) :
    r.objects.filter (·.kind = .table) = (r.tables.values.map TableState.table).map .table := by
  rw [objects, listing, List.filter_flatMap, List.map_map, List.map_eq_flatMap]
  exact List.flatMap_congr fun t _ => t.filter_objects .table

/-- **The objects of a well-formed ruleset tell the ruleset**, up to the handles. -/
theorem WellFormed.eraseHandles_eq (hw₁ : r₁.WellFormed) (hw₂ : r₂.WellFormed)
    (h : r₁.objects.map Object.eraseHandle = r₂.objects.map Object.eraseHandle) :
    r₁.eraseHandles = r₂.eraseHandles := by
  rw [← hw₁.objects_eraseHandles, ← hw₂.objects_eraseHandles] at h
  have hfiled : ∀ r : Ruleset, (r.tables.All fun key t => t.Filed key) →
      r.tables.All fun key t => t.table.scope = key.scope ∧ ∀ o ∈ t.objects, o.scope = key.scope :=
    fun r hr key t ht => ⟨(hr key t ht).scope _ List.mem_cons_self, (hr key t ht).scope⟩
  have htables := SortedMap.map_eq_of_heads_parts TableState.table TableState.objects id Table.scope
    Object.scope TableKey.scope_injective TableKey.scope_injective (hfiled _ hw₁.filed)
    (hfiled _ hw₂.filed) ?_ h fun key t₁ t₂ ht₁ ht₂ _ =>
      (hw₁.filed key t₁ ht₁).eq_of_objects_eq (hw₂.filed key t₂ ht₂)
  · rw [SortedMap.map_id, SortedMap.map_id] at htables
    exact congrArg Ruleset.mk htables
  · refine (List.map_inj_right fun _ _ => Object.table.inj).mp ?_
    rw [← filter_tables, h, filter_tables]

/-- **Dumps agree exactly if the rulesets do**, up to the handles. -/
theorem dump_eq_iff (hw₁ : r₁.WellFormed) (hw₂ : r₂.WellFormed) (hl₁ : r₁.Legible)
    (hl₂ : r₂.Legible) : r₁.dump = r₂.dump ↔ r₁.eraseHandles = r₂.eraseHandles :=
  ⟨fun h => hw₁.eraseHandles_eq hw₂ (objects_of_dump_eq hw₁ hw₂ hl₁ hl₂ h),
    dump_of_eraseHandles_eq⟩

end Ruleset

namespace Engine

/--
**The diff of two dumps is empty exactly if the rulesets agree**, up to the handles. That holds
after any two histories, of engines with whatever settings, as long as the objects can be told from
their lines. What they refer to need not be there, and a set may have the name of a map.
-/
theorem diff_dump_eq_none_iff (config₁ config₂ : Config) (calls₁ calls₂ : List Call)
    (hl₁ : ((ofConfig config₁).after calls₁).ruleset.Legible)
    (hl₂ : ((ofConfig config₂).after calls₂).ruleset.Legible) :
    LineDiff.diff? ((ofConfig config₁).after calls₁).dump ((ofConfig config₂).after calls₂).dump
        = none ↔
      ((ofConfig config₁).after calls₁).ruleset.eraseHandles
        = ((ofConfig config₂).after calls₂).ruleset.eraseHandles :=
  LineDiff.diff?_eq_none_iff.trans (Ruleset.dump_eq_iff (ruleset_wellFormed config₁ calls₁)
    (ruleset_wellFormed config₂ calls₂) hl₁ hl₂)

/-- A rule that begins like a place, a set with the name of a map, and a reference left behind. -/
def oddHistory (comment : String) : List Call :=
  [.run { family := some .ip, table := some "t" }
      [⟨.add, .table {}⟩,
        ⟨.add, .chain { name := "in" }⟩,
        ⟨.add, .chain { name := "out" }⟩,
        ⟨.add, .rule { chain := "in", body := "index 3 jump out", comment := some comment }⟩,
        ⟨.add, .set { name := "x", spec := { keyType := some "inet_service" } }⟩,
        ⟨.add, .map { name := "x", spec := { typeOf := some "tcp dport : verdict" } }⟩,
        ⟨.add, .element { set := some "x", key := ["22"] }⟩],
    .run { family := some .ip, table := some "t" } [⟨.delete, .chain { name := "out" }⟩]]

theorem diff_dump_eq_none_iff_oddHistory :
    let e₁ := (ofConfig {}).after (oddHistory "a")
    let e₂ := (ofConfig { family := some .inet }).after (oddHistory "b")
    (e₁.ruleset.Legible ∧ e₂.ruleset.Legible) ∧
      (LineDiff.diff? e₁.dump e₂.dump = none ↔
        e₁.ruleset.eraseHandles = e₂.ruleset.eraseHandles) := by
  intro e₁ e₂
  have hl₁ : e₁.ruleset.Legible := by decide +kernel
  have hl₂ : e₂.ruleset.Legible := by decide +kernel
  exact ⟨⟨hl₁, hl₂⟩, diff_dump_eq_none_iff _ _ _ _ hl₁ hl₂⟩

end Engine

end Nftables
