import Nftables.Proofs.Accepted
import Nftables.Proofs.Reading.Bare
import Nftables.Proofs.Reading.Content
import Nftables.Proofs.Reading.Keyed
import Nftables.Proofs.Reading.Table

/-!
# The text of a transaction is read back

A transaction that callers have built is written with a line for each operation. Reading the lines
does not give the same objects: what a verb does not write is lost, and so is what no command can
say. The objects that are read are fit for their verbs all the same, and they are written as the
lines that they were read from.

So the round trip cannot be `read (write op) = op`. What it is instead is `Operation.Echo`: under
the line of an operation stands *some* object, which is fit for the verb and which writes that very
line again. For each kind there is one object to name. Where the verb writes a body it is the object
as its commands say it (`Object.written`: spans in whole seconds, counts that are both there); where
it does not, it is the object with nothing but its name or its handle (`Object.bare`).

One thing keeps the lines from being read one by one. A `delete` of an element does not say whether
it is one of a set or of a map, and the reader decides that by the maps which it has met so far. The
echo is therefore stated for any list of known maps in which the name of the set does not occur, and
`Transaction.Unmixed` is what guarantees that for every place of the text (`set_ne_of_hasMap`).
-/

namespace Nftables

open Text Clause

/-! ## What is written of an object -/

/-- The span in whole seconds. -/
def Duration.whole (d : Duration) : Duration := { secs := d.secs }

def KeySpec.written (spec : KeySpec) : KeySpec :=
  { spec with
    timeout := spec.timeout.map Duration.whole
    gcInterval := spec.gcInterval.map Duration.whole }

def NamedSet.written (s : NamedSet) : NamedSet :=
  { s with
    spec := s.spec.written
    autoMerge := if s.autoMerge = some true then some true else none }

def NamedMap.written (m : NamedMap) : NamedMap := { m with spec := m.spec.written }

/-- A count that is absent beside the other is written as zero. -/
def Counter.written (c : Counter) : Counter :=
  if c.packets = none ∧ c.bytes = none then c
  else { c with packets := some (c.packets.getD 0), bytes := some (c.bytes.getD 0) }

theorem Counter.whole_written (c : Counter) : c.written.Whole := by
  unfold written
  split
  · rename_i hnone
    exact .inl hnone
  · exact .inr ⟨_, _, rfl, rfl⟩

theorem KeySpec.clauses_written (spec : KeySpec) : spec.written.clauses = spec.clauses := by
  unfold clauses written
  rw [Option.map_map, Option.map_map]
  rfl

theorem Counter.body_written (c : Counter) : c.written.body = c.body := by
  unfold written
  split
  · rfl
  · rename_i hsome
    simp [body, countClause, hsome]

namespace Object

/-- The object as its commands say it. -/
def written : Object → Object
  | .set s => .set s.written
  | .map m => .map m.written
  | .counter c => .counter c.written
  | o => o

@[simp] theorem kind_written (o : Object) : o.written.kind = o.kind := by
  cases o <;> rfl

@[simp] theorem scope_written (o : Object) : o.written.scope = o.scope := by
  cases o with
  | counter c => simp only [written, scope, Counter.written]; split <;> rfl
  | _ => rfl

@[simp] theorem name?_written (o : Object) : o.written.name? = o.name? := by
  cases o with
  | counter c => simp only [written, name?, Counter.written]; split <;> rfl
  | _ => rfl

@[simp] theorem handle_written (o : Object) : o.written.handle = o.handle := by
  cases o with
  | counter c => simp only [written, handle, Counter.written]; split <;> rfl
  | _ => rfl

/-- What no command can say is not in the commands. -/
theorem command_written (verb : Verb) (o : Object) : o.written.command verb = o.command verb := by
  cases o with
  | set s =>
    -- of a set, only `auto-merge` that is true is written, and no part of a second
    have hbody : s.written.body = s.body := by
      simp only [NamedSet.body, NamedSet.written, KeySpec.clauses_written]
      by_cases h : s.autoMerge = some true <;> simp [h, KeySpec.written]
    show NamedSet.command verb s.written = s.command verb
    rw [NamedSet.command, NamedSet.command, hbody]
    rfl
  | map m =>
    have hbody : m.written.body = m.body := by
      simp only [NamedMap.body, NamedMap.written, KeySpec.clauses_written]
      rfl
    show NamedMap.command verb m.written = m.command verb
    rw [NamedMap.command, NamedMap.command, hbody]
    rfl
  | counter c =>
    have hscope := scope_written (.counter c)
    have hname := name?_written (.counter c)
    have hhandle := handle_written (.counter c)
    simp only [written, scope, name?, handle, Option.some.injEq] at hscope hname hhandle
    show Counter.command verb c.written = c.command verb
    rw [Counter.command, Counter.command, Counter.body_written, hscope, hname, hhandle]
  | _ => rfl

theorem validateKind_written (verb : Verb) (o : Object) :
    o.written.validateKind verb = o.validateKind verb := by
  cases o with
  | counter c => simp only [written, validateKind, Counter.written]; split <;> rfl
  | _ => rfl

end Object

/-! ## Plain operations -/

/-- The operation gives the handle of its object in place of the name. -/
def Operation.ByHandle (op : Operation) : Prop := op.verb = .delete ∧ op.object.handle ≠ none

instance (op : Operation) : Decidable op.ByHandle := inferInstanceAs (Decidable (_ ∧ _))

/-- What the verb writes behind the name of the object is plain. -/
def Object.PlainText (verb : Verb) : Object → Prop
  | .table t => verb.writesBody = true → PlainComment t.comment
  | .chain c => verb.writesBody = true → c.Plain
  | .rule r =>
    PlainName r.chain ∧ (∀ n ∈ r.index, n ≤ maxWord) ∧ (verb ≠ .delete → r.Plain)
  | .set s => verb.writesBody = true → s.written.Plain
  | .map m => verb.writesBody = true → m.written.Plain
  | .element e =>
    PlainName e.container ∧ (∀ p ∈ e.key, PlainPart p) ∧ (verb.writesBody = true → e.Plain)
  | .flowtable f => verb.writesBody = true → f.Plain
  | .counter c => verb.writesBody = true → c.written.Plain

instance (verb : Verb) (o : Object) : Decidable (o.PlainText verb) := by
  cases o <;> unfold Object.PlainText <;> infer_instance

/-- The texts that the operation writes are plain, and its numbers are of 64 bits. -/
@[mk_iff]
structure Operation.Plain (op : Operation) : Prop where
  /-- A table that is deleted by its handle is not named. -/
  table : op.ByHandle ∧ op.object.kind = .table ∨ ∀ name ∈ op.object.scope.table, PlainName name
  name : op.ByHandle ∨ ∀ name ∈ op.object.name?, PlainName name
  handle : ∀ n ∈ op.object.handle, n ≤ maxWord
  text : op.object.PlainText op.verb

instance (op : Operation) : Decidable op.Plain := decidable_of_iff _ (Operation.plain_iff op).symm

/-- The object is an element of a set that has the name of the map `o'` of its table. -/
def Object.Clashes : Object → Object → Prop
  | .element e, .map m => e.set = some m.name ∧ e.scope = m.scope
  | _, _ => False

instance (o o' : Object) : Decidable (o.Clashes o') := by
  unfold Object.Clashes
  split <;> infer_instance

/-- No element is in a set that has the name of a map of its table. -/
def Transaction.Unmixed (tx : Transaction) : Prop :=
  ∀ op ∈ tx.operations, ∀ op' ∈ tx.operations, ¬ op.object.Clashes op'.object

instance (tx : Transaction) : Decidable tx.Unmixed := inferInstanceAs (Decidable (∀ _ ∈ _, _))

/-! ## Each operation is echoed -/

/-- The object is a map of this name. -/
def Command.MapName.Names (n : MapName) (o : Object) : Prop :=
  o.kind = .map ∧ o.scope = ⟨some n.family, some n.table⟩ ∧ o.name? = some n.name

/--
The line of the operation is read as `o'`. That is fit for the verb, and written as the line, with
whatever defaults.
-/
structure Operation.Echo (known : List Command.MapName) (op : Operation) (key : TableKey)
    (o' : Object) : Prop where
  word : Word key.name.toList
  reading : ∃ tail rest, ReadsBack known key op.verb op.object o' tail rest
  fit : ∀ defaults, (o'.applyDefaults defaults).validate op.verb = .ok ()
  command : ∀ defaults, (o'.applyDefaults defaults).command op.verb = op.command
  declares : ∀ n ∈ key.declares o', n.name = "" ∨ n.Names op.object

section Kinds

variable {known : List Command.MapName} {op : Operation} {key : TableKey} {verb : Verb}
  {o o' : Object} {name : String}

theorem names_of_declares (hscope : o.scope = key.scope) {n : Command.MapName}
    (hn : n ∈ key.declares o) : n.Names o := by
  cases o with
  | map m =>
    cases List.mem_singleton.mp hn
    exact ⟨rfl, hscope, rfl⟩
  | _ => cases hn

/-- In what is read with a complete scope, the defaults change nothing. -/
theorem Operation.echo_of_scope (hscope : op.object.scope = key.scope) (hkey : PlainName key.name)
    (hreading : ∃ tail rest, ReadsBack known key op.verb op.object o' tail rest)
    (hscope' : o'.scope = key.scope) (hkind : o'.kind = op.object.kind)
    (hname : o'.name? = some "" ∨ o'.name? = op.object.name?)
    (hfit : o'.validateKind op.verb = .ok ()) (hcommand : o'.command op.verb = op.command) :
    op.Echo known key o' where
  word := hkey.1
  reading := hreading
  fit defaults := by
    rw [Object.applyDefaults_eq hscope']
    refine Object.validate_of_scope hscope' (fun hempty => hkey.1.1 ?_) hfit
    rw [hempty]
    rfl
  command defaults := by rw [Object.applyDefaults_eq hscope', hcommand]
  declares n hn := by
    obtain ⟨hmap, hplace, hn⟩ := names_of_declares hscope' hn
    rcases hname with hname | hname
    · rw [hname] at hn
      exact .inl (Option.some.inj hn).symm
    · exact .inr ⟨hkind ▸ hmap, hscope.trans (hscope'.symm.trans hplace), hname ▸ hn⟩

/-! ### Named objects -/

/-- The verbs that put a named object there write all that is read back of it. -/
theorem readsBack_written (known : List Command.MapName) (hname : o.name? = some name)
    (hscope : o.scope = key.scope) (hhandle : o.handle = none) (hverb : verb.Puts)
    (hv : o.validateKind verb = .ok ()) (hp : o.PlainText verb) :
    ∃ tail rest, ReadsBack known key verb o o.written tail rest := by
  -- the verbs that put an object there are those that write its body
  have hb := Verb.puts_iff.mp hverb
  have hread : ∃ tail rest, ReadsBack known key verb o.written o.written tail rest := by
    have hscope' := (Object.scope_written o).trans hscope
    have hhandle' := (Object.handle_written o).trans hhandle
    cases o with
    | chain c => exact readsBack_chain known hscope hhandle hverb hv (hp hb)
    | set s => exact readsBack_set known hscope hhandle hverb hv (hp hb)
    | map m => exact readsBack_map known hscope hhandle hverb hv (hp hb)
    | flowtable f => exact readsBack_flowtable known hscope hhandle hverb hv (hp hb)
    | counter c =>
      exact readsBack_counter known hscope' hhandle' hverb c.whole_written (hp hb)
    | _ => cases hname
  obtain ⟨tail, rest, h⟩ := hread
  have hkind := Object.kind_written o
  exact ⟨tail, rest, h.apart, h.cut, by rw [← Object.command_written, h.text, hkind],
    hkind ▸ h.reading⟩

theorem Operation.echo_named (known : List Command.MapName) (hname : op.object.name? = some name)
    (hscope : op.object.scope = key.scope) (hkey : PlainName key.name)
    (hv : op.object.validateKind op.verb = .ok ()) (hd : op.verb ≠ .destroy) (hp : op.Plain) :
    ∃ o', op.Echo known key o' := by
  have haddressed := Object.addressed_of_validate hname hv
  cases hb : op.verb.writesBody with
  | false =>
    -- where there is a handle it is written, and the name is not looked at
    have hplain : op.object.handle = none → PlainName name := fun hnone =>
      hp.name.resolve_left (fun h => h.2 hnone) name hname
    exact ⟨op.object.bare, echo_of_scope hscope hkey
      (readsBack_bare known hname hscope hb haddressed hplain hp.handle)
      ((Object.scope_bare _).trans hscope) (Object.kind_bare _) (Object.name?_bare_cases _)
      (Object.validateKind_bare hname hb (fun h => absurd h hd) hv)
      (Object.command_bare hname hb haddressed)⟩
  | true =>
    -- only a `delete` goes by handle, and that writes no body
    have hhandle : op.object.handle = none := by
      generalize op.object.handle = handle at haddressed
      cases haddressed with
      | byName => rfl
      | byHandle n hdelete =>
        rw [hdelete] at hb
        cases hb
    exact ⟨op.object.written, echo_of_scope hscope hkey
      (readsBack_written known hname hscope hhandle (Verb.puts_iff.mpr hb) hv hp.text)
      ((Object.scope_written _).trans hscope) (Object.kind_written _)
      (.inr (Object.name?_written _)) ((Object.validateKind_written _ _).trans hv)
      (Object.command_written _ _)⟩

/-! ### Tables -/

/-- In the line of a table that is deleted by its handle, the keyword stands where a name would. -/
def TableKey.ofHandle (family : Family) : TableKey := ⟨family, "handle"⟩

theorem readsBack_tableHandle (known : List Command.MapName) {family : Family}
    {table comment : Option String} {n : Nat} (hn : n ≤ maxWord) :
    ∃ tail rest, ReadsBack known (.ofHandle family) .delete
      (.table { scope := ⟨some family, table⟩, comment, handle := some n })
      (.table { scope := { family }, handle := some n }) tail rest := by
  have hword := (bareWord_numeral n).word
  refine ⟨' ' :: numeral n, numeral n, ⟨?_, blank_head " " (by decide) _, ?_⟩,
    expect_append " " _, ?_, ?_⟩
  · have hline : '\n' ∉ numeral n := hword.not_mem (by decide)
    simp [hline]
  · rw [← List.singleton_append, List.getLast?_append_of_ne_nil _ hword.1]
    exact hword.trimmed.2
  · show (Table.command .delete _).toList = _
    simp [Table.command, namedLine, commandLine, TableKey.ofHandle, familyText, toString_string,
      numeral, Verb.name, Object.kind]
  · have hkeyword : (TableKey.ofHandle family).name.toList = "handle".toList := rfl
    refine bind_of_ok ?_
    rw [Command.readTable, if_pos hkeyword, trim_eq_self hword.trimmed]
    exact bind_of_ok (number_numeral hn)

/-- A table that is named by its handle is deleted, and comes back without its name. -/
theorem Operation.echo_tableHandle (known : List Command.MapName) {t : Table}
    (hhandle : t.handle ≠ none) (hv : (Object.table t).validate verb = .ok ())
    (hn : ∀ n ∈ t.handle, n ≤ maxWord) : ∃ key o', Echo known ⟨verb, .table t⟩ key o' := by
  obtain ⟨⟨family, table⟩, comment, handle⟩ := t
  obtain ⟨n, rfl⟩ := Option.ne_none_iff_exists'.mp hhandle
  rw [Object.validate, andThen_eq_ok] at hv
  obtain ⟨hfamily, hkind⟩ := hv
  -- no other verb is accepted with a handle
  have hdelete : verb = .delete := by
    cases verb with
    | delete => rfl
    | _ => cases hkind
  subst hdelete
  obtain ⟨family, rfl⟩ := Option.ne_none_iff_exists'.mp (refuseIf_eq_ok.mp hfamily)
  exact ⟨.ofHandle family, .table { scope := { family }, handle := some n },
    { word := show Word "handle".toList by decide
      reading := readsBack_tableHandle known (hn n rfl)
      fit := fun _ => rfl
      command := fun _ => rfl
      declares := fun _ h => absurd h List.not_mem_nil }⟩

theorem Operation.echo_table (known : List Command.MapName) {t : Table}
    (hscope : t.scope = key.scope) (hkey : PlainName key.name) (hhandle : t.handle = none)
    (hv : t.validate verb = .ok ()) (hp : (Object.table t).PlainText verb) :
    ∃ o', Echo known ⟨verb, .table t⟩ key o' := by
  cases hb : verb.writesBody with
  | true =>
    have hwritten := (Verb.puts_iff.mpr hb).bodyOf t.body
    exact ⟨.table t, echo_of_scope hscope hkey
      (readsBack_table known hscope hhandle hscope hhandle hwritten hkey (hp hb)) hscope rfl
      (.inr rfl) hv rfl⟩
  | false =>
    have hwritten : verb.bodyOf t.body = "" := by
      rw [Verb.bodyOf, hb]
      rfl
    refine ⟨.table { scope := t.scope }, echo_of_scope hscope hkey
      (readsBack_table known hscope hhandle hscope rfl hwritten hkey (by simp [PlainComment]))
      hscope rfl (.inr rfl) ?_ ?_⟩
    · obtain ⟨scope, comment, handle⟩ := t
      cases hhandle
      exact hv
    · show Table.command verb { scope := t.scope } = t.command verb
      rw [Table.command, Table.command, hhandle]
      exact namedLine_bodiless hb _ _ _ _ _ _

/-! ### Rules -/

theorem Operation.echo_rule (known : List Command.MapName) {r : Rule} (hscope : r.scope = key.scope)
    (hkey : PlainName key.name) (hv : r.validate verb = .ok ()) (hp : Plain ⟨verb, .rule r⟩) :
    ∃ o', Echo known ⟨verb, .rule r⟩ key o' := by
  obtain ⟨hchain, hindex, htext⟩ := hp.text
  have hchecks := hv
  unfold Rule.validate at hchecks
  rw [andThen_eq_ok, andThen_eq_ok, refuseIf_eq_ok, refuseIf_eq_ok] at hchecks
  obtain ⟨-, hboth, hchecks⟩ := hchecks
  -- an index and a handle together have been refused
  have hsingle : r.index = none ∨ r.handle = none := by
    by_contra! hsome
    exact hboth hsome
  -- these three write the rule as a whole, and it is read back as it is
  have hwhole : verb = .add ∨ verb = .insert ∨ verb = .replace →
      ∃ o', Echo known ⟨verb, .rule r⟩ key o' := by
    intro hverb
    have hnot : verb ≠ .delete := by
      rcases hverb with rfl | rfl | rfl <;> decide
    have hplain : r.Plain := htext hnot
    exact ⟨.rule r, echo_of_scope hscope hkey
      (readsBack_rule known hscope hverb hchain hindex hp.handle hsingle hplain) hscope rfl
      (.inr rfl) hv rfl⟩
  cases verb with
  | add => exact hwhole (.inl rfl)
  | insert => exact hwhole (.inr (.inl rfl))
  | replace => exact hwhole (.inr (.inr rfl))
  | delete =>
    have hhandle : r.handle ≠ none := refuseIf_eq_ok.mp hchecks
    exact ⟨.rule { r with body := "", comment := none }, echo_of_scope hscope hkey
      (readsBack_deletedRule known hscope hchain (hsingle.resolve_right hhandle) hhandle hp.handle)
      hscope rfl (.inr rfl) hv rfl⟩
  | create => cases hchecks
  | destroy => cases hchecks
  | flush => cases hchecks
  | reset => cases hchecks

/-! ### Elements -/

/-- An element that is put somewhere is one of the set or one of the map that it names. -/
theorem Element.inSet_or_inMap {e : Element} (hscope : e.scope = key.scope) (hverb : verb.Puts)
    (hv : e.validate verb = .ok ()) : e.InSet key e.container ∨ e.InMap key e.container := by
  obtain ⟨hboth, -⟩ := shape_of_validate hv
  obtain ⟨hmapValue, hsetValue⟩ := value_of_validate hverb hv
  cases hset : e.set with
  | some name =>
    have hcontainer : e.container = name := by
      rw [container, hset]
      rfl
    have hmap : e.map = none := by
      by_contra hsome
      exact hboth ⟨by simp [hset], hsome⟩
    exact .inl ⟨hscope, hcontainer ▸ hset, hmap, hsetValue (by simp [hset])⟩
  | none =>
    have hcontainer : e.container = e.map.getD "" := by
      rw [container, hset]
      rfl
    cases hmap : e.map with
    | some name =>
      rw [hmap] at hcontainer
      exact .inr ⟨hscope, hset, hmap.trans (congrArg some hcontainer.symm),
        hmapValue (by simp [hmap])⟩
    | none =>
      rw [hmap] at hcontainer
      exact absurd hcontainer (container_of_validate hv)

/-- Of elements, a verb that writes no value only deletes. -/
theorem Element.verb_of_validate {e : Element} (hv : e.validate verb = .ok ())
    (hd : verb ≠ .destroy) : verb.Puts ∨ verb = .delete := by
  unfold validate at hv
  rw [andThen_eq_ok, andThen_eq_ok, andThen_eq_ok] at hv
  have hv := hv.2.2.2
  cases verb with
  | add => exact .inl (.inl rfl)
  | create => exact .inl (.inr rfl)
  | delete => exact .inr rfl
  | destroy => exact absurd rfl hd
  | insert | replace | flush | reset => cases hv

theorem Operation.echo_element (known : List Command.MapName) {e : Element}
    (hscope : e.scope = key.scope) (hkey : PlainName key.name) (hv : e.validate verb = .ok ())
    (hd : verb ≠ .destroy) (hp : Plain ⟨verb, .element e⟩)
    (hknown : ∀ name, e.set = some name → ⟨key.family, key.name, name⟩ ∉ known) :
    ∃ o', Echo known ⟨verb, .element e⟩ key o' := by
  obtain ⟨hcontainer, hparts, htext⟩ := hp.text
  obtain ⟨-, hne⟩ := Element.shape_of_validate hv
  rcases Element.verb_of_validate hv hd with hputs | rfl
  · have hplain := htext (Verb.puts_iff.mp hputs)
    refine ⟨.element e, echo_of_scope hscope hkey ?_ hscope rfl (.inr rfl) hv rfl⟩
    rcases Element.inSet_or_inMap hscope hputs hv with hset | hmap
    · have hread := readsBack_setElement hcontainer hset hputs hne hplain.parts
        (hknown _ hset.set)
      rwa [hplain.reread_eq] at hread
    · have hread := readsBack_mapElement known hcontainer hmap hputs hne hplain.parts
      rwa [hplain.reread_eq] at hread
  · have hbodiless : Verb.delete.writesBody = false := rfl
    have hreading := readsBack_bareElement known hbodiless hscope hcontainer hne hparts
    -- read as one of a set or of a map, it is written alike
    generalize decide (_ ∈ known) = isMap at hreading
    refine ⟨_, echo_of_scope hscope hkey hreading Element.scope_ofKey rfl (.inr rfl) ?_ ?_⟩
    · refine Element.validate_delete.mpr ⟨?_, ?_, ?_⟩
      · cases isMap <;> simp [Element.ofKey]
      · rw [Element.container_ofKey]
        exact Element.container_of_validate hv
      · rwa [Element.key_ofKey]
    · show Element.command .delete _ = Element.command .delete e
      rw [Element.command, Element.command, Element.scope_ofKey, Element.container_ofKey,
        Element.key_ofKey, hscope]
      rfl

/-! ### All objects -/

/-- Only a table that is deleted by its handle can leave its scope open. -/
theorem Object.key_of_validate (hkind : o.kind ≠ .table ∨ o.handle = none)
    (h : o.validate verb = .ok ()) : ∃ key : TableKey, o.scope = key.scope ∧ key.name ≠ "" := by
  unfold validate at h
  rw [andThen_eq_ok] at h
  have hs := h.1
  unfold requireScope at hs
  split at hs
  · rcases hkind with hkind | hhandle
    · exact absurd rfl hkind
    · cases hhandle
  · obtain ⟨family, name, hscope, hname⟩ := requireScope_eq_ok.mp hs
    exact ⟨⟨family, name⟩, hscope, hname⟩

/--
**Every operation that is plain and fit is echoed by its line**, unless it is about an element of a
set and a known map has the name of that.
-/
theorem Operation.echo (known : List Command.MapName)
    (hv : op.object.validate op.verb = .ok ()) (hd : op.verb ≠ .destroy) (hp : op.Plain)
    (hknown : ∀ e n, op.object = .element e → n ∈ known → e.set = some n.name →
      e.scope ≠ ⟨some n.family, some n.table⟩) :
    ∃ key o', op.Echo known key o' := by
  have hkindFit := Object.validateKind_of_validate hv
  obtain ⟨verb, o⟩ := op
  -- all but a table by its handle say in the line where they are
  by_cases hcase : o.kind ≠ .table ∨ o.handle = none
  · obtain ⟨key, hscope, -⟩ := Object.key_of_validate hcase hv
    have hkey : PlainName key.name := by
      refine hp.table.resolve_left ?_ key.name (by rw [hscope]; rfl)
      rintro ⟨⟨-, hhandle⟩, htable⟩
      exact hcase.elim (fun hkind => hkind htable) fun hnone => hhandle hnone
    refine ⟨key, ?_⟩
    cases o with
    | table t =>
      have hhandle : t.handle = none := hcase.resolve_left fun hkind => hkind rfl
      exact echo_table known hscope hkey hhandle hkindFit hp.text
    | rule r => exact echo_rule known hscope hkey hkindFit hp
    | element e =>
      exact echo_element known hscope hkey hkindFit hd hp fun name hset hmem =>
        hknown e _ rfl hmem hset hscope
    | chain c => exact echo_named known rfl hscope hkey hkindFit hd hp
    | set s => exact echo_named known rfl hscope hkey hkindFit hd hp
    | map m => exact echo_named known rfl hscope hkey hkindFit hd hp
    | flowtable f => exact echo_named known rfl hscope hkey hkindFit hd hp
    | counter c => exact echo_named known rfl hscope hkey hkindFit hd hp
  · -- a table that is deleted by its handle
    rw [not_or, Decidable.not_not] at hcase
    obtain ⟨htable, hhandle⟩ := hcase
    cases o with
    | table t => exact echo_tableHandle known hhandle hv hp.handle
    | _ => cases htable

end Kinds

/-! ## The round trip -/

/-- The line of the operation, without the line feed at its end. -/
def Operation.line (op : Operation) : List Char := op.command.toList.dropLast

namespace Transaction

/-- The map is one of the transaction's, or it was named by its handle. -/
def HasMap (tx : Transaction) (n : Command.MapName) : Prop :=
  n.name = "" ∨ ∃ op ∈ tx.operations, n.Names op.object

/-- No map of the transaction takes the place of a set that an operation has an element for. -/
theorem set_ne_of_hasMap {tx : Transaction} (hchecked : tx.Checked) (hunmixed : tx.Unmixed)
    {op : Operation} (hop : op ∈ tx.operations) {e : Element} (he : op.object = .element e)
    {n : Command.MapName} (hn : tx.HasMap n) (hset : e.set = some n.name) :
    e.scope ≠ ⟨some n.family, some n.table⟩ := by
  intro hscope
  rcases hn with hempty | ⟨op', hop', hkind, hscope', hname'⟩
  · -- no container is without a name
    have hv := Object.validateKind_of_validate (hchecked op hop)
    rw [he] at hv
    refine Element.container_of_validate hv ?_
    rw [Element.container, hset, hempty]
    rfl
  · refine hunmixed op hop op' hop' ?_
    rw [he]
    cases hmap : op'.object with
    | map m =>
      rw [hmap] at hscope' hname'
      exact ⟨hset.trans hname'.symm, hscope.trans hscope'.symm⟩
    | _ =>
      rw [hmap] at hkind
      cases hkind

/-- **The line of an operation queues one that is written alike**, wherever the line stands. -/
theorem queues_line {tx : Transaction} (hchecked : tx.Checked) (hunmixed : tx.Unmixed)
    {op : Operation} (hop : op ∈ tx.operations) (hd : op.verb ≠ .destroy) (hp : op.Plain) :
    Command.LineOf op.command op.line ∧
      Command.Queues tx.HasMap (fun op' => op'.command = op.command) op.line := by
  have hecho : ∀ known : List Command.MapName, (∀ n ∈ known, tx.HasMap n) →
      ∃ key o', op.Echo known key o' := fun known hknown =>
    Operation.echo known (hchecked op hop) hd hp fun e n he hmem hset =>
      set_ne_of_hasMap hchecked hunmixed hop he (hknown n hmem) hset
  constructor
  · -- the text of the line does not depend on the maps that are known
    obtain ⟨key, o', h⟩ := hecho [] fun n hn => absurd hn List.not_mem_nil
    obtain ⟨tail, rest, hreading⟩ := h.reading
    have hline := hreading.lineOf h.word
    rw [Operation.line, Operation.command, hline.dropLast_eq]
    exact hline
  · intro s hknown hrefusal
    obtain ⟨key, o', h⟩ := hecho s.known hknown
    obtain ⟨tail, rest, hreading⟩ := h.reading
    have hqueued := Command.State.line_readsBack hreading h.word
      (fun hdestroy => absurd hdestroy hd) (h.fit _) hrefusal
    rw [← (hreading.lineOf h.word).dropLast_eq] at hqueued
    -- what is known behind the line are the maps from before and the one that it declares
    refine ⟨_, _, fun n hn => ?_, ?_, hqueued⟩
    · rcases List.mem_append.mp hn with hn | hn
      · exact (h.declares n hn).imp id fun hnames => ⟨op, hop, hnames⟩
      · exact hknown n hn
    · exact h.command _

/-- What is queued has the verbs of the requests, where none is expanded. -/
theorem verb_of_mem_build {settings : Config} {requests : List Operation}
    (h : ∀ request ∈ requests, request.verb = .destroy → settings.emulateDestroy = false)
    {op : Operation} (hop : op ∈ (build settings requests).operations) :
    ∃ request ∈ requests, op.verb = request.verb := by
  rw [build_eq] at hop
  obtain ⟨request, hrequest, hop⟩ := List.mem_flatMap.mp hop
  have hmem := List.takeWhile_subset _ hrequest
  -- a request that is not expanded queues one operation, with its own verb
  have hsingle : ¬ (request.verb = .destroy ∧ settings.emulateDestroy = true) := fun hdestroy =>
    Bool.false_ne_true ((h request hmem hdestroy.1).symm.trans hdestroy.2)
  rw [Operation.queued, expand, if_neg hsingle] at hop
  cases List.mem_singleton.mp hop
  exact ⟨request, hmem, rfl⟩

/--
**The text of a transaction is read back to that text.** What callers have built without a
`destroy`, under whatever settings, is read under any others to as many operations, and these are
written as the same text. That is so as long as the texts that are written are plain, and no element
is in a set that has the name of a map of its table.
-/
theorem readCommands_text (settings config : Config) (requests : List Operation)
    (hverbs : ∀ request ∈ requests, request.verb ≠ .destroy)
    (hunmixed : (build settings requests).Unmixed)
    (hplain : ∀ op ∈ (build settings requests).operations, op.Plain) :
    ∃ tx, Command.readCommands config [] (build settings requests).text = .ok tx ∧
      tx.size = (build settings requests).size ∧ tx.text = (build settings requests).text := by
  have hverb : ∀ op ∈ (build settings requests).operations, op.verb ≠ .destroy := by
    intro op hop
    obtain ⟨request, hrequest, hsame⟩ :=
      verb_of_mem_build (fun r hr h => absurd h (hverbs r hr)) hop
    exact hsame ▸ hverbs request hrequest
  have hlines : ∀ op ∈ (build settings requests).operations, _ := fun op hop =>
    queues_line (checked_build settings requests) hunmixed hop (hverb op hop) (hplain op hop)
  -- from here on only the lines matter
  generalize build settings requests = tx at hlines ⊢
  obtain ⟨known, ops, hops, hread⟩ := Command.State.lines_queue Operation.command
    (fun op hop => ⟨(hlines op hop).1.trimmed, (hlines op hop).2⟩)
    ⟨[], .ofConfig config⟩ 1 (fun n hn => absurd hn List.not_mem_nil) rfl
  refine ⟨(ofConfig config).queue ops, ?_, ?_, congrArg String.join hops⟩
  · have hcut := Command.LineOf.lines_join fun op hop => (hlines op hop).1
    rw [Command.readCommands, text, hcut, hread]
    rfl
  · have hlength := congrArg List.length hops
    rwa [List.length_map, List.length_map] at hlength

/-- Requests with all verbs but `destroy`, some of which say more than is written of them. -/
def mixedRequests : List Operation :=
  [⟨.add, .table { comment := some "the \"edge\"" }⟩,
    ⟨.create, .chain
      { name := "in", chainType := some .filter, hook := some .ingress, priority := some "-10"
        device := some "eth0", comment := some "no; way" }⟩,
    ⟨.add, .rule { chain := "in", body := "ip saddr @blocked drop", comment := some "a \\ b" }⟩,
    ⟨.insert, .rule { chain := "in", body := "accept", index := some 0 }⟩,
    ⟨.replace, .rule { chain := "in", body := "jump out", handle := some 7 }⟩,
    ⟨.delete, .rule { chain := "in", body := "index", handle := some 7 }⟩,
    ⟨.add, .set
      { name := "blocked", autoMerge := some false
        spec := { keyType := some "ipv4_addr", flags := ["interval"], size := some 16
                  timeout := some { secs := 3600, nanos := 5 } } }⟩,
    ⟨.add, .map { name := "ports", spec := { typeOf := some "tcp dport : verdict" } }⟩,
    ⟨.add, .element { set := some "blocked", key := ["10.0.0.1"], comment := some "x : y" }⟩,
    ⟨.create, .element { map := some "ports", key := ["22"], value := ["jump out"] }⟩,
    ⟨.delete, .element { map := some "ports", key := ["22"], value := ["\n"] }⟩,
    ⟨.add, .flowtable { name := "fast", priority := some "filter", devices := ["eth0", "eth1"] }⟩,
    ⟨.add, .counter { name := "hits", packets := some 3 }⟩,
    ⟨.reset, .counter { name := "hits", comment := some "\n" }⟩,
    ⟨.flush, .set { name := "blocked" }⟩,
    ⟨.delete, .map { name := "handle", handle := some 4 }⟩,
    ⟨.delete, .chain { name := "in" }⟩,
    ⟨.flush, .table { comment := some "\n" }⟩,
    ⟨.delete, .table { handle := some 1 }⟩]

theorem readCommands_text_mixedRequests :
    let settings : Config := { family := some .netdev, table := some "t" }
    let tx := build settings mixedRequests
    tx.refusal = none ∧ tx.size = 19 ∧ ∃ tx', Command.readCommands {} [] tx.text = .ok tx' ∧
      tx'.size = tx.size ∧ tx'.text = tx.text := by
  intro settings tx
  refine ⟨by decide +kernel, by decide +kernel, ?_⟩
  exact readCommands_text settings {} mixedRequests (by decide +kernel) (by decide +kernel)
    (by decide +kernel)

end Transaction

end Nftables
