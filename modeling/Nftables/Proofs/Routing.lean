import Mathlib.Tactic.MkIffOfInductiveProp
import Nftables.Proofs.Splitting

/-!
# Where the element lines of a dump lead

In a dump, the line of an element names its container and says nothing of its kind. The reader takes
an element with a value for one of a map, and one without a value for one of a set, unless the lines
before have named a map like its container. All else is read as it is stored. So the elements of a
set go astray where a map of the same table has the set's name, and nowhere else, as long as every
object of the dump has a line to itself.

`Addressable` is much less than plain: texts that the theorem does not speak of may be anything, and
with a line feed in a comment the dump has more lines than objects. So the theorem has two parts.
The first takes the known maps as they are and says when the container comes back; for this the line
of the element is all that is needed. The second bounds the known maps by the maps of the table, and
asks that each object before the element is on a line of its own.

Even then a line may be one that cannot be read, as a whole or as it was meant. What it can declare
is known from its front all the same: the kind is the second word (`Line.kind_of_read?`), and of a
map the name is the word in front of its body (`name_of_readTarget`). The two runs at the end show
both outcomes, the second with a dump that is refused for a missing value.
-/

namespace Nftables

open Text Clause

/-! ## The front of a line -/

/-- What is written for an object is its line, which begins with the kind, and a line feed. -/
theorem Object.line_front (o : Object) : ∃ rest,
    o.line = "add ".toList ++ (o.kind.name.toList ++ ' ' :: rest) ∧
      (o.eraseHandle.command .add).toList = o.line ++ ['\n'] := by
  -- the line is the text without its last character
  have hcut : ∀ rest, (o.eraseHandle.command .add).toList
      = "add ".toList ++ (o.kind.name.toList ++ ' ' :: rest) ++ ['\n'] →
      o.line = "add ".toList ++ (o.kind.name.toList ++ ' ' :: rest) ∧
        (o.eraseHandle.command .add).toList = o.line ++ ['\n'] := by
    intro rest h
    have hline : o.line = "add ".toList ++ (o.kind.name.toList ++ ' ' :: rest) := by
      rw [line, h, List.dropLast_concat]
    exact ⟨hline, by rw [h, hline]⟩
  have hnamed : ∀ kind scope name body, (namedLine .add kind scope name none body).toList
      = "add ".toList ++ (kind.name.toList ++
        ' ' :: (scope ++ " " ++ name ++ body).toList) ++ ['\n'] := by
    intro kind scope name body
    simp [namedLine_none, Verb.bodyOf, Verb.writesBody, Verb.name, toString_string]
  cases o with
  | table t => exact ⟨_, hcut _ (hnamed .table _ _ _)⟩
  | chain c => exact ⟨_, hcut _ (hnamed .chain _ _ _)⟩
  | rule r =>
    refine ⟨(r.scope.text ++ " " ++ r.chain ++ " " ++ r.text).toList, hcut _ ?_⟩
    simp [eraseHandle, command, Rule.command, Rule.position, Rule.text, kind, Kind.name, Verb.name,
      toString_string]
  | set s => exact ⟨_, hcut _ (hnamed .set _ _ _)⟩
  | map m => exact ⟨_, hcut _ (hnamed .map _ _ _)⟩
  | element e =>
    refine ⟨(e.scope.text ++ " " ++ e.container ++ " \x7b " ++ joinParts e.key ++ e.tail
      ++ " \x7d").toList, hcut _ ?_⟩
    simp [eraseHandle, command, Element.command, kind, Kind.name, Verb.name, Verb.writesBody,
      toString_string]
  | flowtable f => exact ⟨_, hcut _ (hnamed .flowtable _ _ _)⟩
  | counter c => exact ⟨_, hcut _ (hnamed .counter _ _ _)⟩

namespace Command

variable {known : List MapName} {line : List Char} {c : Parsed}

/-- The kind is read from the second word. -/
theorem Line.kind_of_read? {kind : Kind} {rest : List Char} {l : Line}
    (hrest : ∀ c ∈ rest.head?, isWordChar c = false)
    (h : Line.read? ("add ".toList ++ (kind.name.toList ++ rest)) = some l) :
    l.kind = kind.name.toList := by
  have hverb : readRun isWordChar ("add".toList ++ ' ' :: (kind.name.toList ++ rest))
      = some ("add".toList, ' ' :: (kind.name.toList ++ rest)) := by
    refine readRun_append (by decide) (by decide +kernel) fun c hc => ?_
    cases hc
    decide +kernel
  have hkind := readRun_append kind.bareWord_name.1 kind.isWordChar_name hrest
  have hspace : expect " " (' ' :: (kind.name.toList ++ rest)) = some (kind.name.toList ++ rest) :=
    expect_append " " _
  rw [show "add ".toList ++ (kind.name.toList ++ rest)
    = "add".toList ++ ' ' :: (kind.name.toList ++ rest) from rfl, Line.read?, hverb] at h
  simp only [hspace, hkind, Option.bind_eq_bind, Option.bind_some, Option.bind_eq_some_iff] at h
  obtain ⟨_, -, _, -, _, -, _, -, _, -, h⟩ := h
  cases h
  rfl

/-- Only the line of a map names one. -/
theorem declares_of_kind {kind : Kind} {l : Line} (h : readCommand known line = .ok c)
    (hl : Line.read? line = some l) (hkind : l.kind = kind.name.toList) (hmap : kind ≠ .map) :
    c.declares = [] := by
  obtain ⟨l', verb, kind', family, hl', -, hkind', h⟩ := readObject_of_readCommand h
  obtain rfl : l = l' := Option.some.inj (hl.symm.trans hl')
  have hread : word Kind.read l.kind = .ok kind := by
    rw [hkind]
    exact word_of_read (by rw [Kind.read, Kind.ofName?_name]; rfl)
  obtain rfl : kind = kind' := Except.ok.inj (hread.symm.trans hkind')
  unfold readObject at h
  cases kind with
  | map => exact absurd rfl hmap
  | _ =>
    obtain ⟨o, -, h⟩ := bind_ok h
    cases h
    rfl

/-- The name of an object is the word in front of its body, whatever the body says. -/
theorem name_of_readTarget {name : String} {body : List Char} {target : Target}
    (hname : PlainName name) (hbody : ∀ c ∈ body.head?, isBlank c = true)
    (h : readTarget (name.toList ++ body) = .ok target) : target.name = name := by
  rw [readTarget, expect_handle_eq_none hname hbody] at h
  obtain ⟨⟨found, inside⟩, hfound, h⟩ := bind_ok h
  cases h
  have hread : readNameAndBody (name.toList ++ body)
      = (readBody body).map fun inside => (name.toList, inside) := by
    rw [readNameAndBody, readWord_append hname.1 hbody]
    cases hinside : readBody body <;> simp [hinside]
  rw [hread] at hfound
  cases hinside : readBody body with
  | none =>
    rw [hinside] at hfound
    cases hfound
  | some inside' =>
    rw [hinside] at hfound
    cases hfound
    exact String.ofList_toList

/-- The line of a map names this map, if it can be read. -/
theorem declares_mapLine {key : TableKey} {m : NamedMap} (hscope : m.scope = key.scope)
    (hkey : PlainName key.name) (hname : PlainName m.name)
    (h : readCommand known (trim (Object.map m).line) = .ok c) :
    c.declares = key.declares (.map m) := by
  have hbody : ∀ c ∈ (m.body.toList).head?, isBlank c = true := by
    rw [NamedMap.body, toList_braced]
    exact blank_head " \x7b" (by decide) _
  have hline : (Object.map m).line
      = commandLine .add .map key (' ' :: (m.name.toList ++ m.body.toList)) := by
    have htext := toList_namedLine .add .map key m.name m.body
    rw [← hscope] at htext
    rw [Object.line]
    exact (congrArg List.dropLast htext).trans List.dropLast_concat
  have htrimmed : Trimmed (Object.map m).line := by
    -- the line ends with the brace behind the body
    have hcut : (Object.map m).line = ['a'] ++ ("dd map ".toList ++ (key.family.name.toList ++
        ' ' :: (key.name.toList ++ ' ' :: (m.name.toList ++ (" \x7b".toList ++
          (padded (m.spec.clauses ++ commentClause m.spec.comment) ++ [' '])))))) ++ ['\x7d'] := by
      rw [hline, commandLine, NamedMap.body, toList_braced]
      simp [Verb.name, Kind.name]
    rw [hcut]
    exact Trimmed.between (by decide) (by decide) (by simp) (by simp) _
  have hread : readCommand known (commandLine .add .map key
      (' ' :: (m.name.toList ++ m.body.toList))) = _ :=
    readCommand_commandLine known .add .map hkey.1 (blank_head " " (by decide) _)
      (expect_append " " _)
  rw [trim_eq_self htrimmed, hline, hread] at h
  obtain ⟨found, hfound, h⟩ := bind_ok h
  cases h
  obtain ⟨target, clauses, htarget, -, -, rfl⟩ := eq_of_readMap hfound
  rw [name_of_readTarget hname hbody htarget, String.ofList_toList]
  rfl

/-- If the object is a map, its name is plain. -/
def PlainMap : Object → Prop
  | .map m => PlainName m.name
  | _ => True

/-- **The line of an object names no map but the object.** -/
theorem mem_mapsOfLine {key : TableKey} {o : Object} (hscope : o.scope = key.scope)
    (hkey : PlainName key.name) (hname : PlainMap o) {n : MapName}
    (hn : n ∈ mapsOfLine (trim o.line)) : n ∈ key.declares o := by
  unfold mapsOfLine at hn
  split at hn
  · rename_i c hc
    by_cases hmap : o.kind = .map
    · cases o with
      | map m => rwa [declares_mapLine hscope hkey hname hc] at hn
      | _ => cases hmap
    · -- the kind stands in front, where trimming takes nothing off
      obtain ⟨rest, hline, -⟩ := o.line_front
      have hfront : Trimmed (['a'] ++ ['d', 'd', ' '] ++ o.kind.name.toList) :=
        Trimmed.between (by decide) o.kind.bareWord_name.word.trimmed (by decide)
          o.kind.bareWord_name.1 _
      have htrim : trim o.line
          = "add ".toList ++ (o.kind.name.toList ++ trimEnd (' ' :: rest)) := by
        rw [hline, ← List.append_assoc]
        exact trim_append hfront (by simp) (' ' :: rest)
      have hrest : ∀ c ∈ (trimEnd (' ' :: rest)).head?, isWordChar c = false := by
        intro c hc
        obtain ⟨t, ht⟩ := trimEnd_prefix (' ' :: rest)
        obtain ⟨s, hs⟩ := List.head?_eq_some_iff.mp hc
        rw [hs] at ht
        cases ht
        decide +kernel
      cases hl : Line.read? (trim o.line) with
      | none =>
        rw [readCommand, hl] at hc
        cases hc
      | some l =>
        have hkind := Line.kind_of_read? hrest (htrim ▸ hl)
        rw [declares_of_kind hc hl hkind hmap] at hn
        cases hn
  · cases hn

/-- **The lines of some objects name no map but these**, if each object is on a line of its own. -/
theorem mem_mapsNamed {l : List Object} (hlines : ∀ o ∈ l, '\n' ∉ o.line) {n : MapName}
    (hn : n ∈ mapsNamed (String.join (l.map fun o => o.eraseHandle.command .add))) :
    ∃ o ∈ l, n ∈ mapsOfLine (trim o.line) := by
  have htext : (String.join (l.map fun o => o.eraseHandle.command .add)).toList
      = (l.map Object.line).flatMap (· ++ ['\n']) := by
    rw [String.toList_join, List.flatMap_map, List.flatMap_map]
    refine List.flatMap_congr fun o _ => ?_
    obtain ⟨rest, -, h⟩ := o.line_front
    exact h
  rw [mapsNamed, htext, lines_flatMap (by simpa using hlines), List.map_map,
    List.flatMap_map] at hn
  obtain ⟨o, ho, hn⟩ := List.mem_flatMap.mp hn
  rw [Function.comp_apply, trim_dropReturn] at hn
  exact ⟨o, ho, hn⟩

end Command

/-! ## Elements -/

/-- The names of the table and of its sets and maps are plain, and so are their elements. -/
@[mk_iff]
structure TableState.Addressable (key : TableKey) (t : TableState) : Prop where
  name : PlainName key.name
  sets : t.sets.All fun name s => PlainName name ∧ ∀ e ∈ s.elements, e.PlainParts
  maps : t.maps.All fun name m => PlainName name ∧ ∀ e ∈ m.elements, e.PlainParts

instance (key : TableKey) (t : TableState) : Decidable (t.Addressable key) :=
  decidable_of_iff _ (TableState.addressable_iff key t).symm

def Ruleset.Addressable (r : Ruleset) : Prop := r.tables.All fun key t => t.Addressable key

instance (r : Ruleset) : Decidable r.Addressable := inferInstanceAs (Decidable (r.tables.All _))

section Elements

variable {key : TableKey} {t : TableState} {known : List Command.MapName} {e : Element}

/-- An element that is routed elsewhere keeps all but its container. -/
theorem Element.container_reroute :
    (e.reroute known).set = e.set ∧ (e.reroute known).map = e.map ↔ ¬ e.Astray known := by
  constructor
  · rintro ⟨hset, -⟩ hastray
    rw [reroute, if_pos hastray] at hset
    -- it had a set, and has none when it is routed to the map
    obtain ⟨n, -, -, hn⟩ := hastray
    rw [hn] at hset
    cases hset
  · intro h
    rw [reroute, if_neg h]
    exact ⟨rfl, rfl⟩

theorem Element.content_reroute (known : List Command.MapName) (e : Element) :
    (e.reroute known).scope = e.scope ∧
    (e.reroute known).key = e.key ∧ (e.reroute known).value = e.value := by
  unfold reroute
  split <;> exact ⟨rfl, rfl, rfl⟩

/-- If the object is an element, its line is read as the command to add it, with no map known. -/
def Object.ElementRestored (key : TableKey) : Object → Prop
  | .element e => ∃ tail rest, ReadsBack [] key .add (.element e) (.element e.reread) tail rest
  | _ => True

theorem TableState.WellFormed.elementRestored (hw : t.WellFormed key) (ha : t.Addressable key) :
    ∀ o ∈ t.objects, o.ElementRestored key := by
  refine forall_objects trivial (fun _ _ _ => trivial) (fun _ _ _ => ⟨trivial, fun _ _ => trivial⟩)
    ?_ ?_ (fun _ _ _ => trivial)
  · intro name s hs
    obtain ⟨hname, hparts⟩ := ha.sets name s hs
    have hset := hw.sets name s hs
    exact ⟨trivial, fun e he => readsBack_setElement hname (hset.elements e he) (.inl rfl)
      (hset.keyed.keys e he) (hparts e he) List.not_mem_nil⟩
  · intro name m hm
    obtain ⟨hname, hparts⟩ := ha.maps name m hm
    have hmap := hw.maps name m hm
    exact ⟨trivial, fun e he => readsBack_mapElement [] hname (hmap.elements e he) (.inl rfl)
      (hmap.keyed.keys e he) (hparts e he)⟩

/-- **The line of a stored element is read as it is stored, but for where known maps lead it.** -/
theorem TableState.WellFormed.readCommand_line (hw : t.WellFormed key) (ha : t.Addressable key)
    (he : .element e ∈ t.objects) (known : List Command.MapName) :
    Command.readCommand known (trim (Object.element e).line)
      = .ok ⟨⟨.add, .element (e.reread.reroute known)⟩, []⟩ := by
  obtain ⟨tail, rest, h⟩ := hw.elementRestored ha _ he
  have hline := h.lineOf ha.name.1
  have hread := h.readCommand ha.name.1
  rw [(show (Object.element e).line = _ from hline.dropLast_eq), trim_eq_self hline.trimmed,
    Command.readCommand_eq, hread]
  rfl

/-- The lines of stored objects name stored maps. -/
theorem Ruleset.WellFormed.hasMap_of_line {r : Ruleset} (hw : r.WellFormed) (ha : r.Addressable)
    {o : Object} (ho : o ∈ r.objects) {n : Command.MapName}
    (hn : n ∈ Command.mapsOfLine (trim o.line)) : r.HasMap n := by
  obtain ⟨t, ht, ho⟩ := List.mem_flatMap.mp ho
  obtain ⟨key, hkey⟩ := SortedMap.mem_values_iff.mp ht
  have hwt := hw key t hkey
  have hat := ha key t hkey
  have hname : Command.PlainMap o := by
    refine TableState.forall_objects trivial (fun _ _ _ => trivial)
      (fun _ _ _ => ⟨trivial, fun _ _ => trivial⟩) (fun _ _ _ => ⟨trivial, fun _ _ => trivial⟩)
      (fun name m hm => ⟨?_, fun _ _ => trivial⟩) (fun _ _ _ => trivial) o ho
    rw [Command.PlainMap, (hwt.maps name m hm).map.named.1]
    exact (hat.maps name m hm).1
  have hdeclares := Command.mem_mapsOfLine (hwt.scope_of_mem_objects o ho) hat.name hname hn
  have herase : key.declares o.eraseHandle = key.declares o := by cases o <;> rfl
  obtain ⟨hfamily, htable, hmap⟩ := hwt.declares o ho n (herase ▸ hdeclares)
  exact ⟨t, by rw [hfamily, htable]; exact hkey, hmap⟩

end Elements

namespace Engine

/--
**An element's line in a dump leads back to its container, unless a map has the container's name.**
After any history, the reader that has had the lines before takes the line of a stored element for
an element of the same table with the same key and value. The container is the same one unless
those lines have named a map that stands where the element's set does; and if each object before is
on a line of its own, then only because the table has a map of this name.
-/
theorem readCommand_elementLine (config : Config) (calls : List Call)
    (haddressable : ((ofConfig config).after calls).ruleset.Addressable)
    {before after : List Object} {e : Element}
    (hobjects : ((ofConfig config).after calls).ruleset.objects = before ++ .element e :: after) :
    let known := Command.mapsNamed (String.join (before.map fun o => o.eraseHandle.command .add))
    ∃ e', Command.readCommand known (trim (Object.element e).line)
        = .ok ⟨⟨.add, .element e'⟩, []⟩ ∧
      e'.scope = e.scope ∧ e'.key = e.key ∧ e'.value = e.value ∧
      (e'.set = e.set ∧ e'.map = e.map ↔ ¬ e.Astray known) ∧
      ((∀ o ∈ before, '\n' ∉ o.line) → e.Astray known →
        e.Astray ((ofConfig config).after calls).knownMaps) := by
  intro known
  have hw : ((ofConfig config).after calls).ruleset.WellFormed :=
    preserved_after (Ruleset.wellFormed_preserved _) calls Ruleset.wellFormed_empty
  have hmem : ∀ o ∈ before ++ .element e :: after,
      o ∈ ((ofConfig config).after calls).ruleset.objects := fun o ho => hobjects ▸ ho
  obtain ⟨t, ht, he⟩ := List.mem_flatMap.mp (hmem (.element e) (by simp))
  obtain ⟨key, hkey⟩ := SortedMap.mem_values_iff.mp ht
  have hread := (hw key t hkey).readCommand_line (haddressable key t hkey) he known
  obtain ⟨hscope, hpartsKey, hvalue⟩ := e.reread.content_reroute known
  refine ⟨_, hread, hscope, hpartsKey, hvalue, Element.container_reroute, ?_⟩
  rintro hlines ⟨n, hn, hplace⟩
  refine ⟨n, mem_knownMaps.mpr ?_, hplace⟩
  -- a map that is named by a line before is the object of that line, and so one of the table
  obtain ⟨o, ho, hn⟩ := Command.mem_mapsNamed hlines hn
  exact hw.hasMap_of_line haddressable (hmem o (List.mem_append_left _ ho)) hn

/-- A map `m`, and an element of a set with the given name. -/
def setHistory (settings : Config) (name : String) : List Call :=
  [.run settings
    [⟨.add, .table {}⟩,
      ⟨.add, .set { name, spec := { keyType := some "ipv4_addr" } }⟩,
      ⟨.add, .map { name := "m", spec := { keyType := some "ipv4_addr : verdict" } }⟩,
      ⟨.add, .element { set := some name, key := ["10.0.0.1"], comment := some "x : \"y\"" }⟩]]

theorem readCommand_elementLine_setHistory :
    let settings : Config := { family := some .ip, table := some "t" }
    let e := (ofConfig settings).after (setHistory settings "s")
    let element : Element :=
      { scope := settings.scope, set := some "s", key := ["10.0.0.1"]
        comment := some "x : \"y\"" }
    let known := Command.mapsNamed
      (String.join ((e.ruleset.objects.take 3).map fun o => o.eraseHandle.command .add))
    e.ruleset.objects = e.ruleset.objects.take 3 ++ [.element element] ∧
      ∃ e', Command.readCommand known (trim (Object.element element).line)
          = .ok ⟨⟨.add, .element e'⟩, []⟩ ∧
        e'.set = some "s" ∧ e'.map = none ∧ e'.key = ["10.0.0.1"] := by
  intro settings e element known
  have hobjects : e.ruleset.objects = e.ruleset.objects.take 3 ++ [.element element] := by
    decide +kernel
  obtain ⟨e', hread, -, hkey, -, hcontainer, hknown⟩ :=
    readCommand_elementLine settings (setHistory settings "s") (by decide +kernel) hobjects
  -- the table has no map of this name, and every object is on a line of its own
  have hplace : ¬ element.Astray e.knownMaps := by decide +kernel
  obtain ⟨hset, hmap⟩ := hcontainer.mpr (mt (hknown (by decide +kernel)) hplace)
  exact ⟨hobjects, e', hread, hset, hmap, hkey⟩

/-- Where the set has the name of the map, its element comes back as one of the map. -/
theorem readCommand_elementLine_sharedName :
    let settings : Config := { family := some .ip, table := some "t" }
    let e := (ofConfig settings).after (setHistory settings "m")
    let element : Element :=
      { scope := settings.scope, set := some "m", key := ["10.0.0.1"]
        comment := some "x : \"y\"" }
    let known := Command.mapsNamed
      (String.join ((e.ruleset.objects.take 3).map fun o => o.eraseHandle.command .add))
    e.ruleset.Addressable ∧
      e.ruleset.objects = e.ruleset.objects.take 3 ++ [.element element] ∧
      Command.readCommand known (trim (Object.element element).line)
        = .ok ⟨⟨.add, .element { element with set := none, map := some "m" }⟩, []⟩ ∧
      ((ofConfig settings).replay e.dump).2 ≠ .ok () := by
  decide +kernel

end Engine

end Nftables
