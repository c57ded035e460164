import Nftables.Proofs.Reading.Content
import Nftables.Proofs.Reading.Keyed
import Nftables.Proofs.Reading.Table
import Nftables.Proofs.Rebuild

/-!
# A dump is replayed to the ruleset it was written from

Every object of a plain, well-formed ruleset passes the checks again, and its line is read back as
the command to add it. So the lines of a dump, read one after the other, queue the objects of the
ruleset in their order, and running what was queued rebuilds the ruleset up to its handles.

Three facts about a stored object go into this. It is fit to be added (the `fit` lemmas), since
well-formedness has kept what validation once asked for. It is written on one line that is read as
the command to add it (`Object.Restored`); here the texts have to be plain. And what is added is
what was stored: defines are replaced when an object is stored, and what they are replaced by is
`Inert` as long as the engine has no defines of its own.

The reader knows more maps with each line, and only the line of an element asks for them. So the
lines are read under the assumption that all known maps are maps of the ruleset (`Ruleset.HasMap`),
which each line keeps; with no name shared by a set and a map, no element of a set is taken for one
of a map. What runs then is the chain of steps by which the objects of a ruleset rebuild it.
-/

namespace Nftables

open Text

/-! ## What is stored can be added again -/

theorem Object.scope_eraseHandle (o : Object) : o.eraseHandle.scope = o.scope := by
  cases o <;> rfl

theorem Object.kind_eraseHandle (o : Object) : o.eraseHandle.kind = o.kind := by
  cases o <;> rfl

section Fit

variable {key : TableKey} {name : String}

theorem requirePriority_of_fits {fault : PriorityFault → Violation} {family : Family}
    {priority : Option String} (h : PriorityFits family priority) :
    requirePriority fault (some family) priority = .ok () :=
  requirePriority_eq_ok.mpr h

theorem Chain.WellFormed.fit {c : Chain} (hw : c.WellFormed key name) :
    Chain.validate .add { c with handle := none } = .ok () := by
  have hfits := hw.device
  unfold Chain.validate
  rw [andThen_eq_ok, andThen_eq_ok, andThen_eq_ok, andThen_eq_ok, refuseIf_eq_ok, refuseIf_eq_ok,
    refuseIf_eq_ok, hw.scope]
  refine ⟨?_, ?_, ?_, requirePriority_of_fits hw.priority, ?_⟩
  -- a chain has its hook, its type and its priority together or not at all
  · rintro ⟨hhook, hrest⟩
    rcases hw.attached with ⟨hsome, -⟩ | ⟨-, htype, hpriority⟩
    · rw [hhook] at hsome
      cases hsome
    · exact hrest.elim (absurd htype) (absurd hpriority)
  · rintro ⟨hhook, hrest⟩
    rcases hw.attached with ⟨-, htype, hpriority⟩ | ⟨hnone, -⟩
    · rcases hrest with hrest | hrest
      · rw [hrest] at htype
        cases htype
      · rw [hrest] at hpriority
        cases hpriority
    · exact hhook hnone
  · rintro ⟨hdevice, htakes⟩
    rcases hfits hdevice with hhook | hhook <;> simp [hhook, Hook.takesDevice] at htakes
  · exact requireOnlyName_eq_ok.mpr ⟨hw.named.1 ▸ hw.named.2, rfl⟩

theorem KeySpec.OneType.fit {spec : KeySpec} {kind : Kind} (h : spec.OneType) (hname : name ≠ "") :
    spec.validate .add kind name none = .ok () := by
  unfold KeySpec.validate
  rw [andThen_eq_ok, andThen_eq_ok, requireName, refuseIf_eq_ok, refuseIf_eq_ok, forbidHandle,
    refuseIf_eq_ok]
  refine ⟨hname, ?_, fun h => h rfl⟩
  rcases h with ⟨hkey, hof⟩ | ⟨hkey, hof⟩ <;> simp [hkey, hof]

theorem Rule.WellFormed.fit {r : Rule} {chain : String} (hw : r.WellFormed key chain)
    (hchain : chain ≠ "") (hne : r.body.toList ≠ []) :
    Rule.validate .add { r with index := none, handle := none } = .ok () := by
  unfold Rule.validate
  rw [andThen_eq_ok, andThen_eq_ok, refuseIf_eq_ok, refuseIf_eq_ok]
  refine ⟨hw.chain ▸ hchain, fun h => h.1 rfl, refuseIf_eq_ok.mpr fun hbody => hne ?_⟩
  dsimp only at hbody
  rw [hbody]
  rfl

theorem Element.InSet.fit {e : Element} (hw : e.InSet key name) (hname : name ≠ "")
    (hkey : e.key ≠ []) : e.validate .add = .ok () := by
  unfold Element.validate
  rw [andThen_eq_ok, andThen_eq_ok, andThen_eq_ok, andThen_eq_ok, refuseIf_eq_ok, refuseIf_eq_ok,
    refuseIf_eq_ok, refuseIf_eq_ok, refuseIf_eq_ok, Element.container, hw.set, hw.map, hw.value]
  simp [hname, hkey]

theorem Element.InMap.fit {e : Element} (hw : e.InMap key name) (hname : name ≠ "")
    (hkey : e.key ≠ []) : e.validate .add = .ok () := by
  unfold Element.validate
  rw [andThen_eq_ok, andThen_eq_ok, andThen_eq_ok, andThen_eq_ok, refuseIf_eq_ok, refuseIf_eq_ok,
    refuseIf_eq_ok, refuseIf_eq_ok, refuseIf_eq_ok, Element.container, hw.set, hw.map]
  simp [hname, hkey, hw.value]

theorem Flowtable.WellFormed.fit {f : Flowtable} (hw : f.WellFormed key name) :
    Flowtable.validate .add { f with handle := none } = .ok () := by
  unfold Flowtable.validate
  rw [andThen_eq_ok, hw.scope]
  exact ⟨requirePriority_of_fits hw.priority,
    requireOnlyName_eq_ok.mpr ⟨hw.named.1 ▸ hw.named.2, rfl⟩⟩

theorem Counter.WellFormed.fit {c : Counter} (hw : c.WellFormed key name) :
    Counter.validate .add { c with handle := none } = .ok () :=
  requireOnlyName_eq_ok.mpr ⟨hw.named.1 ▸ hw.named.2, rfl⟩

/-- **Every stored object passes the checks of a command that adds it**, but for empty rules. -/
theorem TableState.WellFormed.fit {t : TableState} (hw : t.WellFormed key)
    (hbodies : t.chains.All fun _ c => ∀ r ∈ c.rules, r.body.toList ≠ []) :
    ∀ o ∈ t.objects, o.eraseHandle.validate .add = .ok () := by
  -- the checks of each kind; the scope is checked of all alike
  have hfit : ∀ o ∈ t.objects, o.eraseHandle.validateKind .add = .ok () := by
    refine forall_objects ?_ ?_ ?_ ?_ ?_ ?_
    · rfl
    · exact fun k f hf => (hw.flowtables k f hf).fit
    · intro k c hc
      have hchain := hw.chains k c hc
      exact ⟨hchain.chain.fit,
        fun r hr => (hchain.rules r hr).fit hchain.chain.named.2 (hbodies k c hc r hr)⟩
    · intro k s hs
      have hset := hw.sets k s hs
      exact ⟨hset.set.type.fit (hset.set.named.1 ▸ hset.set.named.2),
        fun e he => (hset.elements e he).fit hset.set.named.2 (hset.keyed.keys e he)⟩
    · intro k m hm
      have hmap := hw.maps k m hm
      exact ⟨hmap.map.type.fit (hmap.map.named.1 ▸ hmap.map.named.2),
        fun e he => (hmap.elements e he).fit hmap.map.named.2 (hmap.keyed.keys e he)⟩
    · exact fun k c hc => (hw.counters k c hc).fit
  intro o ho
  have hscope := (Object.scope_eraseHandle o).trans (hw.scope_of_mem_objects o ho)
  exact Object.validate_of_scope hscope hw.table.named (hfit o ho)

end Fit

/-! ## The lines of a dump -/

/-- The line of the object in a dump, without the line feed at its end. -/
def Object.line (o : Object) : List Char := (o.eraseHandle.command .add).toList.dropLast

theorem Command.LineOf.line_eq {o : Object} {s : List Char}
    (h : LineOf (o.eraseHandle.command .add) s) : o.line = s :=
  h.dropLast_eq

/-- The line of the stored object is read as the command to add it. -/
def Object.Restored (known : List Command.MapName) (key : TableKey) (o : Object) : Prop :=
  ∃ tail rest, ReadsBack known key .add o.eraseHandle o.eraseHandle tail rest

section Tables

variable {known : List Command.MapName} {key : TableKey} {name : String} {t : TableState}

theorem Flowtable.WellFormed.restored {f : Flowtable} (hw : f.WellFormed key name)
    (hp : f.Plain) : (Object.flowtable f).Restored known key :=
  readsBack_flowtable known hw.scope rfl (.inl rfl) hw.fit ⟨hp.name, hp.devices⟩

theorem Chain.WellFormed.restored {c : Chain} (hw : c.WellFormed key name) (hp : c.Plain) :
    (Object.chain c).Restored known key :=
  readsBack_chain known hw.scope rfl (.inl rfl) hw.fit ⟨hp.name, hp.device, hp.comment⟩

theorem Rule.WellFormed.restored {r : Rule} (hw : r.WellFormed key name) (hname : PlainName name)
    (hp : r.Plain) : (Object.rule r).Restored known key :=
  readsBack_rule known hw.scope (.inl rfl) (hw.chain.symm ▸ hname) (by simp) (by simp) (.inl rfl)
    ⟨hp.nonempty, hp.trimmed, hp.line, hp.front, hp.comment, hp.bare⟩

theorem NamedSet.WellFormed.restored {s : NamedSet} (hw : s.WellFormed key name) (hp : s.Plain) :
    (Object.set s).Restored known key :=
  readsBack_set known hw.scope rfl (.inl rfl) (hw.type.fit (hw.named.1 ▸ hw.named.2))
    ⟨hp.name, hp.spec, hp.autoMerge⟩

theorem NamedMap.WellFormed.restored {m : NamedMap} (hw : m.WellFormed key name) (hp : m.Plain) :
    (Object.map m).Restored known key :=
  readsBack_map known hw.scope rfl (.inl rfl) (hw.type.fit (hw.named.1 ▸ hw.named.2))
    ⟨hp.name, hp.spec⟩

theorem Counter.WellFormed.restored {c : Counter} (hw : c.WellFormed key name) (hp : c.Plain) :
    (Object.counter c).Restored known key := by
  obtain ⟨packets, hpackets⟩ := Option.isSome_iff_exists.mp hw.counts.1
  obtain ⟨bytes, hbytes⟩ := Option.isSome_iff_exists.mp hw.counts.2
  exact readsBack_counter known hw.scope rfl (.inl rfl) (.inr ⟨packets, bytes, hpackets, hbytes⟩)
    ⟨hp.name, hp.packets, hp.bytes, hp.comment⟩

/-- **Every stored object is read back**, as long as the known maps of its table are its maps. -/
theorem TableState.WellFormed.readsBack (hw : t.WellFormed key) (hp : t.Plain key)
    (hunmixed : t.Unmixed)
    (hknown : ∀ name, ⟨key.family, key.name, name⟩ ∈ known → t.maps.contains name = true) :
    ∀ o ∈ t.objects, o.Restored known key := by
  refine forall_objects ?_ ?_ ?_ ?_ ?_ ?_
  · exact readsBack_table known hw.table.scope rfl hw.table.scope rfl
      (Verb.Puts.bodyOf (.inl rfl) _) hp.name hp.comment
  · exact fun k f hf => (hw.flowtables k f hf).restored (hp.flowtables k f hf)
  · intro k c hc
    have hchain := hw.chains k c hc
    obtain ⟨hplain, hrules⟩ := hp.chains k c hc
    have hname : PlainName k := hchain.chain.named.1 ▸ hplain.name
    exact ⟨hchain.chain.restored hplain,
      fun r hr => (hchain.rules r hr).restored hname (hrules r hr)⟩
  · intro k s hs
    have hset := hw.sets k s hs
    obtain ⟨hplain, helements⟩ := hp.sets k s hs
    refine ⟨hset.set.restored hplain, fun e he => ?_⟩
    have hname : PlainName k := hset.set.named.1 ▸ hplain.name
    -- a map of the set's name would make the line one of a map
    have hset? : ⟨key.family, key.name, k⟩ ∉ known := fun hmem => by
      obtain ⟨m, hm⟩ := Option.isSome_iff_exists.mp (hknown k hmem)
      have hnot : t.sets.contains k = false := hunmixed k m hm
      rw [SortedMap.contains, hs] at hnot
      cases hnot
    have hread := readsBack_setElement hname (hset.elements e he) (.inl rfl)
      (hset.keyed.keys e he) (helements e he).parts hset?
    rwa [(helements e he).reread_eq] at hread
  · intro k m hm
    have hmap := hw.maps k m hm
    obtain ⟨hplain, helements⟩ := hp.maps k m hm
    refine ⟨hmap.map.restored hplain, fun e he => ?_⟩
    have hname : PlainName k := hmap.map.named.1 ▸ hplain.name
    have hread := readsBack_mapElement known hname (hmap.elements e he) (.inl rfl)
      (hmap.keyed.keys e he) (helements e he).parts
    rwa [(helements e he).reread_eq] at hread
  · exact fun k c hc => (hw.counters k c hc).restored (hp.counters k c hc)

theorem TableState.WellFormed.declares (hw : t.WellFormed key) :
    ∀ o ∈ t.objects, ∀ n ∈ key.declares o.eraseHandle,
      n.family = key.family ∧ n.table = key.name ∧ t.maps.contains n.name = true := by
  refine forall_objects ?_ ?_ ?_ ?_ ?_ ?_
  · exact fun n hn => absurd hn List.not_mem_nil
  · exact fun k f hf n hn => absurd hn List.not_mem_nil
  · exact fun k c hc => ⟨fun n hn => absurd hn List.not_mem_nil,
      fun r hr n hn => absurd hn List.not_mem_nil⟩
  · exact fun k s hs => ⟨fun n hn => absurd hn List.not_mem_nil,
      fun e he n hn => absurd hn List.not_mem_nil⟩
  · refine fun k m hm => ⟨fun n hn => ?_, fun e he n hn => absurd hn List.not_mem_nil⟩
    -- the line of a map declares that map, under the name that it is stored by
    cases List.mem_singleton.mp hn
    rw [SortedMap.contains, (hw.maps k m hm).map.named.1, hm]
    exact ⟨rfl, rfl, rfl⟩
  · exact fun k c hc n hn => absurd hn List.not_mem_nil

end Tables

/-! ### What the lines queue -/

/-- The transaction with the commands to add the objects at its end. -/
def Transaction.adding (tx : Transaction) (l : List Object) : Transaction :=
  tx.queue (l.map fun o => ⟨.add, o.eraseHandle⟩)

/-- The map is one of the ruleset. -/
def Ruleset.HasMap (r : Ruleset) (n : Command.MapName) : Prop :=
  ∃ t, r.tables.get? ⟨n.family, n.table⟩ = some t ∧ t.maps.contains n.name = true

/--
The line of the object queues the command to add it, wherever it stands among the lines of the
ruleset: only maps of the ruleset are known there.
-/
structure Ruleset.Queues (r : Ruleset) (o : Object) : Prop where
  written : Command.LineOf (o.eraseHandle.command .add) o.line
  reading : Command.Queues r.HasMap (· = ⟨.add, o.eraseHandle⟩) o.line

/-- **The lines of some objects queue them in their order.** -/
theorem Command.State.lines_objects {r : Ruleset} {l : List Object} (h : ∀ o ∈ l, r.Queues o)
    (s : State) (n : Nat) (hknown : ∀ m ∈ s.known, r.HasMap m)
    (hrefusal : s.transaction.refusal = none) :
    ∃ known, s.lines n (l.map Object.line) = .ok ⟨known, s.transaction.adding l⟩ := by
  obtain ⟨known, ops, hops, hlines⟩ := State.lines_queue id
    (fun o ho => ⟨(h o ho).written.trimmed, (h o ho).reading⟩) s n hknown hrefusal
  rw [List.map_id] at hops
  exact ⟨known, by rw [hlines, hops, Transaction.adding]⟩

/-- Every object of a plain, well-formed ruleset without mixed names is queued by its line. -/
theorem Ruleset.WellFormed.queues {r : Ruleset} (hw : r.WellFormed) (hp : r.Plain)
    (hunmixed : r.Unmixed) : ∀ o ∈ r.objects, r.Queues o := by
  intro o ho
  obtain ⟨t, ht, ho⟩ := List.mem_flatMap.mp ho
  obtain ⟨key, hkey⟩ := SortedMap.mem_values_iff.mp ht
  have hwt := hw key t hkey
  have hpt := hp key t hkey
  have hread : ∀ known : List Command.MapName, (∀ n ∈ known, r.HasMap n) →
      o.Restored known key := by
    intro known hknown
    refine hwt.readsBack hpt (hunmixed key t hkey) (fun name hmem => ?_) o ho
    -- a known map of this table is one that the table has
    obtain ⟨t', ht', hmap⟩ := hknown _ hmem
    obtain rfl : t = t' := Option.some.inj (hkey.symm.trans ht')
    exact hmap
  have hfit := hwt.fit (fun k c hc r hr => ((hpt.chains k c hc).2 r hr).nonempty) o ho
  have hscope := (Object.scope_eraseHandle o).trans (hwt.scope_of_mem_objects o ho)
  have hdeclares : ∀ n ∈ key.declares o.eraseHandle, r.HasMap n := by
    intro n hn
    obtain ⟨hfamily, htable, hmap⟩ := hwt.declares o ho n hn
    exact ⟨t, by rw [hfamily, htable]; exact hkey, hmap⟩
  obtain ⟨hline, hqueues⟩ :=
    Command.queues_of_readsBack hpt.name.1 (by decide) hscope hfit hdeclares hread
  exact ⟨hline, hqueues⟩

/-- The lines of the dump are those of the objects. -/
theorem Ruleset.lines_dump {r : Ruleset} (h : ∀ o ∈ r.objects, r.Queues o) :
    lines r.dump.toList = r.objects.map Object.line :=
  Command.LineOf.lines_join fun o ho => (h o ho).written

/-! ## The replay -/

namespace Engine

variable {config : Config} {r : Ruleset}

/-- An engine without defines of its own stores texts that it would not change again. -/
theorem inert_effectiveDefines (h : config.defines = []) : Inert config.effectiveDefines := by
  rw [Config.effectiveDefines, h, List.append_nil]
  cases config.family with
  | none => exact fun d hd => absurd hd List.not_mem_nil
  | some family => exact inert_family family

theorem readTransaction_dump (hw : r.WellFormed) (hp : r.Plain) (hunmixed : r.Unmixed) :
    (ofConfig config).readTransaction r.dump
      = .ok ((Transaction.ofConfig config).adding r.objects) := by
  have hqueues := hw.queues hp hunmixed
  obtain ⟨known, hlines⟩ := Command.State.lines_objects hqueues
    ⟨[], .ofConfig config⟩ 1 (fun n hn => absurd hn List.not_mem_nil) rfl
  show Command.readCommands config [] r.dump = _
  rw [Command.readCommands, Ruleset.lines_dump hqueues, hlines]
  rfl

/-- A fresh engine replays the dump of a plain, well-formed ruleset to that ruleset. -/
theorem replay_dump (hw : r.WellFormed) (hsettled : r.Settled config.effectiveDefines)
    (hres : r.Resolved) (hp : r.Plain) (hunmixed : r.Unmixed) :
    ∃ e, (ofConfig config).replay r.dump = (e, .ok ()) ∧
      e.ruleset.eraseHandles = r.eraseHandles := by
  obtain ⟨hok, herase⟩ := Ruleset.apply_of_steps (Ruleset.steps_objects hw hsettled hres) rfl 0
  have hattempt : ((ofConfig config).attempt
      ((Transaction.ofConfig config).adding r.objects)).result = .ok () := hok
  have hrun := run_of_ok rfl hattempt
  rw [replay, readTransaction_dump hw hp hunmixed]
  exact ⟨_, hrun, herase⟩

/--
**A dump is replayed to what was dumped.** After any history of an engine without defines of its
own, a fresh engine with the same settings accepts the dump and has the same ruleset then, up to the
handles, and the same dump, as long as all references resolve, no name is that of a set and of a map
of one table, and all texts are plain.
-/
theorem replay_dump_after (config : Config) (hdefines : config.defines = []) (calls : List Call)
    (hres : ((ofConfig config).after calls).ruleset.Resolved)
    (hunmixed : ((ofConfig config).after calls).ruleset.Unmixed)
    (hplain : ((ofConfig config).after calls).ruleset.Plain) :
    ∃ e, (ofConfig config).replay ((ofConfig config).after calls).dump = (e, .ok ()) ∧
      e.ruleset.eraseHandles = ((ofConfig config).after calls).ruleset.eraseHandles ∧
      e.dump = ((ofConfig config).after calls).dump := by
  have hw : ((ofConfig config).after calls).ruleset.WellFormed :=
    preserved_after (Ruleset.wellFormed_preserved _) calls Ruleset.wellFormed_empty
  have hsettled : ((ofConfig config).after calls).ruleset.Settled config.effectiveDefines :=
    preserved_after (e := ofConfig config)
      (Ruleset.settled_preserved (inert_effectiveDefines hdefines)) calls SortedMap.all_empty
  obtain ⟨e, hreplay, herase⟩ := replay_dump hw hsettled hres hplain hunmixed
  exact ⟨e, hreplay, herase, Ruleset.dump_of_eraseHandles_eq herase⟩

/-- Objects of all kinds, with quotes and separators in their comments, and a run that fails. -/
def mixedHistory (settings : Config) : List Call :=
  [.run settings
      [⟨.add, .table { comment := some "the \"edge\"" }⟩,
        ⟨.add, .chain
          { name := "in", chainType := some .filter, hook := some .input
            priority := some "filter" }⟩,
        ⟨.add, .chain { name := "out" }⟩,
        ⟨.add, .set
          { name := "blocked"
            spec := { keyType := some "$INET_ADDR", flags := ["interval"] } }⟩,
        ⟨.add, .map { name := "ports", spec := { typeOf := some "tcp dport : verdict" } }⟩],
    .run settings [⟨.flush, .chain { name := "none" }⟩],
    .run settings
      [⟨.add, .flowtable { name := "fast", priority := some "0", devices := ["eth0", "eth1"] }⟩,
        ⟨.add, .counter { name := "hits", comment := some "web" }⟩,
        ⟨.add, .rule
          { chain := "in", body := "$IP saddr @blocked drop", comment := some "no; way" }⟩,
        ⟨.add, .rule { chain := "in", body := "jump out" }⟩,
        ⟨.add, .element
          { set := some "blocked", key := ["10.0.0.1"], comment := some "x : y" }⟩,
        ⟨.add, .element { map := some "ports", key := ["22"], value := ["jump out"] }⟩]]

theorem replay_dump_after_mixedHistory :
    let settings : Config := { family := some .ip, table := some "t" }
    ((ofConfig settings).after (mixedHistory settings)).ruleset.objects.length = 11 ∧
      ∃ e, (ofConfig settings).replay ((ofConfig settings).after (mixedHistory settings)).dump
          = (e, .ok ()) ∧
        e.ruleset.eraseHandles
          = ((ofConfig settings).after (mixedHistory settings)).ruleset.eraseHandles ∧
        e.dump = ((ofConfig settings).after (mixedHistory settings)).dump := by
  intro settings
  refine ⟨by decide +kernel, ?_⟩
  exact replay_dump_after settings rfl (mixedHistory settings) (by decide +kernel)
    (by decide +kernel) (by decide +kernel)

end Engine

end Nftables
