import Nftables.Proofs.Presence

/-!
# Elements and their history

A container is told what to do in operations on elements and in flushes. What it then holds is read
off this history: under each key what was last written there, unless the key has ended since, and
the keys in the order in which they came. The history is that of the operations that succeeded, with
the defines of their keys and values replaced.

The history is read backwards, from the last event: `absent_snoc`, `lastWritten_snoc` and
`since_snoc` say what one more event does to each of the notions, and the elements follow in step
(`Left.snoc`). With the notions defined by what happened and not by what the list looks like, the
order of the keys is a statement in its own right: a key that is overwritten keeps its moment, and
one that was removed and written again has a later one.

`Left` is about a list and its events alone. The rest of the module ties it to the ruleset: which
operations concern a container, which event each of them is, and that one which fails is none. A run
skips failures, so the history is that of the operations that were `done`.
-/

namespace Nftables

/-- What can happen to the elements of a container. -/
inductive ElementEvent
  | write (e : Element)
  | remove (key : List String)
  | clear
deriving DecidableEq, Repr

namespace ElementEvent

variable {past : List ElementEvent} {v : ElementEvent} {key : List String} {e : Element}
  {l : List Element} {m : Nat}

/-- The event puts an element under the key. -/
def Writes (v : ElementEvent) (key : List String) : Prop := ∃ e, v = .write e ∧ e.key = key

/-- After the event, nothing is under the key. -/
def Ends (v : ElementEvent) (key : List String) : Prop := v = .remove key ∨ v = .clear

/-- The elements after the event. -/
def perform (elements : List Element) : ElementEvent → List Element
  | .write e => Elements.write e elements
  | .remove key => Elements.erase key elements
  | .clear => []

/-- Nothing is under the key: it has ended since each time that it was written. -/
def Absent (past : List ElementEvent) (key : List String) : Prop :=
  ∀ earlier v later, past = earlier ++ v :: later → v.Writes key → ∃ w ∈ later, w.Ends key

/-- The element is the last that was written under its key, which has not ended since. -/
def LastWritten (past : List ElementEvent) (e : Element) : Prop :=
  ∃ earlier later, past = earlier ++ .write e :: later ∧
    ∀ v ∈ later, ¬ v.Writes e.key ∧ ¬ v.Ends e.key

/-- The key was written after `m` events, when it was absent, and has not ended since. -/
def Since (past : List ElementEvent) (key : List String) (m : Nat) : Prop :=
  ∃ earlier v later, past = earlier ++ v :: later ∧ earlier.length = m ∧ v.Writes key ∧
    Absent earlier key ∧ ∀ w ∈ later, ¬ w.Ends key

theorem Writes.not_ends (h : v.Writes key) (k : List String) : ¬ v.Ends k := by
  obtain ⟨e, rfl, -⟩ := h
  rintro (h | h) <;> cases h

/-! ## One more event -/

/-- An event of a longer history is the new one, or one of the history before. -/
theorem snoc_eq_iff {w : ElementEvent} {earlier later : List ElementEvent} :
    past ++ [v] = earlier ++ w :: later ↔ (earlier = past ∧ w = v ∧ later = []) ∨
      ∃ between, later = between ++ [v] ∧ past = earlier ++ w :: between := by
  constructor
  · intro h
    rcases List.eq_nil_or_concat later with rfl | ⟨between, u, rfl⟩
    · obtain ⟨rfl, hv⟩ := List.append_inj' h rfl
      cases hv
      exact .inl ⟨rfl, rfl, rfl⟩
    · rw [List.concat_eq_append, ← List.cons_append, ← List.append_assoc] at h
      obtain ⟨rfl, hv⟩ := List.append_inj' h rfl
      cases hv
      exact .inr ⟨between, List.concat_eq_append, rfl⟩
  · rintro (⟨rfl, rfl, rfl⟩ | ⟨between, rfl, rfl⟩)
    · rfl
    · simp

theorem absent_nil (key : List String) : Absent [] key := by
  intro earlier v later h
  simp at h

theorem absent_snoc : Absent (past ++ [v]) key ↔ v.Ends key ∨ ¬ v.Writes key ∧ Absent past key := by
  constructor
  · intro h
    by_cases hv : v.Writes key
    · -- the last event writes the key, and nothing behind it could end it
      obtain ⟨w, hw, -⟩ := h past v [] rfl hv
      cases hw
    · by_cases hends : v.Ends key
      · exact .inl hends
      · refine .inr ⟨hv, fun earlier u later hpast hu => ?_⟩
        obtain ⟨w, hw, hkey⟩ := h earlier u (later ++ [v]) (by simp [hpast]) hu
        rcases List.mem_append.mp hw with hw | hw
        · exact ⟨w, hw, hkey⟩
        · cases List.mem_singleton.mp hw
          exact absurd hkey hends
  · intro h earlier u later hpast hu
    rcases snoc_eq_iff.mp hpast with ⟨-, rfl, rfl⟩ | ⟨between, rfl, hbetween⟩
    · rcases h with hends | ⟨hu', -⟩
      · exact absurd hends (hu.not_ends key)
      · exact absurd hu hu'
    · rcases h with hends | ⟨-, h⟩
      · exact ⟨v, by simp, hends⟩
      · obtain ⟨w, hw, hkey⟩ := h earlier u between hbetween hu
        exact ⟨w, by simp [hw], hkey⟩

theorem lastWritten_snoc : LastWritten (past ++ [v]) e ↔
    v = .write e ∨ ¬ v.Writes e.key ∧ ¬ v.Ends e.key ∧ LastWritten past e := by
  constructor
  · rintro ⟨earlier, later, hpast, hlater⟩
    -- the write is the last event, or one before it
    rcases snoc_eq_iff.mp hpast with ⟨-, hv, -⟩ | ⟨between, rfl, hbetween⟩
    · exact .inl hv.symm
    · obtain ⟨hwrites, hends⟩ := hlater v (by simp)
      exact .inr ⟨hwrites, hends, earlier, between, hbetween, fun w hw => hlater w (by simp [hw])⟩
  · rintro (rfl | ⟨hwrites, hends, earlier, later, rfl, hlater⟩)
    · exact ⟨past, [], rfl, by simp⟩
    · refine ⟨earlier, later ++ [v], by simp, fun w hw => ?_⟩
      rcases List.mem_append.mp hw with hw | hw
      · exact hlater w hw
      · cases List.mem_singleton.mp hw
        exact ⟨hwrites, hends⟩

theorem since_snoc : Since (past ++ [v]) key m ↔
    (v.Writes key ∧ Absent past key ∧ past.length = m) ∨ ¬ v.Ends key ∧ Since past key m := by
  constructor
  · rintro ⟨earlier, u, later, hpast, hm, hu, habsent, hlater⟩
    rcases snoc_eq_iff.mp hpast with ⟨rfl, rfl, -⟩ | ⟨between, rfl, hbetween⟩
    · exact .inl ⟨hu, habsent, hm⟩
    · exact .inr ⟨hlater v (by simp), earlier, u, between, hbetween, hm, hu, habsent,
        fun w hw => hlater w (by simp [hw])⟩
  · rintro (⟨hv, habsent, hm⟩ | ⟨hends, earlier, u, later, rfl, hm, hu, habsent, hlater⟩)
    · exact ⟨past, v, [], rfl, hm, hv, habsent, by simp⟩
    · refine ⟨earlier, u, later ++ [v], by simp, hm, hu, habsent, fun w hw => ?_⟩
      rcases List.mem_append.mp hw with hw | hw
      · exact hlater w hw
      · cases List.mem_singleton.mp hw
        exact hends

/-! ## Keys that are there -/

/-- A key is there exactly if an element is the last that was written under it. -/
theorem exists_lastWritten_iff :
    (∃ e, e.key = key ∧ LastWritten past e) ↔ ¬ Absent past key := by
  induction past using List.reverseRecOn with
  | nil =>
    refine iff_of_false ?_ fun h => h (absent_nil key)
    rintro ⟨e, -, earlier, later, h, -⟩
    simp at h
  | append_singleton past v ih =>
    simp only [lastWritten_snoc, absent_snoc]
    constructor
    · rintro ⟨e, rfl, rfl | ⟨hwrites, hends, he⟩⟩
      · have hw : (write e).Writes e.key := ⟨e, rfl, rfl⟩
        rintro (h | ⟨h, -⟩)
        · exact hw.not_ends _ h
        · exact h hw
      · have hlive := ih.mp ⟨e, rfl, he⟩
        tauto
    · intro h
      by_cases hwrites : v.Writes key
      · obtain ⟨e, rfl, he⟩ := hwrites
        exact ⟨e, he, .inl rfl⟩
      · obtain ⟨e, rfl, he⟩ := ih.mpr (by tauto)
        exact ⟨e, rfl, .inr ⟨hwrites, fun hends => h (.inl hends), he⟩⟩

/-- A key is there exactly if there is a moment since when it has been there. -/
theorem exists_since_iff : (∃ m, Since past key m) ↔ ¬ Absent past key := by
  induction past using List.reverseRecOn with
  | nil =>
    refine iff_of_false ?_ fun h => h (absent_nil key)
    rintro ⟨m, earlier, v, later, h, -⟩
    simp at h
  | append_singleton past v ih =>
    simp only [since_snoc, absent_snoc]
    constructor
    · rintro ⟨m, ⟨hwrites, -, -⟩ | ⟨hends, hm⟩⟩
      · rintro (h | ⟨h, -⟩)
        · exact hwrites.not_ends _ h
        · exact h hwrites
      · have hlive := ih.mp ⟨m, hm⟩
        tauto
    · intro h
      -- the key has come just now, or it was there before
      by_cases habsent : Absent past key
      · exact ⟨past.length, .inl ⟨by tauto, habsent, rfl⟩⟩
      · obtain ⟨m, hm⟩ := ih.mpr habsent
        exact ⟨m, .inr ⟨fun hends => h (.inl hends), hm⟩⟩

theorem Since.lt_length (h : Since past key m) : m < past.length := by
  obtain ⟨earlier, v, later, rfl, rfl, -⟩ := h
  simp

/-- A key that is there has been there since the same moment if the next event does not end it. -/
theorem Since.before (h : Since (past ++ [v]) key m) (hlive : ¬ Absent past key) :
    Since past key m := by
  rcases since_snoc.mp h with ⟨-, habsent, -⟩ | ⟨-, h⟩
  · exact absurd habsent hlive
  · exact h

end ElementEvent

/-! ## What an event does to the elements -/

namespace Elements

variable {key : List String} {d e : Element} {elements : List Element}

theorem find?_cons : find? key (d :: elements) =
    if d.key = key then some d else find? key elements := by
  by_cases h : d.key = key <;> simp [find?, h]

theorem erase_cons : erase key (d :: elements) =
    if d.key = key then elements else d :: erase key elements := by
  by_cases h : d.key = key <;> simp [erase, h]

theorem find?_write_self (e : Element) (elements : List Element) :
    find? e.key (write e elements) = some e := by
  induction elements with
  | nil => rw [write, find?_cons, if_pos rfl]
  | cons d rest ih =>
    rw [write]
    split
    · rw [find?_cons, if_pos rfl]
    · rename_i hd
      rw [find?_cons, if_neg hd, ih]

theorem find?_write_of_ne (h : e.key ≠ key) :
    find? key (write e elements) = find? key elements := by
  induction elements with
  | nil => rw [write, find?_cons, if_neg h]
  | cons d rest ih =>
    rw [write]
    split
    · rename_i hd
      rw [find?_cons, find?_cons, if_neg h, if_neg (hd ▸ h)]
    · rw [find?_cons, find?_cons, ih]

theorem find?_erase_of_ne {k : List String} (h : k ≠ key) :
    find? k (erase key elements) = find? k elements := by
  induction elements with
  | nil => rfl
  | cons d rest ih =>
    rw [erase_cons]
    split
    · rename_i hd
      -- the element that is taken out is not the one that is looked for
      rw [find?_cons, if_neg fun hk => h (hk.symm.trans hd)]
    · rw [find?_cons, find?_cons, ih]

theorem map_key_erase (key : List String) (elements : List Element) :
    (erase key elements).map Element.key = (elements.map Element.key).erase key := by
  rw [erase, List.erase_eq_eraseP', List.eraseP_map]
  congr 2
  funext e
  exact (beq_eq_decide e.key key).symm

/-- Where the keys differ, one that is taken out is gone. -/
theorem find?_erase_self (h : (elements.map Element.key).Nodup) :
    find? key (erase key elements) = none := by
  rw [← Option.not_isSome_iff_eq_none, find?_isSome_iff, map_key_erase]
  exact h.not_mem_erase

end Elements

/-! ## What the elements tell of the history -/

namespace ElementEvent

variable {past : List ElementEvent} {v : ElementEvent} {key : List String} {e : Element}
  {elements : List Element} {m : Nat}

/-- After an event, a key has the element that was written, or what it had before. -/
theorem find?_perform (h : (elements.map Element.key).Nodup) :
    Elements.find? key (v.perform elements) = some e ↔ v = .write e ∧ e.key = key ∨
      ¬ v.Writes key ∧ ¬ v.Ends key ∧ Elements.find? key elements = some e := by
  cases v with
  | write d =>
    by_cases hd : d.key = key
    · subst hd
      simp only [perform, Elements.find?_write_self]
      grind [Writes]
    · simp only [perform, Elements.find?_write_of_ne hd]
      grind [Writes, Ends]
  | remove k =>
    by_cases hk : key = k
    · subst hk
      simp [perform, Elements.find?_erase_self h, Ends]
    · simp only [perform, Elements.find?_erase_of_ne hk]
      grind [Writes, Ends]
  | clear => simp [perform, Elements.find?, Ends]

/--
The elements are those that the history has left: under each key the element that was last written,
each key once, and the keys in the order of the moments since when they have been there.
-/
structure Left (past : List ElementEvent) (elements : List Element) : Prop where
  find_iff : ∀ key e, Elements.find? key elements = some e ↔ e.key = key ∧ LastWritten past e
  distinct : (elements.map Element.key).Nodup
  ordered : (elements.map Element.key).Pairwise fun a b =>
    ∀ i j, Since past a i → Since past b j → i < j

namespace Left

theorem find_none (h : Left past elements) (key : List String) :
    Elements.find? key elements = none ↔ Absent past key := by
  rw [← not_iff_not, ← exists_lastWritten_iff, ← ne_eq, Option.ne_none_iff_exists']
  exact exists_congr fun e => h.find_iff key e

theorem mem_iff (h : Left past elements) (key : List String) :
    key ∈ elements.map Element.key ↔ ¬ Absent past key := by
  rw [← h.find_none, ← Elements.find?_isSome_iff, Option.isSome_iff_ne_none]

theorem nil : Left [] [] where
  find_iff key e := by
    refine iff_of_false (by simp [Elements.find?]) ?_
    rintro ⟨-, earlier, later, h, -⟩
    simp at h
  distinct := .nil
  ordered := .nil

/-- The order of keys that are there and stay is not changed by another event. -/
theorem ordered_of_sublist (h : Left past elements) {keys : List (List String)}
    (hsub : keys.Sublist (elements.map Element.key)) :
    keys.Pairwise fun a b => ∀ i j, Since (past ++ [v]) a i → Since (past ++ [v]) b j → i < j := by
  refine (h.ordered.sublist hsub).imp_of_mem fun ha hb horder i j hi hj => ?_
  exact horder i j (hi.before ((h.mem_iff _).mp (hsub.subset ha)))
    (hj.before ((h.mem_iff _).mp (hsub.subset hb)))

/-- **What one event leaves.** -/
theorem snoc (h : Left past elements) (v : ElementEvent) :
    Left (past ++ [v]) (v.perform elements) where
  find_iff key e := by
    rw [find?_perform h.distinct, h.find_iff, lastWritten_snoc]
    grind
  distinct := by
    cases v with
    | write e => exact Elements.nodup_key_write h.distinct
    | remove key => exact h.distinct.sublist (List.eraseP_sublist.map _)
    | clear => exact .nil
  ordered := by
    cases v with
    | write e =>
      rw [perform, Elements.map_key_write]
      split
      · exact h.ordered_of_sublist (.refl _)
      · rename_i hnew
        -- a new key comes to the end, and it has come last
        refine List.pairwise_append.mpr ⟨h.ordered_of_sublist (.refl _),
          List.pairwise_singleton _ _, fun a ha b hb i j hi hj => ?_⟩
        cases List.mem_singleton.mp hb
        have habsent : Absent past e.key := not_not.mp (mt (h.mem_iff _).mpr hnew)
        have hi := hi.before ((h.mem_iff a).mp ha)
        rcases since_snoc.mp hj with ⟨-, -, rfl⟩ | ⟨-, hj⟩
        · exact hi.lt_length
        · exact absurd habsent (exists_since_iff.mp ⟨j, hj⟩)
    | remove key => exact h.ordered_of_sublist (List.eraseP_sublist.map _)
    | clear => exact .nil

end Left

end ElementEvent

/-! ## Flushes -/

/-- A flush that succeeds changes the object as its kind flushes. -/
theorem Shelf.eq_modify_of_flush {κ σ : Type} [Ord κ] [Std.TransOrd κ] {s : Shelf κ σ}
    {m m' : SortedMap κ σ} {among : κ → Bool} {key : κ} {handle : Option Nat} {new : σ} {f : σ → σ}
    (hf : s.flush = some f) (h : s.apply m among .flush key handle new = .ok m') :
    m' = m.modify key f := by
  cases apply_effect h with
  | keep hv => cases hv
  | put hv => rcases hv with hv | hv <;> cases hv
  | drop k hv => rcases hv with hv | hv <;> cases hv
  | change g hg =>
    rcases hg with ⟨-, hg⟩ | ⟨hv, -⟩
    · cases hf.symm.trans hg
      rfl
    · cases hv

/-! ## Operations on a container -/

/-- The element is one of the container in the table under the key. -/
structure Element.Belongs (e : Element) (key : TableKey) (c : Container) : Prop where
  scope : e.scope = key.scope
  container : e.container? = some c

/-- The object is the container. -/
def Container.Is (c : Container) (o : Object) : Prop :=
  match c, o with
  | .set name, .set s => s.name = name
  | .map name, .map m => m.name = name
  | _, _ => False

/-- The operation is on an element of the container, or it flushes the container or its table. -/
inductive Operation.Concerns (key : TableKey) (c : Container) : Operation → Prop
  | element {verb : Verb} {e : Element} (hv : verb ∈ [.add, .create, .delete, .destroy])
    (he : e.Belongs key c) : Concerns key c ⟨verb, .element e⟩
  | flush {o : Object} (hscope : o.scope = key.scope) (ho : c.Is o) : Concerns key c ⟨.flush, o⟩
  | flushTable {t : Table} (hscope : t.scope = key.scope) : Concerns key c ⟨.flush, .table t⟩

/-- What the operation does to the elements of the container that it concerns. -/
def Operation.event (defines : List Define) : Operation → ElementEvent
  | ⟨.add, .element e⟩ | ⟨.create, .element e⟩ => .write (e.substitute defines)
  | ⟨.delete, .element e⟩ | ⟨.destroy, .element e⟩ => .remove (e.substitute defines).key
  | _ => .clear

namespace Ruleset

variable {r r' : Ruleset} {defines : List Define} {key : TableKey} {c : Container}
  {t : TableState} {elements : List Element} {handle : Nat}

/-- The elements of a container of a table, if both are there. -/
def elements? (r : Ruleset) (key : TableKey) (c : Container) : Option (List Element) :=
  (r.tables.get? key).bind fun t => t.elements? c

/-- The ruleset with other elements in one container. -/
def withElements (r : Ruleset) (key : TableKey) (c : Container) (elements : List Element) :
    Ruleset :=
  { r with tables := r.tables.modify key fun t => t.withElements c elements }

/-- What the value of the element refers to is there. -/
def Resolves (r : Ruleset) (defines : List Define) (key : TableKey) (e : Element) : Prop :=
  ∀ t, r.tables.get? key = some t → (e.substitute defines).value ≠ [] →
    t.checkReferences (joinParts (e.substitute defines).value) = .ok ()

theorem elements?_withElements (l : List Element) (h : r.elements? key c = some elements) :
    (r.withElements key c l).elements? key c = some l := by
  obtain ⟨t, ht, hl⟩ := Option.bind_eq_some_iff.mp h
  simp [elements?, withElements, ht, TableState.elements?_withElements l hl]

/-- An operation on an element checks its references and edits the elements of its container. -/
theorem step_element (ht : r.tables.get? key = some t) (hl : t.elements? c = some elements)
    {e : Element} (he : e.Belongs key c) (verb : Verb) :
    r.step defines handle ⟨verb, .element e⟩ =
      (if verb.checksValue && (e.substitute defines).value ≠ [] then
        t.checkReferences (joinParts (e.substitute defines).value) else pure ()) >>= fun _ =>
      Elements.apply elements verb (e.substitute defines) >>= fun l =>
      pure (r.withElements key c l) := by
  have hscope : (Object.element e).scope = key.scope := he.scope
  have hc : (e.substitute defines).container? = some c := he.container
  -- the table that is put back is the one that was found
  have hput : ∀ l, r.withElements key c l =
      { r with tables := r.tables.modify key fun _ => t.withElements c l } := by
    intro l
    refine congrArg Ruleset.mk (SortedMap.modify_congr fun t' ht' => ?_)
    cases ht.symm.trans ht'
    rfl
  rw [step_inside (by simp [Object.kind]) hscope, ht]
  dsimp only [TableState.step]
  rw [TableState.applyElement_eq, TableState.editElement_of_container verb hc hl]
  simp only [bind_assoc, pure_bind, hput]

/-- A flush of the container leaves it empty. -/
theorem elements?_flush {o : Object} (h : r.elements? key c = some elements)
    (hscope : o.scope = key.scope) (ho : c.Is o) (hr : r.step defines handle ⟨.flush, o⟩ = .ok r') :
    r'.elements? key c = some [] := by
  obtain ⟨t, ht, hl⟩ := Option.bind_eq_some_iff.mp h
  have hkind : o.kind ≠ .table := by
    rintro hkind
    cases o with
    | table t => cases c <;> cases ho
    | _ => cases hkind
  rw [step_inside hkind hscope, ht] at hr
  obtain ⟨t', hstep, hr⟩ := bind_ok hr
  cases hr
  -- a set is flushed on the shelf of sets, a map on that of maps
  have hempty : t' = t.withElements c [] := by
    cases c with
    | set name =>
      cases o with
      | set s =>
        cases ho
        obtain ⟨sets, hsets, hstep⟩ := bind_ok hstep
        cases hstep
        cases Shelf.eq_modify_of_flush rfl hsets
        rfl
      | _ => cases ho
    | map name =>
      cases o with
      | map m =>
        cases ho
        obtain ⟨maps, hmaps, hstep⟩ := bind_ok hstep
        cases hstep
        cases Shelf.eq_modify_of_flush rfl hmaps
        rfl
      | _ => cases ho
  simp [elements?, ht, hempty, TableState.elements?_withElements [] hl]

/-- A flush of the table leaves each of its containers empty. -/
theorem elements?_flushTable {x : Table} (h : r.elements? key c = some elements)
    (hscope : x.scope = key.scope) (hr : r.step defines handle ⟨.flush, .table x⟩ = .ok r') :
    r'.elements? key c = some [] := by
  obtain ⟨t, ht, hl⟩ := Option.bind_eq_some_iff.mp h
  simp only [step, applyTable, hscope, TableKey.scope] at hr
  obtain ⟨tables, htables, hr⟩ := bind_ok hr
  cases hr
  cases Shelf.eq_modify_of_flush rfl htables
  -- the flush of a table reaches all its containers
  have hflush : t.flush.elements? c = some [] := by
    cases c with
    | set name =>
      obtain ⟨s, hs, -⟩ := Option.map_eq_some_iff.mp hl
      simp [TableState.elements?, TableState.flush, hs, SetState.flush]
    | map name =>
      obtain ⟨m, hm, -⟩ := Option.map_eq_some_iff.mp hl
      simp [TableState.elements?, TableState.flush, hm, MapState.flush]
  simp [elements?, ht, hflush]

/-- **An operation that concerns a container does to its elements what its event says.** -/
theorem elements?_step {op : Operation} (hop : op.Concerns key c)
    (h : r.elements? key c = some elements) (hr : r.step defines handle op = .ok r') :
    r'.elements? key c = some ((op.event defines).perform elements) := by
  cases hop with
  | element hv he =>
    obtain ⟨t, ht, hl⟩ := Option.bind_eq_some_iff.mp h
    rw [step_element ht hl he] at hr
    obtain ⟨-, -, hr⟩ := bind_ok hr
    obtain ⟨l, hedit, hr⟩ := bind_ok hr
    cases hr
    rw [elements?_withElements l h]
    cases Elements.apply_effect hedit with
    | write hverb => rcases hverb with rfl | rfl <;> rfl
    | erase hverb => rcases hverb with rfl | rfl <;> rfl
  | flush hscope ho => exact elements?_flush h hscope ho hr
  | flushTable hscope => exact elements?_flushTable h hscope hr

/-! ## A run of operations -/

/-- How far a run of single operations has come. -/
structure Progress where
  ruleset : Ruleset
  lastHandle : Nat
  /-- The operations that succeeded, in order. -/
  done : List Operation := []

/-- Attempts one operation. One that fails is skipped. -/
def Progress.attempt (defines : List Define) (p : Progress) (op : Operation) : Progress :=
  let last := nextHandle p.lastHandle op
  match p.ruleset.step defines last op with
  | .ok r => ⟨r, last, p.done ++ [op]⟩
  | .error _ => { p with lastHandle := last }

/-- Attempts operations in order. -/
def attempt (defines : List Define) (r : Ruleset) (last : Nat) (ops : List Operation) : Progress :=
  ops.foldl (Progress.attempt defines) ⟨r, last, []⟩

/--
What a container holds after a history, and how `create` and `delete` answer there. The references
in a value are checked when it is created, not when it is deleted.
-/
structure Refines (defines : List Define) (r : Ruleset) (key : TableKey) (c : Container)
    (past : List ElementEvent) (elements : List Element) : Prop where
  holds : r.elements? key c = some elements
  left : ElementEvent.Left past elements
  absent_iff : ∀ k, Elements.find? k elements = none ↔ ElementEvent.Absent past k
  live_iff : ∀ k, k ∈ elements.map Element.key ↔ ∃ m, ElementEvent.Since past k m
  create_live : ∀ e n, e.Belongs key c → r.Resolves defines key e →
    ¬ ElementEvent.Absent past (e.substitute defines).key →
    r.step defines n ⟨.create, .element e⟩
      = .error (.alreadyExists (.object .element (joinParts (e.substitute defines).key)))
  create_absent : ∀ e n, e.Belongs key c → r.Resolves defines key e →
    ElementEvent.Absent past (e.substitute defines).key →
    ∃ r', r.step defines n ⟨.create, .element e⟩ = .ok r'
  delete_live : ∀ e n, e.Belongs key c → ¬ ElementEvent.Absent past (e.substitute defines).key →
    ∃ r', r.step defines n ⟨.delete, .element e⟩ = .ok r'
  delete_absent : ∀ e n, e.Belongs key c → ElementEvent.Absent past (e.substitute defines).key →
    r.step defines n ⟨.delete, .element e⟩
      = .error (.notFound (.object .element (joinParts (e.substitute defines).key)))

theorem refines_of_left {past : List ElementEvent} (h : r.elements? key c = some elements)
    (hleft : ElementEvent.Left past elements) : r.Refines defines key c past elements := by
  obtain ⟨t, ht, hl⟩ := Option.bind_eq_some_iff.mp h
  -- what the verbs ask for is whether the key is found, and the history answers that
  have hpresent : ∀ {k}, ¬ ElementEvent.Absent past k →
      (Elements.find? k elements).isSome = true :=
    fun hk => Elements.find?_isSome_iff.mpr ((hleft.mem_iff _).mpr hk)
  have hmissing : ∀ {k}, ElementEvent.Absent past k →
      (Elements.find? k elements).isSome = false :=
    fun hk => by rw [(hleft.find_none _).mpr hk]; rfl
  have hcreate : ∀ {e n}, e.Belongs key c → r.Resolves defines key e →
      r.step defines n ⟨.create, .element e⟩ =
        Elements.apply elements .create (e.substitute defines) >>= fun l =>
          pure (r.withElements key c l) := by
    intro e n he href
    rw [step_element ht hl he]
    refine bind_of_ok (a := ()) ?_
    split
    · rename_i hchecked
      exact href t ht (by simpa [Verb.checksValue] using hchecked)
    · rfl
  have hdelete : ∀ {e n}, e.Belongs key c →
      r.step defines n ⟨.delete, .element e⟩ =
        Elements.apply elements .delete (e.substitute defines) >>= fun l =>
          pure (r.withElements key c l) :=
    fun he => step_element ht hl he .delete
  exact
    { holds := h
      left := hleft
      absent_iff := hleft.find_none
      live_iff := fun k => (hleft.mem_iff k).trans ElementEvent.exists_since_iff.symm
      create_live := fun e n he href hk => by
        rw [hcreate he href, Elements.apply, hpresent hk]
        rfl
      create_absent := fun e n he href hk => by
        rw [hcreate he href, Elements.apply, hmissing hk]
        exact ⟨_, rfl⟩
      delete_live := fun e n he hk => by
        rw [hdelete he, Elements.apply, hpresent hk]
        exact ⟨_, rfl⟩
      delete_absent := fun e n he hk => by
        rw [hdelete he, Elements.apply, hmissing hk]
        rfl }

/-- The container holds what the history of the run has left. -/
def Progress.Tells (defines : List Define) (p : Progress) (key : TableKey) (c : Container) : Prop :=
  ∃ elements, p.ruleset.elements? key c = some elements ∧
    ElementEvent.Left (p.done.map (Operation.event defines)) elements

/-- One more operation adds its event to the history, if it succeeds. -/
theorem Progress.Tells.attempt {p : Progress} (h : p.Tells defines key c) {op : Operation}
    (hop : op.Concerns key c) : (p.attempt defines op).Tells defines key c := by
  obtain ⟨elements, hl, hleft⟩ := h
  unfold Progress.attempt
  dsimp only
  split
  · rename_i r' hr
    refine ⟨_, elements?_step hop hl hr, ?_⟩
    rw [List.map_append]
    exact hleft.snoc _
  · -- what fails adds nothing to the history
    exact ⟨elements, hl, hleft⟩

/--
**Elements are a map whose keys stand in the order in which they came.** Operations on elements of
one container, and flushes of it or its table, are attempted in order, the container being empty at
first. It then holds what the history of those that succeeded says: under each key what was last
written there, unless the key has ended since, and each key that is there once, in the order of the
moments since when they have been there. `create` fails exactly for a key that is there, and
`delete` for one that is not. All keys are those after the defines have been replaced.
-/
theorem elements_refine (defines : List Define) (last : Nat) (h : r.elements? key c = some [])
    {ops : List Operation} (hops : ∀ op ∈ ops, op.Concerns key c) :
    let run := r.attempt defines last ops
    ∃ elements,
      run.ruleset.Refines defines key c (run.done.map (Operation.event defines)) elements := by
  have hrun : (r.attempt defines last ops).Tells defines key c :=
    List.foldlRecOn (motive := fun p => Progress.Tells defines p key c) ops _ ⟨[], h, .nil⟩
      fun _ hp op hop => hp.attempt (hops op hop)
  obtain ⟨elements, hl, hleft⟩ := hrun
  exact ⟨elements, refines_of_left hl hleft⟩

/--
Two spellings of one key meet, a key that was removed comes back behind the others, and a map that
was emptied with its table starts again.
-/
theorem elements_refine_ports :
    let scope : Scope := { family := some .ip, table := some "t" }
    let defines : List Define := [⟨"PORT", "80"⟩]
    let r := (Ruleset.apply defines {} 0
      [⟨.add, .table { scope }⟩, ⟨.add, .chain { scope, name := "c" }⟩,
        ⟨.add, .map { scope, name := "m", spec := { keyType := some "port : verdict" } }⟩]).ruleset
    let element : String → String → Object := fun key value =>
      .element { scope, map := some "m", key := [key], value := [value] }
    let ops : List Operation :=
      [⟨.add, element "443" "accept"⟩, ⟨.flush, .table { scope }⟩,
        ⟨.create, element "$PORT" "drop"⟩, ⟨.add, element "22" "jump c"⟩,
        ⟨.create, element "80" "accept"⟩, ⟨.add, element "80" "accept"⟩,
        ⟨.delete, element "443" "accept"⟩,
        ⟨.destroy, element "$PORT" "drop"⟩, ⟨.add, element "80" "return"⟩,
        ⟨.add, element "22" "jump d"⟩]
    let run := r.attempt defines 3 ops
    (∀ op ∈ ops, op.Concerns ⟨.ip, "t"⟩ (.map "m")) ∧ ∃ elements,
      run.ruleset.Refines defines ⟨.ip, "t"⟩ (.map "m") (run.done.map (Operation.event defines))
        elements ∧
      elements.map (fun e => (e.key, e.value)) = [(["22"], ["jump c"]), (["80"], ["return"])] ∧
      run.done.length = 7 := by
  intro scope defines r element ops run
  have hempty : r.elements? ⟨.ip, "t"⟩ (.map "m") = some [] := by decide +kernel
  have hops : ∀ op ∈ ops, op.Concerns ⟨.ip, "t"⟩ (.map "m") := by
    have helement : ∀ {verb}, verb ∈ [.add, .create, .delete, .destroy] → ∀ key value,
        Operation.Concerns ⟨.ip, "t"⟩ (.map "m") ⟨verb, element key value⟩ :=
      fun hv _ _ => .element hv ⟨rfl, rfl⟩
    simp only [ops, List.forall_mem_cons]
    exact ⟨helement (by decide) _ _, .flushTable rfl, helement (by decide) _ _,
      helement (by decide) _ _, helement (by decide) _ _, helement (by decide) _ _,
      helement (by decide) _ _, helement (by decide) _ _, helement (by decide) _ _,
      helement (by decide) _ _, by simp⟩
  obtain ⟨elements, hrefines⟩ := elements_refine defines 3 hempty hops
  have hlook : (run.ruleset.elements? ⟨.ip, "t"⟩ (.map "m")).map
      (List.map fun e => (e.key, e.value)) =
      some [(["22"], ["jump c"]), (["80"], ["return"])] := by decide +kernel
  rw [hrefines.holds] at hlook
  exact ⟨hops, elements, hrefines, Option.some.inj hlook, by decide +kernel⟩

end Ruleset

end Nftables
