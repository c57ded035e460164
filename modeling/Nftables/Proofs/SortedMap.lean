import Nftables.SortedMap
import Mathlib.Data.List.Flatten
import Mathlib.Data.List.Perm.Subperm

/-!
# Laws of sorted maps

A sorted map is determined by its look-ups: `get?` after each operation is a formula in `get?`
before it, and two maps that look up alike are equal. Where the order of the entries matters, the
operations are also described on the list of entries.

Nothing beyond this module sees how the entries are kept. `get?_insert`, `get?_erase`, `get?_modify`
and `get?_map` are the formulas; an equation of maps is proved by `ext`, and then by cases on
whether the key is the one that was changed. `All` is the property of every value under its key, for
invariants, with a lemma for each operation.

Three places need the list. Counting what the entries contribute to a list (`collect`) is how
handles are shown to be held once. Building a map entry by entry (`load`, `refill`) is an induction
on how much of the list is done, where an entry is put behind all that are there or changes the one
under its key: that is how a dump rebuilds a ruleset. And the last section goes back from lists to
the map: what all values hold, one after the other, determines the map if each part names its key.
-/

namespace Nftables

variable {κ α β : Type} [Ord κ]

/-! ## Looking up in a list of entries -/

namespace Entries

/-- A key behind all others goes to the end. -/
theorem insert_last {k : κ} {entries : List (κ × α)} (v : α)
    (h : ∀ e ∈ entries, compare k e.1 = .gt) : insert k v entries = entries ++ [(k, v)] := by
  induction entries with
  | nil => rfl
  | cons e rest ih =>
    rw [insert, h e List.mem_cons_self]
    exact congrArg (e :: ·) (ih fun d hd => h d (.tail _ hd))

variable [Std.LawfulEqOrd κ]

theorem mem_of_get? {k : κ} {v : α} {entries : List (κ × α)} (h : get? k entries = some v) :
    (k, v) ∈ entries := by
  induction entries with
  | nil => exact absurd h (by simp [get?])
  | cons e rest ih =>
    rw [get?] at h
    split at h
    · rename_i hk
      rw [Std.compare_eq_iff_eq.mp hk, ← Option.some.inj h]
      exact List.mem_cons_self
    · exact List.mem_cons_of_mem _ (ih h)

theorem get?_of_mem {k : κ} {v : α} {entries : List (κ × α)} (hs : KeysSorted entries)
    (h : (k, v) ∈ entries) : get? k entries = some v := by
  induction entries with
  | nil => exact absurd h (by simp)
  | cons e rest ih =>
    obtain ⟨he, hrest⟩ := List.pairwise_cons.mp hs
    rw [get?]
    rcases List.mem_cons.mp h with rfl | h
    · rw [if_pos (Std.compare_eq_iff_eq.mpr rfl)]
    · have hne : compare k e.1 ≠ .eq := by
        intro hk
        have hlt : compare e.1 k = .lt := he _ h
        rw [Std.compare_eq_iff_eq.mp hk, Std.compare_eq_iff_eq.mpr rfl] at hlt
        exact absurd hlt (by decide)
      rw [if_neg hne]
      exact ih hrest h

theorem get?_eq_none_iff {k : κ} {entries : List (κ × α)} :
    get? k entries = none ↔ ∀ e ∈ entries, e.1 ≠ k := by
  induction entries with
  | nil => simp [get?]
  | cons e rest ih =>
    rw [get?, List.forall_mem_cons, ← ih]
    by_cases hk : compare k e.1 = .eq
    · rw [if_pos hk]
      simp [Std.compare_eq_iff_eq.mp hk]
    · rw [if_neg hk]
      have hne : e.1 ≠ k := fun he => hk (Std.compare_eq_iff_eq.mpr he.symm)
      simp [hne]

/-- A new key goes somewhere between the entries. -/
theorem insert_split {k : κ} {entries : List (κ × α)} (v : α) (h : get? k entries = none) :
    ∃ l₁ l₂, entries = l₁ ++ l₂ ∧ insert k v entries = l₁ ++ (k, v) :: l₂ := by
  induction entries with
  | nil => exact ⟨[], [], rfl, rfl⟩
  | cons e rest ih =>
    have hne := get?_eq_none_iff.mp h
    rw [insert]
    split
    · exact ⟨[], e :: rest, rfl, rfl⟩
    · rename_i hk
      exact absurd (Std.compare_eq_iff_eq.mp hk).symm (hne e List.mem_cons_self)
    · obtain ⟨l₁, l₂, h₁, h₂⟩ := ih (get?_eq_none_iff.mpr fun d hd => hne d (.tail _ hd))
      exact ⟨e :: l₁, l₂, by rw [h₁]; rfl, by rw [h₂]; rfl⟩

theorem modify_of_get?_none {k : κ} {entries : List (κ × α)} (f : α → α)
    (h : get? k entries = none) : modify k f entries = entries := by
  rw [modify]
  refine (List.map_congr_left fun e he => ?_).trans (List.map_id _)
  have hne : compare k e.1 ≠ .eq := fun hk =>
    get?_eq_none_iff.mp h e he (Std.compare_eq_iff_eq.mp hk).symm
  rw [if_neg hne]
  rfl

/-- Only the entry under the key is modified. -/
theorem modify_split {k : κ} {v : α} {entries : List (κ × α)} (f : α → α)
    (hs : KeysSorted entries) (h : get? k entries = some v) :
    ∃ l₁ l₂, entries = l₁ ++ (k, v) :: l₂ ∧ modify k f entries = l₁ ++ (k, f v) :: l₂ := by
  obtain ⟨l₁, l₂, hl⟩ := List.append_of_mem (mem_of_get? h)
  subst hl
  obtain ⟨-, h₂, hlt⟩ := List.pairwise_append.mp hs
  -- the keys before rise to this one, and those behind rise from it
  have hleft : modify k f l₁ = l₁ := by
    refine modify_of_get?_none f (get?_eq_none_iff.mpr fun e he hk => ?_)
    have := hlt e he (k, v) List.mem_cons_self
    rw [hk, Std.compare_eq_iff_eq.mpr rfl] at this
    exact absurd this (by decide)
  have hright : modify k f l₂ = l₂ := by
    refine modify_of_get?_none f (get?_eq_none_iff.mpr fun e he hk => ?_)
    have := (List.pairwise_cons.mp h₂).1 e he
    rw [hk, Std.compare_eq_iff_eq.mpr rfl] at this
    exact absurd this (by decide)
  refine ⟨l₁, l₂, rfl, ?_⟩
  rw [modify, List.map_append, List.map_cons, if_pos (Std.compare_eq_iff_eq.mpr rfl)]
  exact congrArg₂ _ hleft (congrArg _ hright)

theorem get?_insert [DecidableEq κ] (k k' : κ) (v : α) (entries : List (κ × α)) :
    get? k' (insert k v entries) = if k' = k then some v else get? k' entries := by
  induction entries with
  | nil => simp [insert, get?]
  | cons e rest ih =>
    rw [insert]
    split
    · simp [get?]
    · rename_i hk
      rw [Std.compare_eq_iff_eq.mp hk]
      simp only [get?, Std.compare_eq_iff_eq]
      split <;> rfl
    · rename_i hk
      rw [get?, ih, get?]
      by_cases hk' : k' = k
      · have hne : compare k' e.1 ≠ .eq := by rw [hk', hk]; decide
        rw [if_neg hne, if_pos hk', if_pos hk']
      · rw [if_neg hk', if_neg hk']

theorem get?_erase [DecidableEq κ] (k k' : κ) (entries : List (κ × α)) :
    get? k' (erase k entries) = if k' = k then none else get? k' entries := by
  induction entries with
  | nil => simp [erase, get?]
  | cons e rest ih =>
    rw [erase] at ih ⊢
    rw [List.filter_cons, get?]
    by_cases hk : k = e.1
    · rw [if_neg (by simpa using hk), ih]
      by_cases hk' : k' = k
      · rw [if_pos hk', if_pos hk']
      · have hne : compare k' e.1 ≠ .eq := fun h => hk' ((Std.compare_eq_iff_eq.mp h).trans hk.symm)
        rw [if_neg hk', if_neg hk', if_neg hne]
    · rw [if_pos (by simpa using hk), get?, ih]
      by_cases hk' : k' = k
      · have hne : compare k' e.1 ≠ .eq := fun h => hk (hk' ▸ Std.compare_eq_iff_eq.mp h)
        rw [if_pos hk', if_neg hne, if_pos hk']
      · rw [if_neg hk', if_neg hk']

theorem get?_map_value (k : κ) (f : κ → α → β) (entries : List (κ × α)) :
    get? k (entries.map fun e => (e.1, f e.1 e.2)) = (get? k entries).map (f k) := by
  induction entries with
  | nil => rfl
  | cons e rest ih =>
    rw [List.map_cons, get?, get?]
    by_cases hk : compare k e.1 = .eq
    · rw [if_pos hk, if_pos hk, Std.compare_eq_iff_eq.mp hk]
      rfl
    · rw [if_neg hk, if_neg hk, ih]

theorem get?_modify [DecidableEq κ] (k k' : κ) (f : α → α) (entries : List (κ × α)) :
    get? k' (modify k f entries) = if k' = k then (get? k' entries).map f else get? k' entries := by
  -- to modify is to map, with a test of the key in each entry
  have hm : modify k f entries
      = entries.map fun e => (e.1, if compare k e.1 = .eq then f e.2 else e.2) := by
    refine List.map_congr_left fun e _ => ?_
    split <;> rfl
  rw [hm, get?_map_value k' (fun a v => if compare k a = .eq then f v else v)]
  by_cases hk : k' = k
  · simp [hk]
  · have hne : compare k k' ≠ .eq := fun h => hk (Std.compare_eq_iff_eq.mp h).symm
    simp [hk, hne]

/-- Rising entries are determined by their look-ups. -/
theorem eq_of_get?_eq [Std.TransOrd κ] {l₁ l₂ : List (κ × α)} (h₁ : KeysSorted l₁)
    (h₂ : KeysSorted l₂) (h : ∀ k, get? k l₁ = get? k l₂) : l₁ = l₂ := by
  have hsub : ∀ e, e ∈ l₁ ↔ e ∈ l₂ := fun e =>
    ⟨fun he => mem_of_get? ((h e.1).symm.trans (get?_of_mem h₁ he)),
      fun he => mem_of_get? ((h e.1).trans (get?_of_mem h₂ he))⟩
  have hirr : ∀ {a : κ × α}, ¬ compare a.1 a.1 = .lt := by
    intro a ha
    rw [Std.compare_eq_iff_eq.mpr rfl] at ha
    exact absurd ha (by decide)
  have hne : ∀ {l : List (κ × α)}, KeysSorted l → l.Nodup := by
    intro l hl
    refine List.Pairwise.imp ?_ hl
    intro a b hlt he
    exact hirr (he ▸ hlt)
  -- the same entries, and only one order of them rises
  have hperm : l₁.Perm l₂ := (List.perm_ext_iff_of_nodup (hne h₁) (hne h₂)).mpr hsub
  refine hperm.eq_of_pairwise (fun a b _ _ hab hba => ?_) h₁ h₂
  exact absurd (Std.TransCmp.lt_trans hab hba) hirr

/-- Of the entries, only that of the key counts. -/
theorem flatMap_key [Std.TransOrd κ] [DecidableEq κ] {γ : Type} {entries : List (κ × α)}
    (hs : KeysSorted entries) (k : κ) (f : α → List γ) :
    entries.flatMap (fun e => if e.1 = k then f e.2 else [])
      = ((get? k entries).map f).getD [] := by
  induction entries with
  | nil => rfl
  | cons e rest ih =>
    obtain ⟨hlt, hrest⟩ := List.pairwise_cons.mp hs
    rw [List.flatMap_cons, get?]
    by_cases hk : e.1 = k
    · -- all keys behind it are greater
      have hnone : get? k rest = none := get?_eq_none_iff.mpr fun d hd hdk => by
        have hless := hlt d hd
        rw [hk, hdk, Std.compare_eq_iff_eq.mpr rfl] at hless
        cases hless
      rw [if_pos hk, if_pos (Std.compare_eq_iff_eq.mpr hk.symm), ih hrest, hnone]
      simp
    · rw [if_neg hk, if_neg (mt Std.compare_eq_iff_eq.mp (Ne.symm hk)), ih hrest]
      rfl

end Entries

/-! ## Looking up in a map -/

namespace SortedMap

@[simp] theorem get?_empty (k : κ) : (∅ : SortedMap κ α).get? k = none := rfl

theorem contains_iff {m : SortedMap κ α} {k : κ} : m.contains k = true ↔ ∃ v, m.get? k = some v :=
  Option.isSome_iff_exists

theorem get?_of_not_contains {m : SortedMap κ α} {k : κ} (h : m.contains k = false) :
    m.get? k = none :=
  Option.isNone_iff_eq_none.mp (by simpa [contains] using h)

theorem insertIfNew_of_contains [Std.TransOrd κ] {m : SortedMap κ α} {k : κ} (v : α)
    (h : m.contains k = true) : m.insertIfNew k v = m := by
  rw [insertIfNew, if_pos h]

theorem insertIfNew_of_not_contains [Std.TransOrd κ] {m : SortedMap κ α} {k : κ} (v : α)
    (h : m.contains k = false) : m.insertIfNew k v = m.insert k v := by
  rw [insertIfNew, if_neg (by simp [h])]

theorem entries_erase_sublist (m : SortedMap κ α) (k : κ) :
    (m.erase k).entries.Sublist m.entries :=
  List.filter_sublist

variable [Std.LawfulEqOrd κ]

theorem mem_entries_iff {m : SortedMap κ α} {k : κ} {v : α} :
    (k, v) ∈ m.entries ↔ m.get? k = some v :=
  ⟨Entries.get?_of_mem m.sorted, Entries.mem_of_get?⟩

theorem mem_values_iff {m : SortedMap κ α} {v : α} : v ∈ m.values ↔ ∃ k, m.get? k = some v := by
  constructor
  · intro h
    obtain ⟨⟨k, w⟩, he, rfl⟩ := List.mem_map.mp h
    exact ⟨k, mem_entries_iff.mp he⟩
  · rintro ⟨k, h⟩
    exact List.mem_map.mpr ⟨(k, v), mem_entries_iff.mpr h, rfl⟩

theorem mem_keys_iff {m : SortedMap κ α} {k : κ} : k ∈ m.keys ↔ m.contains k = true := by
  rw [contains_iff, keys, List.mem_map]
  constructor
  · rintro ⟨⟨k, v⟩, he, rfl⟩
    exact ⟨v, mem_entries_iff.mp he⟩
  · rintro ⟨v, h⟩
    exact ⟨(k, v), mem_entries_iff.mpr h, rfl⟩

theorem ext [Std.TransOrd κ] {m n : SortedMap κ α} (h : ∀ k, m.get? k = n.get? k) : m = n := by
  have he : m.entries = n.entries := Entries.eq_of_get?_eq m.sorted n.sorted h
  cases m
  cases n
  cases he
  rfl

@[simp] theorem get?_insert [Std.TransOrd κ] [DecidableEq κ] (m : SortedMap κ α) (k k' : κ)
    (v : α) : (m.insert k v).get? k' = if k' = k then some v else m.get? k' :=
  Entries.get?_insert k k' v m.entries

@[simp] theorem get?_erase [DecidableEq κ] (m : SortedMap κ α) (k k' : κ) :
    (m.erase k).get? k' = if k' = k then none else m.get? k' :=
  Entries.get?_erase k k' m.entries

@[simp] theorem get?_modify [DecidableEq κ] (m : SortedMap κ α) (k k' : κ) (f : α → α) :
    (m.modify k f).get? k' = if k' = k then (m.get? k').map f else m.get? k' :=
  Entries.get?_modify k k' f m.entries

/-- Where there is something, putting something else there is seen under its key only. -/
theorem get?_modify_const [DecidableEq κ] {m : SortedMap κ α} {k : κ} {v : α}
    (h : m.get? k = some v) (w : α) (k' : κ) :
    (m.modify k fun _ => w).get? k' = if k' = k then some w else m.get? k' := by
  rw [get?_modify]
  split
  · rename_i hk
    rw [hk, h, Option.map_some]
  · rfl

@[simp] theorem get?_map (m : SortedMap κ α) (f : α → β) (k : κ) :
    (m.map f).get? k = (m.get? k).map f :=
  Entries.get?_map_value k (fun _ => f) m.entries

/-! ## Changing all values -/

section Map

omit [Std.LawfulEqOrd κ] in
theorem values_map (m : SortedMap κ α) (f : α → β) : (m.map f).values = m.values.map f := by
  simp [values, map]

@[simp] theorem contains_map (m : SortedMap κ α) (f : α → β) (k : κ) :
    (m.map f).contains k = m.contains k := by
  rw [contains, contains, get?_map, Option.isSome_map]

/-- Maps that agree under two views have the same keys, with values that agree. -/
theorem get?_of_map_eq {γ : Type} {m : SortedMap κ α} {n : SortedMap κ β} {f : α → γ} {g : β → γ}
    (h : m.map f = n.map g) (k : κ) : (m.get? k = none ∧ n.get? k = none) ∨
      ∃ a b, m.get? k = some a ∧ n.get? k = some b ∧ f a = g b := by
  have hget := congrArg (fun m => m.get? k) h
  simp only [get?_map] at hget
  cases hm : m.get? k with
  | none =>
    rw [hm] at hget
    exact .inl ⟨rfl, Option.map_eq_none_iff.mp hget.symm⟩
  | some a =>
    rw [hm] at hget
    obtain ⟨b, hb, hab⟩ := Option.map_eq_some_iff.mp hget.symm
    exact .inr ⟨a, b, rfl, hb, hab.symm⟩

omit [Std.LawfulEqOrd κ] in
/-- Where maps agree under two views, a test that the views decide finds the same key in both. -/
theorem findKey?_of_map_eq {γ : Type} {m : SortedMap κ α} {n : SortedMap κ β} {f : α → γ}
    {g : β → γ} (h : m.map f = n.map g) {p : κ → α → Bool} {q : κ → β → Bool}
    (hpq : ∀ k a b, f a = g b → p k a = q k b) : m.findKey? p = n.findKey? q := by
  have hentries : m.entries.map (fun e => (e.1, f e.2)) = n.entries.map fun e => (e.1, g e.2) :=
    congrArg entries h
  unfold findKey?
  generalize m.entries = l₁ at hentries ⊢
  generalize n.entries = l₂ at hentries ⊢
  induction l₁ generalizing l₂ with
  | nil =>
    cases l₂ with
    | nil => rfl
    | cons d l₂ => cases hentries
  | cons e l₁ ih =>
    cases l₂ with
    | nil => cases hentries
    | cons d l₂ =>
      obtain ⟨hed, hrest⟩ := List.cons.inj hentries
      obtain ⟨hkey, hview⟩ := Prod.mk.inj hed
      have htest : p e.1 e.2 = q d.1 d.2 := (hpq e.1 e.2 d.2 hview).trans (by rw [hkey])
      rw [List.find?_cons, List.find?_cons, htest]
      cases q d.1 d.2 with
      | true => exact congrArg some hkey
      | false => exact ih l₂ hrest

variable [Std.TransOrd κ]

theorem map_congr {m : SortedMap κ α} {f g : α → β} (h : ∀ k v, m.get? k = some v → f v = g v) :
    m.map f = m.map g := by
  refine ext fun k => ?_
  rw [get?_map, get?_map]
  cases hk : m.get? k with
  | none => rfl
  | some v => exact congrArg some (h k v hk)

theorem map_eq_self {m : SortedMap κ α} {f : α → α} (h : ∀ v, f v = v) : m.map f = m := by
  refine ext fun k => ?_
  rw [get?_map]
  cases m.get? k with
  | none => rfl
  | some v => exact congrArg some (h v)

@[simp] theorem map_id (m : SortedMap κ α) : m.map id = m := map_eq_self fun _ => rfl

theorem map_map {γ : Type} (m : SortedMap κ α) (f : α → β) (g : β → γ) :
    (m.map f).map g = m.map fun v => g (f v) := by
  refine ext fun k => ?_
  rw [get?_map, get?_map, get?_map, Option.map_map]
  rfl

/-- Where two maps agree under two views, they do under what the views decide together. -/
theorem map_eq_map {γ δ : Type} {m n : SortedMap κ α} {f : α → β} {g : α → γ} {h : α → δ}
    (hf : m.map f = n.map f) (hg : m.map g = n.map g)
    (hfg : ∀ a b, f a = f b → g a = g b → h a = h b) : m.map h = n.map h := by
  refine ext fun k => ?_
  rw [get?_map, get?_map]
  rcases get?_of_map_eq hf k with ⟨hm, hn⟩ | ⟨a, b, hm, hn, hab⟩
  · rw [hm, hn]
  · -- the values are the same for both views, as the key is
    rcases get?_of_map_eq hg k with ⟨hm', -⟩ | ⟨a', b', hm', hn', hab'⟩
    · cases hm.symm.trans hm'
    · cases hm.symm.trans hm'
      cases hn.symm.trans hn'
      rw [hm, hn]
      exact congrArg some (hfg a b hab hab')

variable [DecidableEq κ]

theorem map_insert (m : SortedMap κ α) (f : α → β) (k : κ) (v : α) :
    (m.insert k v).map f = (m.map f).insert k (f v) := by
  refine ext fun k' => ?_
  rw [get?_map, get?_insert, get?_insert, get?_map]
  split <;> rfl

theorem map_insertIfNew (m : SortedMap κ α) (f : α → β) (k : κ) (v : α) :
    (m.insertIfNew k v).map f = (m.map f).insertIfNew k (f v) := by
  unfold insertIfNew
  rw [contains_map]
  split
  · rfl
  · exact map_insert m f k v

theorem map_erase (m : SortedMap κ α) (f : α → β) (k : κ) :
    (m.erase k).map f = (m.map f).erase k := by
  refine ext fun k' => ?_
  rw [get?_map, get?_erase, get?_erase, get?_map]
  split <;> rfl

theorem map_modify (m : SortedMap κ α) (f : α → β) {k : κ} {g : α → α} {g' : β → β}
    (h : ∀ v, m.get? k = some v → f (g v) = g' (f v)) :
    (m.modify k g).map f = (m.map f).modify k g' := by
  refine ext fun k' => ?_
  rw [get?_map, get?_modify, get?_modify, get?_map]
  by_cases hk : k' = k
  · rw [if_pos hk, if_pos hk]
    subst hk
    cases hv : m.get? k' with
    | none => rfl
    | some v => exact congrArg some (h v hv)
  · rw [if_neg hk, if_neg hk]

/-- Two changes of one value that `f` does not tell apart. -/
theorem map_modify_congr (m : SortedMap κ α) (f : α → β) {k : κ} {g g' : α → α}
    (h : ∀ v, m.get? k = some v → f (g v) = f (g' v)) :
    (m.modify k g).map f = (m.modify k g').map f := by
  refine ext fun k' => ?_
  rw [get?_map, get?_map, get?_modify, get?_modify]
  by_cases hk : k' = k
  · rw [if_pos hk, if_pos hk]
    subst hk
    cases hv : m.get? k' with
    | none => rfl
    | some v => exact congrArg some (h v hv)
  · rw [if_neg hk, if_neg hk]

/-- A change of one value that `f` does not see. -/
theorem map_modify_eq (m : SortedMap κ α) (f : α → β) {k : κ} {g : α → α}
    (h : ∀ v, m.get? k = some v → f (g v) = f v) : (m.modify k g).map f = m.map f := by
  refine ext fun k' => ?_
  rw [get?_map, get?_map, get?_modify]
  split
  · rename_i hk
    subst hk
    cases hv : m.get? k' with
    | none => rfl
    | some v => exact congrArg some (h v hv)
  · rfl

/-- Two changes that agree on the value under the key. -/
theorem modify_congr {m : SortedMap κ α} {k : κ} {f g : α → α}
    (h : ∀ v, m.get? k = some v → f v = g v) : m.modify k f = m.modify k g := by
  have hmap := map_modify_congr m id h
  rwa [map_id, map_id] at hmap

theorem modify_modify (m : SortedMap κ α) (k : κ) (f g : α → α) :
    (m.modify k f).modify k g = m.modify k fun v => g (f v) := by
  refine ext fun k' => ?_
  rw [get?_modify, get?_modify, get?_modify]
  split
  · rw [Option.map_map]
    rfl
  · rfl

/-- The last of two changes to fixed values counts. -/
theorem modify_modify_const (m : SortedMap κ α) (k : κ) (v w : α) :
    ((m.modify k fun _ => v).modify k fun _ => w) = m.modify k fun _ => w :=
  modify_modify m k _ _

theorem modify_insert_const (m : SortedMap κ α) (k : κ) (v w : α) :
    ((m.insert k v).modify k fun _ => w) = m.insert k w := by
  refine ext fun k' => ?_
  rw [get?_modify, get?_insert, get?_insert]
  split <;> rfl

/-- A change that leaves the value under the key as it is changes nothing. -/
theorem modify_eq_self {m : SortedMap κ α} {k : κ} {f : α → α}
    (h : ∀ v, m.get? k = some v → f v = v) : m.modify k f = m := by
  refine ext fun k' => ?_
  rw [get?_modify]
  split
  · rename_i hk
    subst hk
    cases hm : m.get? k' with
    | none => rfl
    | some v => exact congrArg some (h v hm)
  · rfl

theorem modify_const_self {m : SortedMap κ α} {k : κ} {v : α} (h : m.get? k = some v) :
    (m.modify k fun _ => v) = m :=
  modify_eq_self fun _ hv => Option.some.inj (h.symm.trans hv)

/-- There is nothing to take out under a key that is not there. -/
theorem erase_of_not_contains {m : SortedMap κ α} {k : κ} (h : m.contains k = false) :
    m.erase k = m := by
  refine ext fun k' => ?_
  rw [get?_erase]
  split
  · rename_i hk
    rw [hk, get?_of_not_contains h]
  · rfl

theorem insert_self {m : SortedMap κ α} {k : κ} {v : α} (h : m.get? k = some v) :
    m.insert k v = m := by
  refine ext fun k' => ?_
  rw [get?_insert]
  split
  · rename_i hk
    rw [hk, h]
  · rfl

end Map

/-! ## What holds of all entries -/

/-- A property of every value under its key. -/
def All (m : SortedMap κ α) (P : κ → α → Prop) : Prop := ∀ k v, m.get? k = some v → P k v

section All

variable {m : SortedMap κ α} {P : κ → α → Prop} {k : κ}

theorem all_iff [Std.TransOrd κ] : m.All P ↔ ∀ e ∈ m.entries, P e.1 e.2 :=
  ⟨fun h e he => h e.1 e.2 (mem_entries_iff.mp he),
    fun h k v hv => h (k, v) (mem_entries_iff.mpr hv)⟩

instance [Std.TransOrd κ] [∀ k v, Decidable (P k v)] : Decidable (m.All P) :=
  decidable_of_iff _ all_iff.symm

omit [Std.LawfulEqOrd κ] in
theorem all_empty : (∅ : SortedMap κ α).All P := by
  intro k v h
  cases h

theorem all_insert [Std.TransOrd κ] [DecidableEq κ] {v : α} (h : m.All P) (hv : P k v) :
    (m.insert k v).All P := by
  intro k' v' h'
  rw [get?_insert] at h'
  by_cases hk : k' = k
  · rw [if_pos hk] at h'
    cases h'
    exact hk ▸ hv
  · rw [if_neg hk] at h'
    exact h k' v' h'

theorem all_erase [DecidableEq κ] (h : m.All P) : (m.erase k).All P := by
  intro k' v' h'
  rw [get?_erase] at h'
  by_cases hk : k' = k
  · rw [if_pos hk] at h'
    cases h'
  · rw [if_neg hk] at h'
    exact h k' v' h'

theorem all_modify [DecidableEq κ] {f : α → α} (h : m.All P)
    (hf : ∀ v, m.get? k = some v → P k (f v)) : (m.modify k f).All P := by
  intro k' v' h'
  rw [get?_modify] at h'
  by_cases hk : k' = k
  · rw [if_pos hk] at h'
    obtain ⟨v, hv, rfl⟩ := Option.map_eq_some_iff.mp h'
    subst hk
    exact hf v hv
  · rw [if_neg hk] at h'
    exact h k' v' h'

theorem all_map {f : α → β} {Q : κ → β → Prop} (h : m.All P) (hf : ∀ k v, P k v → Q k (f v)) :
    (m.map f).All Q := by
  intro k v h'
  rw [get?_map] at h'
  obtain ⟨a, ha, rfl⟩ := Option.map_eq_some_iff.mp h'
  exact hf k a (h k a ha)

end All

/-! ## Which keys there are -/

section Contains

variable [DecidableEq κ] (m : SortedMap κ α) (k : κ)

@[simp] theorem contains_modify (k' : κ) (f : α → α) :
    (m.modify k f).contains k' = m.contains k' := by
  rw [contains, contains, get?_modify]
  split
  · rw [Option.isSome_map]
  · rfl

variable [Std.TransOrd κ]

theorem contains_insertIfNew (v : α) : (m.insertIfNew k v).contains k = true := by
  cases h : m.contains k with
  | true => rwa [insertIfNew_of_contains v h]
  | false => rw [insertIfNew_of_not_contains v h, contains, get?_insert, if_pos rfl, Option.isSome]

/-- What was put under a key is gone with the key. -/
theorem erase_insertIfNew (v : α) : (m.insertIfNew k v).erase k = m.erase k := by
  cases h : m.contains k with
  | true => rw [insertIfNew_of_contains v h]
  | false =>
    rw [insertIfNew_of_not_contains v h]
    refine ext fun k' => ?_
    rw [get?_erase, get?_erase, get?_insert]
    split <;> rfl

end Contains

/-! ## The list of entries -/

theorem entries_insert [Std.TransOrd κ] {m : SortedMap κ α} {k : κ} (v : α)
    (h : m.get? k = none) :
    ∃ l₁ l₂, m.entries = l₁ ++ l₂ ∧ (m.insert k v).entries = l₁ ++ (k, v) :: l₂ :=
  Entries.insert_split v h

theorem entries_modify {m : SortedMap κ α} {k : κ} {v : α} (f : α → α)
    (h : m.get? k = some v) :
    ∃ l₁ l₂, m.entries = l₁ ++ (k, v) :: l₂ ∧ (m.modify k f).entries = l₁ ++ (k, f v) :: l₂ :=
  Entries.modify_split f m.sorted h

/-- Sorting any enumeration of a map by the keys gives its entries. -/
theorem mergeSort_eq_entries [Std.TransOrd κ] {m : SortedMap κ α} {l : List (κ × α)}
    (h : l.Perm m.entries) : (l.mergeSort fun a b => (compare a.1 b.1).isLE) = m.entries := by
  have hperm := (List.mergeSort_perm l fun a b => (compare a.1 b.1).isLE).trans h
  have htotal : ∀ a b : κ × α, ((compare a.1 b.1).isLE || (compare b.1 a.1).isLE) = true := by
    intro a b
    have hswap : compare b.1 a.1 = (compare a.1 b.1).swap := Std.OrientedCmp.eq_swap
    rw [hswap]
    cases compare a.1 b.1 <;> rfl
  have hsorted : (l.mergeSort fun a b => (compare a.1 b.1).isLE).Pairwise
      fun a b => (compare a.1 b.1).isLE = true :=
    List.pairwise_mergeSort (fun _ _ _ => Std.TransCmp.isLE_trans) htotal l
  have hentries : m.entries.Pairwise fun a b => (compare a.1 b.1).isLE = true :=
    m.sorted.imp fun hlt => by rw [hlt]; rfl
  refine hperm.eq_of_pairwise (fun a b ha hb hab hba => ?_) hsorted hentries
  -- two entries that may stand in either order have one key, and a key has one value
  have hkey : a.1 = b.1 := Std.compare_eq_iff_eq.mp (Std.OrientedCmp.isLE_antisymm hab hba)
  have hvalue := mem_entries_iff.mp (hkey ▸ hperm.mem_iff.mp ha : (b.1, a.2) ∈ m.entries)
  rw [mem_entries_iff.mp hb] at hvalue
  exact Prod.ext hkey (Option.some.inj hvalue).symm

/-! ## What the entries contribute to a list -/

/-- What `view` makes of the entries, one after the other. -/
def collect (m : SortedMap κ α) (view : κ → α → List β) : List β :=
  m.entries.flatMap fun e => view e.1 e.2

theorem mem_collect {m : SortedMap κ α} {view : κ → α → List β} {x : β} :
    x ∈ m.collect view ↔ ∃ k v, m.get? k = some v ∧ x ∈ view k v := by
  simp only [collect, List.mem_flatMap, Prod.exists, mem_entries_iff]

/-- What an entry contributes stands in the list. -/
theorem sublist_collect {m : SortedMap κ α} {k : κ} {v : α} (view : κ → α → List β)
    (h : m.get? k = some v) : (view k v).Sublist (m.collect view) :=
  List.sublist_flatten_of_mem (List.mem_map.mpr ⟨(k, v), mem_entries_iff.mpr h, rfl⟩)

section Collect

variable [BEq β] {m : SortedMap κ α} {k : κ} {v : α}

theorem count_collect_insert [Std.TransOrd κ] (view : κ → α → List β) (x : β)
    (h : m.get? k = none) :
    ((m.insert k v).collect view).count x = (m.collect view).count x + (view k v).count x := by
  obtain ⟨l₁, l₂, hold, hnew⟩ := entries_insert v h
  rw [collect, collect, hold, hnew]
  simp only [List.flatMap_append, List.flatMap_cons, List.count_append]
  omega

omit [Std.LawfulEqOrd κ] in
theorem count_collect_erase (view : κ → α → List β) (x : β) :
    ((m.erase k).collect view).count x ≤ (m.collect view).count x :=
  List.Sublist.count_le x ((m.entries_erase_sublist k).flatMap _)

theorem count_collect_modify {f : α → α} (view : κ → α → List β) (x : β)
    (h : m.get? k = some v) :
    ((m.modify k f).collect view).count x + (view k v).count x
      = (m.collect view).count x + (view k (f v)).count x := by
  obtain ⟨l₁, l₂, hold, hnew⟩ := entries_modify f h
  rw [collect, collect, hold, hnew]
  simp only [List.flatMap_append, List.flatMap_cons, List.count_append]
  omega

end Collect

/-! ## Building a map entry by entry -/

section Build

variable [Std.TransOrd κ] {full : SortedMap κ α}

/-- A front of the entries is a map. -/
def front (m : SortedMap κ α) {l₁ l₂ : List (κ × α)} (h : m.entries = l₁ ++ l₂) : SortedMap κ α :=
  ⟨l₁, (List.pairwise_append.mp (h ▸ m.sorted)).1⟩

omit [Std.LawfulEqOrd κ] in
theorem insert_front {l₁ l₂ : List (κ × α)} {k : κ} {v : α}
    (h : full.entries = l₁ ++ (k, v) :: l₂) (h' : full.entries = (l₁ ++ [(k, v)]) ++ l₂) :
    (full.front h).insert k v = full.front h' := by
  -- the key lies above all keys in front of it, so it is put at the end
  have hgt : ∀ e ∈ l₁, compare k e.1 = .gt := by
    intro e he
    have hlt := (List.pairwise_append.mp (h ▸ full.sorted)).2.2 e he (k, v) List.mem_cons_self
    exact Std.OrientedCmp.gt_of_lt hlt
  have hentries : Entries.insert k v l₁ = l₁ ++ [(k, v)] := Entries.insert_last v hgt
  unfold front insert
  congr 1

omit [Std.TransOrd κ] in
/-- No other entry has the key of this one. -/
theorem ne_of_entries {l₁ l₂ : List (κ × α)} {k : κ} {v : α}
    (h : full.entries = l₁ ++ (k, v) :: l₂) {e : κ × α} (he : e ∈ l₁ ∨ e ∈ l₂) : e.1 ≠ k := by
  intro hk
  have hsorted := List.pairwise_append.mp (h ▸ full.sorted)
  have hlt : compare e.1 k = .lt ∨ compare k e.1 = .lt := by
    rcases he with he | he
    · exact .inl (hsorted.2.2 e he (k, v) List.mem_cons_self)
    · exact .inr ((List.pairwise_cons.mp hsorted.2.1).1 e he)
  rw [hk, Std.compare_eq_iff_eq.mpr rfl] at hlt
  rcases hlt with hlt | hlt <;> cases hlt

/-- **Putting in the entries one after the other, each as `f` makes it, builds the whole map.** -/
theorem load [DecidableEq κ] {f : α → β} {M : List α → SortedMap κ β → Prop} (nil : M [] ∅)
    (snoc : ∀ l m k v, full.get? k = some v → m.get? k = none → M l m →
      M (l ++ [v]) (m.insert k (f v))) : M full.values (full.map f) := by
  have key : ∀ l₂ l₁ (h : full.entries = l₁ ++ l₂), M (l₁.map (·.2)) ((full.front h).map f) →
      M full.values (full.map f) := by
    intro l₂
    induction l₂ with
    | nil =>
      intro l₁ h hM
      obtain ⟨entries, hsorted⟩ := full
      rw [List.append_nil] at h
      subst h
      exact hM
    | cons e l₂ ih =>
      obtain ⟨k, v⟩ := e
      intro l₁ h hM
      have h' : full.entries = (l₁ ++ [(k, v)]) ++ l₂ := by rw [h, List.append_assoc]; rfl
      refine ih _ h' ?_
      have hv : full.get? k = some v := mem_entries_iff.mp (h ▸ by simp)
      have hnone : (full.front h).get? k = none := by
        exact Entries.get?_eq_none_iff.mpr fun e he => ne_of_entries h (.inl he)
      rw [List.map_append, ← insert_front h h', map_insert]
      -- the next entry is a new one, behind all that are there
      refine snoc _ _ k v hv ?_ hM
      rw [get?_map, hnone]
      rfl
  exact key full.entries [] rfl nil

/-- The map has `g`'s values for the entries in `l₁`, and still `f`'s for those in `l₂`. -/
structure Partly (full : SortedMap κ α) (f g : α → β) (l₁ l₂ : List (κ × α)) (m : SortedMap κ β) :
    Prop where
  done : ∀ k v, (k, v) ∈ l₁ → m.get? k = some (g v)
  todo : ∀ k v, (k, v) ∈ l₂ → m.get? k = some (f v)
  contains : ∀ k, m.contains k = full.contains k

namespace Partly

variable {f g : α → β} {m : SortedMap κ β}

omit [Std.TransOrd κ] in
theorem none : full.Partly f g [] full.entries (full.map f) where
  done k v h := absurd h List.not_mem_nil
  todo k v h := by
    rw [get?_map, mem_entries_iff.mp h]
    rfl
  contains := contains_map full f

theorem all (h : full.Partly f g full.entries [] m) : m = full.map g := by
  refine ext fun k => ?_
  rw [get?_map]
  cases hk : full.get? k with
  | none =>
    have hnone : m.contains k = false := by
      rw [h.contains, SortedMap.contains, hk]
      rfl
    rw [get?_of_not_contains hnone]
    rfl
  | some v => exact h.done k v (mem_entries_iff.mpr hk)

omit [Std.TransOrd κ] in
theorem modify [DecidableEq κ] {l₁ l₂ : List (κ × α)} {k : κ} {v : α}
    (hl : full.entries = l₁ ++ (k, v) :: l₂) (h : full.Partly f g l₁ ((k, v) :: l₂) m) :
    full.Partly f g (l₁ ++ [(k, v)]) l₂ (m.modify k fun _ => g v) where
  done k' v' hmem := by
    rw [get?_modify]
    rcases List.mem_append.mp hmem with hmem | hmem
    · rw [if_neg (ne_of_entries hl (.inl hmem))]
      exact h.done k' v' hmem
    · cases List.mem_singleton.mp hmem
      rw [if_pos rfl, h.todo k v List.mem_cons_self]
      rfl
  todo k' v' hmem := by
    rw [get?_modify, if_neg (ne_of_entries hl (.inr hmem))]
    exact h.todo k' v' (.tail _ hmem)
  contains k' := by
    rw [← h.contains, SortedMap.contains, SortedMap.contains, get?_modify]
    split <;> simp

end Partly

/-- **Changing the values one after the other from `f`'s to `g`'s changes the whole map.** -/
theorem refill [DecidableEq κ] {f g : α → β} {M : List α → SortedMap κ β → Prop}
    (nil : M [] (full.map f))
    (snoc : ∀ l m k v, full.get? k = some v → m.get? k = some (f v) →
      (∀ k', m.contains k' = full.contains k') → M l m →
      M (l ++ [v]) (m.modify k fun _ => g v)) : M full.values (full.map g) := by
  -- by induction on the entries that still have the values of `f`
  have key : ∀ l₂ l₁ m, full.entries = l₁ ++ l₂ → full.Partly f g l₁ l₂ m →
      M (l₁.map (·.2)) m → M full.values (full.map g) := by
    intro l₂
    induction l₂ with
    | nil =>
      intro l₁ m hl h hM
      rw [List.append_nil] at hl
      subst hl
      rw [← h.all]
      exact hM
    | cons e l₂ ih =>
      obtain ⟨k, v⟩ := e
      intro l₁ m hl h hM
      have hv : full.get? k = some v := mem_entries_iff.mp (hl ▸ by simp)
      refine ih (l₁ ++ [(k, v)]) (m.modify k fun _ => g v) ?_ (h.modify hl) ?_
      · rw [hl, List.append_assoc]
        rfl
      · rw [List.map_append]
        exact snoc _ m k v hv (h.todo k v List.mem_cons_self) h.contains hM
  exact key full.entries [] (full.map f) rfl .none nil

end Build

/-! ## A map from the lists of what its values hold -/

section Determined

/-- What one value holds can be told from what all of them hold, if each part names its key. -/
theorem filter_values [Std.TransOrd κ] [DecidableEq κ] {γ ω : Type} [DecidableEq ω]
    {m : SortedMap κ α} {parts : α → List γ} {owner : γ → ω} {of : κ → ω}
    (hof : Function.Injective of)
    (h : m.All fun k a => ∀ x ∈ parts a, owner x = of k) (k : κ) :
    (m.values.flatMap parts).filter (owner · = of k) = ((m.get? k).map parts).getD [] := by
  have hparts : ∀ e ∈ m.entries, (parts e.2).filter (owner · = of k)
      = if e.1 = k then parts e.2 else [] := by
    intro e he
    have howner := h e.1 e.2 (mem_entries_iff.mp he)
    split
    · rename_i hk
      exact List.filter_eq_self.mpr fun x hx => decide_eq_true (hk ▸ howner x hx)
    · rename_i hk
      exact List.filter_eq_nil_iff.mpr fun x hx hxk =>
        hk (hof ((howner x hx).symm.trans (of_decide_eq_true hxk)))
  rw [values, List.flatMap_map, List.filter_flatMap, List.flatMap_congr hparts]
  exact Entries.flatMap_key m.sorted k parts

/-- Views of the values in a row determine the view of the map, if each view names its key. -/
theorem map_eq_of_values {ω : Type} {m n : SortedMap κ α} (head : α → β) (name : β → ω) {of : κ → ω}
    (hof : Function.Injective of) (hm : m.All fun k a => name (head a) = of k)
    (hn : n.All fun k a => name (head a) = of k) (h : m.values.map head = n.values.map head) :
    m.map head = n.map head := by
  have key : ∀ m : SortedMap κ α, (m.All fun k a => name (head a) = of k) →
      m.entries.map (fun e => (of e.1, head e.2))
        = (m.values.map head).map fun b => (name b, b) := by
    intro m hm
    rw [values, List.map_map, List.map_map]
    exact List.map_congr_left fun e he =>
      congrArg (·, head e.2) (hm e.1 e.2 (mem_entries_iff.mp he)).symm
  -- the keys can be told from the names that they are given
  have hinjective : Function.Injective fun p : κ × β => (of p.1, p.2) := by
    rintro ⟨k, b⟩ ⟨k', b'⟩ hp
    obtain ⟨hk, hb⟩ := Prod.mk.inj hp
    exact Prod.ext (hof hk) hb
  have hentries : (m.map head).entries = (n.map head).entries := by
    refine List.map_injective_iff.mpr hinjective ?_
    simp only [map, List.map_map, Function.comp_def, key m hm, key n hn, h]
  generalize m.map head = m' at hentries ⊢
  generalize n.map head = n' at hentries ⊢
  cases m'
  cases n'
  cases hentries
  rfl

/--
Two maps agree, as far as `f` sees, if their values have the same heads and the same parts in a row,
and each head and part names the key that it is under.
-/
theorem map_eq_of_heads_parts [Std.TransOrd κ] [DecidableEq κ] {γ δ ω ω' : Type} [DecidableEq ω']
    {m n : SortedMap κ α} (head : α → β) (parts : α → List γ) (f : α → δ) (name : β → ω)
    (owner : γ → ω') {of : κ → ω} {of' : κ → ω'} (hof : Function.Injective of)
    (hof' : Function.Injective of')
    (hm : m.All fun k a => name (head a) = of k ∧ ∀ x ∈ parts a, owner x = of' k)
    (hn : n.All fun k a => name (head a) = of k ∧ ∀ x ∈ parts a, owner x = of' k)
    (hheads : m.values.map head = n.values.map head)
    (hparts : m.values.flatMap parts = n.values.flatMap parts)
    (hf : ∀ k a b, m.get? k = some a → n.get? k = some b → head a = head b → parts a = parts b →
      f a = f b) : m.map f = n.map f := by
  have hhead := map_eq_of_values head name hof (fun k a ha => (hm k a ha).1)
    (fun k a ha => (hn k a ha).1) hheads
  refine ext fun k => ?_
  rw [get?_map, get?_map]
  rcases get?_of_map_eq hhead k with ⟨ha, hb⟩ | ⟨a, b, ha, hb, hab⟩
  · rw [ha, hb]
  · have hfilter := congrArg (List.filter (owner · = of' k)) hparts
    rw [filter_values hof' fun k a ha => (hm k a ha).2,
      filter_values hof' fun k a ha => (hn k a ha).2, ha, hb] at hfilter
    rw [ha, hb]
    exact congrArg some (hf k a b ha hb hab hfilter)

end Determined

end SortedMap

end Nftables
