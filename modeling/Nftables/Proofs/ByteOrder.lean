import Nftables.Proofs.WellFormed

/-!
# Tables in the order of their bytes

Names are compared by their characters, and the characters are laid out in bytes so that this is
also the order of the bytes: a character with the smaller code has the smaller encoding, and where
two encodings agree, what follows decides.

A ruleset keeps its tables in that order, by the name of the family and then by their own, and lists
them so. Three facts say that nothing else could be meant by the order: the list has every table
once, no other arrangement of it is sorted (`Ruleset.Lists`), and sorting the tables from any other
arrangement leads back to it (`Ruleset.mergeSort_eq_listing`).
-/

namespace Nftables

namespace Text

/-- The bytes of a text. -/
def bytes (s : String) : List UInt8 := s.toUTF8.data.toList

theorem bytes_eq (s : String) : bytes s = s.toList.flatMap String.utf8EncodeChar := by
  rw [bytes, String.toUTF8_eq_toByteArray, ← String.utf8Encode_toList, List.utf8Encode,
    List.data_toByteArray, List.toList_toArray]

/-- Where the first bytes, given as numbers, do not decide, the rest does. -/
theorem ofNat_cons_lt {a b : Nat} {xs ys : List UInt8} (hb : b < 256) (hab : a ≤ b)
    (h : a = b → xs < ys) : UInt8.ofNat a :: xs < UInt8.ofNat b :: ys := by
  rw [List.cons_lt_cons_iff]
  rcases Nat.lt_or_eq_of_le hab with hlt | rfl
  · left
    rwa [UInt8.lt_iff_toNat_lt, UInt8.toNat_ofNat_of_lt' (Nat.lt_trans hlt hb),
      UInt8.toNat_ofNat_of_lt' hb]
  · exact .inr ⟨rfl, h rfl⟩

/-- The character with the smaller code has the smaller bytes, whatever follows. -/
theorem utf8EncodeChar_lt {c d : Char} (h : c < d) (xs ys : List UInt8) :
    String.utf8EncodeChar c ++ xs < String.utf8EncodeChar d ++ ys := by
  have hlt : c.val.toNat < d.val.toNat := h
  have hd : d.val.toNat < 1114112 := by
    have hvalid : d.val.toNat.isValidChar := d.valid
    unfold Nat.isValidChar at hvalid
    omega
  unfold String.utf8EncodeChar
  generalize c.val.toNat = v at hlt
  generalize d.val.toNat = w at hlt hd
  dsimp only
  -- the first byte tells how many there are; if there are as many, the first that differs decides
  by_cases hw₁ : w ≤ 127
  · rw [if_pos (Nat.le_trans (Nat.le_of_lt hlt) hw₁), if_pos hw₁]
    exact ofNat_cons_lt (by omega) (by omega) fun _ => by omega
  rw [if_neg hw₁]
  by_cases hv₁ : v ≤ 127
  · rw [if_pos hv₁]
    split
    · exact ofNat_cons_lt (by omega) (by omega) fun _ => by omega
    · split <;> exact ofNat_cons_lt (by omega) (by omega) fun _ => by omega
  rw [if_neg hv₁]
  by_cases hw₂ : w ≤ 2047
  · rw [if_pos (Nat.le_trans (Nat.le_of_lt hlt) hw₂), if_pos hw₂]
    refine ofNat_cons_lt (by omega) (by omega) fun _ => ?_
    exact ofNat_cons_lt (by omega) (by omega) fun _ => by omega
  rw [if_neg hw₂]
  by_cases hv₂ : v ≤ 2047
  · rw [if_pos hv₂]
    split <;> exact ofNat_cons_lt (by omega) (by omega) fun _ => by omega
  rw [if_neg hv₂]
  by_cases hw₃ : w ≤ 65535
  · rw [if_pos (Nat.le_trans (Nat.le_of_lt hlt) hw₃), if_pos hw₃]
    refine ofNat_cons_lt (by omega) (by omega) fun _ => ?_
    refine ofNat_cons_lt (by omega) (by omega) fun _ => ?_
    exact ofNat_cons_lt (by omega) (by omega) fun _ => by omega
  rw [if_neg hw₃]
  by_cases hv₃ : v ≤ 65535
  · rw [if_pos hv₃]
    exact ofNat_cons_lt (by omega) (by omega) fun _ => by omega
  rw [if_neg hv₃]
  refine ofNat_cons_lt (by omega) (by omega) fun _ => ?_
  refine ofNat_cons_lt (by omega) (by omega) fun _ => ?_
  refine ofNat_cons_lt (by omega) (by omega) fun _ => ?_
  exact ofNat_cons_lt (by omega) (by omega) fun _ => by omega

theorem flatMap_utf8EncodeChar_lt {l₁ l₂ : List Char} (h : l₁ < l₂) :
    l₁.flatMap String.utf8EncodeChar < l₂.flatMap String.utf8EncodeChar := by
  induction l₁ generalizing l₂ with
  | nil =>
    cases l₂ with
    | nil => cases h
    | cons d l₂ =>
      rw [List.flatMap_nil, List.flatMap_cons]
      cases hd : String.utf8EncodeChar d with
      | nil => exact absurd hd String.utf8EncodeChar_ne_nil
      | cons b rest => exact List.nil_lt_cons _ _
  | cons c l₁ ih =>
    cases l₂ with
    | nil => cases h
    | cons d l₂ =>
      rw [List.flatMap_cons, List.flatMap_cons]
      rcases List.cons_lt_cons_iff.mp h with hcd | ⟨rfl, hl⟩
      · exact utf8EncodeChar_lt hcd _ _
      · exact List.append_left_lt (ih hl)

/-- **Texts that compare by their characters compare by their bytes.** -/
theorem bytes_lt {s t : String} (h : s < t) : bytes s < bytes t := by
  rw [bytes_eq, bytes_eq]
  exact flatMap_utf8EncodeChar_lt (String.lt_iff.mp h)

end Text

/-! ## Tables -/

/-- What a table is listed by: the bytes of the name of its family, and those of its own. -/
def Table.rank (t : Table) : List UInt8 × List UInt8 :=
  (Text.bytes ((t.scope.family.map Family.name).getD ""), Text.bytes (t.scope.table.getD ""))

/-- The table is listed before the other. -/
def Table.Before (a b : Table) : Prop := Prod.Lex (· < ·) (· < ·) a.rank b.rank

theorem Table.Before.of_scope {a b : Table} {j k : TableKey} (ha : a.scope = j.scope)
    (hb : b.scope = k.scope) (h : compare j k = .lt) : a.Before b := by
  unfold Table.Before rank
  rw [ha, hb, Prod.lex_def]
  rcases Ordering.then_eq_lt.mp h with hfamily | ⟨hfamily, hname⟩
  · exact .inl (Text.bytes_lt (compareOfLessAndEq_eq_lt.mp hfamily))
  · refine .inr ⟨congrArg Text.bytes (Std.compare_eq_iff_eq.mp hfamily), ?_⟩
    exact Text.bytes_lt (compareOfLessAndEq_eq_lt.mp hname)

theorem Table.Before.asymm {a b : Table} (h : a.Before b) : ¬ b.Before a := by
  unfold Table.Before at h ⊢
  rw [Prod.lex_def] at h ⊢
  rintro (h' | ⟨h', h''⟩)
  · rcases h with h | ⟨h, -⟩
    · exact List.lt_asymm h h'
    · exact List.lt_irrefl _ (h ▸ h')
  · rcases h with h | ⟨-, h⟩
    · exact List.lt_irrefl _ (h' ▸ h)
    · exact List.lt_asymm h h''

namespace Ruleset

/-- The list has every table of the ruleset once, in order, and it is the only one in this order. -/
structure Lists (r : Ruleset) (tables : List TableState) : Prop where
  mem_iff : ∀ t, t ∈ tables ↔ ∃ key, r.tables.get? key = some t
  once : tables.Nodup
  sorted : tables.Pairwise fun a b => a.table.Before b.table
  unique : ∀ l, l.Perm tables → (l.Pairwise fun a b => a.table.Before b.table) → l = tables

/--
**Sorting any enumeration of the tables gives the listing.** A store whose own order is another one
thus lists what the ruleset lists, if it sorts by the names before it shows anything.
-/
theorem mergeSort_eq_listing {r : Ruleset} {l : List (TableKey × TableState)}
    (h : l.Perm r.tables.entries) :
    (l.mergeSort fun a b => (compare a.1 b.1).isLE).map Prod.snd = r.listing :=
  congrArg (List.map Prod.snd) (SortedMap.mergeSort_eq_entries h)

/-- **A ruleset keeps its tables in the order of their bytes.** -/
theorem WellFormed.lists {r : Ruleset} (hw : r.WellFormed) : r.Lists r.tables.values := by
  have hsorted : r.tables.values.Pairwise fun a b => a.table.Before b.table := by
    refine List.pairwise_map.mpr (r.tables.sorted.imp_of_mem fun ha hb hlt => ?_)
    exact .of_scope (hw _ _ (SortedMap.mem_entries_iff.mp ha)).table.scope
      (hw _ _ (SortedMap.mem_entries_iff.mp hb)).table.scope hlt
  exact
    { mem_iff := fun t => SortedMap.mem_values_iff
      once := hsorted.imp fun h hab => (hab ▸ h).asymm (hab ▸ h)
      sorted := hsorted
      unique := fun l hperm hl =>
        hperm.eq_of_pairwise (fun a b _ _ hab hba => absurd hba hab.asymm) hl hsorted }

end Ruleset

end Nftables
