/-!
# Sorted maps

Finite maps whose entries are kept in the order of their keys. There is only one sorted list of
entries for a given look-up, so two maps that look up alike are equal (`SortedMap.ext`).
-/

namespace Nftables

variable {κ α β : Type} [Ord κ]

/-- The keys rise strictly. -/
def KeysSorted (entries : List (κ × α)) : Prop :=
  entries.Pairwise fun a b => compare a.1 b.1 = .lt

/-- A finite map, as the list of its entries by rising keys. -/
structure SortedMap (κ α : Type) [Ord κ] where
  entries : List (κ × α)
  sorted : KeysSorted entries

/-! ## Operations on entries -/

namespace Entries

/-- Puts a value at its place, over one that has the same key. -/
def insert (k : κ) (v : α) : List (κ × α) → List (κ × α)
  | [] => [(k, v)]
  | e :: rest =>
    match compare k e.1 with
    | .lt => (k, v) :: e :: rest
    | .eq => (k, v) :: rest
    | .gt => e :: insert k v rest

def get? (k : κ) : List (κ × α) → Option α
  | [] => none
  | e :: rest => if compare k e.1 = .eq then some e.2 else get? k rest

def erase (k : κ) (entries : List (κ × α)) : List (κ × α) :=
  entries.filter fun e => compare k e.1 ≠ .eq

def modify (k : κ) (f : α → α) (entries : List (κ × α)) : List (κ × α) :=
  entries.map fun e => if compare k e.1 = .eq then (e.1, f e.2) else e

theorem keysSorted_map {entries : List (κ × α)} (f : κ × α → κ × β) (hf : ∀ e, (f e).1 = e.1)
    (h : KeysSorted entries) : KeysSorted (entries.map f) := by
  unfold KeysSorted at h ⊢
  rw [List.pairwise_map]
  simpa only [hf] using h

theorem keysSorted_erase {entries : List (κ × α)} (k : κ) (h : KeysSorted entries) :
    KeysSorted (erase k entries) :=
  h.filter _

theorem keysSorted_modify {entries : List (κ × α)} (k : κ) (f : α → α) (h : KeysSorted entries) :
    KeysSorted (modify k f entries) := by
  refine keysSorted_map _ (fun e => ?_) h
  split <;> rfl

theorem mem_insert {k : κ} {v : α} {entries : List (κ × α)} {e : κ × α}
    (h : e ∈ insert k v entries) : e = (k, v) ∨ e ∈ entries := by
  induction entries with
  | nil => simpa [insert] using h
  | cons d rest ih =>
    unfold insert at h
    split at h
    · simpa using h
    · simp only [List.mem_cons] at h ⊢
      exact h.imp id .inr
    · simp only [List.mem_cons] at h ⊢
      rcases h with rfl | h
      · exact .inr (.inl rfl)
      · exact (ih h).imp id .inr

variable [Std.TransOrd κ]

theorem keysSorted_insert {entries : List (κ × α)} (k : κ) (v : α) (h : KeysSorted entries) :
    KeysSorted (insert k v entries) := by
  induction entries with
  | nil => exact List.pairwise_singleton _ _
  | cons d rest ih =>
    obtain ⟨hd, hrest⟩ := List.pairwise_cons.mp h
    unfold insert
    split
    · rename_i hlt
      refine List.pairwise_cons.mpr ⟨fun e he => ?_, h⟩
      rcases List.mem_cons.mp he with rfl | he
      · exact hlt
      · exact Std.TransCmp.lt_trans hlt (hd e he)
    · rename_i heq
      refine List.pairwise_cons.mpr ⟨fun e he => ?_, hrest⟩
      exact Std.TransCmp.lt_of_eq_of_lt heq (hd e he)
    · rename_i hgt
      refine List.pairwise_cons.mpr ⟨fun e he => ?_, ih hrest⟩
      rcases mem_insert he with rfl | he
      · exact Std.OrientedCmp.lt_of_gt hgt
      · exact hd e he

end Entries

/-! ## Operations on maps -/

namespace SortedMap

def empty : SortedMap κ α := ⟨[], .nil⟩

instance : EmptyCollection (SortedMap κ α) := ⟨empty⟩

instance : Inhabited (SortedMap κ α) := ⟨empty⟩

instance [DecidableEq κ] [DecidableEq α] : DecidableEq (SortedMap κ α) := fun m n =>
  decidable_of_iff (m.entries = n.entries) (by cases m; cases n; simp)

def get? (m : SortedMap κ α) (k : κ) : Option α := Entries.get? k m.entries

def contains (m : SortedMap κ α) (k : κ) : Bool := (m.get? k).isSome

def insert [Std.TransOrd κ] (m : SortedMap κ α) (k : κ) (v : α) : SortedMap κ α :=
  ⟨Entries.insert k v m.entries, Entries.keysSorted_insert k v m.sorted⟩

/-- Puts the value under a key that is not there yet; else nothing happens. -/
def insertIfNew [Std.TransOrd κ] (m : SortedMap κ α) (k : κ) (v : α) : SortedMap κ α :=
  if m.contains k then m else m.insert k v

def erase (m : SortedMap κ α) (k : κ) : SortedMap κ α :=
  ⟨Entries.erase k m.entries, Entries.keysSorted_erase k m.sorted⟩

def modify (m : SortedMap κ α) (k : κ) (f : α → α) : SortedMap κ α :=
  ⟨Entries.modify k f m.entries, Entries.keysSorted_modify k f m.sorted⟩

/-- Applies `f` to all values. -/
def map (m : SortedMap κ α) (f : α → β) : SortedMap κ β :=
  ⟨m.entries.map fun e => (e.1, f e.2), Entries.keysSorted_map _ (fun _ => rfl) m.sorted⟩

/-- The keys, rising. -/
def keys (m : SortedMap κ α) : List κ := m.entries.map (·.1)

/-- The values, by rising keys. -/
def values (m : SortedMap κ α) : List α := m.entries.map (·.2)

def size (m : SortedMap κ α) : Nat := m.entries.length

/-- The first key whose entry passes the test. -/
def findKey? (m : SortedMap κ α) (p : κ → α → Bool) : Option κ :=
  (m.entries.find? fun e => p e.1 e.2).map (·.1)

end SortedMap

end Nftables
