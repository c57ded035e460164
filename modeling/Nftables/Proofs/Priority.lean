import Mathlib.Data.List.TakeWhile
import Nftables.Priority
import Nftables.Proofs.Step

/-!
# What a priority stands for

A priority is a decimal literal of 32 bits, one of the family's names, or such a name with a literal
behind it that has a sign. There is one way to take a text apart, because names have no sign in them
and do not begin like a number. The reader accepts exactly these texts; any other one it refuses for
the first thing that is wrong with it, and says which part of the text that is.

`Denotes` says what a text stands for, with no word on how it is read; `Refused` says what is wrong
with a text, and of two things that are wrong the one that is reported. The reader cuts the text at
its first sign, if it is not a literal as a whole. That this is the cut that `Denotes` has in mind
is where the names come in: `Proper` lists what is needed of them, and is checked for every family
by going through its table (`proper_of_mem`).

The offset is read before the name is looked up, so a bad offset is reported behind an unknown name
too. The bounds are those of 32 bits for the literal, for the offset and for the sum, each on its
own: an offset may be out of range where the sum would not be.
-/

namespace Nftables.Text

/-! ## Decimal literals -/

theorem le_ofDigitChars (s : List Char) (init : Nat) : init ≤ Nat.ofDigitChars 10 s init := by
  induction s generalizing init with
  | nil => exact Nat.le_of_eq Nat.ofDigitChars_nil.symm
  | cons c s ih =>
    rw [Nat.ofDigitChars_cons]
    refine Nat.le_trans ?_ (ih _)
    omega

/-- Digits are read as the number that they write, if that is not above the limit. -/
theorem readDigits_eq_ok_iff {limit : Nat} {fault : IntegerFault} {s : List Char} {init n : Nat}
    (hinit : init ≤ limit) : readDigits limit fault init s = .ok n ↔
      (∀ c ∈ s, c.isDigit = true) ∧ Nat.ofDigitChars 10 s init = n ∧ n ≤ limit := by
  induction s generalizing init with
  | nil =>
    rw [readDigits, Nat.ofDigitChars_nil, Except.ok.injEq]
    constructor
    · rintro rfl
      exact ⟨by simp, rfl, hinit⟩
    · exact fun h => h.2.1
  | cons c s ih =>
    rw [readDigits, Nat.ofDigitChars_cons, List.forall_mem_cons, digitValue?]
    by_cases hc : c.isDigit = true
    · rw [if_pos hc]
      dsimp only
      split
      · rename_i hbeyond
        -- the digits behind only add to what is there
        refine iff_of_false (by simp) ?_
        rintro ⟨-, rfl, hle⟩
        have hgrows := le_ofDigitChars s (10 * init + (c.toNat - '0'.toNat))
        omega
      · rename_i hwithin
        rw [ih (Nat.le_of_not_lt hwithin), and_iff_right hc]
    · rw [if_neg hc]
      exact iff_of_false (by simp) fun h => hc h.1.1

/-- A text of decimal digits that is not empty. -/
def Digits (s : List Char) : Prop := s ≠ [] ∧ ∀ c ∈ s, c.isDigit = true

instance (s : List Char) : Decidable (Digits s) := inferInstanceAs (Decidable (_ ∧ _))

theorem readMagnitude_eq_ok_iff {limit : Nat} {fault : IntegerFault} {s : List Char} {n : Nat} :
    readMagnitude limit fault s = .ok n ↔
      Digits s ∧ Nat.ofDigitChars 10 s 0 = n ∧ n ≤ limit := by
  unfold readMagnitude
  split
  · exact iff_of_false (by simp) fun h => h.1.1 rfl
  · rename_i hne
    rw [readDigits_eq_ok_iff (Nat.zero_le limit), Digits, and_iff_right hne]

/-- A decimal literal and its value: at least one digit, with or without a sign in front. -/
inductive Literal : List Char → Int → Prop
  | plain {s : List Char} (h : Digits s) : Literal s (Nat.ofDigitChars 10 s 0)
  | plus {s : List Char} (h : Digits s) : Literal ('+' :: s) (Nat.ofDigitChars 10 s 0)
  | minus {s : List Char} (h : Digits s) : Literal ('-' :: s) (-(Nat.ofDigitChars 10 s 0 : Int))

end Nftables.Text

/-! ## Priorities -/

namespace Nftables.Priority

open Text

/-- A decimal literal of 32 bits. -/
def Int32Literal (s : List Char) (v : Int) : Prop := Literal s v ∧ InRange v

theorem readMagnitude_map_eq_ok_iff {limit : Nat} {fault : IntegerFault} {s : List Char}
    {f : Nat → Int} {v : Int} : (readMagnitude limit fault s).map f = .ok v ↔
      Digits s ∧ f (Nat.ofDigitChars 10 s 0) = v ∧ Nat.ofDigitChars 10 s 0 ≤ limit := by
  constructor
  · intro h
    cases hread : readMagnitude limit fault s with
    | error e =>
      rw [hread] at h
      cases h
    | ok n =>
      rw [hread] at h
      obtain ⟨hs, rfl, hle⟩ := readMagnitude_eq_ok_iff.mp hread
      exact ⟨hs, Except.ok.inj h, hle⟩
  · rintro ⟨hs, rfl, hle⟩
    rw [readMagnitude_eq_ok_iff.mpr ⟨hs, rfl, hle⟩]
    rfl

/-- **The literals of 32 bits are read**, with their values, and nothing else is. -/
theorem readInt32_eq_ok_iff {s : List Char} {v : Int} :
    readInt32 s = .ok v ↔ Int32Literal s v := by
  unfold readInt32 readInt
  split
  · refine iff_of_false (by simp) ?_
    rintro ⟨hs, -⟩
    cases hs with
    | plain h => exact h.1 rfl
  · rename_i r
    rw [readMagnitude_map_eq_ok_iff]
    constructor
    · rintro ⟨hr, rfl, hle⟩
      exact ⟨.plus hr, by simp only [InRange, Int.ofNat_eq_natCast]; omega⟩
    · rintro ⟨hs, hv⟩
      cases hs with
      | plain h => exact absurd (h.2 _ List.mem_cons_self) (by decide)
      | plus hr => exact ⟨hr, rfl, by simp only [InRange] at hv; omega⟩
  · rename_i r
    rw [readMagnitude_map_eq_ok_iff]
    constructor
    · rintro ⟨hr, rfl, hle⟩
      exact ⟨.minus hr, by simp only [InRange, Int.ofNat_eq_natCast]; omega⟩
    · rintro ⟨hs, hv⟩
      cases hs with
      | plain h => exact absurd (h.2 _ List.mem_cons_self) (by decide)
      | minus hr => exact ⟨hr, rfl, by simp only [InRange] at hv; omega⟩
  · rename_i hnil hplus hminus
    rw [readMagnitude_map_eq_ok_iff]
    constructor
    · rintro ⟨hs, rfl, hle⟩
      exact ⟨.plain hs, by simp only [InRange, Int.ofNat_eq_natCast]; omega⟩
    · rintro ⟨hs, hv⟩
      cases hs with
      | plain h => exact ⟨h, rfl, by simp only [InRange] at hv; omega⟩
      | plus hr => exact absurd rfl (hplus _)
      | minus hr => exact absurd rfl (hminus _)

/-- The number that a text stands for as a priority of the family. -/
inductive Denotes (family : Family) : List Char → Int → Prop
  | literal {s : List Char} {v : Int} (h : Int32Literal s v) : Denotes family s v
  | name {name : String} {base : Int} (h : (name, base) ∈ named family) :
    Denotes family name.toList base
  | offset {name : String} {base offset : Int} {suffix : List Char}
    (h : (name, base) ∈ named family) (hsign : ∃ c ∈ suffix.head?, isSign c = true)
    (hoffset : Int32Literal suffix offset) (hv : InRange (base + offset)) :
    Denotes family (name.toList ++ suffix) (base + offset)

/-- A text cut at its first sign. -/
structure Cut (s name suffix : List Char) : Prop where
  whole : s = name ++ suffix
  name : ∀ c ∈ name, isSign c = false
  suffix : ∀ c ∈ suffix.head?, isSign c = true

/-- The first thing that is wrong with a text: the offset, the name in front of it, their sum. -/
inductive Refused (family : Family) (s : List Char) : PriorityFault → Prop
  | offset {name suffix : List Char} (fault : IntegerFault) (hcut : Cut s name suffix)
    (hsuffix : suffix ≠ []) (h : ∀ v, ¬ Int32Literal suffix v) :
    Refused family s (.offset (String.ofList suffix) fault)
  | unknownName {name suffix : List Char} (hcut : Cut s name suffix)
    (hsuffix : suffix = [] ∨ ∃ v, Int32Literal suffix v)
    (h : ∀ base, (String.ofList name, base) ∉ named family) :
    Refused family s (.unknownName (String.ofList name))
  | outOfRange {name suffix : List Char} {base offset : Int} (hcut : Cut s name suffix)
    (hbase : (String.ofList name, base) ∈ named family) (hoffset : Int32Literal suffix offset)
    (h : ¬ InRange (base + offset)) : Refused family s (.outOfRange (String.ofList s))

theorem cut_takeWhile (s : List Char) :
    Cut s (s.takeWhile (!isSign ·)) (s.dropWhile (!isSign ·)) where
  whole := List.takeWhile_append_dropWhile.symm
  name c hc := by simpa using List.mem_takeWhile_imp hc
  suffix c hc := by
    have hhead := List.head?_dropWhile_not (!isSign ·) s
    rw [Option.mem_def.mp hc] at hhead
    simpa using hhead

theorem Cut.takeWhile_eq {s name suffix : List Char} (h : Cut s name suffix) :
    s.takeWhile (!isSign ·) = name ∧ s.dropWhile (!isSign ·) = suffix := by
  have hname : ∀ c ∈ name, (!isSign c) = true := fun c hc => by simp [h.name c hc]
  -- what is taken ends at the first sign, which is the first character of the suffix
  rw [h.whole, List.takeWhile_append_of_pos hname, List.dropWhile_append_of_pos hname]
  cases hs : suffix with
  | nil => simp
  | cons c r =>
    have hc : isSign c = true := h.suffix c (by rw [hs]; rfl)
    simp [hc]

/-- What a family names: a value of 32 bits, by a word without a sign and no digit in front. -/
structure Proper (family : Family) (name : String) (base : Int) : Prop where
  lookup : (named family).lookup name = some base
  inRange : InRange base
  ne_nil : name.toList ≠ []
  sign : ∀ c ∈ name.toList, isSign c = false
  digit : ∀ c ∈ name.toList, c.isDigit = false

theorem proper_of_mem {family : Family} {name : String} {base : Int}
    (h : (name, base) ∈ named family) : Proper family name base := by
  have hall : ∀ e ∈ named family, (named family).lookup e.1 = some e.2 ∧ InRange e.2 ∧
      e.1.toList ≠ [] ∧ e.1.toList.all (fun c => !isSign c && !c.isDigit) = true := by
    -- the tables are short
    cases family <;> decide
  obtain ⟨hlookup, hrange, hne, hchars⟩ := hall _ h
  have hchar : ∀ c ∈ name.toList, isSign c = false ∧ c.isDigit = false := by
    simpa using hchars
  exact ⟨hlookup, hrange, hne, fun c hc => (hchar c hc).1, fun c hc => (hchar c hc).2⟩

/-- A text that begins with a name is no literal. -/
theorem Proper.not_literal {family : Family} {name : String} {base v : Int}
    (h : Proper family name base) (suffix : List Char) : ¬ Literal (name.toList ++ suffix) v := by
  obtain ⟨c, r, hname⟩ := List.exists_cons_of_ne_nil h.ne_nil
  have hsign := h.sign c (by rw [hname]; exact List.mem_cons_self)
  have hdigit := h.digit c (by rw [hname]; exact List.mem_cons_self)
  rw [hname, List.cons_append]
  intro hs
  cases hs with
  | plain hdigits => exact absurd (hdigits.2 c List.mem_cons_self) (by simp [hdigit])
  | plus => exact absurd hsign (by decide)
  | minus => exact absurd hsign (by decide)

theorem readOffset_eq_ok_iff {suffix : List Char} {offset : Int} :
    readOffset suffix = .ok offset ↔
      suffix = [] ∧ offset = 0 ∨ suffix ≠ [] ∧ Int32Literal suffix offset := by
  unfold readOffset
  split
  · simp [eq_comm]
  · rename_i hnil
    have hne : suffix ≠ [] := hnil
    rw [← readInt32_eq_ok_iff]
    cases readInt32 suffix <;> simp [Except.mapError, hne]

theorem readOffset_eq_error {suffix : List Char} {e : PriorityFault}
    (h : readOffset suffix = .error e) : suffix ≠ [] ∧ ∃ fault,
      e = .offset (String.ofList suffix) fault ∧ ∀ v, ¬ Int32Literal suffix v := by
  unfold readOffset at h
  split at h
  · cases h
  · rename_i hne
    cases hread : readInt32 suffix with
    | ok v =>
      rw [hread] at h
      cases h
    | error fault =>
      rw [hread] at h
      refine ⟨hne, fault, (Except.error.inj h).symm, fun v hv => ?_⟩
      rw [readInt32_eq_ok_iff.mpr hv] at hread
      cases hread

/-- What is read of a text that is cut at its first sign. -/
theorem readNamed_of_cut {s name suffix : List Char} (family : Family) (h : Cut s name suffix) :
    readNamed family s = readOffset suffix >>= fun offset =>
      match (named family).lookup (String.ofList name) with
      | none => .error (.unknownName (String.ofList name))
      | some base =>
        if InRange (base + offset) then .ok (base + offset)
        else .error (.outOfRange (String.ofList s)) := by
  obtain ⟨rfl, rfl⟩ := h.takeWhile_eq
  rfl

theorem mem_named_of_lookup {family : Family} {name : String} {base : Int}
    (h : (named family).lookup name = some base) : (name, base) ∈ named family := by
  obtain ⟨l₁, l₂, heq, -⟩ := List.lookup_eq_some_iff.mp h
  rw [heq]
  exact List.mem_append_right l₁ List.mem_cons_self

/-- A literal that stands behind a name has a sign. -/
theorem Cut.hasSign {s name suffix : List Char} (h : Cut s name suffix) (hne : suffix ≠ []) :
    ∃ c ∈ suffix.head?, isSign c = true := by
  obtain ⟨c, r, hsuffix⟩ := List.exists_cons_of_ne_nil hne
  have hc : c ∈ suffix.head? := by rw [hsuffix]; rfl
  exact ⟨c, hc, h.suffix c hc⟩

theorem denotes_of_readNamed {family : Family} {s : List Char} {v : Int}
    (h : readNamed family s = .ok v) : Denotes family s v := by
  have hcut := cut_takeWhile s
  generalize s.takeWhile (!isSign ·) = name at hcut
  generalize s.dropWhile (!isSign ·) = suffix at hcut
  rw [readNamed_of_cut family hcut] at h
  obtain ⟨offset, hoffset, h⟩ := bind_ok h
  split at h
  · cases h
  · rename_i base hlookup
    have hmem := mem_named_of_lookup hlookup
    split at h
    · rename_i hrange
      obtain rfl := Except.ok.inj h
      rw [hcut.whole, ← String.toList_ofList (l := name)]
      rcases readOffset_eq_ok_iff.mp hoffset with ⟨rfl, rfl⟩ | ⟨hne, hliteral⟩
      · rw [List.append_nil, Int.add_zero]
        exact .name hmem
      · exact .offset hmem (hcut.hasSign hne) hliteral hrange
    · cases h

theorem refused_of_readNamed {family : Family} {s : List Char} {fault : PriorityFault}
    (h : readNamed family s = .error fault) : Refused family s fault := by
  have hcut := cut_takeWhile s
  generalize s.takeWhile (!isSign ·) = name at hcut
  generalize s.dropWhile (!isSign ·) = suffix at hcut
  rw [readNamed_of_cut family hcut] at h
  cases hread : readOffset suffix with
  | error e =>
    rw [bind_of_error hread] at h
    cases h
    obtain ⟨hne, fault, rfl, hnone⟩ := readOffset_eq_error hread
    exact .offset fault hcut hne hnone
  | ok offset =>
    have hoffset := readOffset_eq_ok_iff.mp hread
    rw [bind_of_ok hread] at h
    split at h
    · rename_i hlookup
      cases h
      refine .unknownName hcut ?_ fun base hmem => ?_
      · exact hoffset.imp And.left fun ⟨_, hliteral⟩ => ⟨offset, hliteral⟩
      · rw [(proper_of_mem hmem).lookup] at hlookup
        cases hlookup
    · rename_i base hlookup
      have hmem := mem_named_of_lookup hlookup
      split at h
      · cases h
      · rename_i hrange
        cases h
        rcases hoffset with ⟨-, rfl⟩ | ⟨-, hliteral⟩
        · -- a name by itself is in the range
          rw [Int.add_zero] at hrange
          exact absurd (proper_of_mem hmem).inRange hrange
        · exact .outOfRange hcut hmem hliteral hrange

theorem Proper.cut {family : Family} {name : String} {base : Int} (h : Proper family name base)
    {suffix : List Char} (hsuffix : ∀ c ∈ suffix.head?, isSign c = true) :
    Cut (name.toList ++ suffix) name.toList suffix :=
  ⟨rfl, h.sign, hsuffix⟩

/-- What is behind a name is added to what the name stands for. -/
theorem Proper.readNamed_append {family : Family} {name : String} {base : Int}
    (h : Proper family name base) {suffix : List Char}
    (hsuffix : ∀ c ∈ suffix.head?, isSign c = true) {offset : Int}
    (hoffset : readOffset suffix = .ok offset) (hrange : InRange (base + offset)) :
    readNamed family (name.toList ++ suffix) = .ok (base + offset) := by
  rw [readNamed_of_cut family (h.cut hsuffix), bind_of_ok hoffset, String.ofList_toList, h.lookup]
  dsimp only
  rw [if_pos hrange]

/-- What does not read as a number is looked up among the names. -/
theorem Proper.read_append {family : Family} {name : String} {base : Int}
    (h : Proper family name base) (suffix : List Char) :
    read family (name.toList ++ suffix) = readNamed family (name.toList ++ suffix) := by
  unfold read
  split
  · rename_i hread
    exact absurd (readInt32_eq_ok_iff.mp hread).1 (h.not_literal suffix)
  · rfl

/-- **Exactly the priorities of the family are read**, as the numbers that they stand for. -/
theorem read_eq_ok_iff {family : Family} {s : List Char} {v : Int} :
    read family s = .ok v ↔ Denotes family s v := by
  constructor
  · intro h
    unfold read at h
    split at h
    · rename_i hread
      cases h
      exact .literal (readInt32_eq_ok_iff.mp hread)
    · exact denotes_of_readNamed h
  · intro h
    cases h with
    | literal hliteral =>
      rw [read, readInt32_eq_ok_iff.mpr hliteral]
    | @name name base hmem =>
      have hproper := proper_of_mem hmem
      -- a name by itself is one with nothing behind it, and zero for an offset
      rw [← List.append_nil name.toList, hproper.read_append, ← Int.add_zero v]
      refine hproper.readNamed_append (by simp) rfl ?_
      rw [Int.add_zero]
      exact hproper.inRange
    | @offset name base offset suffix hmem hsign hliteral hrange =>
      have hproper := proper_of_mem hmem
      obtain ⟨c, hc, hsign⟩ := hsign
      -- a literal with a sign is not nothing
      have hne : suffix ≠ [] := by
        rintro rfl
        cases hc
      rw [hproper.read_append]
      refine hproper.readNamed_append (fun d hd => ?_)
        (readOffset_eq_ok_iff.mpr (.inr ⟨hne, hliteral⟩)) hrange
      obtain rfl : c = d := Option.some.inj (hc.symm.trans hd)
      exact hsign

/--
**A priority is read exactly if the text is one of the family**, and then as the number that it
stands for. Any other text is refused as a priority, for the first part of it that is wrong.
-/
theorem read_exact (family : Family) (s : List Char) :
    (∀ v, read family s = .ok v ↔ Denotes family s v) ∧
      ((∃ fault, (read family s).mapError Violation.priority = .error (.priority fault) ∧
        Refused family s fault) ↔ ∀ v, ¬ Denotes family s v) := by
  refine ⟨fun v => read_eq_ok_iff, ?_⟩
  constructor
  · rintro ⟨fault, hfault, -⟩ v hv
    rw [read_eq_ok_iff.mpr hv] at hfault
    cases hfault
  · intro hnone
    cases hread : read family s with
    | ok v => exact absurd (read_eq_ok_iff.mp hread) (hnone v)
    | error fault =>
      refine ⟨fault, rfl, ?_⟩
      unfold read at hread
      split at hread
      · cases hread
      · exact refused_of_readNamed hread

end Nftables.Priority
