import Nftables.Proofs.Priority
import Nftables.Proofs.Scan

/-!
# Bare words

Words of printable ASCII characters without the ones that the readers of commands look for. Numbers
and accepted priorities are such words, so they stand in a command as they are, and numbers that fit
into a word are read back.

Most of what a command writes without quotes is of this kind: names of devices, types, flags, hooks,
priorities and counts. One condition on the characters serves all of them, since a bare word has no
blank at which a reader would stop, no comma, semicolon or brace at which a body would be cut, and
nothing that quoting would change (`Bare.escape_eq`). The modules on bodies and lines ask for this
condition alone, and need not know what the word stands for.
-/

namespace Nftables.Text

/-- A printable ASCII character other than the space and those that separate or enclose. -/
def Bare (c : Char) : Prop :=
  0x21 ≤ c.toNat ∧ c.toNat ≤ 0x7e ∧ c ∉ [',', ';', '"', '\\', '\x7b', '\x7d']

instance (c : Char) : Decidable (Bare c) := inferInstanceAs (Decidable (_ ∧ _))

/-- A text of such characters that is not empty. -/
def BareWord (s : List Char) : Prop := s ≠ [] ∧ ∀ c ∈ s, Bare c

instance (s : List Char) : Decidable (BareWord s) := inferInstanceAs (Decidable (_ ∧ _))

theorem Bare.not_blank {c : Char} (h : Bare c) : isBlank c = false := by
  cases hc : isBlank c with
  | false => rfl
  | true =>
    obtain ⟨r, hr, hle⟩ := inRanges_iff.mp hc
    simp only [blankRanges, List.mem_cons, List.not_mem_nil, or_false] at hr
    obtain ⟨hlow, hhigh, -⟩ := h
    -- every range of blanks lies below the bare characters or above them
    rcases hr with rfl | rfl | rfl | rfl | rfl | rfl | rfl | rfl | rfl | rfl <;> omega

theorem Bare.not_hidden {c : Char} (h : Bare c) : isHidden c = false := by
  obtain ⟨hlow, hhigh, -⟩ := h
  simp [isHidden]
  omega

/-- A bare word in quotes stands there as it is. -/
theorem Bare.escape_eq {c : Char} (h : Bare c) : escape c = [c] := by
  have hne : ∀ d, ¬ Bare d → c ≠ d := fun d hd hcd => hd (hcd ▸ h)
  have hquote : ¬ (c = '"' ∨ c = '\\') := not_or.mpr ⟨hne _ (by decide), hne _ (by decide)⟩
  rw [escape, if_neg (hne _ (by decide)), if_neg (hne _ (by decide)), if_neg (hne _ (by decide)),
    if_neg (hne _ (by decide)), if_neg hquote, h.not_hidden]
  rfl

theorem bare_of_isAlphanum {c : Char} (h : c.isAlphanum = true) : Bare c := by
  -- the three ranges of letters and digits lie within the printable ones
  have hbounds : 0x21 ≤ c.toNat ∧ c.toNat ≤ 0x7e := by
    have hranges : ((decide (c.val ≥ 65 ∧ c.val ≤ 90) || (c.val ≥ 97 && c.val ≤ 122)) ||
        (c.val ≥ 48 && c.val ≤ 57)) = true := h
    simp only [Bool.or_eq_true, Bool.and_eq_true, decide_eq_true_eq, ge_iff_le,
      UInt32.le_iff_toNat_le] at hranges
    have hc : c.toNat = c.val.toNat := rfl
    simp only [UInt32.reduceToNat] at hranges
    omega
  refine ⟨hbounds.1, hbounds.2, fun hmem => ?_⟩
  simp only [List.mem_cons, List.not_mem_nil, or_false] at hmem
  -- none of the six separators is a letter or a digit
  rcases hmem with rfl | rfl | rfl | rfl | rfl | rfl <;> exact absurd h (by decide)

theorem BareWord.word {s : List Char} (h : BareWord s) : Word s :=
  ⟨h.1, fun c hc => (h.2 c hc).not_blank⟩

theorem BareWord.cons {c : Char} {s : List Char} (hc : Bare c) (h : BareWord s) :
    BareWord (c :: s) :=
  ⟨by simp, List.forall_mem_cons.mpr ⟨hc, h.2⟩⟩

theorem BareWord.append {s t : List Char} (hs : BareWord s) (ht : BareWord t) :
    BareWord (s ++ t) :=
  ⟨by simp [hs.1], List.forall_mem_append.mpr ⟨hs.2, ht.2⟩⟩

theorem BareWord.not_mem {s : List Char} (h : BareWord s) {c : Char} (hc : ¬ Bare c) : c ∉ s :=
  fun hmem => hc (h.2 c hmem)

/-! ## Numbers -/

/-- The digits of a number. -/
def numeral (n : Nat) : List Char := (toString n).toList

theorem numeral_eq (n : Nat) : numeral n = Nat.toDigits 10 n := Nat.toList_repr

theorem isDigit_of_mem_numeral {n : Nat} {c : Char} (h : c ∈ numeral n) : c.isDigit = true :=
  Nat.isDigit_of_mem_toDigits (b := 10) (by decide) (by decide) (numeral_eq n ▸ h)

theorem numeral_ne_nil (n : Nat) : numeral n ≠ [] := by
  rw [numeral_eq]
  exact Nat.toDigits_ne_nil

theorem digits_numeral (n : Nat) : Digits (numeral n) :=
  ⟨numeral_ne_nil n, fun _ hc => isDigit_of_mem_numeral hc⟩

theorem Digits.bareWord {s : List Char} (h : Digits s) : BareWord s :=
  ⟨h.1, fun c hc => bare_of_isAlphanum (by simp [Char.isAlphanum, h.2 c hc])⟩

theorem bareWord_numeral (n : Nat) : BareWord (numeral n) := (digits_numeral n).bareWord

theorem bareWord_toString (n : Nat) : BareWord (toString n).toList := by
  have h := bareWord_numeral n
  rwa [numeral] at h

/-- **A number that fits into a word is read back.** -/
theorem readWord?_numeral {n : Nat} (h : n ≤ maxWord) : readWord? (numeral n) = some n := by
  have hdigits : Nat.ofDigitChars 10 (numeral n) 0 = n := by
    rw [numeral_eq, Nat.ofDigitChars_ten_toDigits]
  have hread : readMagnitude maxWord .tooLarge (numeral n) = .ok n :=
    readMagnitude_eq_ok_iff.mpr ⟨digits_numeral n, hdigits, h⟩
  -- a number is written without a sign
  have hfirst : ∀ c ∈ (numeral n).head?, c ≠ '+' := by
    rintro c hc rfl
    exact absurd (isDigit_of_mem_numeral (List.mem_of_mem_head? hc)) (by decide)
  have hnat : readNat maxWord (numeral n) = .ok n := by
    unfold readNat
    split
    · rename_i hnil
      exact absurd hnil (numeral_ne_nil n)
    · rename_i r hplus
      exact absurd rfl (hfirst '+' (by rw [hplus]; rfl))
    · exact hread
  rw [readWord?, hnat]
  rfl

end Nftables.Text

/-! ## Priorities -/

namespace Nftables.Priority

open Text

theorem bareWord_of_literal {s : List Char} {v : Int} (h : Literal s v) : BareWord s := by
  cases h with
  | plain h => exact h.bareWord
  | plus h => exact h.bareWord.cons (by decide)
  | minus h => exact h.bareWord.cons (by decide)

/-- The names of priorities are bare words. -/
theorem bareWord_of_mem_named {family : Family} {name : String} {v : Int}
    (h : (name, v) ∈ named family) : BareWord name.toList := by
  have hall : ∀ e ∈ named family, BareWord e.1.toList := by
    cases family <;> decide
  exact hall _ h

/-- An accepted priority is a bare word. -/
theorem bareWord_of_read {family : Family} {s : List Char} {v : Int}
    (h : Priority.read family s = .ok v) : BareWord s := by
  cases read_eq_ok_iff.mp h with
  | literal hliteral => exact bareWord_of_literal hliteral.1
  | name hmem => exact bareWord_of_mem_named hmem
  -- a name and a signed number behind it
  | offset hmem hsign hoffset hrange =>
    exact (bareWord_of_mem_named hmem).append (bareWord_of_literal hoffset.1)

end Nftables.Priority
