import Mathlib.Data.List.Infix
import Mathlib.Data.List.TakeWhile
import Nftables.Command.Reader

/-!
# Reading back what was put together

The readers of the text layer, applied to a text that was put together from known parts: a run of
characters in front of a rest, a fixed text, a part in front of a separator. Each lemma says under
which condition the reader cuts at the joint.

What the condition is depends on how the reader looks. A run ends at the first character that is not
one of it, so the rest must not begin with such a character. A search ends at the first place where
something is found, so nothing may be found earlier: neither inside the part in front nor across the
joint, where the one text ends and the other begins (`not_prefix_before`). A cut at a character
needs that the part in front does not have it.

All further modules on texts go through these lemmas. They never unfold a reader, and where a
condition is about fixed texts it is decided, for which the two instances at the beginning are
there.
-/

namespace Nftables.Text

/-! ## Words and trimmed texts -/

section Members

variable {p : Char → Prop} [DecidablePred p]

-- Only the members are looked at: there are far too many characters to try all of them.
instance decidableForallMem (s : List Char) : Decidable (∀ c ∈ s, p c) := List.decidableBAll p s

instance decidableForallMemOption (c? : Option Char) : Decidable (∀ c ∈ c?, p c) :=
  Option.decidableForallMem c?

end Members

/-- A text that is not empty and has no blank in it. -/
def Word (s : List Char) : Prop := s ≠ [] ∧ ∀ c ∈ s, isBlank c = false

instance (s : List Char) : Decidable (Word s) := inferInstanceAs (Decidable (_ ∧ _))

/-- A text without a blank at its ends. -/
def Trimmed (s : List Char) : Prop :=
  (∀ c ∈ s.head?, isBlank c = false) ∧ ∀ c ∈ s.getLast?, isBlank c = false

instance (s : List Char) : Decidable (Trimmed s) := inferInstanceAs (Decidable (_ ∧ _))

theorem Word.not_mem {s : List Char} (h : Word s) {c : Char} (hc : isBlank c = true) : c ∉ s :=
  fun hmem => Bool.false_ne_true ((h.2 c hmem).symm.trans hc)

theorem Word.trimmed {s : List Char} (h : Word s) : Trimmed s :=
  ⟨fun c hc => h.2 c (List.mem_of_mem_head? hc), fun c hc => h.2 c (List.mem_of_getLast? hc)⟩

/-- What stands between two trimmed texts does not matter. -/
theorem Trimmed.between {s t : List Char} (hs : Trimmed s) (ht : Trimmed t) (hsne : s ≠ [])
    (htne : t ≠ []) (middle : List Char) : Trimmed (s ++ middle ++ t) := by
  constructor
  · intro c hc
    rw [List.append_assoc, List.head?_append_of_ne_nil _ hsne] at hc
    exact hs.1 c hc
  · intro c hc
    rw [List.getLast?_append_of_ne_nil _ htne] at hc
    exact ht.2 c hc

theorem dropWhile_eq_self {p : Char → Bool} {s : List Char} (h : ∀ c ∈ s.head?, p c = false) :
    s.dropWhile p = s := by
  cases s with
  | nil => rfl
  | cons c r => rw [List.dropWhile_cons_of_neg (by simp [h c rfl])]

/-- Trimming takes the padding off. -/
theorem trim_pad (before after : List Char) {s : List Char} (h : Trimmed s)
    (hbefore : ∀ c ∈ before, isBlank c = true) (hafter : ∀ c ∈ after, isBlank c = true) :
    trim (before ++ s ++ after) = s := by
  unfold trim trimEnd trimStart
  rw [List.append_assoc, List.dropWhile_append_of_pos hbefore]
  by_cases hs : s = []
  · subst hs
    rw [List.nil_append, List.dropWhile_eq_nil_iff.mpr hafter]
    rfl
  · -- the text has no blank at its ends, so the padding ends there
    have hfront : (s ++ after).dropWhile isBlank = s ++ after :=
      dropWhile_eq_self fun c hc => h.1 c (by rwa [List.head?_append_of_ne_nil _ hs] at hc)
    have hback : s.reverse.dropWhile isBlank = s.reverse :=
      dropWhile_eq_self fun c hc => h.2 c (by rwa [List.head?_reverse] at hc)
    rw [hfront, List.reverse_append, List.dropWhile_append_of_pos (by simpa using hafter), hback,
      List.reverse_reverse]

theorem trim_eq_self {s : List Char} (h : Trimmed s) : trim s = s := by
  have hpad := trim_pad [] [] h (by simp) (by simp)
  rwa [List.nil_append, List.append_nil] at hpad

theorem trimEnd_append {s : List Char} (hs : Trimmed s) (t : List Char) :
    trimEnd (s ++ t) = s ++ trimEnd t := by
  have hback : s.reverse.dropWhile isBlank = s.reverse :=
    dropWhile_eq_self fun c hc => hs.2 c (by rwa [List.head?_reverse] at hc)
  rw [trimEnd, trimEnd, List.reverse_append, List.dropWhile_append, hback]
  split
  · rename_i hnil
    rw [List.isEmpty_iff.mp hnil]
    simp
  · simp

/-- Trimming leaves the front of a text as it is, up to a character that is not blank. -/
theorem trim_append {s : List Char} (hs : Trimmed s) (hne : s ≠ []) (t : List Char) :
    trim (s ++ t) = s ++ trimEnd t := by
  have hfront : trimStart (s ++ t) = s ++ t :=
    dropWhile_eq_self fun c hc => hs.1 c (by rwa [List.head?_append_of_ne_nil _ hne] at hc)
  rw [trim, hfront, trimEnd_append hs]

theorem trimEnd_prefix (s : List Char) : trimEnd s <+: s := by
  rw [trimEnd, ← List.reverse_suffix, List.reverse_reverse]
  exact List.dropWhile_suffix isBlank

/-- The carriage return at the end of a line is blank. -/
theorem trim_dropReturn (s : List Char) : trim (dropReturn s) = trim s := by
  unfold dropReturn
  split
  · rename_i hlast
    obtain ⟨front, rfl⟩ := List.getLast?_eq_some_iff.mp hlast
    have hend : ∀ t : List Char, trimEnd (t ++ ['\r']) = trimEnd t := by
      intro t
      rw [trimEnd, List.reverse_append, List.reverse_singleton, List.singleton_append,
        List.dropWhile_cons_of_pos (by decide)]
      rfl
    -- a line of blanks only loses its carriage return at the front, any other line at the end
    rw [List.dropLast_concat, trim, trim, trimStart, trimStart, List.dropWhile_append]
    split
    · rename_i hnil
      rw [List.isEmpty_iff.mp hnil, List.dropWhile_cons_of_pos (by decide)]
      rfl
    · exact (hend _).symm
  · rfl

/-! ## Cutting at a character -/

theorem splitOnce?_append {c : Char} {s : List Char} (h : c ∉ s) (rest : List Char) :
    splitOnce? c (s ++ c :: rest) = some (s, rest) := by
  have hs : ∀ d ∈ s, decide (d ≠ c) = true := by
    intro d hd
    exact decide_eq_true fun hdc => h (hdc ▸ hd)
  rw [splitOnce?, List.dropWhile_append_of_pos hs, List.takeWhile_append_of_pos hs]
  simp

theorem splitOnce_append {c : Char} {s : List Char} (h : c ∉ s) (rest : List Char) :
    splitOnce c (s ++ c :: rest) = (s, rest) := by
  rw [splitOnce, splitOnce?_append h]
  rfl

theorem splitOnce_of_not_mem {c : Char} {s : List Char} (h : c ∉ s) : splitOnce c s = (s, []) := by
  have hs : s.dropWhile (· ≠ c) = [] := by
    rw [List.dropWhile_eq_nil_iff]
    intro d hd
    exact decide_eq_true fun hdc => h (hdc ▸ hd)
  rw [splitOnce, splitOnce?, hs]
  rfl

theorem not_mem_intercalate {c : Char} {sep : List Char} {l : List (List Char)} (hsep : c ∉ sep)
    (h : ∀ s ∈ l, c ∉ s) : c ∉ sep.intercalate l := by
  induction l with
  | nil => simp
  | cons s l ih =>
    have hs := h s List.mem_cons_self
    have hl := ih fun t ht => h t (.tail _ ht)
    cases l with
    | nil => rwa [List.intercalate_singleton]
    | cons t l =>
      rw [List.intercalate_cons_cons, List.mem_append, List.mem_append, not_or, not_or]
      exact ⟨⟨hs, hsep⟩, hl⟩

theorem dropSuffix?_append (s last : List Char) : dropSuffix? last (s ++ last) = some s := by
  rw [dropSuffix?, List.reverse_append, List.isPrefixOf?_eq_some_iff_append_eq.mpr rfl]
  exact congrArg some s.reverse_reverse

/-- Lines that are ended by a line feed each. -/
theorem lines_flatMap {l : List (List Char)} (h : ∀ s ∈ l, '\n' ∉ s) :
    lines (l.flatMap (· ++ ['\n'])) = l.map dropReturn := by
  have hsplit : (l.flatMap (· ++ ['\n'])).splitOn '\n' = l ++ [[]] := by
    induction l with
    | nil => rfl
    | cons s l ih =>
      rw [List.flatMap_cons, List.append_assoc, List.singleton_append,
        List.splitOn_append_cons_self_of_not_mem (h s List.mem_cons_self),
        ih fun s hs => h s (.tail _ hs)]
      rfl
  rw [lines, hsplit, List.reverse_append]
  simp

theorem lines_ended {l : List (List Char)} (h : ∀ s ∈ l, '\n' ∉ s ∧ s.getLast? ≠ some '\r') :
    lines (l.flatMap (· ++ ['\n'])) = l := by
  rw [lines_flatMap fun s hs => (h s hs).1]
  exact (List.map_congr_left fun s hs => if_neg (h s hs).2).trans l.map_id

/-! ## Searching -/

theorem findFirst?_head {α : Type} {read : List Char → Option α} {s : List Char} {a : α}
    (h : read s = some a) : findFirst? read s = some ([], a) := by
  cases s with
  | nil => rw [findFirst?, h]; rfl
  | cons c r => rw [findFirst?, h]

/--
A text that starts with `p` stands behind `before`, and `p` is not in `before`. Because `p` starts
with a character that it has only once, `p` does not begin in `before` and end behind it either.
-/
theorem not_prefix_before {c : Char} {p s before rest : List Char} (hc : c ∉ p)
    (hrest : c :: p <+: rest) (hs : s ≠ []) (hbefore : s <:+ before) (h : ¬ c :: p <:+: before) :
    ¬ c :: p <+: s ++ rest := by
  intro hp
  have hin : ¬ c :: p <+: s := fun hin => h (hin.isInfix.trans hbefore.isInfix)
  rcases List.prefix_or_prefix_of_prefix hp (List.prefix_append s rest) with hin' | ⟨q, hq⟩
  · exact hin hin'
  · -- `q` is the part of the occurrence that stands in `rest`, so it starts with `c` too
    obtain ⟨d, s, rfl⟩ := List.exists_cons_of_ne_nil hs
    rw [← hq, List.prefix_append_right_inj] at hp
    cases q with
    | nil => exact hin ⟨[], by rw [← hq, List.append_nil, List.append_nil]⟩
    | cons e q =>
      obtain ⟨r, rfl⟩ := hrest
      have he : e = c := (List.cons_prefix_cons.mp hp).1
      have hpq : p = s ++ e :: q := (List.cons.inj hq).2.symm
      exact hc (by simp [hpq, he])

/-- The first place is right behind a text without the reader's first characters. -/
theorem findFirst?_append {α : Type} {read : List Char → Option α} {c : Char}
    {p before rest : List Char} {a : α} (hc : c ∉ p)
    (hread : ∀ s a, read s = some a → c :: p <+: s) (hrest : read rest = some a)
    (h : ¬ c :: p <:+: before) : findFirst? read (before ++ rest) = some (before, a) := by
  have key : ∀ s, s <:+ before → findFirst? read (s ++ rest) = some (s, a) := by
    intro s hs
    induction s with
    | nil => exact findFirst?_head hrest
    | cons d s ih =>
      -- nothing is read before the place
      have hnone : read (d :: s ++ rest) = none := by
        cases hd : read (d :: s ++ rest) with
        | none => rfl
        | some b =>
          exact absurd (hread _ b hd)
            (not_prefix_before hc (hread rest a hrest) (by simp) hs h)
      rw [List.cons_append] at hnone ⊢
      rw [findFirst?, hnone, ih ((List.suffix_cons d s).trans hs)]
      rfl
  exact key before (List.suffix_refl before)

theorem findFirst?_eq_none {α : Type} {read : List Char → Option α} {p s : List Char}
    (hread : ∀ s a, read s = some a → p <+: s) (h : ¬ p <:+: s) : findFirst? read s = none := by
  -- what is read at some place would be an occurrence there
  have hnone : ∀ t, t <:+ s → read t = none := by
    intro t ht
    cases hr : read t with
    | none => rfl
    | some a => exact absurd ((hread t a hr).isInfix.trans ht.isInfix) h
  induction s with
  | nil => rw [findFirst?, hnone [] (List.suffix_refl _)]; rfl
  | cons c s ih =>
    rw [findFirst?, hnone _ (List.suffix_refl _),
      ih (fun hs => h (hs.trans (List.suffix_cons c s).isInfix))
        fun t ht => hnone t (ht.trans (List.suffix_cons c s))]
    rfl

end Nftables.Text

/-! ## Fixed texts and runs -/

namespace Nftables.Clause

open Text

theorem expect_append (p : String) (s : List Char) : expect p (p.toList ++ s) = some s :=
  List.isPrefixOf?_eq_some_iff_append_eq.mpr rfl

theorem prefix_of_expect {p : String} {s rest : List Char} (h : expect p s = some rest) :
    p.toList <+: s :=
  ⟨rest, List.isPrefixOf?_eq_some_iff_append_eq.mp h⟩

theorem expect_eq_none {p : String} {s : List Char} (h : ¬ p.toList <+: s) : expect p s = none := by
  cases hs : expect p s with
  | none => rfl
  | some rest => exact absurd (prefix_of_expect hs) h

theorem readRun_append {p : Char → Bool} {run rest : List Char} (hne : run ≠ [])
    (h : ∀ c ∈ run, p c = true) (hrest : ∀ c ∈ rest.head?, p c = false) :
    readRun p (run ++ rest) = some (run, rest) := by
  have htake : rest.takeWhile p = [] := by
    cases rest with
    | nil => rfl
    | cons c rest => rw [List.takeWhile_cons_of_neg (by simp [hrest c rfl])]
  rw [readRun, List.takeWhile_append_of_pos h, List.dropWhile_append_of_pos h, htake,
    dropWhile_eq_self hrest, List.append_nil]
  split
  · contradiction
  · rfl

/-- A text that starts with the fixed text `p` starts with a blank if `p` does. -/
theorem blank_head (p : String) (h : p.toList.head?.any isBlank = true) (s : List Char) :
    ∀ c ∈ (p.toList ++ s).head?, isBlank c = true := by
  intro c hc
  cases hp : p.toList with
  | nil =>
    rw [hp] at h
    cases h
  | cons d r =>
    rw [hp] at h hc
    cases hc
    exact h

/-- A word ends in front of a blank. -/
theorem readWord_append {word rest : List Char} (h : Word word)
    (hrest : ∀ c ∈ rest.head?, isBlank c = true) : readWord (word ++ rest) = some (word, rest) :=
  readRun_append h.1 (fun c hc => by simp [h.2 c hc]) fun c hc => by simp [hrest c hc]

end Nftables.Clause

/-! ## The words of a line -/

namespace Nftables.Command

open Text Clause

/-- The line of a command, cut at its words. -/
theorem Line.read?_append {verb kind family table rest : List Char}
    (hverb : verb ≠ [] ∧ ∀ c ∈ verb, isWordChar c = true)
    (hkind : kind ≠ [] ∧ ∀ c ∈ kind, isWordChar c = true) (hfamily : Word family)
    (htable : Word table) (hrest : ∀ c ∈ rest.head?, isBlank c = true) :
    Line.read? (verb ++ ' ' :: (kind ++ ' ' :: (family ++ ' ' :: (table ++ rest))))
      = (readRest rest).map fun rest => ⟨verb, kind, family, table, rest⟩ := by
  have hspace : ∀ s : List Char, expect " " (' ' :: s) = some s := expect_append " "
  have hhead : ∀ s : List Char, ∀ c ∈ (' ' :: s).head?, isBlank c = true :=
    blank_head " " (by decide)
  have hhead' : ∀ s : List Char, ∀ c ∈ (' ' :: s).head?, isWordChar c = false := by
    intro s c hc
    cases hc
    decide +kernel
  unfold Line.read?
  rw [readRun_append hverb.1 hverb.2 (hhead' _)]
  simp only [hspace, Option.bind_eq_bind, Option.bind_some]
  rw [readRun_append hkind.1 hkind.2 (hhead' _)]
  simp only [hspace, Option.bind_some]
  rw [readWord_append hfamily (hhead _)]
  simp only [hspace, Option.bind_some]
  rw [readWord_append htable hrest]
  simp only [Option.bind_some]
  cases readRest rest <;> rfl

end Nftables.Command
