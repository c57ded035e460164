import Nftables.Clause.Comment
import Nftables.Proofs.Scan

/-!
# Quoted texts and comments

A quoted text is read back as it was written exactly if its characters are ones that reading knows
to unescape. A comment behind a text is found again because its quotes are escaped inside, so that
nothing in it looks like the start of another one.

Writing knows more escapes than reading: a character that cannot be shown is written by its number,
and `unescape` takes the backslash away and leaves the number (`restore_of_byNumber`). So the text
that comes back is the concatenation of what comes back of each character, and it is the old text
exactly if each of them is `Escapable`. The other direction needs a count, since one character that
comes back as several could be followed by some that come back as none; there are none of those.

A comment is looked for from the front, where the last place that reads as one counts. The text
before it may hold comments of its own; what is to be excluded is one that starts inside the comment
and ends with it (`not_endsInComment`). Its opening quote would stand behind a space, and a quote
inside of the comment stands behind a backslash.
-/

namespace Nftables.Text

/-- What can stand between two quotes: a quote only behind a backslash, and no line feed there. -/
inductive QuotedBody : List Char → Prop
  | nil : QuotedBody []
  | plain {c : Char} {s : List Char} (h : c ≠ '"' ∧ c ≠ '\\') (t : QuotedBody s) :
    QuotedBody (c :: s)
  | escaped {c : Char} {s : List Char} (h : c ≠ '\n') (t : QuotedBody s) :
    QuotedBody ('\\' :: c :: s)

theorem readQuotedBody_append {s : List Char} (h : QuotedBody s) (rest : List Char) :
    readQuotedBody (s ++ '"' :: rest) = some (s, rest) := by
  induction h with
  | nil => cases rest <;> rfl
  | @plain c s hc t ih =>
    obtain ⟨d, r, hs⟩ := List.exists_cons_of_ne_nil (show s ++ '"' :: rest ≠ [] by simp)
    rw [List.cons_append, hs, readQuotedBody, if_neg hc.1, if_neg hc.2, ← hs, ih]
    rfl
  | @escaped c s hc t ih =>
    rw [List.cons_append, List.cons_append, readQuotedBody, if_neg (by decide), if_pos rfl,
      if_neg hc, ih]
    rfl

theorem of_readQuotedBody {s body rest : List Char} (h : readQuotedBody s = some (body, rest)) :
    QuotedBody body ∧ s = body ++ '"' :: rest := by
  induction s using readQuotedBody.induct generalizing body with
  | case1 => cases h
  | case2 =>
    cases h
    exact ⟨.nil, rfl⟩
  | case3 c hc =>
    rw [readQuotedBody, if_neg hc] at h
    cases h
  | case4 d r =>
    cases h
    exact ⟨.nil, rfl⟩
  | case5 r =>
    cases h
  | case6 d r hd _ ih =>
    -- a backslash and the character behind it
    rw [readQuotedBody, if_neg (by decide), if_pos rfl, if_neg hd] at h
    obtain ⟨⟨body', rest'⟩, hr, heq⟩ := Option.map_eq_some_iff.mp h
    cases heq
    obtain ⟨hbody, rfl⟩ := ih hr
    exact ⟨.escaped hd hbody, rfl⟩
  | case7 c d r hc hc' ih =>
    rw [readQuotedBody, if_neg hc, if_neg hc'] at h
    obtain ⟨⟨body', rest'⟩, hr, heq⟩ := Option.map_eq_some_iff.mp h
    cases heq
    obtain ⟨hbody, hs⟩ := ih hr
    exact ⟨.plain ⟨hc, hc'⟩ hbody, by rw [hs]; rfl⟩

/-- In a quoted text, a quote stands behind a backslash. -/
theorem QuotedBody.before_quote {s u v : List Char} (h : QuotedBody s) (hs : s = u ++ '"' :: v) :
    u.getLast? = some '\\' := by
  induction h generalizing u with
  | nil => simp at hs
  | @plain c s hc t ih =>
    cases u with
    | nil => exact absurd (List.cons.inj hs).1 hc.1
    | cons d u =>
      have hlast := ih (List.cons.inj hs).2
      rw [List.getLast?_cons, hlast]
      rfl
  | @escaped c s hc t ih =>
    match u with
    | [] => cases hs
    | [d] =>
      cases hs
      rfl
    | d :: e :: u =>
      have hlast := ih (List.cons.inj (List.cons.inj hs).2).2
      rw [List.getLast?_cons, List.getLast?_cons, hlast]
      rfl

/-! ## Escapes -/

/-- The characters that come back: shown as they are, or by an escape of their own. -/
def Escapable (c : Char) : Prop := escape c = [c] ∨ c ∈ ['\t', '\n', '\r', '"', '\\']

instance (c : Char) : Decidable (Escapable c) := inferInstanceAs (Decidable (_ ∨ _))

/-- One character of a quoted text, written and read. -/
theorem escape_cases {c : Char} (h : Escapable c) :
    (escape c = [c] ∧ c ≠ '"' ∧ c ≠ '\\') ∨
      ∃ d, escape c = ['\\', d] ∧ d ≠ '\n' ∧ unescapeChar d = c := by
  rcases h with h | h
  · refine .inl ⟨h, ?_, ?_⟩
    · rintro rfl
      exact absurd h (by decide)
    · rintro rfl
      exact absurd h (by decide)
  · simp only [List.mem_cons, List.not_mem_nil, or_false] at h
    rcases h with rfl | rfl | rfl | rfl | rfl
    · exact .inr ⟨'t', by decide⟩
    · exact .inr ⟨'n', by decide⟩
    · exact .inr ⟨'r', by decide⟩
    · exact .inr ⟨'"', by decide⟩
    · exact .inr ⟨'\\', by decide⟩

theorem digitChar_of_mem_toDigits {n : Nat} {c : Char} (h : c ∈ Nat.toDigits 16 n) :
    ∃ k < 16, c = Nat.digitChar k := by
  induction n using Nat.strongRecOn with
  | ind n ih =>
    by_cases hn : n < 16
    · rw [Nat.toDigits_of_lt_base hn] at h
      exact ⟨n, hn, List.mem_singleton.mp h⟩
    · rw [Nat.toDigits_of_base_le (by decide) (Nat.le_of_not_lt hn), List.mem_append] at h
      rcases h with h | h
      · exact ih (n / 16) (by omega) h
      · exact ⟨n % 16, Nat.mod_lt n (by decide), List.mem_singleton.mp h⟩

theorem digitChar_ne : ∀ k < 16,
    Nat.digitChar k ≠ '"' ∧ Nat.digitChar k ≠ '\\' ∧ Nat.digitChar k ≠ '\n' := by
  decide

/-- An escape is one character that needs none, or a backslash and what it stands before. -/
theorem escape_shape (c : Char) :
    (escape c = [c] ∧ c ≠ '"' ∧ c ≠ '\\' ∧ c ≠ '\n') ∨ ∃ d s, escape c = '\\' :: d :: s ∧
      d ≠ '\n' ∧ ∀ x ∈ s, x ≠ '"' ∧ x ≠ '\\' ∧ x ≠ '\n' := by
  unfold escape
  split_ifs with hzero htab hline hreturn hquote hhidden
  · exact .inr ⟨'0', [], rfl, by decide, by simp⟩
  · exact .inr ⟨'t', [], rfl, by decide, by simp⟩
  · exact .inr ⟨'n', [], rfl, by decide, by simp⟩
  · exact .inr ⟨'r', [], rfl, by decide, by simp⟩
  · exact .inr ⟨c, [], rfl, hline, by simp⟩
  · refine .inr ⟨'u', '\x7b' :: (Nat.toDigits 16 c.toNat ++ ['\x7d']), rfl, by decide, ?_⟩
    intro x hx
    rw [List.mem_cons, List.mem_append, List.mem_singleton] at hx
    rcases hx with rfl | hx | rfl
    · decide
    · obtain ⟨k, hk, rfl⟩ := digitChar_of_mem_toDigits hx
      exact digitChar_ne k hk
    · decide
  · exact .inl ⟨rfl, fun h => hquote (.inl h), fun h => hquote (.inr h), hline⟩

/-- A quoted text is on one line. -/
theorem not_mem_quoteBody (s : List Char) : '\n' ∉ quoteBody s := by
  intro hmem
  obtain ⟨c, -, hmem⟩ := List.mem_flatMap.mp hmem
  rcases escape_shape c with ⟨he, -, -, hc⟩ | ⟨d, t, he, hd, ht⟩
  · rw [he, List.mem_singleton] at hmem
    exact hc hmem.symm
  · rw [he] at hmem
    simp only [List.mem_cons] at hmem
    rcases hmem with hmem | hmem | hmem
    · exact absurd hmem (by decide)
    · exact hd hmem.symm
    · exact (ht _ hmem).2.2 rfl

theorem QuotedBody.append {s t : List Char} (hs : QuotedBody s) (ht : QuotedBody t) :
    QuotedBody (s ++ t) := by
  induction hs with
  | nil => exact ht
  | plain h _ ih => exact .plain h ih
  | escaped h _ ih => exact .escaped h ih

theorem quotedBody_of_plain {s : List Char} (h : ∀ c ∈ s, c ≠ '"' ∧ c ≠ '\\') : QuotedBody s := by
  induction s with
  | nil => exact .nil
  | cons c s ih =>
    obtain ⟨hc, hs⟩ := List.forall_mem_cons.mp h
    exact .plain hc (ih hs)

theorem quotedBody_escape (c : Char) : QuotedBody (escape c) := by
  rcases escape_shape c with ⟨he, hquote, hslash, -⟩ | ⟨d, t, he, hd, ht⟩
  · rw [he]
    exact .plain ⟨hquote, hslash⟩ .nil
  · rw [he]
    exact .escaped hd (quotedBody_of_plain fun x hx => ⟨(ht x hx).1, (ht x hx).2.1⟩)

theorem quotedBody_quoteBody (s : List Char) : QuotedBody (quoteBody s) := by
  induction s with
  | nil => exact .nil
  | cons c s ih =>
    rw [quoteBody, List.flatMap_cons]
    exact (quotedBody_escape c).append ih

theorem unescape_cons {c : Char} (h : c ≠ '\\') (s : List Char) :
    unescape (c :: s) = c :: unescape s := by
  cases s with
  | nil => rfl
  | cons d r => rw [unescape, if_neg h]

theorem unescape_escaped (c : Char) (s : List Char) :
    unescape ('\\' :: c :: s) = unescapeChar c :: unescape s := by
  rw [unescape, if_pos rfl]

/-- A quoted text is read escape by escape. -/
theorem unescape_append {s : List Char} (h : QuotedBody s) (t : List Char) :
    unescape (s ++ t) = unescape s ++ unescape t := by
  induction h with
  | nil => rfl
  | @plain c s hc _ ih =>
    rw [List.cons_append, unescape_cons hc.2, ih, unescape_cons hc.2, List.cons_append]
  | @escaped c s _ _ ih =>
    rw [List.cons_append, List.cons_append, unescape_escaped, ih, unescape_escaped,
      List.cons_append]

/-- What comes back of a character. -/
def restore (c : Char) : List Char := unescape (escape c)

theorem unescape_quoteBody_eq (s : List Char) : unescape (quoteBody s) = s.flatMap restore := by
  induction s with
  | nil => rfl
  | cons c s ih =>
    rw [quoteBody, List.flatMap_cons, unescape_append (quotedBody_escape c), List.flatMap_cons]
    exact congrArg _ ih

/-- A character that is written by its number: the null as `\0`, another one as `\u{…}`. -/
def ByNumber (c : Char) : Prop := escape c = ['\\', '0'] ∨ ['\\', 'u', '\x7b'] <+: escape c

theorem escapable_or_byNumber (c : Char) : Escapable c ∨ ByNumber c := by
  unfold Escapable ByNumber escape
  split_ifs with hzero htab hline hreturn hquote hhidden
  · exact .inr (.inl rfl)
  · exact .inl (.inr (by simp [htab]))
  · exact .inl (.inr (by simp [hline]))
  · exact .inl (.inr (by simp [hreturn]))
  · exact .inl (.inr (by rcases hquote with rfl | rfl <;> simp))
  · rw [List.append_assoc]
    exact .inr (.inr (List.prefix_append _ _))
  · exact .inl (.inl rfl)

theorem restore_of_escapable {c : Char} (h : Escapable c) : restore c = [c] := by
  rcases escape_cases h with ⟨he, -, hc⟩ | ⟨d, he, -, hd⟩
  · rw [restore, he, unescape_cons hc]
    rfl
  · rw [restore, he, unescape_escaped, hd]
    rfl

/-- Of a number its digits are read, without the backslash. -/
theorem restore_of_byNumber {c : Char} (h : ByNumber c) : restore c ≠ [] ∧ restore c ≠ [c] := by
  rcases h with h | ⟨t, h⟩
  · have hzero : restore c = ['0'] := by
      rw [restore, h]
      rfl
    rw [hzero]
    refine ⟨by simp, fun hc => ?_⟩
    -- the digit itself is shown as it is
    obtain rfl : '0' = c := List.singleton_inj.mp hc
    exact absurd h (by decide)
  · have hnumber : restore c = 'u' :: '\x7b' :: unescape t := by
      rw [restore, ← h, List.cons_append, List.cons_append, List.cons_append, List.nil_append,
        unescape_escaped, unescape_cons (by decide)]
      rfl
    rw [hnumber]
    exact ⟨by simp, by simp⟩

theorem byNumber_iff {c : Char} : ByNumber c ↔ ¬ Escapable c := by
  constructor
  · exact fun h hescapable => (restore_of_byNumber h).2 (restore_of_escapable hescapable)
  · exact (escapable_or_byNumber c).resolve_left

theorem restore_eq_self_iff {c : Char} : restore c = [c] ↔ Escapable c := by
  constructor
  · intro h
    by_contra hc
    exact (restore_of_byNumber (byNumber_iff.mpr hc)).2 h
  · exact restore_of_escapable

theorem restore_ne_nil (c : Char) : restore c ≠ [] := by
  rcases escapable_or_byNumber c with h | h
  · rw [restore_of_escapable h]
    exact List.cons_ne_nil c []
  · exact (restore_of_byNumber h).1

theorem length_le_length_restored (s : List Char) : s.length ≤ (s.flatMap restore).length := by
  induction s with
  | nil => exact Nat.le_refl 0
  | cons c s ih =>
    have hpos := List.length_pos_iff.mpr (restore_ne_nil c)
    rw [List.flatMap_cons, List.length_append, List.length_cons]
    omega

/--
**A quoted text comes back exactly if each of its characters does.** None of them comes back as
nothing, so one that comes back as more is not made up for by another.
-/
theorem unescape_quoteBody_eq_self_iff {s : List Char} :
    unescape (quoteBody s) = s ↔ ∀ c ∈ s, Escapable c := by
  rw [unescape_quoteBody_eq]
  induction s with
  | nil => simp
  | cons c s ih =>
    rw [List.flatMap_cons, List.forall_mem_cons, ← restore_eq_self_iff, ← ih]
    constructor
    · intro h
      have hlength := congrArg List.length h
      have hrest := length_le_length_restored s
      have hpos := List.length_pos_iff.mpr (restore_ne_nil c)
      rw [List.length_append, List.length_cons] at hlength
      -- what comes back of the others is not shorter than they are
      have hone : (restore c).length = [c].length := by
        rw [List.length_singleton]
        omega
      exact List.append_inj (h.trans List.singleton_append.symm) hone
    · rintro ⟨hc, hs⟩
      rw [hc, hs, List.singleton_append]

theorem unescape_quoteBody {s : List Char} (h : ∀ c ∈ s, Escapable c) :
    unescape (quoteBody s) = s :=
  unescape_quoteBody_eq_self_iff.mpr h

/--
**Quoting is undone exactly where no character is written by its number**, and a quoted text is on
one line and ends at its own closing quote.
-/
theorem quote_exact (s : String) :
    (quote s).toList = '"' :: (quoteBody s.toList ++ ['"']) ∧
      (unescape (quoteBody s.toList) = s.toList ↔ ¬ ∃ c ∈ s.toList, ByNumber c) ∧
      QuotedBody (quoteBody s.toList) ∧ '\n' ∉ quoteBody s.toList ∧
      ∀ rest, readQuotedBody (quoteBody s.toList ++ '"' :: rest)
        = some (quoteBody s.toList, rest) := by
  have hbody := quotedBody_quoteBody s.toList
  have hback : unescape (quoteBody s.toList) = s.toList ↔ ¬ ∃ c ∈ s.toList, ByNumber c := by
    rw [unescape_quoteBody_eq_self_iff]
    simp [byNumber_iff]
  exact ⟨String.toList_ofList, hback, hbody, not_mem_quoteBody s.toList,
    readQuotedBody_append hbody⟩

/-- The text as it is read back after it was quoted. Reading does not know all escapes. -/
def reread (s : String) : String := String.ofList (unescape (quoteBody s.toList))

theorem reread_eq_self {s : String} (h : ∀ c ∈ s.toList, Escapable c) : reread s = s := by
  rw [reread, unescape_quoteBody h, String.ofList_toList]

theorem map_reread {s : Option String} (h : ∀ c ∈ s, ∀ d ∈ c.toList, Escapable d) :
    s.map reread = s := by
  cases s with
  | none => rfl
  | some c => exact congrArg some (reread_eq_self (h c rfl))

end Nftables.Text

/-! ## Comments behind a text -/

namespace Nftables.Clause

open Text

theorem readTrailingComment_iff {s body : List Char} :
    readTrailingComment s = some body ↔
      QuotedBody body ∧ s = " comment \"".toList ++ (body ++ ['"']) := by
  constructor
  · intro h
    unfold readTrailingComment at h
    split at h
    · cases h
    · rename_i inside hinside
      split at h
      · rename_i hread
        cases h
        obtain ⟨hbody, hs⟩ := of_readQuotedBody hread
        rw [← hs]
        exact ⟨hbody, (List.isPrefixOf?_eq_some_iff_append_eq.mp hinside).symm⟩
      · cases h
  · rintro ⟨hbody, rfl⟩
    have hprefix := expect_append " comment \"" (body ++ ['"'])
    rw [readTrailingComment, show " comment \"".toList.isPrefixOf? _ = _ from hprefix]
    dsimp only
    rw [readQuotedBody_append hbody]

/-- The text ends in what reads as a comment. -/
def EndsInComment (s : List Char) : Prop :=
  ∃ before body, QuotedBody body ∧ s = before ++ (" comment \"".toList ++ (body ++ ['"']))

theorem endsInComment_iff {s : List Char} :
    EndsInComment s ↔ ∃ t, t <:+ s ∧ ∃ body, readTrailingComment t = some body := by
  constructor
  · rintro ⟨before, body, hbody, rfl⟩
    exact ⟨_, List.suffix_append _ _, body, readTrailingComment_iff.mpr ⟨hbody, rfl⟩⟩
  · rintro ⟨t, ⟨before, hs⟩, body, ht⟩
    obtain ⟨hbody, rfl⟩ := readTrailingComment_iff.mp ht
    exact ⟨before, body, hbody, hs.symm⟩

instance (s : List Char) : Decidable (EndsInComment s) :=
  decidable_of_iff (∃ t ∈ s.tails, ∃ body ∈ readTrailingComment t, True) <| by
    simp [endsInComment_iff, List.mem_tails]

theorem cutTrailingComment?_eq_none {s : List Char} (h : ¬ EndsInComment s) :
    cutTrailingComment? s = none := by
  induction s with
  | nil => rfl
  | cons c s ih =>
    have hs : ¬ EndsInComment s := by
      rw [endsInComment_iff] at h ⊢
      rintro ⟨t, ht, hbody⟩
      exact h ⟨t, ht.trans (List.suffix_cons c s), hbody⟩
    -- what is read at the front would be a comment at the end
    have hread : readTrailingComment (c :: s) = none := by
      cases hr : readTrailingComment (c :: s) with
      | none => rfl
      | some body => exact absurd (endsInComment_iff.mpr ⟨_, List.suffix_refl _, body, hr⟩) h
    rw [cutTrailingComment?, ih hs, hread, ite_self]
    rfl

theorem splitComment_of_not {s : List Char} (h : ¬ EndsInComment s) :
    splitComment s = (s, none) := by
  rw [splitComment, cutTrailingComment?_eq_none h]

/-- A comment begins with its own quote: a quote inside is no other one's. -/
theorem not_infix_comment {body : List Char} (h : QuotedBody body) :
    ¬ " comment \"".toList <:+: "comment \"".toList ++ body := by
  rintro ⟨u, v, huv⟩
  -- the quote that ends the occurrence is the first one, or one of the body
  have hcut : (u ++ " comment ".toList) ++ '"' :: v = "comment ".toList ++ '"' :: body := by
    simpa using huv
  rcases List.append_eq_append_iff.mp hcut with ⟨w, hw, -⟩ | ⟨w, hw, hrest⟩
  · have hlength := congrArg List.length hw
    simp at hlength
    omega
  · cases w with
    | nil =>
      have hlength := congrArg List.length hw
      simp at hlength
    | cons d w =>
      have hlast := h.before_quote (List.cons.inj hrest).2
      -- behind a backslash on the one side, behind a space on the other
      have hspace := congrArg List.getLast? hw
      simp [List.getLast?_append, hlast, List.getLast?_cons] at hspace

/-- Inside a comment, no other one starts that ends with it. -/
theorem not_endsInComment {body : List Char} (h : QuotedBody body) :
    ¬ EndsInComment ("comment \"".toList ++ (body ++ ['"'])) := by
  rintro ⟨before, body', -, heq⟩
  -- without the last quote, which both have
  have hcut : "comment \"".toList ++ body = before ++ " comment \"".toList ++ body' := by
    have heq' : "comment \"".toList ++ body ++ ['"']
        = before ++ " comment \"".toList ++ body' ++ ['"'] := by
      rw [List.append_assoc, heq, List.append_assoc, List.append_assoc]
    exact List.append_inj_left' heq' rfl
  exact not_infix_comment h ⟨before, body', hcut.symm⟩

/-- A text without a line feed and a comment behind it, with the comment's body still escaped. -/
structure Commented (s before body : List Char) : Prop where
  line : '\n' ∉ before
  quoted : QuotedBody body
  whole : s = before ++ (" comment \"".toList ++ (body ++ ['"']))

/-- **A comment is cut off exactly where one stands at the end of a text.** -/
theorem cutTrailingComment?_eq_some_iff {s before body : List Char} :
    cutTrailingComment? s = some (before, body) ↔ Commented s before body := by
  induction s generalizing before with
  | nil =>
    refine iff_of_false (by simp [cutTrailingComment?]) fun h => ?_
    have hwhole := h.whole
    simp at hwhole
  | cons c s ih =>
    constructor
    · intro h
      rw [cutTrailingComment?] at h
      split at h
      · rename_i before' body' hcut
        cases h
        split at hcut
        · cases hcut
        · rename_i hc
          obtain ⟨hline, hquoted, rfl⟩ := ih.mp hcut
          exact ⟨List.not_mem_cons_of_ne_of_not_mem (Ne.symm hc) hline, hquoted, rfl⟩
      · obtain ⟨body', hread, heq⟩ := Option.map_eq_some_iff.mp h
        cases heq
        obtain ⟨hquoted, hwhole⟩ := readTrailingComment_iff.mp hread
        exact ⟨List.not_mem_nil, hquoted, hwhole⟩
    · rintro ⟨hline, hquoted, hwhole⟩
      rw [cutTrailingComment?]
      cases before with
      | nil =>
        -- inside the comment no other one starts, so the last place is this one
        have hnone : cutTrailingComment? s = none := by
          rw [(List.cons.inj hwhole).2]
          exact cutTrailingComment?_eq_none (not_endsInComment hquoted)
        rw [hnone, ite_self]
        exact congrArg (Option.map _) (readTrailingComment_iff.mpr ⟨hquoted, hwhole⟩)
      | cons d before =>
        obtain ⟨rfl, hrest⟩ := List.cons.inj hwhole
        rw [List.mem_cons, not_or] at hline
        rw [if_neg (Ne.symm hline.1), ih.mpr ⟨hline.2, hquoted, hrest⟩]

/-- **A comment behind a text is found again, whatever it says.** -/
theorem splitComment_append {s : List Char} (hs : '\n' ∉ s) (comment : List Char) :
    splitComment (s ++ (" comment \"".toList ++ (quoteBody comment ++ ['"'])))
      = (s, some (unescape (quoteBody comment))) := by
  rw [splitComment,
    cutTrailingComment?_eq_some_iff.mpr ⟨hs, quotedBody_quoteBody comment, rfl⟩]

/-- A text is left as it is exactly if there is no comment to cut off. -/
theorem splitComment_eq_self_iff {s : List Char} :
    splitComment s = (s, none) ↔ ¬ ∃ before body, Commented s before body := by
  unfold splitComment
  constructor
  · rintro h ⟨before, body, hcomment⟩
    rw [cutTrailingComment?_eq_some_iff.mpr hcomment] at h
    cases h
  · intro h
    cases hcut : cutTrailingComment? s with
    | none => rfl
    | some found => exact absurd ⟨_, _, cutTrailingComment?_eq_some_iff.mp hcut⟩ h

/--
**What is written behind a text as its comment is what is read back**, whatever quotes and comments
the text has itself; and a text is taken for one without a comment exactly if it ends in none.
-/
theorem splitComment_exact :
    (∀ body comment : String, '\n' ∉ body.toList → (∀ c ∈ comment.toList, Escapable c) →
      splitComment (body ++ " comment " ++ quote comment).toList
        = (body.toList, some comment.toList)) ∧
    ∀ s, splitComment s = (s, none) ↔ ¬ ∃ before body, Commented s before body := by
  refine ⟨fun body comment hbody hcomment => ?_, fun s => splitComment_eq_self_iff⟩
  have htext : (body ++ " comment " ++ quote comment).toList
      = body.toList ++ (" comment \"".toList ++ (quoteBody comment.toList ++ ['"'])) := by
    simp [quote]
  rw [htext, splitComment_append hbody, unescape_quoteBody hcomment]

/-- A body that ends in a comment itself, and a comment that looks like the start of another. -/
theorem splitComment_exact_lookAlikes :
    let body := "drop comment \"a\""
    let comment := "say \" comment \"\t"
    '\n' ∉ body.toList ∧ (∀ c ∈ comment.toList, Escapable c) ∧
      splitComment (body ++ " comment " ++ quote comment).toList
        = (body.toList, some comment.toList) :=
  ⟨by decide, by decide, splitComment_exact.1 "drop comment \"a\"" "say \" comment \"\t"
    (by decide) (by decide)⟩

/-- The comment behind a rule or a key, as it is written. -/
def commentText (comment : Option String) : List Char :=
  ((comment.map fun c => " comment " ++ quote c).getD "").toList

theorem commentText_some (c : String) :
    commentText (some c) = " comment \"".toList ++ (quoteBody c.toList ++ ['"']) := by
  simp [commentText, quote]

theorem not_mem_commentText (comment : Option String) : '\n' ∉ commentText comment := by
  cases comment with
  | none => decide
  | some c =>
    have hbody := not_mem_quoteBody c.toList
    rw [commentText_some]
    simp [hbody]

/-- A comment behind a text leaves it without a blank at its ends. -/
theorem trimmed_commentText {s : List Char} (hs : Trimmed s) (hne : s ≠ [])
    (comment : Option String) : Trimmed (s ++ commentText comment) := by
  cases comment with
  | none =>
    rw [show commentText none = [] from rfl, List.append_nil]
    exact hs
  | some c =>
    rw [commentText_some, ← List.append_assoc _ _ ['"'], ← List.append_assoc]
    exact Trimmed.between hs (by decide) hne (by simp) _

theorem not_endsInComment_of_quote {s : List Char} (h : '"' ∉ s) : ¬ EndsInComment s := by
  rintro ⟨before, body, -, rfl⟩
  simp at h

/-- A text with or without a comment behind it comes apart again. -/
theorem splitComment_commentText {s : List Char} {comment : Option String} (hs : '\n' ∉ s)
    (hnone : comment = none → ¬ EndsInComment s) :
    splitComment (s ++ commentText comment) = (s, (comment.map reread).map String.toList) := by
  cases comment with
  | none =>
    rw [show commentText none = [] from rfl, List.append_nil]
    exact splitComment_of_not (hnone rfl)
  | some c =>
    rw [commentText_some, splitComment_append hs]
    simp [reread]

/-! ## Comment clauses -/

theorem prefix_of_readCommentClause {s : List Char} {a : List Char × List Char}
    (h : readCommentClause s = some a) : "comment \"".toList <+: s := by
  unfold readCommentClause at h
  cases hs : "comment \"".toList.isPrefixOf? s with
  | none =>
    rw [hs] at h
    cases h
  | some inside => exact ⟨inside, List.isPrefixOf?_eq_some_iff_append_eq.mp hs⟩

theorem readCommentClause_append {body : List Char} (h : QuotedBody body) (rest : List Char) :
    readCommentClause ("comment \"".toList ++ (body ++ '"' :: (" ;".toList ++ rest)))
      = some (body, rest) := by
  have hprefix := expect_append "comment \"" (body ++ '"' :: (" ;".toList ++ rest))
  have hend := expect_append " ;" rest
  unfold expect at hprefix hend
  rw [readCommentClause, hprefix, Option.bind_eq_bind, Option.bind_some, readQuotedBody_append h,
    Option.bind_eq_bind, Option.bind_some]
  dsimp only
  rw [hend]
  rfl

/-- **The comment clause at the end of a body is found again.** -/
theorem takeComment_append {before comment : List Char}
    (hbefore : ¬ "comment \"".toList <:+: before) (hcomment : ∀ c ∈ comment, Escapable c) :
    takeComment (before ++ ("comment \"".toList ++ (quoteBody comment ++ "\" ;".toList)))
      = (trim before, some comment) := by
  have hread : readCommentClause ("comment \"".toList ++ (quoteBody comment ++ "\" ;".toList))
      = some (quoteBody comment, []) :=
    readCommentClause_append (quotedBody_quoteBody comment) []
  have hfind := findFirst?_append (c := 'c') (p := "omment \"".toList) (by decide)
    (fun s a => prefix_of_readCommentClause (s := s) (a := a)) hread hbefore
  rw [takeComment, hfind]
  dsimp only
  rw [List.append_nil, unescape_quoteBody hcomment]

theorem takeComment_eq_self {s : List Char} (h : ¬ "comment \"".toList <:+: s) :
    takeComment s = (s, none) := by
  rw [takeComment, findFirst?_eq_none (fun s a => prefix_of_readCommentClause) h]

end Nftables.Clause
