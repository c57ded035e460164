import Nftables.Proofs.Body
import Nftables.Proofs.Substitution

/-!
# Keys and values of elements

The parts of a key stand behind one another with a dot between them, and a colon stands between a
key and its value. A part is made of words with single spaces between them. As long as none of the
words is a dot or a colon, the separators that are found are the ones that were written.

Both separators are found by looking for the first place where they start, and a separator may start
in what stands before it: behind the part `a .` the text reads ` . . `. What is shown is that no
separator of three characters starts early unless the part in front, with the first two characters
of the separator behind it, contains one (`not_prefix_of_not_infix_snoc`); and for parts that are
words with single spaces, that one of the words would have to be the character in the middle
(`not_infix_of_splitOn`). `PlainPart` excludes just these words, and quotes.

The colon is looked for among pieces and not among characters, as a comment may stand between the
key and the value. `Piece.sign` takes pieces back to characters, with a quote for a quoted text, so
that the argument for dots serves for the colon too.
-/

namespace Nftables.Clause

open Text

/-- A separator of three that does not start in `s` before its own place. -/
theorem not_prefix_of_not_infix_snoc {α : Type} {a b d : α} {s t : List α}
    (h : ¬ [a, b, d] <:+: s ++ [a, b]) (ht : t ≠ []) (hts : t <:+ s) (r : List α) :
    ¬ [a, b, d] <+: t ++ ([a, b, d] ++ r) := by
  intro hp
  -- starting in `t`, it ends before the last of the separator that is written
  have hfront : t ++ [a, b] <+: t ++ ([a, b, d] ++ r) := ⟨d :: r, by simp⟩
  have hlength : [a, b, d].length ≤ (t ++ [a, b]).length := by
    have hpos := List.length_pos_iff.mpr ht
    simp only [List.length_append, List.length_cons, List.length_nil]
    omega
  have hin := List.prefix_of_prefix_length_le hp hfront hlength
  obtain ⟨u, rfl⟩ := hts
  rw [List.append_assoc] at h
  exact h (hin.isInfix.trans (List.suffix_append u _).isInfix)

/-! ## Words with spaces between them -/

/-- A word between two spaces is one of the words of the text. -/
theorem not_infix_of_splitOn {c : Char} {s : List Char} (hc : c ≠ ' ') (h : [c] ∉ s.splitOn ' ') :
    ¬ [' ', c, ' '] <:+: s ++ [' ', c] := by
  rintro ⟨u, v, huv⟩
  have hsingle : [c].splitOn ' ' = [[c]] := List.splitOn_eq_singleton (by simpa using hc.symm)
  have hwords : s.splitOn ' ' ++ [[c]] = u.splitOn ' ' ++ ([[c]] ++ v.splitOn ' ') := by
    rw [← hsingle, ← List.splitOn_append_cons_self, ← List.splitOn_append_cons_self,
      ← List.splitOn_append_cons_self, ← huv]
    simp
  -- the last word is that of `v`, so the one in the middle is a word of `s`
  obtain ⟨ws, w, hv⟩ :=
    (List.eq_nil_or_concat (v.splitOn ' ')).resolve_left (List.splitOn_ne_nil _ _)
  rw [hv, List.concat_eq_append, ← List.append_assoc, ← List.append_assoc] at hwords
  have hs := List.append_inj_left' hwords rfl
  exact h (hs ▸ by simp)

/-- Words with single spaces between them, none of them a dot, a colon or with a quote in it. -/
def PlainPart (s : String) : Prop :=
  ∀ w ∈ s.toList.splitOn ' ', Word w ∧ w ≠ ['.'] ∧ w ≠ [':'] ∧ '"' ∉ w

instance (s : String) : Decidable (PlainPart s) := inferInstanceAs (Decidable (∀ _ ∈ _, _))

/-- A character of a text is a space or in one of its words. -/
theorem mem_words_of_mem {c : Char} {s : List Char} (hc : c ≠ ' ') (h : c ∈ s) :
    ∃ w ∈ s.splitOn ' ', c ∈ w := by
  -- else the character is in none of the pieces, and not in what stands between them
  by_contra hno
  have hnot : c ∉ [' '].intercalate (s.splitOn ' ') :=
    not_mem_intercalate (by simpa using hc) fun w hw hmem => hno ⟨w, hw, hmem⟩
  rw [List.intercalate_splitOn] at hnot
  exact hnot h

theorem PlainPart.not_mem {s : String} (h : PlainPart s) {c : Char} (hc : c = '"' ∨ c = '\n') :
    c ∉ s.toList := by
  intro hmem
  have hspace : c ≠ ' ' := by
    rcases hc with rfl | rfl <;> decide
  obtain ⟨w, hw, hcw⟩ := mem_words_of_mem hspace hmem
  rcases hc with rfl | rfl
  · exact (h w hw).2.2.2 hcw
  · exact (h w hw).1.not_mem (by decide) hcw

/-! ## Parts with dots between them -/

theorem toList_joinParts (parts : List String) :
    (joinParts parts).toList = " . ".toList.intercalate (parts.map String.toList) :=
  String.toList_intercalate

theorem toList_joinParts_cons (p q : String) (parts : List String) :
    (joinParts (p :: q :: parts)).toList
      = p.toList ++ (" . ".toList ++ (joinParts (q :: parts)).toList) := by
  rw [joinParts, String.intercalate_cons_cons]
  simp [joinParts]

/-- The words of joined parts are those of the parts, and the dots. -/
theorem mem_splitOn_joinParts {parts : List String} (hne : parts ≠ []) {w : List Char}
    (h : w ∈ (joinParts parts).toList.splitOn ' ') :
    w = ['.'] ∨ ∃ p ∈ parts, w ∈ p.toList.splitOn ' ' := by
  induction parts with
  | nil => exact absurd rfl hne
  | cons p parts ih =>
    cases parts with
    | nil =>
      rw [joinParts, String.intercalate_singleton] at h
      exact .inr ⟨p, List.mem_singleton_self p, h⟩
    | cons q parts =>
      have hcut : (joinParts (p :: q :: parts)).toList
          = p.toList ++ ' ' :: (['.'] ++ ' ' :: (joinParts (q :: parts)).toList) := by
        rw [toList_joinParts_cons]
        simp
      rw [hcut, List.splitOn_append_cons_self, List.splitOn_append_cons_self, List.mem_append,
        List.mem_append] at h
      rcases h with h | h | h
      · exact .inr ⟨p, List.mem_cons_self, h⟩
      · exact .inl (List.mem_singleton.mp h)
      · exact (ih (by simp) h).imp id fun ⟨r, hr, hw⟩ => ⟨r, .tail _ hr, hw⟩

section Joined

variable {parts : List String} (hne : parts ≠ []) (h : ∀ p ∈ parts, PlainPart p)

include hne h

theorem word_of_joinParts {w : List Char} (hw : w ∈ (joinParts parts).toList.splitOn ' ') :
    Word w ∧ w ≠ [':'] ∧ '"' ∉ w := by
  rcases mem_splitOn_joinParts hne hw with rfl | ⟨p, hp, hw⟩
  · decide
  · obtain ⟨hword, -, hcolon, hquote⟩ := h p hp w hw
    exact ⟨hword, hcolon, hquote⟩

omit hne in
theorem not_mem_joinParts {c : Char} (hc : c = '"' ∨ c = '\n') : c ∉ (joinParts parts).toList := by
  rw [toList_joinParts]
  refine not_mem_intercalate (by rcases hc with rfl | rfl <;> decide) fun s hs => ?_
  obtain ⟨p, hp, rfl⟩ := List.mem_map.mp hs
  exact (h p hp).not_mem hc

theorem joinParts_ne_nil : (joinParts parts).toList ≠ [] := by
  intro hs
  have hnil := word_of_joinParts hne h (w := []) (by rw [hs]; exact List.mem_singleton_self _)
  exact hnil.1.1 rfl

end Joined

/-! ### Cutting at the dots -/

/-- A text in front of the separator is a piece, if the separator does not start in it. -/
theorem splitText_append {sep s r : List Char} (hsep : sep ≠ [])
    (h : ∀ t, t ≠ [] → t <:+ s → ¬ sep <+: t ++ (sep ++ r)) :
    splitText sep (s ++ (sep ++ r)) = s :: splitText sep r := by
  induction s with
  | nil => exact splitText_append_left hsep r
  | cons c s ih =>
    have hs := ih fun t ht hts => h t ht (hts.trans (List.suffix_cons c s))
    have hc := h (c :: s) (by simp) (List.suffix_refl _)
    rw [List.cons_append] at hc ⊢
    rw [splitText_cons hc, hs]
    rfl

theorem splitText_eq_singleton {sep s : List Char} (h : ¬ sep <:+: s) : splitText sep s = [s] := by
  induction s with
  | nil => rfl
  | cons c s ih =>
    rw [splitText_cons fun hp => h hp.isInfix,
      ih fun hin => h (hin.trans (List.suffix_cons c s).isInfix)]
    rfl

/-- **The parts of a key come back.** -/
theorem splitParts_joinParts {parts : List String} (hne : parts ≠ [])
    (h : ∀ p ∈ parts, PlainPart p) :
    Command.splitParts (joinParts parts).toList = parts := by
  -- no separator starts in a part, not even one that ends in the separator behind it
  have hdot : ∀ p ∈ parts, ¬ " . ".toList <:+: p.toList ++ [' ', '.'] := fun p hp =>
    not_infix_of_splitOn (by decide) fun hmem => (h p hp _ hmem).2.1 rfl
  have hpieces : splitText " . ".toList (joinParts parts).toList = parts.map String.toList := by
    induction parts with
    | nil => exact absurd rfl hne
    | cons p parts ih =>
      have hp := hdot p List.mem_cons_self
      cases parts with
      | nil =>
        rw [joinParts, String.intercalate_singleton]
        exact splitText_eq_singleton fun hin => hp (hin.trans (List.prefix_append _ _).isInfix)
      | cons q parts =>
        have hq := ih (by simp) (fun r hr => h r (.tail _ hr)) fun r hr => hdot r (.tail _ hr)
        rw [toList_joinParts_cons, splitText_append (by decide), hq]
        · rfl
        · exact fun t ht hts => not_prefix_of_not_infix_snoc hp ht hts _
  rw [Command.splitParts, hpieces, List.map_map]
  exact (List.map_congr_left fun p _ => String.ofList_toList).trans parts.map_id

/-! ## Pieces -/

/-- Text without quotes is read character by character. -/
theorem readPieces_plain {s : List Char} (h : '"' ∉ s) (rest : List Char) :
    readPieces.go none (s ++ rest) = (readPieces.go none rest).map (s.map Piece.plain ++ ·) := by
  induction s with
  | nil => exact Option.map_id'.symm
  | cons c s ih =>
    rw [List.mem_cons, not_or] at h
    rw [List.cons_append, readPieces.go, if_neg (Ne.symm h.1), ih h.2, Option.map_map]
    rfl

/-- The rest of a quoted text, of which `read` was read before. -/
theorem readPieces_inQuotes {body : List Char} (h : QuotedBody body) (read rest : List Char) :
    readPieces.go (some read) (body ++ '"' :: rest)
      = (readPieces.go none rest).map (.quoted (read.reverse ++ body) :: ·) := by
  induction h generalizing read with
  | nil =>
    rw [List.nil_append, readPieces.go.eq_def, List.append_nil]
    dsimp only
    rw [if_pos rfl]
  | @plain c s hc t ih =>
    rw [List.cons_append, readPieces.go.eq_def]
    dsimp only
    rw [if_neg hc.1, if_neg hc.2, ih]
    simp
  | @escaped c s hc t ih =>
    rw [List.cons_append, List.cons_append, readPieces.go.eq_def]
    dsimp only
    rw [if_neg (by decide), if_pos rfl, if_neg hc, ih]
    simp

theorem readPieces_quoted {body : List Char} (h : QuotedBody body) (rest : List Char) :
    readPieces.go none ('"' :: (body ++ '"' :: rest))
      = (readPieces.go none rest).map (.quoted body :: ·) := by
  rw [readPieces.go, if_pos rfl, readPieces_inQuotes h]
  rfl

/-- The pieces of a key with the comment behind it. -/
def keyPieces (key : List Char) (comment : Option String) : List Piece :=
  key.map .plain ++ match comment with
    | none => []
    | some c => " comment ".toList.map .plain ++ [.quoted (quoteBody c.toList)]

theorem readPieces_key {key : List Char} (hkey : '"' ∉ key) (comment : Option String)
    (rest : List Char) :
    readPieces.go none (key ++ (commentText comment ++ rest))
      = (readPieces.go none rest).map (keyPieces key comment ++ ·) := by
  rw [readPieces_plain hkey]
  cases comment with
  | none =>
    simp [keyPieces, commentText]
  | some c =>
    have hbody := quotedBody_quoteBody c.toList
    have hcut : commentText (some c) ++ rest
        = " comment ".toList ++ ('"' :: (quoteBody c.toList ++ '"' :: rest)) := by
      rw [commentText_some]
      simp
    rw [hcut, readPieces_plain (by decide), readPieces_quoted hbody, Option.map_map, Option.map_map]
    congr 1
    funext ps
    simp [keyPieces]

theorem text_keyPieces (key : List Char) (comment : Option String) :
    (keyPieces key comment).flatMap Piece.text = key ++ commentText comment := by
  have hplain : ∀ s : List Char, (s.map Piece.plain).flatMap Piece.text = s := by
    intro s
    rw [List.flatMap_map]
    exact List.flatMap_singleton' s
  unfold keyPieces
  rw [List.flatMap_append, hplain]
  cases comment with
  | none => rfl
  | some c =>
    rw [commentText_some]
    simp [Piece.text]

/-! ## The colon -/

/-- A piece as one character. -/
def Piece.sign : Piece → Char
  | .plain c => c
  | .quoted _ => '"'

/-- No separator starts in the pieces of a key. -/
theorem not_infix_keyPieces {key : List Char} {comment : Option String}
    (h : [':'] ∉ key.splitOn ' ') :
    ¬ separator <:+: keyPieces key comment ++ [.plain ' ', .plain ':'] := by
  intro hin
  -- seen as characters, a quoted text is one sign that is neither a space nor a colon
  have hsign : (keyPieces key comment).map Piece.sign
      = key ++ (match comment with | none => [] | some _ => " comment \"".toList) := by
    unfold keyPieces
    rw [List.map_append, List.map_map]
    congr 1
    · exact (List.map_congr_left fun c _ => rfl).trans key.map_id
    · cases comment <;> rfl
  have hwords : [':'] ∉ ((keyPieces key comment).map Piece.sign).splitOn ' ' := by
    rw [hsign]
    cases comment with
    | none => rwa [List.append_nil]
    | some c =>
      rw [show " comment \"".toList = ' ' :: "comment \"".toList from rfl,
        List.splitOn_append_cons_self, List.mem_append, not_or]
      exact ⟨h, by decide⟩
  have hin' := hin.map Piece.sign
  rw [List.map_append] at hin'
  exact not_infix_of_splitOn (by decide) hwords hin'

theorem cutPieces?_separator (p : Piece) {value : List Piece} (h : value ≠ []) :
    cutPieces? (p :: (separator ++ value)) = some ([p], value) := by
  obtain ⟨v, vs, rfl⟩ := List.exists_cons_of_ne_nil h
  have hsep : separator.isPrefixOf? (separator ++ v :: vs) = some (v :: vs) :=
    List.isPrefixOf?_eq_some_iff_append_eq.mpr rfl
  rw [cutPieces?, hsep]

/-- Where no separator with a value stands behind the first piece, the cut is farther on. -/
theorem cutPieces?_cons (p : Piece) {pieces : List Piece}
    (h : ∀ value, value ≠ [] → pieces ≠ separator ++ value) :
    cutPieces? (p :: pieces) = (cutPieces? pieces).map fun (key, value) => (p :: key, value) := by
  rw [cutPieces?]
  split
  · rename_i v vs hsep
    have hwhole := List.isPrefixOf?_eq_some_iff_append_eq.mp hsep
    exact absurd hwhole.symm (h (v :: vs) (List.cons_ne_nil v vs))
  · rfl

theorem cutPieces?_append {key value : List Piece} (hkey : key ≠ []) (hvalue : value ≠ [])
    (h : ¬ separator <:+: key ++ [.plain ' ', .plain ':']) :
    cutPieces? (key ++ (separator ++ value)) = some (key, value) := by
  induction key with
  | nil => exact absurd rfl hkey
  | cons p ps ih =>
    by_cases hps : ps = []
    · subst hps
      exact cutPieces?_separator p hvalue
    · -- the separator does not start yet
      have hnot : ∀ v, v ≠ [] → ps ++ (separator ++ value) ≠ separator ++ v := by
        intro v _ heq
        exact not_prefix_of_not_infix_snoc h hps (List.suffix_cons p ps) value ⟨v, heq.symm⟩
      have hrest := ih hps fun hin => h (hin.trans (List.suffix_cons p _).isInfix)
      rw [List.cons_append, cutPieces?_cons p hnot, hrest]
      rfl

theorem cutPieces?_eq_none {ps : List Piece} (h : ¬ separator <:+: ps) : cutPieces? ps = none := by
  induction ps with
  | nil => rfl
  | cons p ps ih =>
    have hps : ¬ separator <:+: ps := fun hin => h (hin.trans (List.suffix_cons p ps).isInfix)
    have hnot : ∀ v, v ≠ [] → ps ≠ separator ++ v := by
      rintro v - rfl
      exact hps (List.prefix_append separator v).isInfix
    rw [cutPieces?_cons p hnot, ih hps]
    rfl

section Element

variable {key : List Char} (hquote : '"' ∉ key) (hcolon : [':'] ∉ key.splitOn ' ')
  (comment : Option String)

include hquote hcolon

/-- **A key with its comment and a value come apart again.** -/
theorem splitMapValue?_value {value : List Char} (hline : '\n' ∉ key) (hkey : key ≠ [])
    (hvalue : value ≠ []) (hvquote : '"' ∉ value) :
    splitMapValue? (key ++ (commentText comment ++ (" : ".toList ++ value)))
      = some (key, (comment.map reread).map String.toList, value) := by
  have hpieces : readPieces (key ++ (commentText comment ++ (" : ".toList ++ value)))
      = some (keyPieces key comment ++ (separator ++ value.map .plain)) := by
    have hend := readPieces_plain (s := " : ".toList ++ value) (by simpa using hvquote) []
    rw [List.append_nil] at hend
    rw [readPieces, readPieces_key hquote, hend]
    simp [readPieces.go, separator]
  have hkeyPieces : keyPieces key comment ≠ [] := by simp [keyPieces, hkey]
  have hvaluePieces : value.map Piece.plain ≠ [] := by simpa using hvalue
  -- cut between the pieces, and the text of what is before it is the key with its comment
  have hcut := cutPieces?_append hkeyPieces hvaluePieces (not_infix_keyPieces hcolon)
  have hsplit : splitComment (key ++ commentText comment) = _ :=
    splitComment_commentText hline fun _ => not_endsInComment_of_quote hquote
  have htext : (value.map Piece.plain).flatMap Piece.text = value := by
    rw [List.flatMap_map]
    exact List.flatMap_singleton' value
  simp only [splitMapValue?, hpieces, hcut, Option.bind_eq_bind, Option.bind_some, text_keyPieces,
    hsplit, htext]
  rfl

/-- **A key with its comment alone does not read as one with a value.** -/
theorem splitMapValue?_none : splitMapValue? (key ++ commentText comment) = none := by
  have hpieces : readPieces (key ++ commentText comment) = some (keyPieces key comment) := by
    have hkey := readPieces_key hquote comment []
    rw [List.append_nil] at hkey
    rw [readPieces, hkey]
    simp [readPieces.go]
  have hcut : cutPieces? (keyPieces key comment) = none :=
    cutPieces?_eq_none fun hin =>
      not_infix_keyPieces hcolon (hin.trans (List.prefix_append _ _).isInfix)
  simp only [splitMapValue?, hpieces, hcut, Option.bind_eq_bind, Option.bind_some]
  rfl

end Element

end Nftables.Clause
