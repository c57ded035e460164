import Nftables.Proofs.Parts

/-!
# Where the body of a map element is cut

The body of a map element can be taken apart into characters and quoted texts in one way only. It is
cut at the first ` : ` that stands between these pieces with something on both sides, so that
nothing inside a quoted text is ever taken for the separator.

Two things can go wrong with a cut at the first ` : `. The text may have one inside a quoted text,
so the text is first read as `Piece`s, and `MadeOf` says when it is: every piece is a character
other than a quote, or a quoted text that is well formed. `readPieces_eq_some_iff` makes the reader
decide it, and from this there is one way only (`MadeOf.unique`), so "the pieces of the text" is no
choice. And a ` : ` may stand at an edge, with nothing before or behind it; `Separated` leaves those
out.

The other way to say it is that of a search: the key is the shortest front behind which a ` : ` and
a value stand, both of which can be taken apart (`splitMapValue?_shortest`). That the two agree
needs that cutting a text between its pieces is the same as cutting it into two texts that have
pieces (`halved_iff`), and that a front with fewer pieces has fewer characters.
-/

namespace Nftables.Clause

open Text

/-! ## The pieces of a text -/

/-- What a text can be taken apart into: characters that are no quotes, and whole quoted texts. -/
inductive Piece.Proper : Piece → Prop
  | plain {c : Char} (h : c ≠ '"') : Proper (.plain c)
  | quoted {body : List Char} (h : QuotedBody body) : Proper (.quoted body)

/-- The text reads as these pieces, from its front to its end. -/
structure MadeOf (s : List Char) (pieces : List Piece) : Prop where
  proper : ∀ p ∈ pieces, p.Proper
  whole : s = pieces.flatMap Piece.text

theorem MadeOf.nil : MadeOf [] [] := ⟨by simp, rfl⟩

theorem MadeOf.cons {p : Piece} {s : List Char} {pieces : List Piece} (hp : p.Proper)
    (h : MadeOf s pieces) : MadeOf (p.text ++ s) (p :: pieces) where
  proper := List.forall_mem_cons.mpr ⟨hp, h.proper⟩
  whole := by rw [List.flatMap_cons, ← h.whole]

theorem MadeOf.append {s t : List Char} {pieces rest : List Piece} (h : MadeOf s pieces)
    (hrest : MadeOf t rest) : MadeOf (s ++ t) (pieces ++ rest) where
  proper := List.forall_mem_append.mpr ⟨h.proper, hrest.proper⟩
  whole := by rw [List.flatMap_append, ← h.whole, ← hrest.whole]

theorem readPieces_piece {p : Piece} (hp : p.Proper) (rest : List Char) :
    readPieces.go none (p.text ++ rest) = (readPieces.go none rest).map (p :: ·) := by
  cases hp with
  | @plain c hc => exact readPieces_plain (s := [c]) (by simpa using hc.symm) rest
  | @quoted body hbody =>
    have htext : (Piece.quoted body).text ++ rest = '"' :: (body ++ '"' :: rest) := by
      simp [Piece.text]
    rw [htext, readPieces_quoted hbody]

theorem readPieces_madeOf {s : List Char} {pieces : List Piece} (h : MadeOf s pieces)
    (rest : List Char) :
    readPieces.go none (s ++ rest) = (readPieces.go none rest).map (pieces ++ ·) := by
  obtain ⟨hproper, rfl⟩ := h
  induction pieces with
  | nil => exact Option.map_id'.symm
  | cons p pieces ih =>
    obtain ⟨hp, hpieces⟩ := List.forall_mem_cons.mp hproper
    rw [List.flatMap_cons, List.append_assoc, readPieces_piece hp, ih hpieces, Option.map_map]
    rfl

/--
What is left to read gives the pieces: outside of quotes a text that is made of them, and behind an
opening quote the rest of a quoted text in front of one.
-/
inductive Leaves : Option (List Char) → List Char → List Piece → Prop
  | outside {s : List Char} {pieces : List Piece} (h : MadeOf s pieces) : Leaves none s pieces
  | inside {read body rest : List Char} {pieces : List Piece} (hbody : QuotedBody body)
    (h : MadeOf rest pieces) :
    Leaves (some read) (body ++ '"' :: rest) (.quoted (read.reverse ++ body) :: pieces)

theorem leaves_of_readPieces {read? : Option (List Char)} {s : List Char} {pieces : List Piece}
    (h : readPieces.go read? s = some pieces) : Leaves read? s pieces := by
  -- the reader is followed from the front; what is inside of a quoted text waits for its closing
  -- quote
  induction read?, s using readPieces.go.induct generalizing pieces with
  | case1 =>
    cases h
    exact .outside .nil
  | case2 read => cases h
  | case3 r ih =>
    -- an opening quote
    rw [readPieces.go, if_pos rfl] at h
    cases ih h with
    | @inside _ body rest pieces hbody hrest =>
      have hwhole := MadeOf.cons (.quoted hbody) hrest
      exact .outside (by simpa [Piece.text] using hwhole)
  | case4 c r hc ih =>
    rw [readPieces.go, if_neg hc] at h
    obtain ⟨pieces', hread, rfl⟩ := Option.map_eq_some_iff.mp h
    cases ih hread with
    | outside hrest => exact .outside (.cons (.plain hc) hrest)
  | case5 read r ih =>
    -- the closing quote
    rw [readPieces.go.eq_def] at h
    dsimp only at h
    rw [if_pos rfl] at h
    obtain ⟨pieces', hread, rfl⟩ := Option.map_eq_some_iff.mp h
    cases ih hread with
    | outside hrest =>
      rw [← List.append_nil read.reverse]
      exact .inside .nil hrest
  | case6 read hc => cases h
  | case7 read r hc => cases h
  | case8 read d r hd hc ih =>
    -- a backslash and the character behind it
    rw [readPieces.go.eq_def] at h
    dsimp only at h
    rw [if_neg hc, if_pos rfl, if_neg hd] at h
    cases ih h with
    | @inside _ body rest pieces hbody hrest =>
      have hread : (d :: '\\' :: read).reverse ++ body = read.reverse ++ '\\' :: d :: body := by
        simp
      rw [hread]
      exact .inside (.escaped hd hbody) hrest
  | case9 read c r hc hc' ih =>
    rw [readPieces.go.eq_def] at h
    dsimp only at h
    rw [if_neg hc, if_neg hc'] at h
    cases ih h with
    | @inside _ body rest pieces hbody hrest =>
      have hread : (c :: read).reverse ++ body = read.reverse ++ c :: body := by simp
      rw [hread]
      exact .inside (.plain ⟨hc, hc'⟩ hbody) hrest

/-- **A text is taken apart exactly into the pieces it is made of.** -/
theorem readPieces_eq_some_iff {s : List Char} {pieces : List Piece} :
    readPieces s = some pieces ↔ MadeOf s pieces := by
  constructor
  · intro h
    cases leaves_of_readPieces h with
    | outside hs => exact hs
  · intro h
    have hread := readPieces_madeOf h []
    rw [List.append_nil] at hread
    rw [readPieces, hread]
    simp [readPieces.go]

theorem MadeOf.unique {s : List Char} {pieces pieces' : List Piece} (h : MadeOf s pieces)
    (h' : MadeOf s pieces') : pieces = pieces' :=
  Option.some.inj ((readPieces_eq_some_iff.mpr h).symm.trans (readPieces_eq_some_iff.mpr h'))

/-- Behind a front that reads by itself, the rest does so too. -/
theorem MadeOf.behind {s t : List Char} {front pieces : List Piece}
    (h : MadeOf (s ++ t) pieces) (hs : MadeOf s front) :
    ∃ rest, pieces = front ++ rest ∧ MadeOf t rest := by
  have hread := readPieces_eq_some_iff.mpr h
  rw [readPieces, readPieces_madeOf hs] at hread
  obtain ⟨rest, hrest, rfl⟩ := Option.map_eq_some_iff.mp hread
  exact ⟨rest, rfl, readPieces_eq_some_iff.mp hrest⟩

theorem MadeOf.left {s : List Char} {front rest : List Piece} (h : MadeOf s (front ++ rest)) :
    MadeOf (front.flatMap Piece.text) front :=
  ⟨fun p hp => h.proper p (List.mem_append_left rest hp), rfl⟩

theorem MadeOf.right {s : List Char} {front rest : List Piece} (h : MadeOf s (front ++ rest)) :
    MadeOf (rest.flatMap Piece.text) rest :=
  ⟨fun p hp => h.proper p (List.mem_append_right front hp), rfl⟩

/-! ## The first separator -/

/-- A ` : ` stands between the pieces, with something on both sides. -/
structure Separated (pieces key value : List Piece) : Prop where
  whole : pieces = key ++ (separator ++ value)
  key_ne : key ≠ []
  value_ne : value ≠ []

theorem Separated.front {pieces key value : List Piece} (h : Separated pieces key value) :
    key <+: pieces :=
  ⟨separator ++ value, h.whole.symm⟩

/-- The ` : ` is the first one of these. -/
structure CutFirst (pieces key value : List Piece) : Prop extends Separated pieces key value where
  first : ∀ key' value', Separated pieces key' value' → key.length ≤ key'.length

/-- A separator stands behind the first piece, or it is one of the pieces behind that. -/
theorem separated_cons_iff {p : Piece} {pieces key value : List Piece} :
    Separated (p :: pieces) key value ↔
      (key = [p] ∧ pieces = separator ++ value ∧ value ≠ []) ∨
        ∃ key', key = p :: key' ∧ Separated pieces key' value := by
  constructor
  · rintro ⟨hwhole, hkey, hvalue⟩
    obtain ⟨q, key', rfl⟩ := List.exists_cons_of_ne_nil hkey
    obtain ⟨rfl, hrest⟩ := List.cons.inj hwhole
    by_cases hnil : key' = []
    · subst hnil
      exact .inl ⟨rfl, hrest, hvalue⟩
    · exact .inr ⟨key', rfl, hrest, hnil, hvalue⟩
  · rintro (⟨rfl, rfl, hvalue⟩ | ⟨key', rfl, hwhole, -, hvalue⟩)
    · exact ⟨rfl, List.cons_ne_nil p [], hvalue⟩
    · exact ⟨by rw [hwhole]; rfl, List.cons_ne_nil p key', hvalue⟩

theorem CutFirst.unique {pieces key value key' value' : List Piece}
    (h : CutFirst pieces key value) (h' : CutFirst pieces key' value') :
    key = key' ∧ value = value' := by
  -- each comes first, so they are at the same place
  have hlength : key.length = key'.length :=
    Nat.le_antisymm (h.first _ _ h'.toSeparated) (h'.first _ _ h.toSeparated)
  obtain ⟨hkey, hrest⟩ := List.append_inj (h.whole.symm.trans h'.whole) hlength
  exact ⟨hkey, List.append_cancel_left hrest⟩

/-- What the cut gives is the first place, and it gives nothing only if there is none. -/
theorem cutPieces?_cases (pieces : List Piece) :
    (cutPieces? pieces = none ∧ ∀ key value, ¬ Separated pieces key value) ∨
      ∃ key value, cutPieces? pieces = some (key, value) ∧ CutFirst pieces key value := by
  induction pieces with
  | nil =>
    refine .inl ⟨rfl, fun key value h => ?_⟩
    have hwhole := h.whole
    simp [separator] at hwhole
  | cons p pieces ih =>
    by_cases hsep : ∃ value, value ≠ [] ∧ pieces = separator ++ value
    · obtain ⟨value, hvalue, rfl⟩ := hsep
      refine .inr ⟨[p], value, cutPieces?_separator p hvalue, ⟨rfl, by simp, hvalue⟩, ?_⟩
      exact fun key' value' h' => List.length_pos_iff.mpr h'.key_ne
    · have hnot : ∀ value, value ≠ [] → pieces ≠ separator ++ value :=
        fun value hvalue hwhole => hsep ⟨value, hvalue, hwhole⟩
      -- so every separator is one behind the first piece
      have hlater : ∀ key value, Separated (p :: pieces) key value →
          ∃ key', key = p :: key' ∧ Separated pieces key' value := by
        intro key value h
        rcases separated_cons_iff.mp h with ⟨-, hwhole, hvalue⟩ | h'
        · exact absurd hwhole (hnot value hvalue)
        · exact h'
      rw [cutPieces?_cons p hnot]
      rcases ih with ⟨hnone, hnever⟩ | ⟨key, value, hsome, hfirst⟩
      · refine .inl ⟨by rw [hnone]; rfl, fun key value h => ?_⟩
        obtain ⟨key', -, h'⟩ := hlater key value h
        exact hnever key' value h'
      · have hcut : Separated (p :: pieces) (p :: key) value :=
          separated_cons_iff.mpr (.inr ⟨key, rfl, hfirst.toSeparated⟩)
        refine .inr ⟨p :: key, value, by rw [hsome]; rfl, hcut, fun key' value' h => ?_⟩
        obtain ⟨key'', rfl, h'⟩ := hlater key' value' h
        exact Nat.succ_le_succ (hfirst.first key'' value' h')

theorem cutPieces?_eq_none_iff {pieces : List Piece} :
    cutPieces? pieces = none ↔ ∀ key value, ¬ Separated pieces key value := by
  rcases cutPieces?_cases pieces with ⟨hnone, hnever⟩ | ⟨key, value, hsome, hfirst⟩
  · exact iff_of_true hnone hnever
  · exact iff_of_false (by simp [hsome]) fun h => h key value hfirst.toSeparated

/-- **Pieces are cut at the first ` : ` between them.** -/
theorem cutPieces?_eq_some_iff {pieces key value : List Piece} :
    cutPieces? pieces = some (key, value) ↔ CutFirst pieces key value := by
  rcases cutPieces?_cases pieces with ⟨hnone, hnever⟩ | ⟨key', value', hsome, hfirst⟩
  · exact iff_of_false (by simp [hnone]) fun h => hnever key value h.toSeparated
  · rw [hsome, Option.some.injEq, Prod.mk.injEq]
    constructor
    · rintro ⟨rfl, rfl⟩
      exact hfirst
    · exact fun h => hfirst.unique h

/-! ## The body of a map element -/

theorem splitMapValue?_eq_some_iff {s key value : List Char} {comment : Option (List Char)} :
    splitMapValue? s = some (key, comment, value) ↔
      ∃ pieces before after, MadeOf s pieces ∧ CutFirst pieces before after ∧
        splitComment (before.flatMap Piece.text) = (key, comment) ∧
        after.flatMap Piece.text = value := by
  unfold splitMapValue?
  constructor
  · intro h
    obtain ⟨pieces, hread, h⟩ := Option.bind_eq_some_iff.mp h
    obtain ⟨⟨before, after⟩, hcut, h⟩ := Option.bind_eq_some_iff.mp h
    cases h
    exact ⟨pieces, before, after, readPieces_eq_some_iff.mp hread,
      cutPieces?_eq_some_iff.mp hcut, rfl, rfl⟩
  · rintro ⟨pieces, before, after, hread, hcut, hcomment, rfl⟩
    rw [readPieces_eq_some_iff.mpr hread, Option.bind_eq_bind, Option.bind_some,
      cutPieces?_eq_some_iff.mpr hcut, Option.bind_eq_bind, Option.bind_some]
    dsimp only
    rw [hcomment]
    rfl

theorem splitMapValue?_eq_none_iff {s : List Char} :
    splitMapValue? s = none ↔
      ∀ pieces, MadeOf s pieces → ∀ key value, ¬ Separated pieces key value := by
  unfold splitMapValue?
  cases hread : readPieces s with
  | none =>
    refine iff_of_true rfl fun pieces h => ?_
    rw [readPieces_eq_some_iff.mpr h] at hread
    cases hread
  | some pieces =>
    have hmade := readPieces_eq_some_iff.mp hread
    rw [Option.bind_eq_bind, Option.bind_some]
    constructor
    · intro h pieces' hmade' key value hsep
      obtain rfl := hmade.unique hmade'
      cases hcut : cutPieces? pieces with
      | none => exact cutPieces?_eq_none_iff.mp hcut key value hsep
      | some found =>
        rw [hcut] at h
        cases h
    · intro h
      rw [cutPieces?_eq_none_iff.mpr (h pieces hmade)]
      rfl

/-- An end of a list that starts at `q` starts behind `sep` or before it, as `q` is not in `sep`. -/
theorem suffix_or_suffix_of_not_mem {α : Type} {q : α} {front back key sep value : List α}
    (hq : q ∉ sep) (hsep : sep ≠ []) (h : front ++ q :: back = key ++ (sep ++ value)) :
    q :: back <:+ value ∨ sep ++ value <:+ back := by
  have hback : q :: back <:+ key ++ (sep ++ value) := ⟨front, h⟩
  rcases List.suffix_or_suffix_of_suffix hback (List.suffix_append key _) with hin | hin
  · rcases List.suffix_or_suffix_of_suffix hin (List.suffix_append sep value) with hv | hv
    · exact .inl hv
    · rcases List.suffix_cons_iff.mp hv with rfl | ⟨t, rfl⟩
      · exact .inl (List.suffix_refl _)
      · -- the rest of the list begins inside the separator
        obtain ⟨u, hu⟩ := hin
        have hcut : (u ++ q :: t) ++ value = sep ++ value := by
          rw [← hu, List.append_assoc, List.cons_append]
        exact absurd (by simp [← List.append_cancel_right hcut]) hq
  · rcases List.suffix_cons_iff.mp hin with heq | hin
    · obtain ⟨c, r, rfl⟩ := List.exists_cons_of_ne_nil hsep
      exact absurd (by simp [(List.cons.inj heq).1]) hq
    · exact .inr hin

/-- **A quoted text is never cut**: it is part of the value, or the separator is behind it. -/
theorem splitMapValue?_quoted {front body back key value : List Char} {pieces : List Piece}
    {comment : Option (List Char)} (hfront : MadeOf front pieces) (hbody : QuotedBody body)
    (h : splitMapValue? (front ++ '"' :: (body ++ '"' :: back)) = some (key, comment, value)) :
    '"' :: (body ++ '"' :: back) <:+ value ∨ " : ".toList ++ value <:+ back := by
  obtain ⟨all, before, after, hall, hcut, -, rfl⟩ := splitMapValue?_eq_some_iff.mp h
  obtain ⟨rest, rfl, hrest⟩ := hall.behind hfront
  -- the quoted text is one of the pieces, behind those of the front
  have htext : '"' :: (body ++ '"' :: back) = ((Piece.quoted body).text ++ []) ++ back := by
    simp [Piece.text]
  rw [htext] at hrest ⊢
  obtain ⟨tail, rfl, htail⟩ := hrest.behind (.cons (.quoted hbody) .nil)
  have hsides := suffix_or_suffix_of_not_mem (by simp [separator]) (by simp [separator]) hcut.whole
  rw [htail.whole]
  rcases hsides with hin | hbehind
  · refine .inl ?_
    have hend := hin.flatMap Piece.text
    rwa [List.flatMap_cons, ← List.append_nil (Piece.quoted body).text] at hend
  · refine .inr ?_
    have hend := hbehind.flatMap Piece.text
    rwa [List.flatMap_append] at hend

/-! ## The shortest key -/

/-- A ` : ` cuts the text into two that can each be taken apart, and that are not empty. -/
structure Halved (s key value : List Char) : Prop where
  whole : s = key ++ (" : ".toList ++ value)
  key : ∃ pieces, pieces ≠ [] ∧ MadeOf key pieces
  value : ∃ pieces, pieces ≠ [] ∧ MadeOf value pieces

theorem madeOf_separator : MadeOf " : ".toList separator :=
  readPieces_eq_some_iff.mp rfl

/-- Both sides of a text read by themselves exactly if the cut is between its pieces. -/
theorem halved_iff {s key value : List Char} :
    Halved s key value ↔ ∃ pieces before after, MadeOf s pieces ∧ Separated pieces before after ∧
      before.flatMap Piece.text = key ∧ after.flatMap Piece.text = value := by
  constructor
  · rintro ⟨rfl, ⟨before, hbefore, hkey⟩, after, hafter, hvalue⟩
    exact ⟨_, before, after, hkey.append (madeOf_separator.append hvalue), ⟨rfl, hbefore, hafter⟩,
      hkey.whole.symm, hvalue.whole.symm⟩
  · rintro ⟨pieces, before, after, hmade, ⟨rfl, hbefore, hafter⟩, rfl, rfl⟩
    refine ⟨?_, ⟨before, hbefore, hmade.left⟩, after, hafter, hmade.right.right⟩
    rw [hmade.whole, List.flatMap_append, List.flatMap_append]
    rfl

theorem text_ne_nil (p : Piece) : p.text ≠ [] := by
  cases p <;> simp [Piece.text]

/-- Of two fronts of one text, the one with fewer pieces is the shorter one. -/
theorem length_le_iff_length_text_le {pieces before before' : List Piece}
    (h : before <+: pieces) (h' : before' <+: pieces) :
    before.length ≤ before'.length ↔
      (before.flatMap Piece.text).length ≤ (before'.flatMap Piece.text).length := by
  constructor
  · intro hle
    exact ((List.prefix_of_prefix_length_le h h' hle).flatMap Piece.text).length_le
  · intro hle
    by_contra hlt
    obtain ⟨rest, rfl⟩ := List.prefix_of_prefix_length_le h' h (Nat.le_of_not_le hlt)
    rw [List.flatMap_append, List.length_append] at hle
    cases rest with
    | nil => simp at hlt
    | cons p rest =>
      have hpos := List.length_pos_iff.mpr (text_ne_nil p)
      rw [List.flatMap_cons, List.length_append] at hle
      omega

/-- **The key with its comment is the shortest front** that a ` : ` and a value stand behind. -/
theorem splitMapValue?_shortest {s key value : List Char} {comment : Option (List Char)} :
    splitMapValue? s = some (key, comment, value) ↔ ∃ front, Halved s front value ∧
      (∀ front' value', Halved s front' value' → front.length ≤ front'.length) ∧
      splitComment front = (key, comment) := by
  rw [splitMapValue?_eq_some_iff]
  constructor
  · rintro ⟨pieces, before, after, hmade, hcut, hcomment, rfl⟩
    refine ⟨_, halved_iff.mpr ⟨pieces, before, after, hmade, hcut.toSeparated, rfl, rfl⟩, ?_,
      hcomment⟩
    intro front' value' h'
    -- the pieces of the other cut are the same ones, so the two fronts can be compared
    obtain ⟨pieces', before', after', hmade', hsep', rfl, rfl⟩ := halved_iff.mp h'
    obtain rfl := hmade.unique hmade'
    exact (length_le_iff_length_text_le hcut.front hsep'.front).mp (hcut.first _ _ hsep')
  · rintro ⟨front, hhalved, hshortest, hcomment⟩
    obtain ⟨pieces, before, after, hmade, hsep, rfl, rfl⟩ := halved_iff.mp hhalved
    refine ⟨pieces, before, after, hmade, ⟨hsep, fun before' after' hsep' => ?_⟩, hcomment, rfl⟩
    refine (length_le_iff_length_text_le hsep.front hsep'.front).mpr
      (hshortest _ (after'.flatMap Piece.text) ?_)
    exact halved_iff.mpr ⟨pieces, before', after', hmade, hsep', rfl, rfl⟩

/--
**The body of a map element is cut at the first ` : ` outside of quotes**, if it can be taken apart
at all and there is one with something on both sides. What is before it is the key with its comment,
what is behind it is the value, and no quoted text is cut.
-/
theorem splitMapValue?_exact (s : List Char) :
    (splitMapValue? s = none ↔
      (¬ ∃ pieces, MadeOf s pieces) ∨
        ∃ pieces, MadeOf s pieces ∧ ¬ ∃ key value, Separated pieces key value) ∧
    (∀ key comment value, splitMapValue? s = some (key, comment, value) ↔
      ∃ pieces before after, MadeOf s pieces ∧ CutFirst pieces before after ∧
        splitComment (before.flatMap Piece.text) = (key, comment) ∧
        after.flatMap Piece.text = value) ∧
    ∀ front pieces body back key comment value, MadeOf front pieces → QuotedBody body →
      s = front ++ '"' :: (body ++ '"' :: back) →
      splitMapValue? s = some (key, comment, value) →
      '"' :: (body ++ '"' :: back) <:+ value ∨ " : ".toList ++ value <:+ back := by
  refine ⟨?_, fun key comment value => splitMapValue?_eq_some_iff, ?_⟩
  · rw [splitMapValue?_eq_none_iff]
    constructor
    · intro h
      by_cases hmade : ∃ pieces, MadeOf s pieces
      · obtain ⟨pieces, hpieces⟩ := hmade
        exact .inr ⟨pieces, hpieces, fun ⟨key, value, hsep⟩ => h pieces hpieces key value hsep⟩
      · exact .inl hmade
    · rintro (hmade | ⟨pieces, hpieces, hnever⟩) pieces' hpieces' key value hsep
      · exact hmade ⟨pieces', hpieces'⟩
      · obtain rfl := hpieces.unique hpieces'
        exact hnever ⟨key, value, hsep⟩
  · rintro front pieces body back key comment value hfront hbody rfl h
    exact splitMapValue?_quoted hfront hbody h

/-- A quoted key and a comment with a ` : ` in each of them, and a value with one of its own. -/
theorem splitMapValue?_exact_quotedColons :
    let front := "\"a : b\" comment ".toList
    let body := "c : d".toList
    let back := " : goto e : f".toList
    let value := "goto e : f".toList
    MadeOf front (.quoted "a : b".toList :: " comment ".toList.map .plain) ∧ QuotedBody body ∧
      splitMapValue? (front ++ '"' :: (body ++ '"' :: back))
        = some ("\"a : b\"".toList, some body, value) ∧
      ('"' :: (body ++ '"' :: back) <:+ value ∨ " : ".toList ++ value <:+ back) := by
  have hfront : MadeOf "\"a : b\" comment ".toList
      (.quoted "a : b".toList :: " comment ".toList.map .plain) :=
    readPieces_eq_some_iff.mp (by decide +kernel)
  have hbody : QuotedBody "c : d".toList := quotedBody_of_plain (by decide)
  have hsplit : splitMapValue? ("\"a : b\" comment ".toList ++
      '"' :: ("c : d".toList ++ '"' :: " : goto e : f".toList))
        = some ("\"a : b\"".toList, some "c : d".toList, "goto e : f".toList) := by
    decide +kernel
  exact ⟨hfront, hbody, hsplit,
    (splitMapValue?_exact _).2.2 _ _ _ _ _ _ _ hfront hbody rfl hsplit⟩

end Nftables.Clause
