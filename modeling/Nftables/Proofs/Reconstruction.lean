import Nftables.LineDiff

/-!
# A diff holds both of its texts

Dropping the plus lines of a diff and the signs of the others gives the current text back, and
dropping the minus lines gives the desired one. The script that is found by searching has the two
lists of lines as its views; settling it moves its changes around and keeps the views; so the marked
lines have them too. And where both texts end with a line, the diff as a text is cut into the lines
that it was written from.

So the result does not depend on how good the script is. `Script.Between` is all that is shown of
it, and it is shown by following the functions that build it: the search, which cuts both lists at
one point and joins the scripts of the parts, wherever that point is; and the settling, which moves
a run of changes past equal items. Where the searches meet is the subject of another module.

A text is more than its lines. `cutLines` takes a carriage return for the end of a line as well, so
a line may end in three ways, and two lines that are written behind one another could run together.
With a sign in front of each, no line begins with a line feed, which is all that it takes
(`cutLines_flatten`).
-/

namespace Nftables.LineDiff

variable {α : Type}

/-! ## The two views of a script -/

/-- The script leads from `a` to `b`. -/
structure Script.Between (s : Script α) (a b : List α) : Prop where
  old : s.old = a
  new : s.new = b

namespace Script.Between

variable {s t : Script α} {a b c d : List α}

theorem congr (h : Between s a b) (hold : t.old = s.old) (hnew : t.new = s.new) : Between t a b :=
  ⟨hold.trans h.old, hnew.trans h.new⟩

theorem append (hs : Between s a b) (ht : Between t c d) : Between (s ++ t) (a ++ c) (b ++ d) :=
  ⟨by rw [old_append, hs.old, ht.old], by rw [new_append, hs.new, ht.new]⟩

/-- An edit of an empty run may be left out. -/
theorem single (edit : List α → Edit α) (hold : (edit []).old = []) (hnew : (edit []).new = [])
    (run : List α) : Between (single edit run) (edit run).old (edit run).new := by
  cases run with
  | nil => exact ⟨hold.symm, hnew.symm⟩
  | cons x xs => exact ⟨List.append_nil _, List.append_nil _⟩

end Script.Between

section Search

variable [DecidableEq α]

theorem Trimmed.between_around {a b : List α} {middle : Script α}
    (h : middle.Between (trimCommon a b).old (trimCommon a b).new) :
    ((trimCommon a b).around middle).Between a b := by
  have keep (run : List α) : (single .keep run).Between run run := .single .keep rfl rfl run
  have hwhole := ((keep (trimCommon a b).front).append h).append (keep (trimCommon a b).back)
  rwa [← (trimCommon_eq a b).1, ← (trimCommon_eq a b).2] at hwhole

/-- **The script that is found leads from one list to the other**, wherever the searches meet. -/
theorem search_between (a b : List α) : (search a b).Between a b := by
  fun_induction search a b with
  | case1 a b t hold =>
    refine Trimmed.between_around ?_
    rw [hold]
    exact .single .insert rfl rfl _
  | case2 a b t hold hnew =>
    refine Trimmed.between_around ?_
    rw [hnew]
    exact .single .delete rfl rfl _
  | case3 a b t hold hnew hcut =>
    refine Trimmed.between_around ⟨?_, ?_⟩
    · simp [Script.old, Edit.old, t]
    · simp [Script.new, Edit.new, t]
  | case4 a b t hold hnew x y hcut ih₁ ih₂ =>
    refine Trimmed.between_around ?_
    have h := ih₁.append ih₂
    -- the two parts make up the lists again
    rwa [List.take_append_drop, List.take_append_drop] at h

end Search

/-! ## Settling keeps the views -/

namespace Script

@[simp] theorem old_nil : old ([] : Script α) = [] := rfl

@[simp] theorem new_nil : new ([] : Script α) = [] := rfl

@[simp] theorem old_cons (e : Edit α) (s : Script α) : old (e :: s) = e.old ++ old s := rfl

@[simp] theorem new_cons (e : Edit α) (s : Script α) : new (e :: s) = e.new ++ new s := rfl

end Script

section Kept

variable (run : List α) (s : Script α)

/-- Kept items in front of a script are in front of both views. -/
theorem views_keepBefore :
    (keepBefore run s).old = run ++ s.old ∧ (keepBefore run s).new = run ++ s.new := by
  unfold keepBefore
  split <;> simp [Edit.old, Edit.new]

theorem views_keepRest :
    (keepRest run s).old = run ++ s.old ∧ (keepRest run s).new = run ++ s.new := by
  unfold keepRest
  split
  · simp [*]
  · exact ⟨rfl, rfl⟩

/-- In front of a script that is written backwards, they are behind the views. -/
theorem views_reverse_keepBehind :
    Script.old (keepBehind run s).reverse = Script.old s.reverse ++ run ∧
      Script.new (keepBehind run s).reverse = Script.new s.reverse ++ run := by
  unfold keepBehind
  split <;> simp [Edit.old, Edit.new]

theorem views_reverse_keepRest :
    Script.old (keepRest run s).reverse = Script.old s.reverse ++ run ∧
      Script.new (keepRest run s).reverse = Script.new s.reverse ++ run := by
  unfold keepRest
  split <;> simp [*, Edit.old, Edit.new]

end Kept

namespace Placed

variable [DecidableEq α] {side : Side} {before after : Script α} {run : List α} {a b : List α}

/-- **A change that rises leaves the views alone.** -/
theorem between_rise (h : (script side ⟨before, run, after⟩).Between a b) :
    ((rise side before run after).script side).Between a b := by
  fun_induction rise side before run after with
  | case1 | case2 | case3 => exact h
  | case4 run after kept rest left front x xs hsplit ih =>
    -- the insertion repeats the end of the kept items, and takes it to its own front
    have hcut := splitCommonEnd_eq kept run
    rw [hsplit] at hcut
    refine ih (h.congr ?_ ?_)
    · simp [script, Side.edit, Edit.old, views_reverse_keepRest, views_keepBefore, hcut.1]
    · rw [hcut.1, hcut.2]
      simp [script, Side.edit, Edit.new, views_reverse_keepRest, views_keepBefore]
  | case5 run after other rest ih | case6 run after other rest ih | case7 run after other rest ih
  | case8 run after other rest ih =>
    refine ih (h.congr ?_ ?_)
    · simp [script, Side.edit, Edit.old]
    · simp [script, Side.edit, Edit.new]

/-- **A change that sinks leaves the views alone.** -/
theorem between_sink (h : (script side ⟨before, run, after⟩).Between a b) :
    ((sink side before run after).script side).Between a b := by
  fun_induction sink side before run after with
  | case1 | case2 | case3 => exact h
  | case4 before run kept rest x xs left back hsplit ih =>
    -- the same the other way round: the front of the kept items goes before the change
    have hcut := splitCommon_eq kept run
    rw [hsplit] at hcut
    refine ih (h.congr ?_ ?_)
    · simp [script, Side.edit, Edit.old, views_reverse_keepBehind, views_keepRest, hcut.1]
    · rw [hcut.1, hcut.2]
      simp [script, Side.edit, Edit.new, views_reverse_keepBehind, views_keepRest]
  | case5 before run other rest ih | case6 before run other rest ih | case7 before run other rest ih
  | case8 before run other rest ih =>
    refine ih (h.congr ?_ ?_)
    · simp [script, Side.edit, Edit.old]
    · simp [script, Side.edit, Edit.new]

theorem between_settle (h : (script side ⟨before, run, after⟩).Between a b) :
    ((settle side before run after).script side).Between a b :=
  between_sink (between_rise h)

end Placed

theorem Side.eq_edit {side : Side} {e : Edit α} {run : List α} (h : side.run? e = some run) :
    e = side.edit run := by
  cases side <;> cases e <;> simp_all [Side.run?, Side.edit]

namespace Script

variable [DecidableEq α] {side : Side} {before s : Script α} {a b : List α}

theorem between_settleFrom (h : Between (before.reverse ++ s) a b) :
    (settleFrom side before s).Between a b := by
  fun_induction settleFrom side before s with
  | case1 before => rwa [List.append_nil] at h
  | case2 before e after hrun ih =>
    refine ih ?_
    rwa [List.reverse_cons, List.append_assoc]
  | case3 before e after run hrun placed ih =>
    -- the edit is a run of this side, placed behind what is settled already
    rw [Side.eq_edit hrun] at h
    have hplaced := Placed.between_settle h
    refine ih ?_
    rwa [List.reverse_cons, List.append_assoc]

/-- **A script that is settled leads from the same list to the same list.** -/
theorem Between.settle (h : s.Between a b) : s.settle.Between a b :=
  between_settleFrom (between_settleFrom h)

end Script

/-! ## The marked lines -/

/-- The items of the current list among marked ones. -/
def currentItems (l : List (Mark × α)) : List α :=
  (l.filter (·.1 ≠ .desired)).map Prod.snd

/-- The items of the desired list among marked ones. -/
def desiredItems (l : List (Mark × α)) : List α :=
  (l.filter (·.1 ≠ .current)).map Prod.snd

theorem items_append (l l' : List (Mark × α)) :
    currentItems (l ++ l') = currentItems l ++ currentItems l' ∧
      desiredItems (l ++ l') = desiredItems l ++ desiredItems l' := by
  simp [currentItems, desiredItems]

theorem items_map (mark : Mark) (l : List α) :
    currentItems (l.map (mark, ·)) = (if mark = .desired then [] else l) ∧
      desiredItems (l.map (mark, ·)) = if mark = .current then [] else l := by
  cases mark <;> simp [currentItems, desiredItems, List.filter_map, Function.comp_def]

theorem items_changes (deleted inserted : List α) :
    currentItems (changes deleted inserted) = deleted ∧
      desiredItems (changes deleted inserted) = inserted := by
  simp [changes, items_append, items_map]

/-- The changes that wait for the next kept items stand in front of the views of the script. -/
theorem items_marked (deleted inserted : List α) (s : Script α) :
    currentItems (s.marked deleted inserted) = deleted ++ s.old ∧
      desiredItems (s.marked deleted inserted) = inserted ++ s.new := by
  fun_induction Script.marked deleted inserted s with
  | case1 deleted inserted => simpa using items_changes deleted inserted
  | case2 deleted inserted run rest ih =>
    simp [items_append, items_changes, items_map, ih, Edit.old, Edit.new]
  | case3 deleted inserted run rest ih | case4 deleted inserted run rest ih =>
    simp [ih, Edit.old, Edit.new]

/-- **The marked lines are those of both texts**, each in their order. -/
theorem items_markedLines (current desired : List Char) :
    currentItems (markedLines current desired) = cutLines current ∧
      desiredItems (markedLines current desired) = cutLines desired := by
  have h := (search_between (cutLines current) (cutLines desired)).settle
  have hitems := items_marked [] [] (search (cutLines current) (cutLines desired)).settle
  rwa [h.old, h.new] at hitems

/-! ## Lines that are cut again -/

/-- A line with its end, which is the first in it. -/
inductive IsLine : List Char → Prop
  | crlf : IsLine ['\r', '\n']
  | lf : IsLine ['\n']
  | cr : IsLine ['\r']
  | cons {c : Char} {l : List Char} (hlf : c ≠ '\n') (hcr : c ≠ '\r') (t : IsLine l) :
    IsLine (c :: l)

theorem IsLine.ne_nil {l : List Char} (h : IsLine l) : l ≠ [] := by
  cases h <;> simp

/-- A text that is empty or ends in a line feed consists of lines with their ends. -/
theorem isLine_of_mem_cutLines {s : List Char} (h : ∀ c ∈ s.getLast?, c = '\n') :
    ∀ l ∈ cutLines s, IsLine l := by
  fun_induction cutLines s with
  | case1 => simp
  | case2 c =>
    -- the last character is the end of the last line
    obtain rfl : c = '\n' := h c rfl
    simpa using IsLine.lf
  | case3 c d r hend ih =>
    obtain ⟨rfl, rfl⟩ := hend
    refine List.forall_mem_cons.mpr ⟨.crlf, ih fun e he => h e ?_⟩
    rw [List.getLast?_cons, List.getLast?_cons, Option.mem_def.mp he]
    rfl
  | case4 c d r hnot hend ih =>
    have hc : IsLine [c] := by
      rcases hend with rfl | rfl
      · exact .lf
      · exact .cr
    exact List.forall_mem_cons.mpr ⟨hc, ih fun e he => h e (by rwa [List.getLast?_cons_cons])⟩
  | case5 c d r hnot hend ih =>
    rw [not_or] at hend
    have hlines := ih fun e he => h e (by rwa [List.getLast?_cons_cons])
    -- the character belongs to the line that comes next, and there is one
    cases hcut : cutLines (d :: r) with
    | nil =>
      have hflat := flatten_cutLines (d :: r)
      rw [hcut] at hflat
      cases hflat
    | cons l ls =>
      rw [hcut, List.forall_mem_cons] at hlines
      exact List.forall_mem_cons.mpr ⟨.cons hend.1 hend.2 hlines.1, hlines.2⟩

/-- A line in front of a text is cut off, if no line feed follows it that might be its own. -/
theorem cutLines_append {l rest : List Char} (h : IsLine l) (hrest : rest.head? ≠ some '\n') :
    cutLines (l ++ rest) = l :: cutLines rest := by
  induction h with
  | crlf => simp [cutLines]
  | lf => cases rest <;> simp [cutLines]
  | cr =>
    cases rest with
    | nil => simp [cutLines]
    | cons d r =>
      have hd : d ≠ '\n' := by simpa using hrest
      simp [cutLines, hd]
  | @cons c l hlf hcr t ih =>
    obtain ⟨d, r, hdr⟩ := List.exists_cons_of_ne_nil (l := l ++ rest) (by simp [t.ne_nil])
    rw [List.cons_append, hdr, cutLines, if_neg fun h => hcr h.1, if_neg (by simp [hlf, hcr]),
      ← hdr, ih]
    rfl

/-- **Lines that do not begin with a line feed are cut again as they were.** -/
theorem cutLines_flatten {ls : List (List Char)}
    (h : ∀ l ∈ ls, IsLine l ∧ l.head? ≠ some '\n') : cutLines ls.flatten = ls := by
  induction ls with
  | nil => rfl
  | cons l ls ih =>
    obtain ⟨⟨hl, -⟩, hrest⟩ := List.forall_mem_cons.mp h
    have hhead : ls.flatten.head? ≠ some '\n' := by
      cases ls with
      | nil => simp
      | cons l' ls =>
        obtain ⟨hl', hfront⟩ := hrest l' List.mem_cons_self
        obtain ⟨c, r, rfl⟩ := List.exists_cons_of_ne_nil hl'.ne_nil
        simpa using hfront
    rw [List.flatten_cons, cutLines_append hl hhead, ih hrest]

/-! ## Both texts from the diff -/

/-- The text is empty or ends with a line. -/
def Ended (s : String) : Prop := s = "" ∨ s.toList.getLast? = some '\n'

instance (s : String) : Decidable (Ended s) := inferInstanceAs (Decidable (_ ∨ _))

theorem Ended.last {s : String} (h : Ended s) : ∀ c ∈ s.toList.getLast?, c = '\n' := by
  intro c hc
  rcases h with rfl | hlast
  · cases hc
  · exact (Option.some.inj (hlast.symm.trans hc)).symm

theorem Mark.sign_inj {m m' : Mark} : m.sign = m'.sign ↔ m = m' := by
  cases m <;> cases m' <;> decide

theorem Mark.sign_mem (m : Mark) : m.sign ∈ [' ', '-', '+'] := by
  cases m <;> decide

/-- A line of the diff: the sign of its mark, and the line. -/
def signed (l : Mark × List Char) : List Char := l.1.sign :: l.2

theorem mem_items_of_mem {l : List (Mark × α)} {p : Mark × α} (h : p ∈ l) :
    p.2 ∈ currentItems l ∨ p.2 ∈ desiredItems l := by
  by_cases hp : p.1 = .desired
  · refine .inr (List.mem_map_of_mem (List.mem_filter.mpr ⟨h, ?_⟩))
    simp [hp]
  · exact .inl (List.mem_map_of_mem (List.mem_filter.mpr ⟨h, by simpa using hp⟩))

/-- The diff of ended texts is cut into its marked lines. -/
theorem cutLines_render {current desired : String} (hc : Ended current) (hd : Ended desired) :
    cutLines (render (markedLines current.toList desired.toList))
      = (markedLines current.toList desired.toList).map signed := by
  obtain ⟨hcurrent, hdesired⟩ := items_markedLines current.toList desired.toList
  have hrender : render (markedLines current.toList desired.toList)
      = ((markedLines current.toList desired.toList).map signed).flatten :=
    List.flatMap_def
  rw [hrender]
  refine cutLines_flatten fun l hl => ?_
  obtain ⟨⟨mark, line⟩, hmem, rfl⟩ := List.mem_map.mp hl
  have hline : IsLine line := by
    rcases mem_items_of_mem hmem with h | h
    · exact isLine_of_mem_cutLines hc.last line (hcurrent ▸ h)
    · exact isLine_of_mem_cutLines hd.last line (hdesired ▸ h)
  have hsign : mark.sign ≠ '\n' ∧ mark.sign ≠ '\r' := by
    cases mark <;> decide
  exact ⟨.cons hsign.1 hsign.2 hline, by simpa [signed] using hsign.1⟩

/-- Dropping the lines with one sign, and the other signs, leaves the items without that mark. -/
theorem tails_signed (l : List (Mark × List Char)) (mark : Mark) :
    ((l.map signed).filter (·.head? ≠ some mark.sign)).flatMap List.tail
      = ((l.filter (·.1 ≠ mark)).map Prod.snd).flatten := by
  rw [List.filter_map, List.flatMap_map, ← List.flatMap_def]
  simp [signed, Function.comp_def, Mark.sign_inj]

/-- Lists of marked lines that are in both texts only make the texts agree. -/
theorem current_eq_desired {l : List (Mark × α)} (h : ∀ p ∈ l, p.1 = .both) :
    currentItems l = desiredItems l := by
  rw [currentItems, desiredItems, List.filter_eq_self.mpr fun p hp => by simp [h p hp],
    List.filter_eq_self.mpr fun p hp => by simp [h p hp]]

/-- Two texts that differ have a marked line that is in one of them only. -/
theorem exists_mark_ne_both {current desired : List Char} (h : current ≠ desired) :
    ∃ p ∈ markedLines current desired, p.1 ≠ .both := by
  refine Decidable.byContradiction fun hnone => h ?_
  have hboth : ∀ p ∈ markedLines current desired, p.1 = .both := by
    simpa using hnone
  obtain ⟨hcurrent, hdesired⟩ := items_markedLines current desired
  -- lines that are all in both texts are the lines of each
  have hlines : cutLines current = cutLines desired := by
    rw [← hcurrent, ← hdesired, current_eq_desired hboth]
  rw [← flatten_cutLines current, hlines, flatten_cutLines]

/--
**Both texts can be read off their diff.** There is one exactly when the texts differ, and its lines
are signed; at least one is of one text only. Without the plus lines and without its signs it is the
current text, and without the minus lines it is the desired one.
-/
theorem diff_reconstructs (current desired : String) (hc : Ended current) (hd : Ended desired) :
    (diff? current desired = none ↔ current = desired) ∧
      ∀ diff, diff? current desired = some diff →
        (∀ line ∈ cutLines diff.toList, ∃ sign ∈ [' ', '-', '+'], line.head? = some sign) ∧
        (∃ line ∈ cutLines diff.toList, line.head? = some '-' ∨ line.head? = some '+') ∧
        ((cutLines diff.toList).filter (·.head? ≠ some '+')).flatMap List.tail = current.toList ∧
        ((cutLines diff.toList).filter (·.head? ≠ some '-')).flatMap List.tail
          = desired.toList := by
  refine ⟨diff?_eq_none_iff, fun diff hdiff => ?_⟩
  unfold diff? at hdiff
  split at hdiff
  · contradiction
  rename_i hne
  obtain rfl := Option.some.inj hdiff
  rw [String.toList_ofList, cutLines_render hc hd]
  obtain ⟨hcurrent, hdesired⟩ := items_markedLines current.toList desired.toList
  refine ⟨fun line hline => ?_, ?_, ?_, ?_⟩
  · obtain ⟨p, -, rfl⟩ := List.mem_map.mp hline
    exact ⟨p.1.sign, p.1.sign_mem, rfl⟩
  · obtain ⟨p, hp, hmark⟩ := exists_mark_ne_both fun h => hne (String.toList_inj.mp h)
    refine ⟨signed p, List.mem_map_of_mem hp, ?_⟩
    cases hsign : p.1 with
    | both => exact absurd hsign hmark
    | current => simp [signed, hsign, Mark.sign]
    | desired => simp [signed, hsign, Mark.sign]
  · calc _ = (currentItems (markedLines current.toList desired.toList)).flatten :=
          tails_signed _ .desired
      _ = current.toList := by rw [hcurrent, flatten_cutLines]
  · calc _ = (desiredItems (markedLines current.toList desired.toList)).flatten :=
          tails_signed _ .current
      _ = desired.toList := by rw [hdesired, flatten_cutLines]

/-- Two dumps: the second names another chain, and its last line has another end. -/
def otherChain : String × String :=
  ("add table ip t\nadd chain ip t a\nadd chain ip t z\n",
    "add table ip t\nadd chain ip t b\r\nadd chain ip t z\r\n")

theorem diff_reconstructs_otherChain :
    Ended otherChain.1 ∧ Ended otherChain.2 ∧
      ∃ diff, diff? otherChain.1 otherChain.2 = some diff ∧
        (∃ line ∈ cutLines diff.toList, line.head? = some '-' ∨ line.head? = some '+') ∧
        ((cutLines diff.toList).filter (·.head? ≠ some '+')).flatMap List.tail
          = otherChain.1.toList ∧
        ((cutLines diff.toList).filter (·.head? ≠ some '-')).flatMap List.tail
          = otherChain.2.toList := by
  have hc : Ended otherChain.1 := by decide +kernel
  have hd : Ended otherChain.2 := by decide +kernel
  obtain ⟨hsame, hdiff⟩ := diff_reconstructs otherChain.1 otherChain.2 hc hd
  have hne : diff? otherChain.1 otherChain.2 ≠ none := by
    rw [Ne, hsame]
    decide
  obtain ⟨diff, hsome⟩ := Option.ne_none_iff_exists'.mp hne
  exact ⟨hc, hd, diff, hsome, (hdiff diff hsome).2⟩

end Nftables.LineDiff
