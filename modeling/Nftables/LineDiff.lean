import Nftables.LineDiff.Search
import Nftables.LineDiff.Settle
import Nftables.Text.Split

/-!
# Line diffs

The difference between two texts as a list of marked lines: a space before a line that both have,
a minus before one of the current text only, and a plus before one of the desired text only.
Between lines that both have, all minus lines come before all plus lines.

A line is ended by a carriage return and a line feed, by a line feed, or by a lone carriage return.
The end belongs to the line, so that cutting a text loses nothing; only the last line may lack one.
-/

namespace Nftables.LineDiff

/-! ## Lines with their ends -/

/-- The lines of a text, each with its end. -/
def cutLines : List Char → List (List Char)
  | [] => []
  | [c] => [[c]]
  | c :: d :: r =>
    if c = '\r' ∧ d = '\n' then [c, d] :: cutLines r
    else if c = '\n' ∨ c = '\r' then [c] :: cutLines (d :: r)
    else Text.consPiece c (cutLines (d :: r))

/-- Nothing is lost when a text is cut into lines. -/
theorem flatten_cutLines (s : List Char) : (cutLines s).flatten = s := by
  have cons (c : Char) (ls : List (List Char)) :
      (Text.consPiece c ls).flatten = c :: ls.flatten := by
    cases ls <;> rfl
  fun_induction cutLines s with
  | case1 => rfl
  | case2 c => rfl
  | case3 c d r h ih => simp [ih]
  | case4 c d r _ h ih => simp [ih]
  | case5 c d r _ _ ih => rw [cons, ih]

/-! ## Marks -/

/-- Which of the two texts a line belongs to. -/
inductive Mark
  | both
  | current
  | desired
deriving DecidableEq, Repr

def Mark.sign : Mark → Char
  | .both => ' '
  | .current => '-'
  | .desired => '+'

/-- Marked items between two runs of kept items. -/
def changes {α : Type} (deleted inserted : List α) : List (Mark × α) :=
  deleted.map (.current, ·) ++ inserted.map (.desired, ·)

/--
The items of a script with their marks. `deleted` and `inserted` are the changes since the last
kept items.
-/
def Script.marked {α : Type} (deleted inserted : List α) : Script α → List (Mark × α)
  | [] => changes deleted inserted
  | .keep run :: rest => changes deleted inserted ++ run.map (.both, ·) ++ marked [] [] rest
  | .delete run :: rest => marked (deleted ++ run) inserted rest
  | .insert run :: rest => marked deleted (inserted ++ run) rest

/-- The marked lines of a text and the one that is wanted instead. -/
def markedLines (current desired : List Char) : List (Mark × List Char) :=
  (search (cutLines current) (cutLines desired)).settle.marked [] []

/-- Marked lines as a text. A line keeps its own end. -/
def render (lines : List (Mark × List Char)) : List Char :=
  lines.flatMap fun (mark, line) => mark.sign :: line

/-- The line diff from one text to another; `none` if they are the same. -/
def diff? (current desired : String) : Option String :=
  if current = desired then none
  else some (String.ofList (render (markedLines current.toList desired.toList)))

theorem diff?_eq_none_iff {current desired : String} :
    diff? current desired = none ↔ current = desired := by
  simp [diff?]

end Nftables.LineDiff
