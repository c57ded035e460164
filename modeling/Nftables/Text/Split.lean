/-!
# Cutting and searching texts

Cutting at a character or at a fixed text, replacing a fixed text, and finding the first place
where a pattern reads.
-/

namespace Nftables.Text

/-- Cuts at the first `c`, which is dropped; `none` without one. -/
def splitOnce? (c : Char) (s : List Char) : Option (List Char × List Char) :=
  match s.dropWhile (· ≠ c) with
  | [] => none
  | _ :: rest => some (s.takeWhile (· ≠ c), rest)

/-- Cuts at the first `c`; without one, all is before it. -/
def splitOnce (c : Char) (s : List Char) : List Char × List Char :=
  (splitOnce? c s).getD (s, [])

/-- The text before `last`, if the text ends so. -/
def dropSuffix? (last : List Char) (s : List Char) : Option (List Char) :=
  (last.reverse.isPrefixOf? s.reverse).map List.reverse

/-- Puts `c` in front of the first piece. -/
def consPiece (c : Char) : List (List Char) → List (List Char)
  | [] => [[c]]
  | p :: ps => (c :: p) :: ps

/--
The pieces of a text between the occurrences of `sep`, which are found from the left and do not
overlap. The first argument counts the characters of an occurrence that are still to be dropped.
-/
def splitText.go (sep : List Char) : Nat → List Char → List (List Char)
  | _, [] => [[]]
  | n + 1, _ :: r => go sep n r
  | 0, c :: r =>
    if sep.isPrefixOf (c :: r) then [] :: go sep (sep.length - 1) r else consPiece c (go sep 0 r)

/-- Cuts at each occurrence of the non-empty text `sep`. -/
def splitText (sep s : List Char) : List (List Char) :=
  splitText.go sep 0 s

/-- Replaces each occurrence of the non-empty text `old` by `new`. -/
def replaceText (old new s : List Char) : List Char :=
  new.intercalate (splitText old s)

/--
The first place at which `read` accepts: what stands before it, and what was read.
-/
def findFirst? {α : Type} (read : List Char → Option α) : List Char → Option (List Char × α)
  | [] => (read []).map (([], ·))
  | c :: r =>
    match read (c :: r) with
    | some a => some ([], a)
    | none => (findFirst? read r).map fun (before, a) => (c :: before, a)

end Nftables.Text
