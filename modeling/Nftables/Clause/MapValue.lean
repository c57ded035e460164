import Nftables.Clause.Comment

/-!
# Keys and values of map elements

The body of a map element is its key, a comment perhaps, ` : ` and its value. Quoted texts are read
as wholes, so a colon inside one does not separate.
-/

namespace Nftables.Clause

/-- What a body consists of: single characters, and quoted texts as wholes. -/
inductive Piece
  | plain (c : Char)
  | quoted (body : List Char)
deriving DecidableEq, Repr

/-- A piece as it stands in the body. -/
def Piece.text : Piece → List Char
  | .plain c => [c]
  | .quoted body => '"' :: body ++ ['"']

/--
Reads a body into pieces. The first argument is the part of a quoted text that has been read since
its opening quote, last character first, or `none` outside of quotes.
-/
def readPieces.go : Option (List Char) → List Char → Option (List Piece)
  | none, [] => some []
  | some _, [] => none
  | none, c :: r =>
    if c = '"' then go (some []) r else (go none r).map (.plain c :: ·)
  | some read, c :: r =>
    if c = '"' then (go none r).map (.quoted read.reverse :: ·)
    else if c = '\\' then
      match r with
      | [] => none
      -- an escaped quote does not close the text, and a line feed cannot be escaped
      | d :: r => if d = '\n' then none else go (some (d :: c :: read)) r
    else go (some (c :: read)) r

/-- The pieces of a body; `none` if a quoted text in it is not closed. -/
def readPieces (s : List Char) : Option (List Piece) :=
  readPieces.go none s

/-- The separator between a key and its value. -/
def separator : List Piece := [.plain ' ', .plain ':', .plain ' ']

/-- Cuts at the first separator that has a piece before it and a piece behind it. -/
def cutPieces? : List Piece → Option (List Piece × List Piece)
  | [] => none
  | p :: ps =>
    match separator.isPrefixOf? ps with
    | some (v :: vs) => some ([p], v :: vs)
    | _ => (cutPieces? ps).map fun (key, value) => (p :: key, value)

/-- The key, the comment and the value of a map element; `none` for a body that has no value. -/
def splitMapValue? (s : List Char) : Option (List Char × Option (List Char) × List Char) := do
  let pieces ← readPieces s
  let (key, value) ← cutPieces? pieces
  let (key, comment) := splitComment (key.flatMap Piece.text)
  pure (key, comment, value.flatMap Piece.text)

end Nftables.Clause
