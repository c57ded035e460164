import Nftables.Address
import Nftables.Yaml.Stream

/-!
# Scalars of a settings file

Plain and quoted texts. Both may go on over several lines: blanks at the ends of lines are dropped,
a single line end becomes a space, and of several the first is dropped.
-/

namespace Nftables.Yaml

/-- A text that was read, and what follows it. -/
structure Scalar where
  text : List Char
  after : Cursor
  /-- The text was left behind the end of its last line. -/
  atNewLine : Bool := false

def Scalar.prepend (text : List Char) (s : Scalar) : Scalar := { s with text := text ++ s.text }

/-! ## Between words -/

/-- The blanks and line ends in front of a text. -/
def leadingSpace (s : List Char) : List Char := s.takeWhile isSpace

theorem length_leadingSpace_le (s : List Char) : (leadingSpace s).length ≤ s.length :=
  (List.takeWhile_sublist isSpace).length_le

/-- What line ends between words stand for. The first is dropped if it is a line feed. -/
def foldBreaks : List Char → List Char
  | ['\n'] => [' ']
  | '\n' :: more => more
  | breaks => breaks

/-- What blanks and line ends between words stand for. -/
def foldSpace (space : List Char) : List Char :=
  if space.any isBreak then foldBreaks (space.filter isBreak) else space

/-- Behind some line end a tab stands to the left of `column`. -/
def hasTabBefore (column : Nat) (space : List Char) : Bool :=
  ((space.splitOnP isBreak).drop 1).any fun line => (line.take column).contains '\t'

/-! ## Plain scalars -/

/-- A character that ends a plain scalar inside a flow collection. -/
def isFlowIndicator (c : Char) : Bool := c ∈ [',', '[', ']', '\x7b', '\x7d']

/--
A word of a plain scalar. It ends before a colon that is set off by a space, and inside a flow
collection before an indicator of that. There a colon may not touch an indicator.
-/
def readWord (flow : Bool) : List Char → Option (List Char)
  | [] => some []
  | c :: r =>
    if isSpace c then some []
    else if flow ∧ c = ':' ∧ r.head?.any (· ∈ [',', '?', '[', ']', '\x7b', '\x7d']) then none
    else if c = ':' ∧ atSpace r then some []
    else if flow ∧ isFlowIndicator c then some []
    else (readWord flow r).map (c :: ·)

/--
The words of a plain scalar, each with what the space before it stands for. `space` is what was just
passed. The scalar ends before a comment, before a marker, and in a block collection before a line
that begins to the left of `indent`.
-/
def readWords (flow : Bool) (indent : Nat) (space : List Char) (c : Cursor) : Option Scalar :=
  if c.atMarker ∨ c.rest.head? = some '#' then some ⟨[], c, space.any isBreak⟩
  else
    match readWord flow c.rest with
    | none => none
    | some [] => some ⟨[], c, space.any isBreak⟩
    | some word =>
      let after := c.skip word.length
      let gap := leadingSpace after.rest
      let next := after.skip gap.length
      let text := foldSpace space ++ word
      if gap = [] then some ⟨text, after, false⟩
      else if hasTabBefore indent gap then none
      else if !flow ∧ next.column < indent then some ⟨text, next, gap.any isBreak⟩
      else (readWords flow indent gap next).map (Scalar.prepend text)
termination_by c.rest.length
decreasing_by
  rename_i hgap _ _
  have hpos := List.length_pos_iff.2 hgap
  have hle := length_leadingSpace_le after.rest
  simp only [after, next, gap, Cursor.rest_skip, List.length_drop] at *
  omega

/-- A plain scalar. -/
def readPlain (flow : Bool) (indent : Nat) (c : Cursor) : Option Scalar :=
  readWords flow indent [] c

/-! ## Quoted scalars -/

/-- What a quoted scalar holds up to a space or its closing quote. -/
structure Piece where
  text : List Char := []
  /-- How many characters were passed for it. -/
  size : Nat := 0
  /-- It ended with an escaped line end: the next piece joins it. -/
  joined : Bool := false

namespace Piece

/-- The piece behind another character. -/
def pass (p : Piece) : Piece := { p with size := p.size + 1 }

/-- The piece behind a character that stands for `c`. -/
def cons (c : Char) (p : Piece) : Piece := { p.pass with text := c :: p.text }

end Piece

/-- In single quotes, a doubled quote stands for one. -/
def readSingle : List Char → Piece
  | '\'' :: '\'' :: r => ((readSingle r).cons '\'').pass
  | c :: r => if c = '\'' ∨ isSpace c then {} else (readSingle r).cons c
  | [] => {}

/-- The characters that a backslash and one character stand for. -/
def namedEscapes : List (Char × Char) :=
  [('0', '\x00'), ('a', '\x07'), ('b', '\x08'), ('t', '\t'), ('\t', '\t'), ('n', '\n'),
   ('v', '\x0b'), ('f', '\x0c'), ('r', '\r'), ('e', '\x1b'), (' ', ' '), ('"', '"'), ('/', '/'),
   ('\\', '\\'), ('N', '\u0085'), ('_', '\u00a0'), ('L', '\u2028'), ('P', '\u2029')]

/-- How many hexadecimal digits follow a backslash and this letter. -/
def numberedEscapes : List (Char × Nat) := [('x', 2), ('u', 4), ('U', 8)]

/-- The character with the number that is written in hexadecimal digits. -/
def charOfHex? (digits : List Char) : Option Char := do
  let values ← digits.mapM Address.hexValue?
  let n := values.foldl (fun n d => 16 * n + d) 0
  if n.isValidChar then some (Char.ofNat n) else none

/-- The character that an escape stands for, and the length of the escape behind its backslash. -/
def readEscape? : List Char → Option (Char × Nat)
  | [] => none
  | c :: r =>
    match namedEscapes.lookup c, numberedEscapes.lookup c with
    | some e, _ => some (e, 1)
    | none, some n => do
      let digits := r.take n
      if digits.length = n then some (← charOfHex? digits, n + 1) else none
    | none, none => none

/-- In double quotes, a backslash escapes. The first argument counts the characters of an escape
that are still to be passed. -/
def readDouble : Nat → List Char → Option Piece
  | _, [] => some {}
  | n + 1, _ :: r => (readDouble n r).map Piece.pass
  | 0, c :: r =>
    if c = '"' ∨ isSpace c then some {}
    else if c = '\\' then
      if r.head?.any isBreak then some { size := 2, joined := true }
      else do
        let (e, length) ← readEscape? r
        (readDouble length r).map (Piece.cons e)
    else (readDouble 0 r).map (Piece.cons c)

def readPiece (quote : Char) (s : List Char) : Option Piece :=
  if quote = '"' then readDouble 0 s else some (readSingle s)

/--
The pieces of a quoted scalar up to its closing quote. A text without one is none, and so is a text
with a marker in it.
-/
def readPieces (quote : Char) (c : Cursor) : Option Scalar :=
  if c.atMarker ∨ c.rest = [] then none
  else
    match readPiece quote c.rest with
    | none => none
    | some piece =>
      let after := c.skip piece.size
      let gap := leadingSpace after.rest
      let between := if piece.joined then gap.filter isBreak else foldSpace gap
      if after.rest.head? = some quote then some ⟨piece.text, after.next, false⟩
      else if piece.size = 0 ∧ gap = [] then none
      else
        (readPieces quote (after.skip gap.length)).map (Scalar.prepend (piece.text ++ between))
termination_by c.rest.length
decreasing_by
  rename_i hrest _ hmove
  have hpos := List.length_pos_iff.2 (not_or.1 hrest).2
  have hle := length_leadingSpace_le after.rest
  have hgap : piece.size = 0 → 0 < gap.length := fun h =>
    List.length_pos_iff.2 fun hg => hmove ⟨h, hg⟩
  simp only [after, gap, Cursor.rest_skip, List.length_drop] at *
  omega

/-- A quoted scalar, from its opening quote on. -/
def readQuoted (quote : Char) (c : Cursor) : Option Scalar :=
  readPieces quote c.next

end Nftables.Yaml
