import Nftables.Yaml.Scalar

/-!
# Tokens of a settings file

Settings are written in the part of YAML that consists of block and flow collections of plain and
quoted scalars. The scanner puts in the tokens that open and close block collections, which only
the columns show, and the one before a key, which only the colon behind it shows. So it remembers
for every open collection the last token that may turn out to be a key.
-/

namespace Nftables.Yaml

inductive Token
  | scalar (plain : Bool) (text : List Char)
  | documentStart
  | documentEnd
  | blockSequence
  | blockMapping
  | blockEnd
  | flowSequence
  | flowSequenceEnd
  | flowMapping
  | flowMappingEnd
  /-- The comma of a flow collection. -/
  | flowEntry
  /-- The dash of a block sequence. -/
  | blockEntry
  /-- A key comes next. -/
  | key
  /-- A value comes next. -/
  | value
deriving DecidableEq, Repr

/-- A place at which a key may have begun. -/
structure Candidate extends Position where
  /-- How many tokens were found before it. -/
  index : Nat
  /-- Nothing but a key can stand there. -/
  required : Bool
deriving DecidableEq, Repr

/-- How many bytes may lie between the front of a key and the colon behind it. -/
def maxKeySize : Nat := 1024

/-- A key has to end on its line and may not be too long. -/
def Candidate.isStale (k : Candidate) (p : Position) : Bool :=
  k.line < p.line || k.offset + maxKeySize < p.offset

structure Scanner where
  cursor : Cursor
  /-- The tokens so far, the last one first. -/
  found : List Token := []
  /-- The columns of the open block collections, the innermost first. -/
  indents : List Nat := []
  /-- A key may begin here. -/
  keyAllowed : Bool := true
  candidate : Option Candidate := none
  /-- The candidates outside of each open flow collection, the innermost first. -/
  outer : List (Option Candidate) := []

namespace Scanner

/-- The scanner is inside a flow collection. -/
def inFlow (s : Scanner) : Bool := !s.outer.isEmpty

def push (s : Scanner) (t : Token) : Scanner := { s with found := t :: s.found }

/-- Puts a token behind the first `index` ones. -/
def insertAt (s : Scanner) (index : Nat) (t : Token) : Scanner :=
  let (after, before) := s.found.splitAt (s.found.length - index)
  { s with found := after ++ t :: before }

/-- Goes over `n` characters that make up a token. -/
def take (s : Scanner) (n : Nat) (t : Token) : Scanner :=
  { s.push t with cursor := s.cursor.skip n }

def allowKey (s : Scanner) (keyAllowed : Bool) : Scanner := { s with keyAllowed }

/-! ## Candidates -/

/-- Gives the candidate up; `none` if a key is required there. -/
def dismiss (s : Scanner) : Option Scanner :=
  if s.candidate.any Candidate.required then none else some { s with candidate := none }

/-- A key may begin here. -/
def propose (s : Scanner) : Option Scanner :=
  if s.keyAllowed then do
    let s ← s.dismiss
    -- in the column of the innermost block, only the next key of it can stand
    let required := !s.inFlow && s.indents.head? == some s.cursor.column
    some { s with candidate := some ⟨s.cursor.toPosition, s.found.length, required⟩ }
  else some s

/-- The candidate unless it is stale; `none` if it is stale and required. -/
def fresh? (p : Position) : Option Candidate → Option (Option Candidate)
  | none => some none
  | some k => if !k.isStale p then some (some k) else if k.required then none else some none

/-- Gives up all candidates that are stale. -/
def dismissStale (s : Scanner) : Option Scanner := do
  let candidate ← fresh? s.cursor.toPosition s.candidate
  let outer ← s.outer.mapM (fresh? s.cursor.toPosition)
  some { s with candidate, outer }

/-! ## Block collections -/

/-- Opens a block collection behind the first `index` tokens if its column is a new one. -/
def openBlock (s : Scanner) (index column : Nat) (t : Token) : Scanner :=
  if !s.inFlow && s.indents.head?.all (· < column) then
    { s.insertAt index t with indents := column :: s.indents }
  else s

/-- Closes the block collections in columns that `closes` holds of, from the innermost on. -/
def closeBlocks (s : Scanner) (closes : Nat → Bool) : Scanner :=
  if s.inFlow then s
  else
    let closed := (s.indents.takeWhile closes).map fun _ => Token.blockEnd
    { s with found := closed ++ s.found, indents := s.indents.dropWhile closes }

/-- Closes all block collections. -/
def closeAll (s : Scanner) : Scanner := s.closeBlocks fun _ => true

/-! ## Tokens -/

/-- Passes blanks, comments and line ends. A tab may stand only where no block key can begin. -/
def passSpace (flow comment keyAllowed : Bool) (p : Position) : List Char → Cursor × Bool
  | [] => (⟨p, []⟩, keyAllowed)
  | c :: r =>
    if isBreak c then passSpace flow false (keyAllowed || !flow) (p.behind c) r
    else if comment || c = '#' then passSpace flow true keyAllowed (p.behind c) r
    else if c = ' ' || (c = '\t' && (flow || !keyAllowed)) ||
        (c = byteOrderMark && p.column = 0) then
      passSpace flow false keyAllowed (p.behind c) r
    else (⟨p, c :: r⟩, keyAllowed)

/-- Goes to the next token. -/
def toToken (s : Scanner) : Scanner :=
  let (cursor, keyAllowed) :=
    passSpace s.inFlow false s.keyAllowed s.cursor.toPosition s.cursor.rest
  { s with cursor, keyAllowed }

def takeMarker (s : Scanner) (t : Token) : Option Scanner := do
  let s ← s.closeAll.dismiss
  some ((s.allowKey false).take 3 t)

/-- The opening bracket of a flow collection, which may be a key as a whole. -/
def takeOpening (s : Scanner) (t : Token) : Option Scanner := do
  let s ← s.propose
  some (({ s with candidate := none, outer := s.candidate :: s.outer }.allowKey true).take 1 t)

def takeClosing (s : Scanner) (t : Token) : Option Scanner := do
  let s ← s.dismiss
  let candidate := s.outer.head?.getD none
  some (({ s with candidate, outer := s.outer.tail }.allowKey false).take 1 t)

def takeComma (s : Scanner) : Option Scanner := do
  let s ← s.dismiss
  some ((s.allowKey true).take 1 .flowEntry)

/-- In a block collection, a block may begin here; `none` if it may not. -/
def beginBlock (s : Scanner) (t : Token) : Option Scanner :=
  if s.inFlow then some s
  else if s.keyAllowed then some (s.openBlock s.found.length s.cursor.column t)
  else none

def takeDash (s : Scanner) : Option Scanner := do
  let s ← s.beginBlock .blockSequence
  let s ← s.dismiss
  some ((s.allowKey true).take 1 .blockEntry)

def takeQuestion (s : Scanner) : Option Scanner := do
  let s ← s.beginBlock .blockMapping
  let s ← s.dismiss
  some ((s.allowKey !s.inFlow).take 1 .key)

/-- A colon. If there is a candidate, that was a key. -/
def takeColon (s : Scanner) : Option Scanner :=
  match s.candidate with
  | some k =>
    -- the mapping opens in front of its first key, behind which the scanner already is
    let s := (s.insertAt k.index .key).openBlock k.index k.column .blockMapping
    some (({ s with candidate := none }.allowKey false).take 1 .value)
  | none => do
    let s ← s.beginBlock .blockMapping
    some ((s.allowKey !s.inFlow).take 1 .value)

/-- Goes over a scalar. Behind its last line a key may begin. -/
def takeScalar (s : Scanner) (plain : Bool) (read : Cursor → Option Scalar) : Option Scanner := do
  let s ← s.propose
  let scalar ← read s.cursor
  let s := { s.push (.scalar plain scalar.text) with cursor := scalar.after }
  some (s.allowKey scalar.atNewLine)

/-- A character that no plain scalar begins with. -/
def isIndicator (c : Char) : Bool :=
  isFlowIndicator c ||
    c ∈ ['-', '?', ':', '#', '&', '*', '!', '|', '>', '\'', '"', '%', '@', '\x60']

/-- A plain scalar begins with `c`, before `r`. -/
def beginsPlain (flow : Bool) (c : Char) (r : List Char) : Bool :=
  !(isSpace c || isIndicator c) || (c = '-' && !r.head?.any isBlank) ||
    (!flow && (c = '?' || c = ':') && !atSpace r)

/-- Reads the next token; `none` if there is none in this part of YAML. -/
def takeToken (s : Scanner) : Option Scanner :=
  match s.cursor.rest with
  | [] => none
  | c :: r =>
    if s.cursor.atDocumentStart then s.takeMarker .documentStart
    else if s.cursor.atDocumentEnd then s.takeMarker .documentEnd
    else if c = '[' then s.takeOpening .flowSequence
    else if c = '\x7b' then s.takeOpening .flowMapping
    else if c = ']' then s.takeClosing .flowSequenceEnd
    else if c = '\x7d' then s.takeClosing .flowMappingEnd
    else if c = ',' then s.takeComma
    else if c = '-' ∧ atSpace r then s.takeDash
    else if c = '?' ∧ (s.inFlow ∨ atSpace r) then s.takeQuestion
    else if c = ':' ∧ (s.inFlow ∨ atSpace r) then s.takeColon
    else if c = '\'' ∨ c = '"' then s.takeScalar false (readQuoted c)
    else if beginsPlain s.inFlow c r then
      let indent := (s.indents.head?.map (· + 1)).getD 0
      s.takeScalar true (readPlain s.inFlow indent)
    else none

/-- Reads tokens up to the end of the text. -/
def run : (fuel : Nat) → Scanner → Option (List Token)
  | 0, _ => none
  | fuel + 1, s => do
    let s ← s.toToken.dismissStale
    -- a token to the left of a block is behind that block
    let s := s.closeBlocks fun indent => s.cursor.column < indent
    if s.cursor.rest = [] then
      let s ← s.closeAll.dismiss
      some s.found.reverse
    else run fuel (← s.takeToken)

end Scanner

/-- The tokens of a text; `none` if some part of it is no token of this part of YAML. -/
def scan (s : List Char) : Option (List Token) := do
  let cursor ← cursor? s
  Scanner.run (s.length + 1) { cursor }

end Nftables.Yaml
