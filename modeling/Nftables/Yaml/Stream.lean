/-!
# The characters of a settings file

A settings file is a text of permitted characters, read from a cursor that knows its place. Columns
count characters and decide how block collections nest; offsets count bytes and bound how long a key
may be. A line feed in this module stands for every common way to end a line.
-/

namespace Nftables.Yaml

/-! ## Characters -/

/-- A character that a settings file may hold. -/
def isPermitted (c : Char) : Bool :=
  c = '\t' || c = '\n' || c = '\r' || (' ' ≤ c && c ≤ '~') || c = '\u0085' ||
  ('\u00a0' ≤ c && c ≤ '\ufffd') || '\uffff' < c

/-- The mark that may stand in front of a line and does not show. -/
def byteOrderMark : Char := '\ufeff'

/-- A space or a tab. -/
def isBlank (c : Char) : Bool := c = ' ' || c = '\t'

/-- The end of a line, after ends that are common have become line feeds. -/
def isBreak (c : Char) : Bool := c = '\n' || c = '\u2028' || c = '\u2029'

/-- A character between words. -/
def isSpace (c : Char) : Bool := isBlank c || isBreak c

/-- A character between words comes next, or nothing. -/
def atSpace (s : List Char) : Bool := s.head?.all isSpace

/-- The text with a line feed for each carriage return, for the pair of both, and for U+0085. -/
def unifyBreaks : List Char → List Char
  | '\r' :: '\n' :: r => '\n' :: unifyBreaks r
  | c :: r => (if c = '\r' ∨ c = '\u0085' then '\n' else c) :: unifyBreaks r
  | [] => []

/-! ## Places -/

/-- A place in a text. -/
structure Position where
  line : Nat := 0
  /-- The number of characters before it on its line. -/
  column : Nat := 0
  /-- The size of these characters in bytes. -/
  offset : Nat := 0
deriving DecidableEq, Repr

/-- The place behind a character that stands here. -/
def Position.behind (p : Position) (c : Char) : Position :=
  if isBreak c then { line := p.line + 1 }
  else { p with column := p.column + 1, offset := p.offset + c.utf8Size }

/-- What is left of a text, and where that begins. -/
structure Cursor extends Position where
  rest : List Char
deriving DecidableEq, Repr

namespace Cursor

/-- The cursor behind a character. -/
def next (c : Cursor) : Cursor :=
  match c.rest with
  | [] => c
  | x :: rest => { toPosition := c.behind x, rest }

/-- The cursor behind `n` characters. -/
def skip (c : Cursor) : Nat → Cursor
  | 0 => c
  | n + 1 => c.next.skip n

theorem rest_next (c : Cursor) : c.next.rest = c.rest.tail := by
  unfold next
  split <;> simp_all

@[simp] theorem rest_skip (c : Cursor) (n : Nat) : (c.skip n).rest = c.rest.drop n := by
  induction n generalizing c with
  | zero => simp [skip]
  | succ n ih => rw [skip, ih, rest_next, List.drop_tail]

/-- Three of these characters and a space come next. -/
def atThree (c : Cursor) (x : Char) : Bool :=
  match c.rest with
  | a :: b :: d :: r => a = x && b = x && d = x && atSpace r
  | _ => false

/-- The marker of a document's start comes next. -/
def atDocumentStart (c : Cursor) : Bool := c.column = 0 && c.atThree '-'

/-- The marker of a document's end comes next. -/
def atDocumentEnd (c : Cursor) : Bool := c.column = 0 && c.atThree '.'

def atMarker (c : Cursor) : Bool := c.atDocumentStart || c.atDocumentEnd

end Cursor

/-- The cursor at the front of a text; `none` if a character of the text is not permitted. -/
def cursor? (s : List Char) : Option Cursor :=
  if s.all isPermitted then some { rest := unifyBreaks s } else none

end Nftables.Yaml
