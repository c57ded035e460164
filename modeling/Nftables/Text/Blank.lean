import Nftables.Text.CharClass

/-!
# Blanks, words and lines

A blank is a character with the property White_Space. Trimming takes blanks off the ends of a
text, `words` cuts a text at its blanks, and `lines` cuts it at its line feeds.
-/

namespace Nftables.Text

/-- The characters with the property White_Space. -/
def blankRanges : List CharRange :=
  [(0x9, 0xd), (0x20, 0x20), (0x85, 0x85), (0xa0, 0xa0), (0x1680, 0x1680), (0x2000, 0x200a),
   (0x2028, 0x2029), (0x202f, 0x202f), (0x205f, 0x205f), (0x3000, 0x3000)]

/-- A character that separates words. -/
def isBlank (c : Char) : Bool :=
  inRanges blankRanges c

def trimStart (s : List Char) : List Char :=
  s.dropWhile isBlank

def trimEnd (s : List Char) : List Char :=
  (s.reverse.dropWhile isBlank).reverse

/-- The text without the blanks at its two ends. -/
def trim (s : List Char) : List Char :=
  trimEnd (trimStart s)

/-- The maximal runs of characters that are not blank, in order. -/
def words (s : List Char) : List (List Char) :=
  (s.splitOnP isBlank).filter (· ≠ [])

/-- The line without one carriage return at its end. -/
def dropReturn (s : List Char) : List Char :=
  if s.getLast? = some '\r' then s.dropLast else s

/--
The lines of a text. A line feed ends a line, together with one carriage return before it; what
follows the last line feed is a line of its own unless it is empty.
-/
def lines (s : List Char) : List (List Char) :=
  match (s.splitOn '\n').reverse with
  | [] => []
  | last :: ended => (ended.reverse.map dropReturn) ++ (if last = [] then [] else [last])

end Nftables.Text
