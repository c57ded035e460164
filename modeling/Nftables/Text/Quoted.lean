import Nftables.Text.Hidden

/-!
# Quoted text

A text in double quotes, as comments and device names are written in commands and as names are
written in messages. `quote` writes it, `readQuotedBody` finds where one ends, and `unescape`
reads its body back. Reading knows fewer escapes than writing has: it takes a backslash off any
character but `n`, `r` and `t`, so a hidden character does not come back.
-/

namespace Nftables.Text

/-- One character of a quoted text's body. -/
def escape (c : Char) : List Char :=
  if c = '\x00' then ['\\', '0']
  else if c = '\t' then ['\\', 't']
  else if c = '\n' then ['\\', 'n']
  else if c = '\r' then ['\\', 'r']
  else if c = '"' ∨ c = '\\' then ['\\', c]
  else if isHidden c then ['\\', 'u', '\x7b'] ++ Nat.toDigits 16 c.toNat ++ ['\x7d']
  else [c]

/-- The inside of the quotes. -/
def quoteBody (s : List Char) : List Char :=
  s.flatMap escape

/-- The text in double quotes. -/
def quote (s : String) : String :=
  String.ofList ('"' :: quoteBody s.toList ++ ['"'])

/-- The character that a backslash before `c` stands for. -/
def unescapeChar (c : Char) : Char :=
  if c = 'n' then '\n' else if c = 't' then '\t' else if c = 'r' then '\r' else c

/-- Takes the escapes out of a quoted text's body. A backslash at the very end stays. -/
def unescape : List Char → List Char
  | [] => []
  | [c] => [c]
  | c :: d :: r => if c = '\\' then unescapeChar d :: unescape r else c :: unescape (d :: r)

/--
Reads the rest of a quoted text after its opening quote: the body, still escaped, and what follows
the closing quote. The first quote that no backslash precedes closes it. `none` when there is no
such quote, or when a backslash stands before a line feed.
-/
def readQuotedBody : List Char → Option (List Char × List Char)
  | [] => none
  | [c] => if c = '"' then some ([], []) else none
  | c :: d :: r =>
    if c = '"' then some ([], d :: r)
    else if c = '\\' then
      if d = '\n' then none else (readQuotedBody r).map fun (body, rest) => (c :: d :: body, rest)
    else (readQuotedBody (d :: r)).map fun (body, rest) => (c :: body, rest)

end Nftables.Text
