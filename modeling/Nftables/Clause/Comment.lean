import Nftables.Text.Blank
import Nftables.Text.Quoted
import Nftables.Text.Split

/-!
# Comments

A comment stands behind a rule or an element's key as ` comment "…"`, or among the clauses of a
braced body as `comment "…" ;`. The first form is found at its last possible place, so that look-
alikes in the text before it stay where they are; the second is found at its first.
-/

namespace Nftables.Clause

/-- A comment that reaches to the end of the text: its body, still escaped. -/
def readTrailingComment (s : List Char) : Option (List Char) :=
  match " comment \"".toList.isPrefixOf? s with
  | none => none
  | some inside =>
    match Text.readQuotedBody inside with
    | some (body, []) => some body
    | _ => none

/--
Cuts a text before its trailing comment, at the last place where one reads. The part before the
comment has no line feed.
-/
def cutTrailingComment? : List Char → Option (List Char × List Char)
  | [] => none
  | c :: r =>
    match if c = '\n' then none else cutTrailingComment? r with
    | some (before, body) => some (c :: before, body)
    | none => (readTrailingComment (c :: r)).map (([], ·))

/-- A text without its trailing comment, and the comment. -/
def splitComment (s : List Char) : List Char × Option (List Char) :=
  match cutTrailingComment? s with
  | some (before, body) => (before, some (Text.unescape body))
  | none => (s, none)

/-- A comment clause at the front of a text: its body, still escaped, and what follows. -/
def readCommentClause (s : List Char) : Option (List Char × List Char) := do
  let inside ← "comment \"".toList.isPrefixOf? s
  let (body, after) ← Text.readQuotedBody inside
  let rest ← " ;".toList.isPrefixOf? after
  pure (body, rest)

/-- A braced body without its first comment clause, and the comment. -/
def takeComment (s : List Char) : List Char × Option (List Char) :=
  match Text.findFirst? readCommentClause s with
  | some (before, body, after) => (Text.trim (before ++ after), some (Text.unescape body))
  | none => (s, none)

end Nftables.Clause
