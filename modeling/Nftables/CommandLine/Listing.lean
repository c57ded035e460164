import Nftables.Object
import Nftables.Text.Quoted

/-!
# Listings

Names and rules as lines of text, or as an indented JSON array.
-/

namespace Nftables.CommandLine

/-! ## JSON -/

/-- The values that a listing consists of. -/
inductive Json
  | null
  | number (n : Nat)
  | text (s : String)
  | array (items : List Json)
  | record (fields : List (String × Json))

namespace Json

/-- Four lower-case hexadecimal digits. -/
def hex4 (n : Nat) : List Char :=
  let digits := Nat.toDigits 16 n
  List.replicate (4 - digits.length) '0' ++ digits

/-- A character inside a JSON string. Only quotes, backslashes and controls are escaped. -/
def escape (c : Char) : List Char :=
  if c = '"' ∨ c = '\\' then ['\\', c]
  else if c = '\n' then ['\\', 'n']
  else if c = '\r' then ['\\', 'r']
  else if c = '\t' then ['\\', 't']
  else if c = '\x08' then ['\\', 'b']
  else if c = '\x0c' then ['\\', 'f']
  else if c.toNat < 0x20 then ['\\', 'u'] ++ hex4 c.toNat
  else [c]

def string (s : String) : String := String.ofList ('"' :: s.toList.flatMap escape ++ ['"'])

/-- The text between two brackets, one part a line, one step further in than the brackets. -/
def bracketed (indent : Nat) (opening closing : String) (parts : List String) : String :=
  let line := "\n" ++ String.ofList (List.replicate (2 * (indent + 1)) ' ')
  let last := "\n" ++ String.ofList (List.replicate (2 * indent) ' ')
  if parts = [] then opening ++ closing
  else opening ++ ",".intercalate (parts.map (line ++ ·)) ++ last ++ closing

mutual

/-- The value as text. `indent` counts the collections around it. -/
def render (indent : Nat) : Json → String
  | .null => "null"
  | .number n => toString n
  | .text s => string s
  | .array items => bracketed indent "[" "]" (renderItems indent items)
  | .record fields => bracketed indent "\x7b" "\x7d" (renderFields indent fields)

def renderItems (indent : Nat) : List Json → List String
  | [] => []
  | v :: rest => render (indent + 1) v :: renderItems indent rest

def renderFields (indent : Nat) : List (String × Json) → List String
  | [] => []
  | (key, v) :: rest => (string key ++ ": " ++ render (indent + 1) v) :: renderFields indent rest

end

def ofText? : Option String → Json
  | some s => .text s
  | none => .null

def ofNumber? : Option Nat → Json
  | some n => .number n
  | none => .null

/-- A rule with all of its fields. -/
def ofRule (r : Rule) : Json :=
  .record
    [("family", ofText? (r.scope.family.map Family.name)),
     ("table", ofText? r.scope.table),
     ("chain", .text r.chain),
     ("rule", .text r.body),
     ("comment", ofText? r.comment),
     ("index", ofNumber? r.index),
     ("handle", ofNumber? r.handle)]

end Json

/-! ## Lines -/

/-- One name a line. -/
def nameLines (names : List String) : String := String.join (names.map (· ++ "\n"))

/-- The text with spaces before it up to a width. -/
def padLeft (width : Nat) (s : String) : String :=
  String.ofList (List.replicate (width - s.length) ' ') ++ s

/-- A rule with its handle in front and its comment behind. -/
def ruleLine (r : Rule) : String :=
  let comment := (r.comment.map fun c => s!" comment {Text.quote c}").getD ""
  padLeft 6 ((r.handle.map toString).getD "") ++ "  " ++ r.body ++ comment ++ "\n"

def listNames (json : Bool) (names : List String) : String :=
  if json then (Json.array (names.map .text)).render 0 ++ "\n" else nameLines names

def listRules (json : Bool) (rules : List Rule) : String :=
  if json then (Json.array (rules.map .ofRule)).render 0 ++ "\n"
  else String.join (rules.map ruleLine)

end Nftables.CommandLine
