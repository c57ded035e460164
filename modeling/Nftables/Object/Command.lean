import Nftables.Object
import Nftables.Text.Quoted

/-!
# Commands as text

How a verb on an object is written: one line, ended by a line feed. `add` and `create` write the
whole object, the other verbs only what names it; a `delete` of an object with a handle names it
by the handle.
-/

namespace Nftables

open Text (quote)

/-! ## Pieces of a line -/

/-- A family as it is written; nothing for an open one. -/
def familyText (f : Option Family) : String := (f.map Family.name).getD ""

/-- The scope of a command: family and table. -/
def Scope.text (s : Scope) : String := familyText s.family ++ " " ++ s.table.getD ""

/-- The parts of a concatenated key or value, with dots between them. -/
def joinParts (parts : List String) : String := " . ".intercalate parts

/-- Clauses in braces, each ended by a semicolon. -/
def braced (clauses : List String) : String :=
  " \x7b" ++ String.join (clauses.map (" " ++ · ++ " ;")) ++ " \x7d"

/-- A clause for a value that may be absent. -/
def clause? (keyword : String) (value : Option String) : List String :=
  (value.map (keyword ++ " " ++ ·)).toList

def commentClause (comment : Option String) : List String :=
  clause? "comment" (comment.map quote)

/-- A verb that writes the whole object. -/
def Verb.writesBody : Verb → Bool
  | .add | .create => true
  | _ => false

/--
The line of a named object: `VERB KIND SCOPE NAME` with its body, or for a `delete` with a handle
`delete KIND SCOPE handle N`.
-/
def namedLine (verb : Verb) (kind : Kind) (scope : String) (name : String) (handle : Option Nat)
    (body : String) : String :=
  match verb, handle with
  | .delete, some h => s!"delete {kind.name} {scope} handle {h}\n"
  | _, _ =>
    s!"{verb.name} {kind.name} {scope} {name}" ++ (if verb.writesBody then body else "") ++ "\n"

/-! ## The kinds -/

/-- A table is named by its scope, so its line has the family where others have the scope. -/
def Table.body (t : Table) : String :=
  if t.comment = none then "" else braced (commentClause t.comment)

def Table.command (verb : Verb) (t : Table) : String :=
  namedLine verb .table (familyText t.scope.family) (t.scope.table.getD "") t.handle t.body

/-- The clause that attaches a base chain. It is written only with all of its parts. -/
def Chain.hookClause (c : Chain) : List String :=
  match c.chainType, c.hook, c.priority with
  | some chainType, some hook, some priority =>
    let device := ((c.device.map fun d => s!" device {quote d}").getD "")
    [s!"type {chainType.name} hook {hook.name}{device} priority {priority}"]
  | _, _, _ => []

def Chain.body (c : Chain) : String :=
  if c.hook = none ∧ c.comment = none then "" else braced (c.hookClause ++ commentClause c.comment)

def Chain.command (verb : Verb) (c : Chain) : String :=
  namedLine verb .chain c.scope.text c.name c.handle c.body

/-- Where a rule goes, or which rule is meant. -/
def Rule.position (r : Rule) : String :=
  match r.index, r.handle with
  | some i, _ => s!" index {i}"
  | none, some h => s!" handle {h}"
  | none, none => ""

/-- The rule's body with its comment behind it. -/
def Rule.text (r : Rule) : String :=
  r.body ++ ((r.comment.map fun c => s!" comment {quote c}").getD "")

def Rule.command (verb : Verb) (r : Rule) : String :=
  let text := match verb with
    | .add | .insert | .replace => " " ++ r.text
    | _ => ""
  s!"{verb.name} rule {r.scope.text} {r.chain}" ++ r.position ++ text ++ "\n"

/-- The clauses that sets and maps share, up to `auto-merge`. -/
def KeySpec.clauses (spec : KeySpec) : List String :=
  (match spec.keyType with
    | some t => [s!"type {t}"]
    | none => clause? "typeof" spec.typeOf) ++
  (if spec.flags = [] then [] else ["flags " ++ ",".intercalate spec.flags]) ++
  clause? "timeout" (spec.timeout.map fun d => s!"{d.secs}s") ++
  clause? "gc-interval" (spec.gcInterval.map fun d => s!"{d.secs}s") ++
  clause? "size" (spec.size.map toString) ++
  clause? "policy" (spec.policy.map Policy.name)

def NamedSet.body (s : NamedSet) : String :=
  braced (s.spec.clauses ++ (if s.autoMerge = some true then ["auto-merge"] else []) ++
    commentClause s.spec.comment)

def NamedSet.command (verb : Verb) (s : NamedSet) : String :=
  namedLine verb .set s.scope.text s.name s.handle s.body

def NamedMap.body (m : NamedMap) : String :=
  braced (m.spec.clauses ++ commentClause m.spec.comment)

def NamedMap.command (verb : Verb) (m : NamedMap) : String :=
  namedLine verb .map m.scope.text m.name m.handle m.body

/-- The comment and the value of an element, which follow its key. -/
def Element.tail (e : Element) : String :=
  ((e.comment.map fun c => s!" comment {quote c}").getD "") ++
  (if e.value = [] then "" else " : " ++ joinParts e.value)

def Element.command (verb : Verb) (e : Element) : String :=
  s!"{verb.name} element {e.scope.text} {e.container} \x7b {joinParts e.key}" ++
    (if verb.writesBody then e.tail else "") ++ " \x7d\n"

def Flowtable.clauses (f : Flowtable) : List String :=
  clause? "hook ingress priority" f.priority ++
  (if f.devices = [] then [] else ["devices = \x7b " ++ ", ".intercalate f.devices ++ " \x7d"])

def Flowtable.command (verb : Verb) (f : Flowtable) : String :=
  namedLine verb .flowtable f.scope.text f.name f.handle (braced f.clauses)

/-- The counts. One that is absent beside the other is zero. -/
def Counter.countClause (c : Counter) : List String :=
  if c.packets = none ∧ c.bytes = none then []
  else [s!"packets {c.packets.getD 0} bytes {c.bytes.getD 0}"]

def Counter.body (c : Counter) : String :=
  match c.countClause ++ commentClause c.comment with
  | [] => ""
  | clauses => braced clauses

def Counter.command (verb : Verb) (c : Counter) : String :=
  namedLine verb .counter c.scope.text c.name c.handle c.body

/-- The command for `verb` on the object, ended by a line feed. -/
def Object.command (verb : Verb) : Object → String
  | .table t => t.command verb
  | .chain c => c.command verb
  | .rule r => r.command verb
  | .set s => s.command verb
  | .map m => m.command verb
  | .element e => e.command verb
  | .flowtable f => f.command verb
  | .counter c => c.command verb

end Nftables
