import Nftables.Vocabulary

/-!
# Objects

The objects that a command can be about. Every object has a scope, the family and the table it
lives in, which a caller may leave open; for a table the scope is the table itself. A handle is
the number by which a committed object is known.
-/

namespace Nftables

/-- The family and the table of an object, as far as they are given. -/
structure Scope where
  family : Option Family := none
  table : Option String := none
deriving DecidableEq, Repr, Inhabited

/-- What one scope leaves open, the other fills in. -/
def Scope.orElse (s defaults : Scope) : Scope where
  family := s.family.or defaults.family
  table := s.table.or defaults.table

/-- A span of time. Commands are written in whole seconds. -/
structure Duration where
  secs : Nat
  /-- What is left beside the whole seconds. -/
  nanos : Nat := 0
deriving DecidableEq, Repr, Inhabited

/-- The span of some seconds and nanoseconds together. -/
def Duration.ofParts (secs nanos : Nat) : Duration where
  secs := secs + nanos / 1000000000
  nanos := nanos % 1000000000

/-- A table. Its name is the table of its scope. -/
structure Table where
  scope : Scope := {}
  comment : Option String := none
  handle : Option Nat := none
deriving DecidableEq, Repr, Inhabited

/-- A chain. A base chain has a type, a hook and a priority; a regular chain has none of them. -/
structure Chain where
  scope : Scope := {}
  name : String := ""
  chainType : Option ChainType := none
  hook : Option Hook := none
  priority : Option String := none
  device : Option String := none
  comment : Option String := none
  handle : Option Nat := none
deriving DecidableEq, Repr, Inhabited

/-- A base chain is attached to a hook. -/
def Chain.isBase (c : Chain) : Bool := c.hook.isSome

/--
A rule of a chain. In a command, `index` or `handle` names the rule of the chain that it is
placed at; in the ruleset, `handle` is the rule's own.
-/
structure Rule where
  scope : Scope := {}
  chain : String := ""
  body : String := ""
  comment : Option String := none
  index : Option Nat := none
  handle : Option Nat := none
deriving DecidableEq, Repr, Inhabited

/-- What sets and maps declare about their elements. Exactly one of the two key types is given. -/
structure KeySpec where
  keyType : Option String := none
  typeOf : Option String := none
  flags : List String := []
  timeout : Option Duration := none
  gcInterval : Option Duration := none
  size : Option Nat := none
  policy : Option Policy := none
  comment : Option String := none
deriving DecidableEq, Repr, Inhabited

/-- A named set: a container of keys. -/
structure NamedSet where
  scope : Scope := {}
  name : String := ""
  spec : KeySpec := {}
  autoMerge : Option Bool := none
  handle : Option Nat := none
deriving DecidableEq, Repr, Inhabited

/-- A named map: a container of keys with values. -/
structure NamedMap where
  scope : Scope := {}
  name : String := ""
  spec : KeySpec := {}
  handle : Option Nat := none
deriving DecidableEq, Repr, Inhabited

/--
An element of a set or map. Its key, and in a map its value, is a concatenation of parts. Exactly
one of `set` and `map` names the container.
-/
structure Element where
  scope : Scope := {}
  set : Option String := none
  map : Option String := none
  key : List String := []
  value : List String := []
  comment : Option String := none
deriving DecidableEq, Repr, Inhabited

/-- The name of the container, empty if none is given. -/
def Element.container (e : Element) : String := (e.set.or e.map).getD ""

/-- A flowtable: the devices of a fast path, and its priority at the ingress hook. -/
structure Flowtable where
  scope : Scope := {}
  name : String := ""
  priority : Option String := none
  devices : List String := []
  handle : Option Nat := none
deriving DecidableEq, Repr, Inhabited

structure Counter where
  scope : Scope := {}
  name : String := ""
  comment : Option String := none
  packets : Option Nat := none
  bytes : Option Nat := none
  handle : Option Nat := none
deriving DecidableEq, Repr, Inhabited

/-- An object of any kind. -/
inductive Object
  | table (t : Table)
  | chain (c : Chain)
  | rule (r : Rule)
  | set (s : NamedSet)
  | map (m : NamedMap)
  | element (e : Element)
  | flowtable (f : Flowtable)
  | counter (c : Counter)
deriving DecidableEq, Repr, Inhabited

namespace Object

def kind : Object → Kind
  | .table _ => .table
  | .chain _ => .chain
  | .rule _ => .rule
  | .set _ => .set
  | .map _ => .map
  | .element _ => .element
  | .flowtable _ => .flowtable
  | .counter _ => .counter

def scope : Object → Scope
  | .table t => t.scope
  | .chain c => c.scope
  | .rule r => r.scope
  | .set s => s.scope
  | .map m => m.scope
  | .element e => e.scope
  | .flowtable f => f.scope
  | .counter c => c.scope

def withScope (s : Scope) : Object → Object
  | .table t => .table { t with scope := s }
  | .chain c => .chain { c with scope := s }
  | .rule r => .rule { r with scope := s }
  | .set x => .set { x with scope := s }
  | .map m => .map { m with scope := s }
  | .element e => .element { e with scope := s }
  | .flowtable f => .flowtable { f with scope := s }
  | .counter c => .counter { c with scope := s }

/-- The object with the parts of its scope that are open filled in. -/
def applyDefaults (o : Object) (defaults : Scope) : Object :=
  o.withScope (o.scope.orElse defaults)

@[simp] theorem scope_withScope (o : Object) (s : Scope) : (o.withScope s).scope = s := by
  cases o <;> rfl

@[simp] theorem kind_withScope (o : Object) (s : Scope) : (o.withScope s).kind = o.kind := by
  cases o <;> rfl

@[simp] theorem withScope_scope (o : Object) : o.withScope o.scope = o := by
  cases o <;> rfl

/-- The handle by which the object is known or named. Elements have none. -/
def handle : Object → Option Nat
  | .table t => t.handle
  | .chain c => c.handle
  | .rule r => r.handle
  | .set s => s.handle
  | .map m => m.handle
  | .element _ => none
  | .flowtable f => f.handle
  | .counter c => c.handle

/-- The object as it is before any handle or position is given to it. -/
def eraseHandle : Object → Object
  | .table t => .table { t with handle := none }
  | .chain c => .chain { c with handle := none }
  | .rule r => .rule { r with index := none, handle := none }
  | .set s => .set { s with handle := none }
  | .map m => .map { m with handle := none }
  | .element e => .element e
  | .flowtable f => .flowtable { f with handle := none }
  | .counter c => .counter { c with handle := none }

end Object

end Nftables
