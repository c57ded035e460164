/-!
# The words of the command language

Families, verbs, kinds of object, chain types, hooks and policies. Each is an enumeration with a
`name`, the word that stands for it in a command, and an `ofName?` that reads the word back.
-/

namespace Nftables

/-! ## Families -/

/-- The protocol family of a table. -/
inductive Family
  | ip
  | ip6
  | inet
  | arp
  | bridge
  | netdev
deriving DecidableEq, Repr

namespace Family

def name : Family → String
  | .ip => "ip"
  | .ip6 => "ip6"
  | .inet => "inet"
  | .arp => "arp"
  | .bridge => "bridge"
  | .netdev => "netdev"

def all : List Family := [.ip, .ip6, .inet, .arp, .bridge, .netdev]

def ofName? (s : String) : Option Family := all.find? (·.name = s)

theorem ofName?_name (f : Family) : ofName? f.name = some f := by cases f <;> rfl

theorem name_injective {f g : Family} (h : f.name = g.name) : f = g := by
  simpa [ofName?_name] using congrArg ofName? h

end Family

/-! ## Verbs -/

/-- What a command does to its object. -/
inductive Verb
  | add
  | create
  | insert
  | replace
  | delete
  | destroy
  | flush
  | reset
deriving DecidableEq, Repr

namespace Verb

def name : Verb → String
  | .add => "add"
  | .create => "create"
  | .insert => "insert"
  | .replace => "replace"
  | .delete => "delete"
  | .destroy => "destroy"
  | .flush => "flush"
  | .reset => "reset"

def all : List Verb := [.add, .create, .insert, .replace, .delete, .destroy, .flush, .reset]

def ofName? (s : String) : Option Verb := all.find? (·.name = s)

theorem ofName?_name (v : Verb) : ofName? v.name = some v := by cases v <;> rfl

/-- The verbs that take a new handle whenever they are applied. -/
def allocates : Verb → Bool
  | .add | .create | .insert => true
  | _ => false

end Verb

/-! ## Kinds of object -/

inductive Kind
  | table
  | chain
  | rule
  | set
  | map
  | element
  | flowtable
  | counter
deriving DecidableEq, Repr

namespace Kind

def name : Kind → String
  | .table => "table"
  | .chain => "chain"
  | .rule => "rule"
  | .set => "set"
  | .map => "map"
  | .element => "element"
  | .flowtable => "flowtable"
  | .counter => "counter"

def all : List Kind := [.table, .chain, .rule, .set, .map, .element, .flowtable, .counter]

/-- The word without one plural ending. -/
def singular (s : String) : String :=
  match s.toList.reverse with
  | 's' :: r => String.ofList r.reverse
  | _ => s

/-- A kind is read in the singular and in the plural. -/
def ofName? (s : String) : Option Kind := all.find? (·.name = singular s)

theorem ofName?_name (k : Kind) : ofName? k.name = some k := by cases k <;> decide +kernel

theorem name_injective {k l : Kind} (h : k.name = l.name) : k = l := by
  simpa [ofName?_name] using congrArg ofName? h

theorem ofName?_plural (k : Kind) : ofName? (k.name ++ "s") = some k := by
  cases k <;> decide +kernel

end Kind

/-! ## Chain types and hooks -/

/-- What a base chain is for. -/
inductive ChainType
  | filter
  | nat
  | route
deriving DecidableEq, Repr

namespace ChainType

def name : ChainType → String
  | .filter => "filter"
  | .nat => "nat"
  | .route => "route"

def all : List ChainType := [.filter, .nat, .route]

def ofName? (s : String) : Option ChainType := all.find? (·.name = s)

theorem ofName?_name (t : ChainType) : ofName? t.name = some t := by cases t <;> rfl

end ChainType

/-- The place in the packet path that a base chain is attached to. -/
inductive Hook
  | prerouting
  | input
  | forward
  | output
  | postrouting
  | ingress
  | egress
deriving DecidableEq, Repr

namespace Hook

def name : Hook → String
  | .prerouting => "prerouting"
  | .input => "input"
  | .forward => "forward"
  | .output => "output"
  | .postrouting => "postrouting"
  | .ingress => "ingress"
  | .egress => "egress"

def all : List Hook := [.prerouting, .input, .forward, .output, .postrouting, .ingress, .egress]

def ofName? (s : String) : Option Hook := all.find? (·.name = s)

theorem ofName?_name (h : Hook) : ofName? h.name = some h := by cases h <;> rfl

/-- The hooks that belong to a network device. -/
def takesDevice : Hook → Bool
  | .ingress | .egress => true
  | _ => false

end Hook

/-! ## Policies -/

/-- What a set or map is tuned for. -/
inductive Policy
  | performance
  | memory
deriving DecidableEq, Repr

namespace Policy

def name : Policy → String
  | .performance => "performance"
  | .memory => "memory"

def all : List Policy := [.performance, .memory]

def ofName? (s : String) : Option Policy := all.find? (·.name = s)

theorem ofName?_name (p : Policy) : ofName? p.name = some p := by cases p <;> rfl

end Policy

end Nftables
