import Nftables.Priority

/-!
# Errors

What can go wrong, by cause. The wording of each cause stands in one `message` function per type,
and nowhere else.
-/

namespace Nftables

open Text (quote)

/-! ## Refused objects and words -/

/-- Why an object or a word is refused before anything is applied. -/
inductive Violation
  | unknownFamily (text : String)
  | unknownVerb (text : String)
  | unknownKind (text : String)
  | unknownChainType (text : String)
  | unknownHook (text : String)
  | unknownPolicy (text : String)
  | priority (fault : PriorityFault)
  | notImplemented (verb : Verb) (kind : Kind)
  | familyMissing (kind : Kind)
  | tableMissing (kind : Kind)
  | scopeMissing (kind : Kind)
  | nameMissing (kind : Kind)
  | handleForbidden (verb : Verb) (kind : Kind)
  | regularChain (name : String)
  | baseChain (name : String)
  | deviceHook (name : String)
  | chainPriority (fault : PriorityFault)
  | flowtablePriority (fault : PriorityFault)
  | ruleChainMissing
  | ruleBodyMissing
  | ruleHandleMissing (verb : Verb)
  | indexAndHandle
  | keyType (kind : Kind)
  | twoContainers
  | containerMissing
  | keyMissing
  | valueMissing
  | setValue
  | noElements (kind : Kind)
  | unbound
  /-- A refusal in the words of a caller. -/
  | stated (subject reason : String)
deriving DecidableEq, Repr

namespace Violation

/-- What the refusal is about. -/
def subject : Violation → String
  | unknownFamily _ => "family"
  | unknownVerb _ => "verb"
  | unknownKind _ | noElements _ => "object type"
  | unknownChainType _ | unknownHook _ => "chain"
  | regularChain _ | baseChain _ | deviceHook _ | chainPriority _ => "chain"
  | unknownPolicy _ => "set"
  | priority _ => "priority"
  | flowtablePriority _ => "flowtable"
  | notImplemented _ kind | familyMissing kind | tableMissing kind | scopeMissing kind
  | nameMissing kind | handleForbidden _ kind | keyType kind => kind.name
  | ruleChainMissing | ruleBodyMissing | ruleHandleMissing _ | indexAndHandle => "rule"
  | twoContainers | containerMissing | keyMissing | valueMissing | setValue => "element"
  | unbound => "engine"
  | stated subject _ => subject

def invalid (subject reason : String) : String := s!"invalid {subject}: {reason}"

/-- A refused priority as it stands inside the refusal of its chain or flowtable. -/
def ofPriority (fault : PriorityFault) : String := invalid "priority" fault.message

def reason : Violation → String
  | unknownFamily text => s!"unknown family {quote text}"
  | unknownVerb text => s!"unknown verb {quote text}"
  | unknownKind text => s!"unsupported object type {quote text}"
  | unknownChainType text => s!"unknown chain type {quote text}"
  | unknownHook text => s!"unknown hook {quote text}"
  | unknownPolicy text => s!"unknown policy {quote text}"
  | priority fault => fault.message
  | notImplemented verb kind => s!"{verb.name} is not implemented for {kind.name}s"
  | familyMissing _ => "no family specified"
  | tableMissing _ => "no table specified"
  | scopeMissing _ => "no family or table specified"
  | nameMissing kind => s!"no name specified for {kind.name}"
  | handleForbidden verb _ => s!"cannot specify Handle in {verb.name} operation"
  | regularChain name => s!"regular chain {quote name} must not specify Type or Priority"
  | baseChain name => s!"base chain {quote name} must specify Type and Priority"
  | deviceHook name =>
    s!"chain {quote name} may only specify Device with the ingress or egress hook"
  | chainPriority fault => s!"invalid base chain priority: {ofPriority fault}"
  | flowtablePriority fault => s!"invalid flowtable priority: {ofPriority fault}"
  | ruleChainMissing => "no chain name specified for rule"
  | ruleBodyMissing => "no rule specified"
  | ruleHandleMissing verb => s!"must specify Handle with {verb.name}"
  | indexAndHandle => "cannot specify both Index and Handle"
  | keyType kind => s!"{kind.name} must specify either Type or TypeOf"
  | twoContainers => "must specify either Set or Map, not both"
  | containerMissing => "no set/map name specified for element"
  | keyMissing => "no key specified for element"
  | valueMissing => "no map value specified for element"
  | setValue => "set element cannot have a value"
  | noElements kind => s!"{kind.name} has no elements"
  | unbound => "not bound to a table"
  | stated _ reason => reason

def message (v : Violation) : String := invalid v.subject v.reason

end Violation

/-!
## Reading the words

Each word of the command language is read by its enumeration's `ofName?`; a word that it does not
know is refused.
-/

/-- The value that was read, or the refusal. -/
def orRefuse {α : Type} (v : Violation) : Option α → Except Violation α
  | some a => .ok a
  | none => .error v

def Family.read (s : String) : Except Violation Family := orRefuse (.unknownFamily s) (ofName? s)

def Verb.read (s : String) : Except Violation Verb := orRefuse (.unknownVerb s) (ofName? s)

def Kind.read (s : String) : Except Violation Kind := orRefuse (.unknownKind s) (ofName? s)

def ChainType.read (s : String) : Except Violation ChainType :=
  orRefuse (.unknownChainType s) (ofName? s)

def Hook.read (s : String) : Except Violation Hook := orRefuse (.unknownHook s) (ofName? s)

def Policy.read (s : String) : Except Violation Policy := orRefuse (.unknownPolicy s) (ofName? s)

/-! ## Missing and clashing objects -/

/-- What a command or a query names and the ruleset does not hold. -/
inductive Missing
  | tableOf (family : Family) (name : String)
  | object (kind : Kind) (name : String)
  | setOrMap (name : String)
  | handle (kind : Kind) (number : Nat)
  | ruleHandle (number : Nat) (chain : String)
  | ruleIndex (index : Nat) (chain : String)
  /-- Something missing, in the words of a caller. -/
  | stated (text : String)
deriving DecidableEq, Repr

def Missing.message : Missing → String
  | .tableOf family name => s!"no such table \"{family.name} {name}\""
  | .object kind name => s!"no such {kind.name} {quote name}"
  | .setOrMap name => s!"no such set/map {quote name}"
  | .handle kind number => s!"no {kind.name} with handle {number}"
  | .ruleHandle number chain => s!"no rule with handle {number} in chain {quote chain}"
  | .ruleIndex index chain => s!"no rule with index {index} in chain {quote chain}"
  | .stated text => text

/-- What a `create` found in its place. -/
inductive Clash
  | object (kind : Kind) (name : String)
  /-- A clash, in the words of a caller. -/
  | stated (text : String)
deriving DecidableEq, Repr

def Clash.message : Clash → String
  | .object kind name => s!"{kind.name} {quote name} already exists"
  | .stated text => text

/-! ## Unreadable lines -/

/-- Why a line of a command file is no command. -/
inductive LineFault
  | command (line : String)
  | violation (v : Violation)
  | object (text : String)
  | element (text : String)
  | chainMissing
  | handle (text : String)
  | index (text : String)
  | duration (text : String)
  | size (text : String)
  | clause (keyword : String)
  | autoMerge
  | packets (text : String)
  | bytes (text : String)
  /-- A fault, in the words of a caller. -/
  | stated (text : String)
deriving DecidableEq, Repr

def LineFault.message : LineFault → String
  | .command line => s!"could not parse {quote line}"
  | .violation v => v.message
  | .object text => s!"could not parse object {quote text}"
  | .element text => s!"could not parse element {quote text}"
  | .chainMissing => "no chain name for rule"
  | .handle text => s!"invalid handle {quote text}"
  | .index text => s!"invalid index {quote text}"
  | .duration text => s!"invalid duration {quote text}"
  | .size text => s!"invalid size {quote text}"
  | .clause keyword => s!"unknown set/map clause {quote keyword}"
  | .autoMerge => "maps do not support auto-merge"
  | .packets text => s!"invalid packet count {quote text}"
  | .bytes text => s!"invalid byte count {quote text}"
  | .stated text => text

/-! ## All errors -/

/-- What can go wrong: a refused object or word, something missing, a clash, an unreadable line. -/
inductive Error
  | invalid (violation : Violation)
  | notFound (missing : Missing)
  | alreadyExists (clash : Clash)
  | parse (line : Nat) (fault : LineFault)
  /-- A verb that has no meaning for a kind. Checked operations never end so. -/
  | unhandled (verb kind : String)
deriving DecidableEq, Repr

namespace Error

def message : Error → String
  | .invalid violation => violation.message
  | .notFound missing => s!"not found: {missing.message}"
  | .alreadyExists clash => s!"already exists: {clash.message}"
  | .parse line fault => s!"parsing line {line}: {fault.message}"
  | .unhandled verb kind => s!"unhandled operation {quote verb} on {kind}"

def isNotFound : Error → Bool
  | .notFound _ => true
  | _ => false

def isAlreadyExists : Error → Bool
  | .alreadyExists _ => true
  | _ => false

end Error

end Nftables
