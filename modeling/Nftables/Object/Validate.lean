import Nftables.Object
import Nftables.Error

/-!
# Well-formed objects

Whether an object is fit for a verb, before anything is applied. The checks of a kind run in a
fixed order, so of two faults the first is reported: the scope, then the rules of the kind itself,
then what the verb asks for.
-/

namespace Nftables

/-- Refuses with `v` under the condition `p`. -/
def refuseIf (p : Prop) [Decidable p] (v : Violation) : Except Violation Unit :=
  if p then .error v else .ok ()

/-! ## Checks shared by the kinds -/

def requireScope (kind : Kind) (s : Scope) : Except Violation Unit := do
  refuseIf (s.family = none) (.familyMissing kind)
  refuseIf (s.table.getD "" = "") (.tableMissing kind)

def requireName (kind : Kind) (name : String) : Except Violation Unit :=
  refuseIf (name = "") (.nameMissing kind)

def forbidHandle (verb : Verb) (kind : Kind) (handle : Option Nat) : Except Violation Unit :=
  refuseIf (handle ≠ none) (.handleForbidden verb kind)

/-- A verb that addresses its object by name alone. -/
def requireOnlyName (verb : Verb) (kind : Kind) (name : String) (handle : Option Nat) :
    Except Violation Unit := do
  requireName kind name
  forbidHandle verb kind handle

/-- A `delete` addresses its object by handle or by name. -/
def requireNameOrHandle (kind : Kind) (name : String) (handle : Option Nat) :
    Except Violation Unit :=
  if handle = none then requireName kind name else .ok ()

/-- A priority, where it and the family are given, has to be one of the family's. -/
def requirePriority (fault : PriorityFault → Violation) (family : Option Family)
    (priority : Option String) : Except Violation Unit :=
  match family, priority with
  | some f, some p => ((Priority.read f p.toList).mapError fault).map fun _ => ()
  | _, _ => .ok ()

/-! ## The kinds -/

def Table.validate (verb : Verb) (t : Table) : Except Violation Unit :=
  match verb with
  | .add | .create | .flush | .destroy => forbidHandle verb .table t.handle
  | .delete => .ok ()
  | _ => .error (.notImplemented verb .table)

def Chain.validate (verb : Verb) (c : Chain) : Except Violation Unit := do
  refuseIf (c.hook = none ∧ (c.chainType ≠ none ∨ c.priority ≠ none)) (.regularChain c.name)
  refuseIf (c.hook ≠ none ∧ (c.chainType = none ∨ c.priority = none)) (.baseChain c.name)
  refuseIf (c.device ≠ none ∧ ¬ c.hook.any Hook.takesDevice) (.deviceHook c.name)
  requirePriority .chainPriority c.scope.family c.priority
  match verb with
  | .add | .create | .flush | .destroy => requireOnlyName verb .chain c.name c.handle
  | .delete => requireNameOrHandle .chain c.name c.handle
  | _ => .error (.notImplemented verb .chain)

def Rule.requireBody (r : Rule) : Except Violation Unit :=
  refuseIf (r.body = "") .ruleBodyMissing

def Rule.requireHandle (verb : Verb) (r : Rule) : Except Violation Unit :=
  refuseIf (r.handle = none) (.ruleHandleMissing verb)

def Rule.validate (verb : Verb) (r : Rule) : Except Violation Unit := do
  refuseIf (r.chain = "") .ruleChainMissing
  refuseIf (r.index ≠ none ∧ r.handle ≠ none) .indexAndHandle
  match verb with
  | .add | .insert => r.requireBody
  | .replace => do
    r.requireBody
    r.requireHandle verb
  | .delete => r.requireHandle verb
  | _ => .error (.notImplemented verb .rule)

/-- The check that sets and maps share. -/
def KeySpec.validate (verb : Verb) (kind : Kind) (name : String) (handle : Option Nat)
    (spec : KeySpec) : Except Violation Unit :=
  match verb with
  | .add | .create | .destroy => do
    requireName kind name
    refuseIf (spec.keyType.isSome = spec.typeOf.isSome) (.keyType kind)
    forbidHandle verb kind handle
  | .flush => requireOnlyName verb kind name handle
  | .delete => requireNameOrHandle kind name handle
  | _ => .error (.notImplemented verb kind)

def NamedSet.validate (verb : Verb) (s : NamedSet) : Except Violation Unit :=
  s.spec.validate verb .set s.name s.handle

def NamedMap.validate (verb : Verb) (m : NamedMap) : Except Violation Unit :=
  m.spec.validate verb .map m.name m.handle

def Element.validate (verb : Verb) (e : Element) : Except Violation Unit := do
  refuseIf (e.set ≠ none ∧ e.map ≠ none) .twoContainers
  refuseIf (e.container = "") .containerMissing
  refuseIf (e.key = []) .keyMissing
  match verb with
  | .add | .create | .destroy => do
    refuseIf (e.map ≠ none ∧ e.value = []) .valueMissing
    refuseIf (e.set ≠ none ∧ e.value ≠ []) .setValue
  | .delete => .ok ()
  | _ => .error (.notImplemented verb .element)

def Flowtable.validate (verb : Verb) (f : Flowtable) : Except Violation Unit := do
  requirePriority .flowtablePriority f.scope.family f.priority
  match verb with
  | .add | .create | .destroy => requireOnlyName verb .flowtable f.name f.handle
  | .delete => requireNameOrHandle .flowtable f.name f.handle
  | _ => .error (.notImplemented verb .flowtable)

def Counter.validate (verb : Verb) (c : Counter) : Except Violation Unit :=
  match verb with
  | .add | .create | .destroy | .reset => requireOnlyName verb .counter c.name c.handle
  | .delete => requireNameOrHandle .counter c.name c.handle
  | _ => .error (.notImplemented verb .counter)

/-! ## All objects -/

namespace Object

/-- The scope that a verb needs: a table that is deleted by its handle needs no name. -/
def requireScope (verb : Verb) (o : Object) : Except Violation Unit :=
  match verb, o with
  | .delete, .table ⟨s, _, some _⟩ => refuseIf (s.family = none) (.familyMissing .table)
  | _, _ => Nftables.requireScope o.kind o.scope

/-- The rules of the object's kind. -/
def validateKind (verb : Verb) : Object → Except Violation Unit
  | .table t => t.validate verb
  | .chain c => c.validate verb
  | .rule r => r.validate verb
  | .set s => s.validate verb
  | .map m => m.validate verb
  | .element e => e.validate verb
  | .flowtable f => f.validate verb
  | .counter c => c.validate verb

/-- Accepts the object for the verb, or says what is wrong with it first. -/
def validate (verb : Verb) (o : Object) : Except Violation Unit := do
  o.requireScope verb
  o.validateKind verb

end Object

end Nftables
