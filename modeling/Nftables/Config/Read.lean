import Nftables.Config
import Nftables.Yaml.Node

/-!
# Reading settings

The settings of an engine as a YAML mapping. Everything may be left out; keys that are not known are
passed over, and a known key may not be given twice. Where one scalar is wanted, a null stands for
nothing; where a collection is wanted, only an empty place does.
-/

namespace Nftables.Config

open Yaml

/-- The text of a scalar of any form. -/
def text? : Node → Option String
  | .scalar _ text => some (String.ofList text)
  | _ => none

/-- The value of a key that may be left out. Every key has to be a scalar. -/
def field? (key : String) (entries : List (Node × Node)) : Option (Option Node) := do
  let keys ← entries.mapM fun (k, _) => text? k
  match (keys.zip entries).filter fun (k, _) => k = key with
  | [] => some none
  | [(_, _, value)] => some (some value)
  | _ => none

/-- The plain scalars that stand for nothing. -/
def nulls : List String := ["", "~", "null", "Null", "NULL"]

/-- The node is a plain scalar that stands for nothing. -/
def isNull : Node → Bool
  | .scalar true text => nulls.contains (String.ofList text)
  | _ => false

/-- The node is a place that is left empty. -/
def isEmpty : Node → Bool
  | .scalar true text => text = []
  | _ => false

/-- Reads a value where one is given. -/
def given {α : Type} (read : Node → Option α) : Option Node → Option (Option α)
  | none => some none
  | some node => if isNull node then some none else (read node).map some

def family? (node : Node) : Option Family := (text? node).bind Family.ofName?

/-- The plain scalars that are truth values. -/
def truths : List (String × Bool) :=
  [("true", true), ("True", true), ("TRUE", true),
   ("false", false), ("False", false), ("FALSE", false)]

def bool? : Node → Option Bool
  | .scalar true text => truths.lookup (String.ofList text)
  | _ => none

/-- The entries of a mapping. -/
def entries? : Node → Option (List (Node × Node))
  | .map entries => some entries
  | node => if isEmpty node then some [] else none

def define? (node : Node) : Option Define := do
  let entries ← entries? node
  let name ← field? "name" entries
  let value ← field? "value" entries
  some { name := ← text? (← name), value := ← text? (← value) }

def defines? : Node → Option (List Define)
  | .seq items => items.mapM define?
  | node => if isEmpty node then some [] else none

def ofNode? (node : Node) : Option Config := do
  let entries ← entries? node
  let family ← given family? (← field? "family" entries)
  let table ← given text? (← field? "table" entries)
  let emulate ← match ← field? "emulate_destroy" entries with
    | none => some false
    | some node => bool? node
  let defines ← match ← field? "defines" entries with
    | none => some []
    | some node => defines? node
  some { family, table, emulateDestroy := emulate, defines }

/-- The settings that a text holds; `none` if it holds none. -/
def ofYaml? (s : String) : Option Config := (Yaml.read? s.toList).bind ofNode?

/-- What is said of a text that holds no settings. -/
def unreadable : String := "Failed to parse engine config YAML"

end Nftables.Config
