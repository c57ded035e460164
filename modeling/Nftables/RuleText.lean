import Nftables.Address
import Nftables.Vocabulary

/-!
# Rule bodies from values

A rule's body is put together from words, lists of words, numbers, vocabulary and addresses, with
one space between the words. An empty list leaves no space behind.
-/

namespace Nftables

/-- A value that becomes words of a rule's body. -/
inductive RuleArg
  | text (s : String)
  | list (words : List String)
  | integer (i : Int)
  | family (f : Family)
  | chainType (t : ChainType)
  | hook (h : Hook)
  | address (a : Address)
  | network (n : Network)
deriving DecidableEq, Repr

def RuleArg.words : RuleArg → List String
  | .text s => [s]
  | .list words => words
  | .integer i => [toString i]
  | .family f => [f.name]
  | .chainType t => [t.name]
  | .hook h => [h.name]
  | .address a => [a.text]
  | .network n => [n.text]

/-- The body that the values make together. -/
def ruleText (args : List RuleArg) : String := " ".intercalate (args.flatMap RuleArg.words)

end Nftables
