import Nftables.Yaml.Token

/-!
# Nodes of a settings file

The tree that the tokens make. Where a node is left out, an empty plain scalar stands for it.
-/

namespace Nftables.Yaml

inductive Node
  | scalar (plain : Bool) (text : List Char)
  | seq (items : List Node)
  | map (entries : List (Node × Node))

/-- A node that is left out. -/
def Node.absent : Node := .scalar true []

/-- A way in which a node may stand in a document. -/
inductive Place
  /-- In a flow collection. -/
  | flow
  /-- In a block sequence, or as the root of a document. -/
  | block
  /-- As the key or the value of a block mapping, where a sequence may begin in the same column. -/
  | entry
deriving DecidableEq, Repr

/-- One of these tokens comes next. -/
def comesNext (ends : List Token) (tokens : List Token) : Bool :=
  tokens.head?.any (ends.contains ·)

mutual

def readNode : (fuel : Nat) → Place → List Token → Option (Node × List Token)
  | 0, _, _ => none
  | _, _, [] => none
  | fuel + 1, place, t :: rest =>
    match t with
    | .scalar plain text => some (.scalar plain text, rest)
    | .flowSequence => do
      let (items, rest) ← readItems fuel rest
      some (.seq items, rest)
    | .flowMapping => do
      let (entries, rest) ← readPairs fuel rest
      some (.map entries, rest)
    | .blockSequence =>
      if place = .flow then none
      else do
        let (items, rest) ← readDashes fuel rest
        match rest with
        | .blockEnd :: rest => some (.seq items, rest)
        | _ => none
    | .blockMapping =>
      if place = .flow then none
      else do
        let (entries, rest) ← readEntries fuel rest
        some (.map entries, rest)
    | .blockEntry =>
      if place = .entry then do
        let (items, rest) ← readDashes fuel (t :: rest)
        some (.seq items, rest)
      else none
    | _ => none

/-- A node, which is left out if one of `ends` comes next. -/
def readOptional : (fuel : Nat) → Place → (ends : List Token) → List Token →
    Option (Node × List Token)
  | 0, _, _, _ => none
  | fuel + 1, place, ends, tokens =>
    if comesNext ends tokens then some (.absent, tokens) else readNode fuel place tokens

/-- A value behind its token, which may be left out too. -/
def readValue : (fuel : Nat) → Place → (ends : List Token) → List Token →
    Option (Node × List Token)
  | 0, _, _, _ => none
  | fuel + 1, place, ends, .value :: rest => readOptional fuel place ends rest
  | _, _, _, tokens => some (.absent, tokens)

/-- The items behind dashes. -/
def readDashes : (fuel : Nat) → List Token → Option (List Node × List Token)
  | 0, _ => none
  | fuel + 1, .blockEntry :: rest => do
    let (item, rest) ← readOptional fuel .block [.blockEntry, .key, .value, .blockEnd] rest
    let (items, rest) ← readDashes fuel rest
    some (item :: items, rest)
  | _, tokens => some ([], tokens)

/-- The entries of a block mapping up to its end. -/
def readEntries : (fuel : Nat) → List Token → Option (List (Node × Node) × List Token)
  | fuel + 1, .key :: rest => do
    let ends : List Token := [.key, .value, .blockEnd]
    let (key, rest) ← readOptional fuel .entry ends rest
    let (value, rest) ← readValue fuel .entry ends rest
    let (entries, rest) ← readEntries fuel rest
    some ((key, value) :: entries, rest)
  | _, .blockEnd :: rest => some ([], rest)
  | _, _ => none

/-- An item of a flow sequence. A key makes it a mapping of one entry. -/
def readItem : (fuel : Nat) → List Token → Option (Node × List Token)
  | 0, _ => none
  | fuel + 1, .key :: rest => do
    let ends : List Token := [.flowEntry, .flowSequenceEnd]
    let (key, rest) ← match comesNext (.value :: ends) rest with
      -- what follows a key that is left out goes with it
      | true => some (Node.absent, rest.tail)
      | false => readNode fuel .flow rest
    let (value, rest) ← readValue fuel .flow ends rest
    some (.map [(key, value)], rest)
  | fuel + 1, tokens => readNode fuel .flow tokens

/-- The items of a flow sequence up to its end. A comma may follow the last. -/
def readItems : (fuel : Nat) → List Token → Option (List Node × List Token)
  | 0, _ => none
  | _, .flowSequenceEnd :: rest => some ([], rest)
  | fuel + 1, tokens => do
    let (item, rest) ← readItem fuel tokens
    match rest with
    | .flowSequenceEnd :: rest => some ([item], rest)
    | .flowEntry :: rest => do
      let (items, rest) ← readItems fuel rest
      some (item :: items, rest)
    | _ => none

/-- An entry of a flow mapping. Without a key's token there is no value. -/
def readPair : (fuel : Nat) → List Token → Option ((Node × Node) × List Token)
  | 0, _ => none
  | fuel + 1, .key :: rest => do
    let ends : List Token := [.flowEntry, .flowMappingEnd]
    let (key, rest) ← readOptional fuel .flow (.value :: ends) rest
    let (value, rest) ← readValue fuel .flow ends rest
    some ((key, value), rest)
  | fuel + 1, tokens => do
    let (key, rest) ← readNode fuel .flow tokens
    some ((key, .absent), rest)

/-- The entries of a flow mapping up to its end. A comma may follow the last. -/
def readPairs : (fuel : Nat) → List Token → Option (List (Node × Node) × List Token)
  | 0, _ => none
  | _, .flowMappingEnd :: rest => some ([], rest)
  | fuel + 1, tokens => do
    let (entry, rest) ← readPair fuel tokens
    match rest with
    | .flowMappingEnd :: rest => some ([entry], rest)
    | .flowEntry :: rest => do
      let (entries, rest) ← readPairs fuel rest
      some (entry :: entries, rest)
    | _ => none

end

/-! ## Documents -/

/-- The root of a document, and the tokens behind it. -/
def readRoot (tokens : List Token) : Option (Node × List Token) :=
  -- of four calls within one another, at least one passes a token
  let fuel := 4 * tokens.length + 4
  match tokens with
  | [] => some (.absent, [])
  | .documentStart :: rest =>
    if rest = [] then some (.absent, [])
    else readOptional fuel .block [.documentStart, .documentEnd] rest
  | tokens => readNode fuel .block tokens

/-- The tree of a text that holds one document. -/
def read? (s : List Char) : Option Node := do
  let (root, rest) ← readRoot (← scan s)
  if rest.all (· = .documentEnd) then some root else none

end Nftables.Yaml
