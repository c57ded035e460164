import Nftables.Engine
import Nftables.Proofs.Step

/-!
# The maps that a reader knows

An element line without a value does not say whether it is about a set or a map; the reader looks
among the maps that it knows by then. Those are the maps that it was given and all that the lines
before have named, with whatever verb. Nothing else of what is read depends on them, and the more
maps are known, the more elements go to a map.

The known maps are the only state that one line hands to the next, apart from the queue, so reading
in pieces comes down to them. `readCommand_eq` separates them off: a line is read as if no map were
known, and its element is rerouted afterwards if it is `Astray`. With more maps known the rerouting
is done in two turns (`readCommand_union`), since what goes to a map stays there.

`mapsNamed` is what a text adds to the known maps, whether it creates the maps, deletes them or only
lists them. The modules on splitting a text and on where its elements belong compare it with the
maps that are committed.
-/

namespace Nftables

/-! ## Elements that go astray -/

/-- The element is in a set that has the name of a known map of its table. -/
def Element.Astray (known : List Command.MapName) (e : Element) : Prop :=
  ∃ n ∈ known, e.scope = ⟨some n.family, some n.table⟩ ∧ e.set = some n.name

instance (known : List Command.MapName) (e : Element) : Decidable (e.Astray known) :=
  inferInstanceAs (Decidable (∃ _ ∈ _, _))

/-- The element as it is taken for one of a map where such a map is known. -/
def Element.reroute (known : List Command.MapName) (e : Element) : Element :=
  if e.Astray known then { e with set := none, map := e.set } else e

namespace Object

def Astray (known : List Command.MapName) : Object → Prop
  | .element e => e.Astray known
  | _ => False

instance (known : List Command.MapName) : (o : Object) → Decidable (o.Astray known)
  | .element e => inferInstanceAs (Decidable (e.Astray known))
  | .table _ | .chain _ | .rule _ | .set _ | .map _ | .flowtable _ | .counter _ =>
    inferInstanceAs (Decidable False)

def reroute (known : List Command.MapName) : Object → Object
  | .element e => .element (e.reroute known)
  | o => o

end Object

namespace Command.Parsed

/-- What is read of the same line where these maps are known as well. -/
def reroute (known : List MapName) (c : Parsed) : Parsed :=
  { c with operation := ⟨c.operation.verb, c.operation.object.reroute known⟩ }

end Command.Parsed

section Reroute

variable {known known₁ known₂ known' : List Command.MapName} {e : Element} {o : Object}

theorem Element.astray_iff {family : Family} {table : String}
    (hscope : e.scope = ⟨some family, some table⟩) :
    e.Astray known ↔ ∃ name, e.set = some name ∧ ⟨family, table, name⟩ ∈ known := by
  constructor
  · rintro ⟨⟨_, _, name⟩, hmem, hplace, hset⟩
    rw [hscope] at hplace
    cases hplace
    exact ⟨name, hset, hmem⟩
  · rintro ⟨name, hset, hmem⟩
    exact ⟨_, hmem, hscope, hset⟩

theorem Element.astray_union (h : ∀ n, n ∈ known' ↔ n ∈ known₁ ∨ n ∈ known₂) :
    e.Astray known' ↔ e.Astray known₁ ∨ e.Astray known₂ := by
  simp only [Astray, h, or_and_right, exists_or]

/-- What has been taken for an element of a map is not taken for one again. -/
theorem Element.not_astray_reroute : ¬ (e.reroute known).Astray known := by
  unfold reroute
  split
  · rintro ⟨n, -, -, hset⟩
    cases hset
  · assumption

/-- With more maps known, an element goes where it would go in two turns. -/
theorem Element.reroute_reroute (h : ∀ n, n ∈ known' ↔ n ∈ known₁ ∨ n ∈ known₂) :
    (e.reroute known₂).reroute known₁ = e.reroute known' := by
  by_cases h₂ : e.Astray known₂
  · -- in the first turn already: then it has no set left
    have hset : ¬ ({ e with set := none, map := e.set } : Element).Astray known₁ := by
      rintro ⟨n, -, -, hset⟩
      cases hset
    rw [reroute, reroute, if_pos h₂, if_neg hset, reroute,
      if_pos ((astray_union h).mpr (.inr h₂))]
  · -- if at all, in the second turn
    have hiff : e.Astray known' ↔ e.Astray known₁ :=
      (astray_union h).trans (or_iff_left h₂)
    rw [show e.reroute known₂ = e from if_neg h₂, reroute, reroute]
    simp only [hiff]

@[simp] theorem Object.scope_reroute (o : Object) : (o.reroute known).scope = o.scope := by
  cases o with
  | element e =>
    show (e.reroute known).scope = e.scope
    unfold Element.reroute
    split <;> rfl
  | _ => rfl

theorem Object.not_astray_reroute : ¬ (o.reroute known).Astray known := by
  cases o with
  | element e => exact Element.not_astray_reroute
  | _ => exact id

theorem Object.reroute_of_not_astray (h : ¬ o.Astray known) : o.reroute known = o := by
  cases o with
  | element e => exact congrArg Object.element (if_neg h)
  | _ => rfl

end Reroute

/-! ## Reading a line -/

namespace Command

open Clause Text

variable {known known₁ known₂ known' : List MapName}

/-- The known maps decide no more than where an element without a value belongs. -/
theorem readElement_eq (known : List MapName) (family : Family) (table : String)
    (rest : List Char) :
    readElement (fun map => decide (⟨family, table, map⟩ ∈ known)) ⟨some family, some table⟩ rest
      = (readElement (fun _ => false) ⟨some family, some table⟩ rest).map
          (Element.reroute known) := by
  unfold readElement
  cases orFault (.element (String.ofList rest)) (readElementBody? rest) with
  | error fault => rfl
  | ok found =>
    obtain ⟨name, body⟩ := found
    dsimp only [bind, Except.bind]
    cases splitMapValue? body with
    | some found =>
      -- with a value it is one of a map anyway
      obtain ⟨key, found, value⟩ := found
      refine congrArg Except.ok (if_neg ?_).symm
      rintro ⟨n, -, -, hset⟩
      cases hset
    | none =>
      -- without a value the known maps are asked
      obtain ⟨key, found⟩ := splitComment body
      refine congrArg Except.ok ?_
      dsimp only
      rw [if_neg Bool.false_ne_true, Element.reroute]
      by_cases hmem : ⟨family, table, String.ofList name⟩ ∈ known
      · rw [if_pos (decide_eq_true hmem), if_pos ((Element.astray_iff rfl).mpr ⟨_, rfl, hmem⟩)]
      · rw [if_neg (by simpa using hmem), if_neg]
        rintro hastray
        obtain ⟨_, hset, hknown⟩ := (Element.astray_iff rfl).mp hastray
        cases hset
        exact hmem hknown

theorem readObject_eq (known : List MapName) (verb : Verb) (kind : Kind) (family : Family)
    (table rest : List Char) : readObject known verb kind family table rest
      = (readObject [] verb kind family table rest).map (Parsed.reroute known) := by
  -- the readers of the other kinds do not get to see the maps
  have hmap : ∀ {α : Type} (x : Reading α) (f : α → Parsed),
      (∀ a, (f a).reroute known = f a) →
        (x >>= fun a => pure (f a)) = (x >>= fun a => pure (f a)).map (Parsed.reroute known) := by
    intro α x f h
    cases x with
    | error fault => rfl
    | ok a => exact congrArg Except.ok (h a).symm
  cases kind with
  | element =>
    have hnone : (fun map => decide (MapName.mk family (String.ofList table) map ∈ []))
        = fun _ => false := by simp
    unfold readObject
    dsimp only
    rw [hnone, readElement_eq known]
    cases readElement (fun _ => false) ⟨some family, some (String.ofList table)⟩ rest <;> rfl
  | _ => exact hmap _ _ fun _ => rfl

/-- **Of what a line says, the known maps decide where its element belongs**, and nothing else. -/
theorem readCommand_eq (known : List MapName) (line : List Char) :
    readCommand known line = (readCommand [] line).map (Parsed.reroute known) := by
  unfold readCommand
  cases orFault (.command (String.ofList line)) (Line.read? line) with
  | error fault => rfl
  | ok l =>
    dsimp only [bind, Except.bind]
    cases word Verb.read l.verb with
    | error fault => rfl
    | ok verb =>
      dsimp only
      cases word Kind.read l.kind with
      | error fault => rfl
      | ok kind =>
        dsimp only
        cases word Family.read l.family with
        | error fault => rfl
        | ok family => exact readObject_eq known verb kind family l.table l.rest

/-- Where more maps are known, the same is read, but for the elements that go to one of them. -/
theorem readCommand_union (h : ∀ n, n ∈ known' ↔ n ∈ known₁ ∨ n ∈ known₂) (line : List Char) :
    readCommand known' line = (readCommand known₂ line).map (Parsed.reroute known₁) := by
  rw [readCommand_eq known', readCommand_eq known₂]
  cases readCommand [] line with
  | error fault => rfl
  | ok c =>
    obtain ⟨⟨verb, o⟩, declares⟩ := c
    cases o with
    | element e =>
      refine congrArg (fun e => Except.ok (Parsed.mk ⟨verb, .element e⟩ declares)) ?_
      exact (Element.reroute_reroute h).symm
    | _ => rfl

/-! ## The maps that lines name -/

/-- The map that a line names as its object, if it is one. -/
def mapsOfLine (line : List Char) : List MapName :=
  match readCommand [] line with
  | .ok c => c.declares
  | .error _ => []

/-- The maps that a text names, one line after the other. -/
def mapsNamed (text : String) : List MapName :=
  (lines text.toList).flatMap fun line => mapsOfLine (trim line)

theorem declares_of_readCommand {line : List Char} {c : Parsed}
    (h : readCommand known line = .ok c) : c.declares = mapsOfLine line := by
  rw [readCommand_eq] at h
  unfold mapsOfLine
  cases hread : readCommand [] line with
  | error fault =>
    rw [hread] at h
    cases h
  | ok c' =>
    rw [hread] at h
    cases h
    rfl

/-- A line that says nothing names no map. -/
theorem mapsOfLine_of_not_significant {line : List Char} (h : ¬ Significant line) :
    mapsOfLine line = [] := by
  cases line with
  | nil => rfl
  | cons c rest =>
    have hc : c = '#' := by
      by_contra hne
      exact h ⟨List.cons_ne_nil _ _, by simpa using hne⟩
    subst hc
    -- no word begins so
    have hrun : readRun isWordChar ('#' :: rest) = none := by
      rw [readRun, List.takeWhile_cons_of_neg (by decide +kernel)]
    have hline : Line.read? ('#' :: rest) = none := by
      rw [Line.read?, hrun]
      rfl
    rw [mapsOfLine, readCommand, hline]
    rfl

/-- **After some lines, the reader knows the maps that they have named**, and those from before. -/
theorem State.mem_known_lines {s s' : State} {n : Nat} {l : List (List Char)}
    (h : s.lines n l = .ok s') (m : MapName) :
    m ∈ s'.known ↔ m ∈ l.flatMap (fun line => mapsOfLine (trim line)) ∨ m ∈ s.known := by
  induction l generalizing s n with
  | nil =>
    cases h
    simp
  | cons line rest ih =>
    rw [lines] at h
    split at h
    · cases h
    · rename_i t ht
      -- one line adds the map that it names
      have hknown : t.known = mapsOfLine (trim line) ++ s.known := by
        unfold State.line at ht
        split at ht
        · obtain ⟨c, hc, ht⟩ := bind_ok ht
          dsimp only at ht
          split at ht
          · cases ht
          · cases ht
            rw [← declares_of_readCommand hc]
        · rename_i hblank
          cases ht
          rw [mapsOfLine_of_not_significant hblank, List.nil_append]
      rw [ih h, hknown, List.flatMap_cons, List.mem_append, List.mem_append]
      tauto

end Command

end Nftables
