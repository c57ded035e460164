import Nftables.Proofs.LineByLine

/-!
# One file under two bindings

The table that an engine is bound to fills in what a command leaves open. The lines of a file name
their family and table, and leave nothing open but the name of a table that is named by its handle.
A `delete` of such a table means the same whatever name is filled in. With any other verb such a
line is refused under every binding, but the name decides for what.

Almost every line says its family and its table, and then the binding has nothing to fill in. The
one exception is a line such as `delete table ip handle 5`, where the word `handle` stands in the
place of the name. `Object.applyDefaults` still puts the name of the bound table there, so two
engines queue different operations for one line; they are brought together by `Operation.anonymous`,
which takes that name out again, and by the two facts that neither the text nor the effect of an
operation depends on it (`Operation.command_anonymous`, `Ruleset.step_anonymous`).

With another verb such a line is refused, and here the binding does show: a missing name is found
before a forbidden handle is. `FaultsAgree` says exactly how far two engines can differ.
-/

namespace Nftables

/-! ## Tables that are deleted by their handle -/

/-- The operation without the name of a table that is deleted by its handle. -/
def Operation.anonymous : Operation → Operation
  | ⟨.delete, .table ⟨s, comment, some handle⟩⟩ =>
    ⟨.delete, .table ⟨{ s with table := none }, comment, some handle⟩⟩
  | op => op

section Anonymous

theorem Operation.verb_anonymous (op : Operation) : op.anonymous.verb = op.verb := by
  unfold anonymous
  split <;> rfl

theorem Operation.command_anonymous (op : Operation) : op.anonymous.command = op.command := by
  unfold anonymous
  split <;> rfl

/-- The table is found by its handle among those of its family. -/
theorem Ruleset.step_anonymous (r : Ruleset) (defines : List Define) (handle : Nat)
    (op : Operation) : r.step defines handle op.anonymous = r.step defines handle op := by
  unfold Operation.anonymous
  split <;> rfl

variable {ops₁ ops₂ : List Operation}
  (h : ops₁.map Operation.anonymous = ops₂.map Operation.anonymous)

include h

theorem Operation.commands_eq : ops₁.map command = ops₂.map command := by
  have hcommand : command ∘ anonymous = command := funext command_anonymous
  have hsame := congrArg (List.map command) h
  rwa [List.map_map, List.map_map, hcommand] at hsame

theorem Ruleset.apply_eq_apply (defines : List Define) (r : Ruleset) (last : Nat) :
    r.apply defines last ops₁ = r.apply defines last ops₂ := by
  -- leaving the name out changes no step, so it changes no run
  have hanonymous : ∀ ops : List Operation,
      r.apply defines last (ops.map Operation.anonymous) = r.apply defines last ops :=
    fun ops => apply_map (fun op _ => op.verb_anonymous)
      (fun op _ r h => r.step_anonymous defines h op) r last
  rw [← hanonymous ops₁, h, hanonymous ops₂]

end Anonymous

namespace Command

open Text

/-! ## One line under two bindings -/

/-- The line is a command, for a verb other than `delete`, on a table named by its handle. -/
structure NamesByHandle (known : List MapName) (line : List Char) (verb : Verb) : Prop where
  other : verb ≠ .delete
  reading : ∃ family number,
    readCommand known line = .ok ⟨⟨verb, .table (.byHandle family number)⟩, []⟩

/-- What such a line is refused for: the missing name, and else the handle or the verb. -/
def handleRefusal (config : Config) (verb : Verb) : Violation :=
  if config.table.getD "" = "" then .tableMissing .table
  else match verb with
    | .add | .create | .flush | .destroy => .handleForbidden verb .table
    | _ => .notImplemented verb .table

/-- What a line is refused for under the one binding and under the other. -/
def FaultsAgree (config₁ config₂ : Config) (known : List MapName) (line : List Char)
    (fault₁ fault₂ : LineFault) : Prop :=
  fault₁ = fault₂ ∨ ∃ verb, NamesByHandle known line verb ∧
    fault₁ = .violation (handleRefusal config₁ verb) ∧
    fault₂ = .violation (handleRefusal config₂ verb)

section Line

variable {config₁ : Config} (config₂ : Config) {known : List MapName} {line : List Char}

theorem closed_or_byHandle {c : Parsed} (h : readCommand known line = .ok c) :
    (∃ key : TableKey, c.operation.object.scope = key.scope) ∨
      ∃ verb family number, c = ⟨⟨verb, .table (.byHandle family number)⟩, []⟩ := by
  obtain ⟨key, hdeclares, hscope | ⟨number, hobject⟩⟩ := placed_of_readCommand h
  · exact .inl ⟨key, hscope⟩
  · obtain ⟨⟨verb, object⟩, declares⟩ := c
    cases hobject
    cases hdeclares
    exact .inr ⟨verb, key.family, number, rfl⟩

/-- A table that is named by its handle can be deleted, and nothing else. -/
theorem validate_byHandle (config : Config) (verb : Verb) (family : Family) (number : Nat) :
    ((Object.table (.byHandle family number)).applyDefaults config.scope).validate verb
      = if verb = .delete then .ok () else .error (handleRefusal config verb) := by
  cases verb with
  | delete => rfl
  | _ =>
    -- the scope is checked before the verb is, so a missing name comes first
    refine Eq.trans ?_ (if_neg (by decide)).symm
    unfold handleRefusal
    split
    · rename_i htable
      exact bind_of_error (if_pos htable)
    · rename_i htable
      exact bind_of_ok (if_neg htable)

/-- What a line adds under one binding it adds under any other, up to a name that says nothing. -/
theorem Adds.rebind (hdestroy : config₁.emulateDestroy = config₂.emulateDestroy)
    {ops₁ : List Operation} (h : Adds config₁ known line ops₁) :
    ∃ ops₂, Adds config₂ known line ops₂ ∧
      ops₁.map Operation.anonymous = ops₂.map Operation.anonymous := by
  cases h with
  | nothing h => exact ⟨[], .nothing h, rfl⟩
  | @command c h hread hfit =>
    -- a line that leaves nothing open is filled in alike; only a table by its handle is not
    rcases closed_or_byHandle hread with ⟨key, hscope⟩ | ⟨verb, family, number, rfl⟩
    · have hdefaults := Object.applyDefaults_eq hscope
      rw [hdefaults] at hfit
      refine ⟨_, .command h hread (by rwa [hdefaults]), ?_⟩
      rw [Operation.queued, Operation.queued, hdefaults, hdefaults, hdestroy]
    · have hverb : verb = .delete := by
        by_contra hother
        rw [validate_byHandle, if_neg hother] at hfit
        cases hfit
      subst hverb
      exact ⟨_, .command h hread rfl, rfl⟩

/-- A line that is refused under one binding is refused under any other. -/
theorem Refuses.rebind {fault₁ : LineFault} (h : Refuses config₁ known line fault₁) :
    ∃ fault₂, Refuses config₂ known line fault₂ ∧
      FaultsAgree config₁ config₂ known line fault₁ fault₂ := by
  cases h with
  | unread h hread => exact ⟨_, .unread h hread, .inl rfl⟩
  | @unfit c v h hread hunfit =>
    rcases closed_or_byHandle hread with ⟨key, hscope⟩ | ⟨verb, family, number, rfl⟩
    · have hdefaults := Object.applyDefaults_eq hscope
      rw [hdefaults] at hunfit
      exact ⟨_, .unfit h hread (by rwa [hdefaults]), .inl rfl⟩
    · by_cases hverb : verb = .delete
      · rw [validate_byHandle, if_pos hverb] at hunfit
        cases hunfit
      · rw [validate_byHandle, if_neg hverb] at hunfit
        cases hunfit
        have hunfit₂ := (validate_byHandle config₂ verb family number).trans (if_neg hverb)
        exact ⟨_, .unfit h hread hunfit₂, .inr ⟨verb, ⟨hverb, family, number, hread⟩, rfl, rfl⟩⟩

end Line

/-! ## The file under two bindings -/

section File

variable {config₁ : Config} (config₂ : Config) {known : List MapName} {l : List (List Char)}

theorem AllAdd.rebind (hdestroy : config₁.emulateDestroy = config₂.emulateDestroy)
    {added₁ : List (List Operation)} (h : AllAdd config₁ known l added₁) :
    ∃ added₂, AllAdd config₂ known l added₂ ∧
      added₁.flatten.map Operation.anonymous = added₂.flatten.map Operation.anonymous := by
  induction l generalizing known added₁ with
  | nil =>
    obtain rfl := List.eq_nil_of_length_eq_zero h.length
    exact ⟨[], ⟨rfl, by simp⟩, rfl⟩
  | cons line rest ih =>
    obtain ⟨ops₁, more₁, rfl, hfirst, hmore⟩ := allAdd_cons.mp h
    obtain ⟨ops₂, hfirst₂, hops⟩ := hfirst.rebind config₂ hdestroy
    obtain ⟨more₂, hmore₂, hrest⟩ := ih hmore
    refine ⟨ops₂ :: more₂, allAdd_cons.mpr ⟨_, _, rfl, hfirst₂, hmore₂⟩, ?_⟩
    rw [List.flatten_cons, List.flatten_cons, List.map_append, List.map_append, hops, hrest]

theorem FirstRefused.rebind {i : Nat} {fault₁ : LineFault}
    (h : FirstRefused config₁ known l i fault₁) :
    ∃ line fault₂, l[i]? = some line ∧ FirstRefused config₂ known l i fault₂ ∧
      FaultsAgree config₁ config₂ (knownBefore known l i) (trim line) fault₁ fault₂ := by
  obtain ⟨⟨line, hline, hrefused⟩, habove⟩ := h
  obtain ⟨fault₂, hrefused₂, hagree⟩ := hrefused.rebind config₂
  refine ⟨line, fault₂, hline, ⟨⟨line, hline, hrefused₂⟩, ?_⟩, hagree⟩
  -- a line above that the second binding refuses would be refused under the first
  intro j hj line' fault' hline' hrefused'
  obtain ⟨fault, hfault, -⟩ := hrefused'.rebind config₁
  exact habove j hj line' fault hline' hfault

end File

/--
**A command file means the same under every binding.** It is read to the same text and to operations
with the same effect, or it is refused at the same line. What it is refused for is the same too,
unless the line gives a handle for the name of a table that it does not delete.
-/
theorem readCommands_rebind (config₁ config₂ : Config) (known : List MapName) (text : String)
    (hdestroy : config₁.emulateDestroy = config₂.emulateDestroy) :
    (∃ tx₁ tx₂, readCommands config₁ known text = .ok tx₁ ∧
      readCommands config₂ known text = .ok tx₂ ∧ tx₁.text = tx₂.text ∧
      ∀ (defines : List Define) (r : Ruleset) (last : Nat),
        r.apply defines last tx₁.operations = r.apply defines last tx₂.operations) ∨
    ∃ i line fault₁ fault₂, (lines text.toList)[i]? = some line ∧
      readCommands config₁ known text = .error (.parse (i + 1) fault₁) ∧
      readCommands config₂ known text = .error (.parse (i + 1) fault₂) ∧
      FaultsAgree config₁ config₂ (knownBefore known (lines text.toList) i) (trim line)
        fault₁ fault₂ := by
  cases hread : readCommands config₁ known text with
  | ok tx₁ =>
    obtain ⟨added₁, hadded₁, rfl⟩ := readCommands_eq_ok_iff.mp hread
    -- every line adds, so it adds under the other binding too
    obtain ⟨added₂, hadded₂, hsame⟩ := hadded₁.rebind config₂ hdestroy
    refine .inl ⟨_, _, rfl, readCommands_eq_ok_iff.mpr ⟨added₂, hadded₂, rfl⟩, ?_, ?_⟩
    · rw [Transaction.text, Transaction.text, Operation.commands_eq hsame]
    · exact Ruleset.apply_eq_apply hsame
  | error e =>
    obtain ⟨i, fault₁, hfirst, rfl⟩ := readCommands_eq_error_iff.mp hread
    -- the first line that is refused is the first under the other binding
    obtain ⟨line, fault₂, hline, hfirst₂, hagree⟩ := hfirst.rebind config₂
    exact .inr ⟨i, line, fault₁, fault₂, hline, rfl,
      readCommands_eq_error_iff.mpr ⟨i, fault₂, hfirst₂, rfl⟩, hagree⟩

/-- A table that is deleted by its handle, read without a binding and under one. -/
theorem readCommands_rebind_delete :
    let text := "add table ip filter\nadd chain ip filter input\ndelete table ip handle 1\n"
    let bound : Config := { family := some .ip6, table := "nat", defines := [⟨"PORT", "80"⟩] }
    ({} : Config).emulateDestroy = bound.emulateDestroy ∧
    ∃ tx₁ tx₂, readCommands {} [] text = .ok tx₁ ∧ readCommands bound [] text = .ok tx₂ ∧
      tx₁.operations ≠ tx₂.operations ∧ tx₁.text = tx₂.text ∧
      ∀ (defines : List Define) (r : Ruleset) (last : Nat),
        r.apply defines last tx₁.operations = r.apply defines last tx₂.operations := by
  intro text bound
  rcases readCommands_rebind {} bound [] text rfl with
    ⟨tx₁, tx₂, h₁, h₂, htext, happly⟩ | ⟨i, line, fault₁, fault₂, -, h, -⟩
  · have hdiffer : (readCommands {} [] text).map Transaction.operations
        ≠ (readCommands bound [] text).map Transaction.operations := by decide +kernel
    rw [h₁, h₂] at hdiffer
    exact ⟨rfl, tx₁, tx₂, h₁, h₂, fun h => hdiffer (congrArg Except.ok h), htext, happly⟩
  · have hread : (readCommands {} [] text).toBool = true := by decide +kernel
    rw [h] at hread
    cases hread

/-- What is refused in an `add` of a table by its handle depends on the binding. -/
theorem readCommands_add_handle :
    let text := "add table ip handle 5\n"
    let bound : Config := { table := "filter" }
    ({} : Config).emulateDestroy = bound.emulateDestroy ∧
    readCommands {} [] text = .error (.parse 1 (.violation (.tableMissing .table))) ∧
    readCommands bound [] text = .error (.parse 1 (.violation (.handleForbidden .add .table))) ∧
    readCommands {} [] text ≠ readCommands bound [] text := by
  decide +kernel

end Command

end Nftables
