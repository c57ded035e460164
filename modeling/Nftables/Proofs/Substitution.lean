import Nftables.Proofs.WellFormed

/-!
# References to defines are replaced for good

Cutting a text at a fixed text follows its occurrences from the left. Where the value that is put in
their place shares no character with a reference, no new occurrence arises, so a text from which
references have been replaced stays as it is when they are replaced once more. All texts that the
ruleset stores are of this kind.

In general this fails. A value may be a reference itself, or it may complete one with the characters
that stand around it, as a value `A` does behind a `$`. Hence `Inert`: a value has no `$`, and it
begins with a character that no reference has. An occurrence of a reference in the result then
cannot begin in a value, and cannot reach into one from the left either, so it was in the text all
along (`infix_of_infix_replaceText`). The defines that come with a family are inert: their names are
in upper case and their values in lower case.

A dump holds texts in which the defines have been replaced, and whoever reads it replaces them
again. `Settled` says that this changes nothing, and it is an invariant. So the rulesets of a dump
and of its replay can be compared text by text.
-/

namespace Nftables

/-! ## Cutting and replacing from the left -/

namespace Text

variable {sep old new s r : List Char} {c : Char}

theorem splitText.go_drop (sep : List Char) (n : Nat) (s : List Char) :
    go sep n s = go sep 0 (s.drop n) := by
  induction s generalizing n with
  | nil =>
    rw [List.drop_nil]
    cases n <;> rfl
  | cons c r ih =>
    cases n with
    | zero => rfl
    | succ n => exact ih n

theorem consPiece_ne_nil (c : Char) (l : List (List Char)) : consPiece c l ≠ [] := by
  cases l <;> simp [consPiece]

theorem splitText_ne_nil (sep s : List Char) : splitText sep s ≠ [] := by
  -- the number of characters still to be skipped does not matter
  have key : ∀ n, splitText.go sep n s ≠ [] := by
    induction s with
    | nil =>
      intro n
      cases n <;> simp [splitText.go]
    | cons c r ih =>
      intro n
      cases n with
      | succ n => exact ih n
      | zero =>
        rw [splitText.go]
        split
        · exact List.cons_ne_nil _ _
        · exact consPiece_ne_nil _ _
  exact key 0

theorem splitText_append_left (hsep : sep ≠ []) (r : List Char) :
    splitText sep (sep ++ r) = [] :: splitText sep r := by
  cases sep with
  | nil => exact absurd rfl hsep
  | cons c p =>
    have hpre : (c :: p).isPrefixOf (c :: (p ++ r)) = true :=
      List.isPrefixOf_iff_prefix.mpr (List.prefix_append (c :: p) r)
    rw [splitText, List.cons_append, splitText.go, if_pos hpre, splitText.go_drop]
    simp [splitText]

theorem splitText_cons (h : ¬ sep <+: c :: r) :
    splitText sep (c :: r) = consPiece c (splitText sep r) := by
  have hpre : ¬ sep.isPrefixOf (c :: r) = true := mt List.isPrefixOf_iff_prefix.mp h
  rw [splitText, splitText.go, if_neg hpre, splitText]

theorem replaceText_nil (old new : List Char) : replaceText old new [] = [] := rfl

theorem replaceText_append_left (hold : old ≠ []) (new r : List Char) :
    replaceText old new (old ++ r) = new ++ replaceText old new r := by
  rw [replaceText, splitText_append_left hold, List.intercalate_cons_of_ne_nil
    (splitText_ne_nil old r), List.nil_append]
  rfl

theorem replaceText_cons (new : List Char) (h : ¬ old <+: c :: r) :
    replaceText old new (c :: r) = c :: replaceText old new r := by
  rw [replaceText, splitText_cons h, replaceText]
  cases hs : splitText old r with
  | nil => exact absurd hs (splitText_ne_nil old r)
  | cons p ps => exact List.intercalate_cons_cons_left

/-- Induction along the places at which a text is cut. -/
theorem cut_induction {M : List Char → Prop} {old : List Char} (hold : old ≠ []) (nil : M [])
    (skip : ∀ r, M r → M (old ++ r)) (cons : ∀ c r, ¬ old <+: c :: r → M r → M (c :: r))
    (s : List Char) : M s := by
  by_cases h : old <+: s
  · obtain ⟨r, rfl⟩ := h
    exact skip r (cut_induction hold nil skip cons r)
  · cases s with
    | nil => exact nil
    | cons c r => exact cons c r h (cut_induction hold nil skip cons r)
termination_by s.length
decreasing_by
  · rename_i heq
    have hpos := List.length_pos_iff.mpr hold
    rw [← heq, List.length_append]
    omega
  · exact Nat.lt_succ_self _

/-- Without an occurrence there is nothing to replace. -/
theorem replaceText_eq_self (hold : old ≠ []) (h : ¬ old <:+: s) :
    replaceText old new s = s := by
  induction s using cut_induction hold with
  | nil => exact replaceText_nil old new
  | skip r ih => exact absurd (List.prefix_append old r).isInfix h
  | cons c r hc ih =>
    rw [replaceText_cons new hc, ih fun hr => h (hr.trans (List.suffix_cons c r).isInfix)]

/-- A front of the result that does not reach into a new value was there before. -/
theorem prefix_of_prefix_replaceText {x : List Char} (hold : old ≠ []) (hc : c ∉ x)
    (h : x <+: replaceText old (c :: new) s) : x <+: s ∧ (x ≠ [] → ¬ old <+: s) := by
  induction s using cut_induction hold generalizing x with
  | nil =>
    rw [replaceText_nil] at h
    cases List.prefix_nil.mp h
    exact ⟨List.nil_prefix, fun hne => absurd rfl hne⟩
  | skip r ih =>
    rw [replaceText_append_left hold] at h
    cases x with
    | nil => exact ⟨List.nil_prefix, fun hne => absurd rfl hne⟩
    | cons a x =>
      -- the result begins with the value, whose first character `x` does not have
      obtain ⟨rfl, -⟩ := List.cons_prefix_cons.mp h
      exact absurd List.mem_cons_self hc
  | cons d r hd ih =>
    rw [replaceText_cons _ hd] at h
    cases x with
    | nil => exact ⟨List.nil_prefix, fun _ => hd⟩
    | cons a x =>
      obtain ⟨rfl, hx⟩ := List.cons_prefix_cons.mp h
      have hr := (ih (fun hmem => hc (.tail _ hmem)) hx).1
      exact ⟨List.cons_prefix_cons.mpr ⟨rfl, hr⟩, fun _ => hd⟩

/--
An occurrence in the result begins where the text was not cut, if the new value neither begins it
nor has a character of it in front.
-/
theorem infix_of_infix_replaceText {a : Char} {q : List Char} (hold : old ≠ [])
    (ha : a ∉ c :: new) (hc : c ∉ a :: q) (h : a :: q <:+: replaceText old (c :: new) s) :
    ∃ t, t <:+ s ∧ a :: q <+: t ∧ ¬ old <+: t := by
  induction s using cut_induction hold with
  | nil =>
    rw [replaceText_nil] at h
    exact absurd (List.infix_nil.mp h) (by simp)
  | skip r ih =>
    rw [replaceText_append_left hold] at h
    -- the occurrence lies in the new value, behind it, or across its end
    rcases List.infix_append_iff.mp h with h | h | ⟨l₁, l₂, hl, h₁, h₂⟩
    · exact absurd (h.subset List.mem_cons_self) ha
    · obtain ⟨t, ht, hq, hno⟩ := ih h
      exact ⟨t, ht.trans (List.suffix_append old r), hq, hno⟩
    · cases l₁ with
      | nil =>
        rw [List.nil_append] at hl
        subst hl
        obtain ⟨hq, hno⟩ := prefix_of_prefix_replaceText hold hc h₂
        exact ⟨r, List.suffix_append old r, hq, hno (by simp)⟩
      | cons b l₁ =>
        obtain ⟨rfl, -⟩ := List.cons.inj hl
        exact absurd (h₁.subset List.mem_cons_self) ha
  | cons d r hd ih =>
    rw [replaceText_cons _ hd] at h
    rcases List.infix_cons_iff.mp h with h | h
    · rw [← replaceText_cons _ hd] at h
      obtain ⟨hq, hno⟩ := prefix_of_prefix_replaceText hold hc h
      exact ⟨d :: r, List.suffix_refl _, hq, hno (by simp)⟩
    · obtain ⟨t, ht, hq, hno⟩ := ih h
      exact ⟨t, ht.trans (List.suffix_cons d r), hq, hno⟩

end Text

/-! ## Defines whose values make no reference -/

/-- What stands for the define in a text. -/
def Define.reference (d : Define) : List Char := '$' :: d.name.toList

/-- Every value begins with a character that no reference has, and has no dollar sign. -/
def Inert (defines : List Define) : Prop :=
  ∀ d ∈ defines, '$' ∉ d.value.toList ∧
    ∃ c new, d.value.toList = c :: new ∧ ∀ d' ∈ defines, c ∉ d'.reference

theorem inert_family (family : Family) : Inert family.defines := by
  intro d hd
  cases family with
  | ip =>
    rcases List.mem_cons.mp hd with rfl | hd
    · exact ⟨by decide, 'i', _, rfl, by decide⟩
    · cases List.mem_singleton.mp hd
      exact ⟨by decide, 'i', _, rfl, by decide⟩
  | ip6 =>
    rcases List.mem_cons.mp hd with rfl | hd
    · exact ⟨by decide, 'i', _, rfl, by decide⟩
    · cases List.mem_singleton.mp hd
      exact ⟨by decide, 'i', _, rfl, by decide⟩
  | _ => cases hd

/-- Replacing one reference leaves none of it, and makes no other. -/
theorem Define.infix_substitute {defines : List Define} (hinert : Inert defines) {d d' : Define}
    (hd : d ∈ defines) (hd' : d' ∈ defines) {s : List Char}
    (h : d'.reference <:+: d.substitute s) : d' ≠ d ∧ d'.reference <:+: s := by
  obtain ⟨hdollar, c, new, hnew, hfree⟩ := hinert d hd
  rw [hnew] at hdollar
  unfold substitute at h
  rw [hnew] at h
  obtain ⟨t, ht, hq, hno⟩ := Text.infix_of_infix_replaceText (by simp) hdollar (hfree d' hd') h
  refine ⟨?_, hq.isInfix.trans ht.isInfix⟩
  rintro rfl
  exact hno hq

/-- No reference is left. -/
theorem not_infix_substituteDefines {defines : List Define} (hinert : Inert defines) {d : Define}
    (hd : d ∈ defines) (s : List Char) : ¬ d.reference <:+: substituteDefines defines s := by
  -- along the list: what comes later brings no reference back
  have key : ∀ l, (∀ x ∈ l, x ∈ defines) → ∀ text,
      (d ∈ l ∨ ¬ d.reference <:+: text) → ¬ d.reference <:+: substituteDefines l text := by
    intro l
    induction l with
    | nil => exact fun _ text h => h.resolve_left List.not_mem_nil
    | cons x l ih =>
      intro hl text h
      obtain ⟨hx, hrest⟩ := List.forall_mem_cons.mp hl
      refine ih hrest (x.substitute text) ?_
      rcases h with h | h
      · rcases List.mem_cons.mp h with rfl | h
        · exact .inr fun hin => (Define.infix_substitute hinert hx hd hin).1 rfl
        · exact .inl h
      · exact .inr fun hin => h (Define.infix_substitute hinert hx hd hin).2
  exact key defines (fun _ hx => hx) s (.inl hd)

/-- **What has been replaced is not replaced again.** -/
theorem substituteIn_idem {defines : List Define} (hinert : Inert defines) (s : String) :
    substituteIn defines (substituteIn defines s) = substituteIn defines s := by
  -- none of the defines finds its reference in the result of all of them
  have key : ∀ l, (∀ x ∈ l, x ∈ defines) →
      substituteDefines l (substituteDefines defines s.toList)
        = substituteDefines defines s.toList := by
    intro l
    induction l with
    | nil => exact fun _ => rfl
    | cons x l ih =>
      intro hl
      obtain ⟨hx, hrest⟩ := List.forall_mem_cons.mp hl
      -- the text has no reference to this one, so it passes through unchanged
      have hsame : x.substitute (substituteDefines defines s.toList)
          = substituteDefines defines s.toList :=
        Text.replaceText_eq_self (by simp) (not_infix_substituteDefines hinert hx s.toList)
      rw [substituteDefines, List.foldl_cons, hsame]
      exact ih hrest
  unfold substituteIn
  rw [String.toList_ofList, key defines fun _ hx => hx]

/-! ## Stored texts -/

/-- Replacing the defines once more changes no text of the table. -/
structure TableState.Settled (defines : List Define) (t : TableState) : Prop where
  rules : t.chains.All fun _ c => ∀ r ∈ c.rules, substituteIn defines r.body = r.body
  sets : t.sets.All fun _ s =>
    s.set.spec.substitute defines = s.set.spec ∧ ∀ e ∈ s.elements, e.substitute defines = e
  maps : t.maps.All fun _ m =>
    m.map.spec.substitute defines = m.map.spec ∧ ∀ e ∈ m.elements, e.substitute defines = e

def Ruleset.Settled (defines : List Define) (r : Ruleset) : Prop :=
  r.tables.All fun _ t => t.Settled defines

section Settled

variable {defines : List Define}

theorem KeySpec.substitute_idem (hinert : Inert defines) (spec : KeySpec) :
    (spec.substitute defines).substitute defines = spec.substitute defines := by
  simp [substitute, Function.comp_def, substituteIn_idem hinert]

theorem Element.substitute_idem (hinert : Inert defines) (e : Element) :
    (e.substitute defines).substitute defines = e.substitute defines := by
  simp [substitute, Function.comp_def, substituteIn_idem hinert]

theorem TableState.settled_empty (table : Table) : ({ table } : TableState).Settled defines :=
  ⟨SortedMap.all_empty, SortedMap.all_empty, SortedMap.all_empty⟩

theorem TableState.Settled.flush {t : TableState} (h : t.Settled defines) :
    t.flush.Settled defines where
  rules := SortedMap.all_map h.rules fun _ _ _ => by simp [ChainState.flush]
  sets := SortedMap.all_map h.sets fun _ _ hs => ⟨hs.1, by simp [SetState.flush]⟩
  maps := SortedMap.all_map h.maps fun _ _ hm => ⟨hm.1, by simp [MapState.flush]⟩

theorem TableState.Effect.settled (hinert : Inert defines) {verb : Verb} {handle : Nat} {o : Object}
    {t t' : TableState} (he : t.Effect defines verb handle o t') (h : t.Settled defines) :
    t'.Settled defines := by
  cases he with
  | chain c chains he =>
    refine ⟨he.all h.rules (fun _ => by simp) ?_, h.sets, h.maps⟩
    -- a chain has no `reset`, and without rules nothing is left to change
    rintro f (hf | hf) name c hc <;> cases hf
    simp [ChainState.flush]
  | rule r c rules hc href he =>
    -- every rule of the chain was there, or has the new body, which is substituted
    refine ⟨SortedMap.all_modify h.rules fun d hd => ?_, h.sets, h.maps⟩
    exact he.all (h.rules _ c hc) fun _ _ => substituteIn_idem hinert r.body
  | set s sets he =>
    refine ⟨h.rules, he.all h.sets (fun _ => ?_) ?_, h.maps⟩
    · exact ⟨KeySpec.substitute_idem hinert s.spec, by simp⟩
    · rintro f (hf | hf) name s hs <;> cases hf
      exact ⟨hs.1, by simp [SetState.flush]⟩
  | map m maps he =>
    refine ⟨h.rules, h.sets, he.all h.maps (fun _ => ?_) ?_⟩
    · exact ⟨KeySpec.substitute_idem hinert m.spec, by simp⟩
    · rintro f (hf | hf) name m hm <;> cases hf
      exact ⟨hm.1, by simp [MapState.flush]⟩
  | setElement e name s elements hn hs href he =>
    refine ⟨h.rules, SortedMap.all_modify h.sets fun d hd => ⟨(h.sets _ d hd).1, ?_⟩, h.maps⟩
    exact he.all (h.sets _ s hs).2 fun _ => Element.substitute_idem hinert e
  | mapElement e name m elements hset hn hm href he =>
    refine ⟨h.rules, h.sets, SortedMap.all_modify h.maps fun d hd => ⟨(h.maps _ d hd).1, ?_⟩⟩
    exact he.all (h.maps _ m hm).2 fun _ => Element.substitute_idem hinert e
  | flowtable f flowtables he => exact ⟨h.rules, h.sets, h.maps⟩
  | counter c counters he => exact ⟨h.rules, h.sets, h.maps⟩

/-- **Every operation leaves only texts that the defines do not change.** -/
theorem Ruleset.settled_preserved (hinert : Inert defines) :
    Preserved defines fun r _ => r.Settled defines where
  rise h := h
  step := by
    intro r r' last op h _ hs
    cases step_effect hs with
    | table t family tables ho hf he =>
      refine he.all h (fun _ => TableState.settled_empty _) ?_
      rintro f (hf | hf) key t ht <;> cases hf
      exact ht.flush
    | inside key t t' hscope ht he =>
      exact SortedMap.all_modify h fun _ _ => he.settled hinert (h key t ht)

end Settled

end Nftables
