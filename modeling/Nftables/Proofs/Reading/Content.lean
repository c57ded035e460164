import Nftables.Proofs.Reading

/-!
# Rules and elements are read back

What stands in a chain, a set or a map. A rule is its chain, the place that it is given there, and
its text; an element goes to a map if it has a value, or if a map of its container's name is known.

A rule is free text, so it is the rule that must not look like something else: without a place in
front, it must not begin like one (`Rule.Placed.front`), and without a comment it must not end like
one. With a place, anything may follow. `readsBack_placed` covers the verbs that write the text and
the `delete` that does not, with the text `t` as it stands in the line.

Of an element, the line has the name of the container and no word for its kind. With a value, it is
one of a map; without, it is whatever the known maps say (`readElement_key`). So an element of a set
is read back as long as no map of that name is known, one of a map always, and one that is deleted
goes to the container that the maps decide on. The comment comes back as `reread`, which is the
comment itself if it is plain.
-/

namespace Nftables

open Text Clause

/-! ## Rules -/

section Rules

variable {key : TableKey} {verb : Verb} {r : Rule}

theorem toList_ruleText (r : Rule) : r.text.toList = r.body.toList ++ commentText r.comment := by
  rw [Rule.text, String.toList_append]
  rfl

theorem takeWhile_append_space (s t : List Char) :
    (s ++ ' ' :: t).takeWhile (· ≠ ' ') = s.takeWhile (· ≠ ' ') := by
  induction s with
  | nil => rfl
  | cons c s ih =>
    by_cases hc : c = ' '
    · rw [List.cons_append, List.takeWhile_cons_of_neg (by simpa using hc),
        List.takeWhile_cons_of_neg (by simpa using hc)]
    · rw [List.cons_append, List.takeWhile_cons_of_pos (by simpa using hc),
        List.takeWhile_cons_of_pos (by simpa using hc), ih]

/-- A text that does not begin with the keyword has no position in front. -/
theorem readPosition?_eq_none {keyword : String} {s : List Char} (hk : ' ' ∉ keyword.toList)
    (h : s.takeWhile (· ≠ ' ') ≠ keyword.toList) : Command.readPosition? keyword s = none := by
  have hspace : ((expect keyword s).bind (expect " ")) = none := by
    cases hr : (expect keyword s).bind (expect " ") with
    | none => rfl
    | some rest =>
      obtain ⟨r, hr, hrest⟩ := Option.bind_eq_some_iff.mp hr
      -- then the keyword is the first word of the text
      have hs : keyword.toList ++ ' ' :: rest = s := by
        have h₁ := List.isPrefixOf?_eq_some_iff_append_eq.mp hr
        have h₂ := List.isPrefixOf?_eq_some_iff_append_eq.mp hrest
        rw [← h₁, ← h₂]
        rfl
      refine absurd ?_ h
      rw [← hs, takeWhile_append_space, List.takeWhile_eq_self_iff]
      exact fun c hc => decide_eq_true fun hcs => hk (hcs ▸ hc)
  have hbind : Command.readPosition? keyword s = ((expect keyword s).bind (expect " ")).bind
      fun t => some ((splitOnce ' ' t).1, trim (splitOnce ' ' t).2) := by
    rw [Option.bind_assoc]
    rfl
  rw [hbind, hspace]
  rfl

/-- A text behind a space, or nothing. -/
def spaced (s : List Char) : List Char := if s = [] then [] else ' ' :: s

theorem splitOnce_spaced {s : List Char} (h : ' ' ∉ s) (t : List Char) :
    splitOnce ' ' (s ++ spaced t) = (s, t) := by
  unfold spaced
  split
  · rename_i hnil
    rw [hnil, List.append_nil, splitOnce_of_not_mem h]
  · exact splitOnce_append h t

/-- A place in front of a text. -/
def placeText (keyword : String) (n : Nat) (t : List Char) : List Char :=
  keyword.toList ++ ' ' :: (numeral n ++ spaced t)

theorem readPosition?_place (keyword : String) (n : Nat) {t : List Char} (ht : Trimmed t) :
    Command.readPosition? keyword (placeText keyword n t) = some (numeral n, t) := by
  have hkeyword := expect_append keyword (' ' :: (numeral n ++ spaced t))
  have hspace : expect " " (' ' :: (numeral n ++ spaced t)) = some (numeral n ++ spaced t) :=
    expect_append " " _
  have hcut := splitOnce_spaced ((bareWord_numeral n).not_mem (c := ' ') (by decide)) t
  simp only [Command.readPosition?, placeText, hkeyword, hspace, hcut, Option.bind_eq_bind,
    Option.bind_some]
  rw [trim_eq_self ht]
  rfl

theorem trimmed_placeText {keyword : String} (hk : BareWord keyword.toList) (n : Nat)
    {t : List Char} (ht : Trimmed t) : Trimmed (placeText keyword n t) := by
  by_cases hnil : t = []
  · have hcut : placeText keyword n t = keyword.toList ++ [' '] ++ numeral n := by
      simp [placeText, spaced, hnil]
    rw [hcut]
    exact hk.word.trimmed.between (bareWord_numeral n).word.trimmed hk.1 (numeral_ne_nil n) _
  · have hcut : placeText keyword n t
        = keyword.toList ++ (' ' :: (numeral n ++ [' '])) ++ t := by
      simp [placeText, spaced, hnil]
    rw [hcut]
    exact hk.word.trimmed.between ht hk.1 hnil _

theorem not_mem_placeText {keyword : String} (hk : BareWord keyword.toList) (n : Nat)
    {t : List Char} (ht : '\n' ∉ t) : '\n' ∉ placeText keyword n t := by
  have hkeyword : '\n' ∉ keyword.toList := hk.not_mem (by decide)
  have hn : '\n' ∉ numeral n := (bareWord_numeral n).not_mem (by decide)
  by_cases hnil : t = [] <;> simp [placeText, spaced, hkeyword, hn, hnil, ht]

/-- Behind the chain of the rule, its place and this text can be told apart. -/
structure Rule.Placed (r : Rule) (t : List Char) : Prop where
  trimmed : Trimmed t
  line : '\n' ∉ t
  index : ∀ n ∈ r.index, n ≤ maxWord
  handle : ∀ n ∈ r.handle, n ≤ maxWord
  single : r.index = none ∨ r.handle = none
  front : r.index = none → r.handle = none →
    t ≠ [] ∧ t.takeWhile (· ≠ ' ') ∉ ["index".toList, "handle".toList]

/-- What stands behind the chain of the rule is `s`, and the place and the text are read from it. -/
structure Rule.Behind (r : Rule) (t s : List Char) : Prop where
  text : r.position.toList ++ spaced t = ' ' :: s
  nonempty : s ≠ []
  trimmed : Trimmed s
  line : '\n' ∉ s
  reading : Command.readReference s = .ok (r.index, r.handle, t)

theorem Rule.Placed.behind {t : List Char} (h : r.Placed t) : ∃ s, r.Behind t s := by
  have hbareIndex : BareWord "index".toList := by decide
  have hbareHandle : BareWord "handle".toList := by decide
  cases hindex : r.index with
  | some i =>
    -- a place is given by index or by handle, not by both
    have hhandle : r.handle = none := h.single.resolve_left (by simp [hindex])
    refine ⟨placeText "index" i t, ?_, by simp [placeText],
      trimmed_placeText hbareIndex i h.trimmed, not_mem_placeText hbareIndex i h.line, ?_⟩
    · simp [position, hindex, placeText, numeral, toString_string]
    · rw [Command.readReference, readPosition?_place "index" i h.trimmed, hindex, hhandle]
      exact bind_of_ok (number_numeral (h.index i hindex))
  | none =>
    cases hhandle : r.handle with
    | some n =>
      refine ⟨placeText "handle" n t, ?_, by simp [placeText],
        trimmed_placeText hbareHandle n h.trimmed, not_mem_placeText hbareHandle n h.line, ?_⟩
      · simp [position, hindex, hhandle, placeText, numeral, toString_string]
      · -- an index is looked for first
        have hnot : Command.readPosition? "index" (placeText "handle" n t) = none := by
          refine readPosition?_eq_none (by decide) ?_
          rw [placeText, takeWhile_append_space]
          decide
        rw [Command.readReference, hnot, readPosition?_place "handle" n h.trimmed, hindex, hhandle]
        exact bind_of_ok (number_numeral (h.handle n hhandle))
    | none =>
      -- without a place, the text must not begin like one
      obtain ⟨hne, hfront⟩ := h.front hindex hhandle
      rw [List.mem_cons, List.mem_singleton, not_or] at hfront
      refine ⟨t, ?_, hne, h.trimmed, h.line, ?_⟩
      · simp [position, hindex, hhandle, spaced, hne]
      · rw [Command.readReference, readPosition?_eq_none (by decide) hfront.1,
          readPosition?_eq_none (by decide) hfront.2, hindex, hhandle]
        rfl

/-- What the verb writes of the rule behind its place. -/
def Verb.ruleText (verb : Verb) (r : Rule) : String :=
  match verb with
  | .add | .insert | .replace => " " ++ r.text
  | _ => ""

theorem toList_ruleCommand (hscope : r.scope = key.scope) :
    (Rule.command verb r).toList = commandLine verb .rule key
      (' ' :: (r.chain.toList ++ (r.position.toList ++ (verb.ruleText r).toList))) ++ ['\n'] := by
  have hcommand : Rule.command verb r = s!"{verb.name} rule {r.scope.text} {r.chain}"
      ++ r.position ++ verb.ruleText r ++ "\n" := rfl
  rw [hcommand, hscope]
  simp [commandLine, Scope.text, TableKey.scope, familyText, toString_string, Kind.name]

theorem tail_rule {chain : String} {s : List Char} (hchain : PlainName chain) (hne : s ≠ [])
    (htrimmed : Trimmed s) (hline : '\n' ∉ s) : Tail (' ' :: (chain.toList ++ ' ' :: s)) := by
  refine ⟨?_, blank_head " " (by decide) _, ?_⟩
  · have hname : '\n' ∉ chain.toList := hchain.1.not_mem (by decide)
    simp [hname, hline]
  · intro c hc
    have hcut : ' ' :: (chain.toList ++ ' ' :: s) = (' ' :: (chain.toList ++ [' '])) ++ s := by
      simp
    rw [hcut, List.getLast?_append_of_ne_nil _ hne] at hc
    exact htrimmed.2 c hc

theorem readRule_behind {t s : List Char} {body : String} {comment : Option String}
    (hscope : r.scope = key.scope) (hchain : PlainName r.chain) (h : r.Behind t s)
    (hsplit : splitComment t = (body.toList, comment.map String.toList)) :
    Command.readRule key.scope (r.chain.toList ++ ' ' :: s) = .ok { r with body, comment } := by
  rw [Command.readRule, splitOnce_append (hchain.1.not_mem (by decide))]
  dsimp only
  rw [if_neg hchain.1.1, trim_eq_self h.trimmed]
  refine (bind_of_ok h.reading).trans ?_
  dsimp only
  rw [hsplit, comment_toList, String.ofList_toList, String.ofList_toList]
  obtain ⟨scope, chain, _, _, index, handle⟩ := r
  obtain rfl : scope = key.scope := hscope
  rfl

/-- A rule is read back with what is written of it, if that splits into a body and a comment. -/
theorem readsBack_placed (known : List Command.MapName) {t : List Char} {body : String}
    {comment : Option String} (hscope : r.scope = key.scope) (hchain : PlainName r.chain)
    (hplaced : r.Placed t) (hwritten : (verb.ruleText r).toList = spaced t)
    (hsplit : splitComment t = (body.toList, comment.map String.toList)) :
    ∃ tail rest, ReadsBack known key verb (.rule r) (.rule { r with body, comment }) tail rest := by
  obtain ⟨s, h⟩ := hplaced.behind
  refine ⟨' ' :: (r.chain.toList ++ ' ' :: s), r.chain.toList ++ ' ' :: s,
    tail_rule hchain h.nonempty h.trimmed h.line, expect_append " " _, ?_, ?_⟩
  · rw [← h.text, ← hwritten]
    exact toList_ruleCommand hscope
  · show Command.readObject _ _ .rule _ _ _ = _
    unfold Command.readObject
    dsimp only
    rw [String.ofList_toList]
    exact bind_of_ok (readRule_behind hscope hchain h hsplit)

/-- A rule with its text is read back. -/
theorem readsBack_rule (known : List Command.MapName) (hscope : r.scope = key.scope)
    (hverb : verb = .add ∨ verb = .insert ∨ verb = .replace) (hchain : PlainName r.chain)
    (hindex : ∀ n ∈ r.index, n ≤ maxWord) (hhandle : ∀ n ∈ r.handle, n ≤ maxWord)
    (hsingle : r.index = none ∨ r.handle = none) (hp : r.Plain) :
    ∃ tail rest, ReadsBack known key verb (.rule r) (.rule r) tail rest := by
  have htext := toList_ruleText r
  have hne : r.text.toList ≠ [] := by simp [htext, hp.nonempty]
  refine readsBack_placed known hscope hchain ⟨?_, ?_, hindex, hhandle, hsingle, fun _ _ => ?_⟩
    (t := r.text.toList) ?_ ?_
  · rw [htext]
    exact trimmed_commentText hp.trimmed hp.nonempty r.comment
  · rw [htext, List.mem_append, not_or]
    exact ⟨hp.line, not_mem_commentText r.comment⟩
  · -- the comment stands behind a space, so the first word is that of the body
    have hfront : r.text.toList.takeWhile (· ≠ ' ') = r.body.toList.takeWhile (· ≠ ' ') := by
      rw [htext]
      cases r.comment with
      | none => rw [show commentText none = [] from rfl, List.append_nil]
      | some c =>
        rw [commentText_some]
        exact takeWhile_append_space _ _
    exact ⟨hne, hfront ▸ hp.front⟩
  · rw [spaced, if_neg hne]
    rcases hverb with rfl | rfl | rfl <;> exact String.toList_append
  · rw [htext, splitComment_commentText hp.line hp.bare, map_reread hp.comment]

/-- Of a rule that is deleted by its handle, the body and the comment are not written. -/
theorem readsBack_deletedRule (known : List Command.MapName) (hscope : r.scope = key.scope)
    (hchain : PlainName r.chain) (hindex : r.index = none) (hsome : r.handle ≠ none)
    (hhandle : ∀ n ∈ r.handle, n ≤ maxWord) : ∃ tail rest, ReadsBack known key .delete
      (.rule r) (.rule { r with body := "", comment := none }) tail rest :=
  readsBack_placed known hscope hchain (t := [])
    ⟨by decide, by decide, by simp [hindex], hhandle, .inl hindex, fun _ h => absurd h hsome⟩ rfl
    rfl

end Rules

/-! ## Elements -/

section Elements

variable {key : TableKey} {verb : Verb} {name : String} {e : Element}

/-- What stands behind the table in the line of an element. -/
def elementText (name : String) (e : Element) : List Char :=
  name.toList ++ (" \x7b ".toList ++
    ((joinParts e.key).toList ++ (e.tail.toList ++ " \x7d".toList)))

theorem toList_tail (e : Element) : e.tail.toList = commentText e.comment ++
    if e.value = [] then [] else " : ".toList ++ (joinParts e.value).toList := by
  rw [Element.tail, String.toList_append]
  split
  · rfl
  · rw [String.toList_append]
    rfl

theorem readElementBody?_text (hname : PlainName name) :
    Command.readElementBody? (elementText name e)
      = some (name.toList, (joinParts e.key).toList ++ e.tail.toList) := by
  have hword := readWord_append hname.1 (blank_head " \x7b " (by decide)
    ((joinParts e.key).toList ++ (e.tail.toList ++ " \x7d".toList)))
  have hbrace := expect_append " \x7b "
    ((joinParts e.key).toList ++ (e.tail.toList ++ " \x7d".toList))
  have hdrop := dropSuffix?_append ((joinParts e.key).toList ++ e.tail.toList) " \x7d".toList
  rw [List.append_assoc] at hdrop
  simp only [Command.readElementBody?, elementText, hword, hbrace, hdrop, Option.bind_eq_bind,
    Option.bind_some]
  rfl

theorem tail_element (hname : PlainName name) (hp : e.PlainParts) :
    Tail (' ' :: elementText name e) := by
  refine ⟨?_, blank_head " " (by decide) _, ?_⟩
  · have hline : '\n' ∉ name.toList := hname.1.not_mem (by decide)
    have hkey : '\n' ∉ (joinParts e.key).toList := not_mem_joinParts hp.key (.inr rfl)
    have hvalue : '\n' ∉ (joinParts e.value).toList := not_mem_joinParts hp.value (.inr rfl)
    have hcomment := not_mem_commentText e.comment
    have htail : '\n' ∉ e.tail.toList := by
      rw [toList_tail]
      split <;> simp [hcomment, hvalue]
    simp [elementText, hline, hkey, htail]
  · intro c hc
    have hcut : ' ' :: elementText name e = (' ' :: (name.toList ++ (" \x7b ".toList ++
        ((joinParts e.key).toList ++ e.tail.toList)))) ++ " \x7d".toList := by
      simp [elementText]
    rw [hcut, List.getLast?_append_of_ne_nil _ (by decide)] at hc
    cases hc
    decide

/-- An element is read as what the line says that has what is written of it. -/
theorem readsBack_element {known : List Command.MapName} {w e' : Element} (hname : PlainName name)
    (hscope : e.scope = key.scope) (hcontainer : e.container = name) (hkey : w.key = e.key)
    (hwritten : verb.bodyOf e.tail = w.tail) (hp : w.PlainParts)
    (hread : Command.readElement (fun map => decide (⟨key.family, key.name, map⟩ ∈ known))
      key.scope (elementText name w) = .ok e') :
    ∃ tail rest, ReadsBack known key verb (.element e) (.element e') tail rest := by
  refine ⟨_, _, tail_element hname hp, expect_append " " _, ?_, ?_⟩
  · show (Element.command verb e).toList = _
    rw [Element.command, show (if verb.writesBody then e.tail else "") = w.tail from hwritten,
      hscope, hcontainer, ← hkey]
    simp [commandLine, elementText, Scope.text, TableKey.scope, familyText, toString_string,
      Object.kind, Kind.name]
  · show Command.readObject _ _ .element _ _ _ = _
    unfold Command.readObject
    dsimp only
    rw [String.ofList_toList]
    exact bind_of_ok hread

theorem key_of_plain (hkey : e.key ≠ []) (hp : e.PlainParts) :
    '"' ∉ (joinParts e.key).toList ∧ [':'] ∉ (joinParts e.key).toList.splitOn ' ' :=
  ⟨not_mem_joinParts hp.key (.inl rfl), fun hmem => (word_of_joinParts hkey hp.key hmem).2.1 rfl⟩

/-- The element of a map or of a set of this name, without a value. -/
def Element.ofKey (isMap : Bool) (scope : Scope) (name : String) (key : List String)
    (comment : Option String) : Element :=
  if isMap then { scope, map := some name, key, comment }
  else { scope, set := some name, key, comment }

namespace Element

variable {isMap : Bool} {scope : Scope} {name : String} {key : List String}
  {comment : Option String}

@[simp] theorem scope_ofKey : (ofKey isMap scope name key comment).scope = scope := by
  cases isMap <;> rfl

@[simp] theorem container_ofKey : (ofKey isMap scope name key comment).container = name := by
  cases isMap <;> rfl

@[simp] theorem key_ofKey : (ofKey isMap scope name key comment).key = key := by
  cases isMap <;> rfl

@[simp] theorem value_ofKey : (ofKey isMap scope name key comment).value = [] := by
  cases isMap <;> rfl

@[simp] theorem comment_ofKey : (ofKey isMap scope name key comment).comment = comment := by
  cases isMap <;> rfl

end Element

/-- Without a value, the known maps decide where an element belongs. -/
theorem readElement_key {isMap : String → Bool} (hname : PlainName name) (hkey : e.key ≠ [])
    (hvalue : e.value = []) (hp : e.PlainParts) :
    Command.readElement isMap key.scope (elementText name e)
      = .ok (.ofKey (isMap name) key.scope name e.key (e.comment.map reread)) := by
  -- no quote and no colon in the key: what is behind it is its comment
  obtain ⟨hquote, hcolon⟩ := key_of_plain hkey hp
  have htail : e.tail.toList = commentText e.comment := by
    rw [toList_tail, if_pos hvalue, List.append_nil]
  have hline : '\n' ∉ (joinParts e.key).toList := not_mem_joinParts hp.key (.inr rfl)
  have hsplit : splitComment _ = (_, (e.comment.map reread).map _) :=
    splitComment_commentText hline fun _ => not_endsInComment_of_quote hquote
  rw [Command.readElement, readElementBody?_text hname, htail]
  refine (bind_of_ok rfl).trans ?_
  dsimp only
  rw [splitMapValue?_none hquote hcolon, hsplit, splitParts_joinParts hkey hp.key,
    comment_toList, String.ofList_toList]
  cases isMap name <;> rfl

/-- With a value, it belongs to a map. -/
theorem readElement_value {isMap : String → Bool} (hname : PlainName name) (hkey : e.key ≠ [])
    (hvalue : e.value ≠ []) (hp : e.PlainParts) :
    Command.readElement isMap key.scope (elementText name e) = .ok
      { scope := key.scope, map := some name, key := e.key, value := e.value
        comment := e.comment.map reread } := by
  obtain ⟨hquote, hcolon⟩ := key_of_plain hkey hp
  have htail : e.tail.toList
      = commentText e.comment ++ (" : ".toList ++ (joinParts e.value).toList) := by
    rw [toList_tail, if_neg hvalue]
  have hline : '\n' ∉ (joinParts e.key).toList := not_mem_joinParts hp.key (.inr rfl)
  rw [Command.readElement, readElementBody?_text hname, htail]
  refine (bind_of_ok rfl).trans ?_
  dsimp only
  rw [splitMapValue?_value hquote hcolon e.comment hline (joinParts_ne_nil hkey hp.key)
    (joinParts_ne_nil hvalue hp.value) (not_mem_joinParts hp.value (.inl rfl))]
  dsimp only
  rw [splitParts_joinParts hkey hp.key, splitParts_joinParts hvalue hp.value, comment_toList,
    String.ofList_toList]
  rfl

/-- The element as it is read back: of the comment, not all escapes are understood. -/
def Element.reread (e : Element) : Element := { e with comment := e.comment.map Text.reread }

theorem Element.Plain.reread_eq (hp : e.Plain) : e.reread = e := by
  rw [Element.reread, map_reread hp.comment]

/-- An element of a set is read back as long as no map of that name is known. -/
theorem readsBack_setElement {known : List Command.MapName} (hname : PlainName name)
    (hw : e.InSet key name) (hverb : verb.Puts) (hkey : e.key ≠ []) (hp : e.PlainParts)
    (hknown : ⟨key.family, key.name, name⟩ ∉ known) :
    ∃ tail rest, ReadsBack known key verb (.element e) (.element e.reread) tail rest := by
  refine readsBack_element hname hw.scope (by rw [Element.container, hw.set]; rfl) rfl
    (hverb.bodyOf e.tail) hp ?_
  rw [readElement_key hname hkey hw.value hp, decide_eq_false hknown]
  obtain ⟨_, _, _, k, _, comment⟩ := e
  cases hw.scope
  cases hw.set
  cases hw.map
  cases hw.value
  rfl

theorem readsBack_mapElement (known : List Command.MapName) (hname : PlainName name)
    (hw : e.InMap key name) (hverb : verb.Puts) (hkey : e.key ≠ []) (hp : e.PlainParts) :
    ∃ tail rest, ReadsBack known key verb (.element e) (.element e.reread) tail rest := by
  refine readsBack_element hname hw.scope (by rw [Element.container, hw.set, hw.map]; rfl) rfl
    (hverb.bodyOf e.tail) hp ?_
  rw [readElement_value hname hkey hw.value hp]
  obtain ⟨_, _, _, k, value, comment⟩ := e
  cases hw.scope
  cases hw.set
  cases hw.map
  rfl

/-- Where no value is written of an element, only its container and its key are. -/
theorem readsBack_bareElement (known : List Command.MapName) (hb : verb.writesBody = false)
    (hscope : e.scope = key.scope) (hname : PlainName e.container) (hkey : e.key ≠ [])
    (hp : ∀ p ∈ e.key, PlainPart p) : ∃ tail rest, ReadsBack known key verb (.element e)
      (.element (.ofKey (decide (⟨key.family, key.name, e.container⟩ ∈ known)) key.scope
        e.container e.key none)) tail rest := by
  -- the element that is read is one whose text is what was written
  generalize hmap : decide (⟨key.family, key.name, e.container⟩ ∈ known) = isMap
  have hplain : (Element.ofKey isMap key.scope e.container e.key none).PlainParts :=
    ⟨by simpa using hp, by simp⟩
  have hwritten : verb.bodyOf e.tail
      = (Element.ofKey isMap key.scope e.container e.key none).tail := by
    simp [Verb.bodyOf, hb, Element.tail]
  refine readsBack_element hname hscope rfl Element.key_ofKey hwritten hplain ?_
  rw [readElement_key hname (by simpa using hkey) Element.value_ofKey hplain, hmap,
    Element.key_ofKey, Element.comment_ofKey]
  rfl

end Elements

end Nftables
