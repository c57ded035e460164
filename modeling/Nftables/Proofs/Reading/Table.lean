import Nftables.Proofs.Reading

/-!
# Flowtables, counters and tables are read back

Of these bodies only the clauses that are looked for count, wherever they begin. What stands before
a clause must not begin like it.

The reader searches the text for a keyword and takes what stands behind it; text that it does not
know is passed over. So it is not enough that each clause is read where it begins: nothing in front
of it may begin in the same way. The clauses themselves see to that. A hook is made of bare words,
none of which has a brace, and the list of devices begins with a word that no hook has
(`find?_ingress`, `find?_devices`). A counter has one clause beside its comment.

The body of a table is the comment alone, read in another way than those of the other kinds: its
braces and blanks are stripped first, and the text may be missing altogether.
-/

namespace Nftables

open Text Clause

variable {key : TableKey} {verb : Verb}

/-! ## Flowtables -/

section Flowtables

variable {f : Flowtable} {family : Family}

/-- The clause for the devices of a flowtable. -/
def devicesClause (devices : List String) : String :=
  "devices = \x7b " ++ ", ".intercalate devices ++ " \x7d"

theorem inside_devices (devices : List String) : inside [devicesClause devices]
    = "devices = \x7b ".toList ++ ((", ".intercalate devices).toList ++
      (" \x7d".toList ++ " ;".toList)) := by
  simp [devicesClause, inside, padded]

theorem inside_ingress (priority : String) (clauses : List String) : ∃ rest,
    inside (("hook ingress priority" ++ " " ++ priority) :: clauses)
      = "hook ingress priority ".toList ++ (priority.toList ++ (" ;".toList ++ rest)) :=
  ⟨padded clauses, by simp [inside]⟩

/-- The clause for the hook of a flowtable has bare words in it. -/
theorem not_mem_ingress (hfits : PriorityFits family f.priority) {d : Char}
    (hd : ¬ Bare d ∧ d ≠ ' ') :
    ∀ c ∈ clause? "hook ingress priority" f.priority, d ∉ c.toList := by
  intro c hc
  obtain ⟨priority, hpriority, rfl⟩ := Option.map_eq_some_iff.mp (Option.mem_toList.mp hc)
  obtain ⟨v, hv⟩ := hfits priority hpriority
  have hbare : d ∉ priority.toList := (Priority.bareWord_of_read hv).not_mem hd.1
  have hkeyword : d ∉ "hook ingress priority ".toList := by
    intro hmem
    have hall : ∀ c ∈ "hook ingress priority ".toList, Bare c ∨ c = ' ' := by decide
    exact (hall d hmem).elim hd.1 hd.2
  have hcut : ("hook ingress priority" ++ " " ++ priority).toList
      = "hook ingress priority ".toList ++ priority.toList := by
    simp
  rw [hcut, List.mem_append, not_or]
  exact ⟨hkeyword, hbare⟩

/-- The hook of a flowtable comes back, if it has one. -/
theorem find?_ingress (hfits : PriorityFits family f.priority) (hp : f.Plain) :
    find? readIngressClause (inside f.clauses) = f.priority.map String.toList := by
  cases hpriority : f.priority with
  | none =>
    refine find?_eq_none (fun s a => prefix_of_readIngressClause) ?_
    by_cases hdevices : f.devices = []
    · rw [Flowtable.clauses, hpriority, hdevices]
      decide
    · rw [Flowtable.clauses, hpriority, if_neg hdevices]
      exact not_infix_devices hp.devices (inside_devices f.devices)
  | some priority =>
    obtain ⟨v, hv⟩ := hfits priority hpriority
    -- the hook is the first clause
    rw [Flowtable.clauses, hpriority]
    obtain ⟨rest, hrest⟩ := inside_ingress priority
      (if f.devices = [] then [] else [devicesClause f.devices])
    exact (congrArg _ hrest).trans
      (find?_head (readIngressClause_append (Priority.bareWord_of_read hv).word rest))

/-- The devices of a flowtable come back. -/
theorem find?_devices (hfits : PriorityFits family f.priority) (hp : f.Plain) :
    ((find? readDevicesClause (inside f.clauses)).map commaList).getD [] = f.devices := by
  have hingress := not_mem_inside (by decide) (not_mem_ingress hfits (d := '\x7b') (by decide))
  by_cases hdevices : f.devices = []
  · rw [Flowtable.clauses, if_pos hdevices, List.append_nil,
      find?_eq_none (fun s a => prefix_of_readDevicesClause)
        fun hin => hingress (hin.subset (by decide)), hdevices]
    rfl
  · -- the clause in front has no brace, so the devices begin where they were written
    have hlist : commaList (", ".intercalate f.devices).toList = f.devices := by
      rw [String.toList_intercalate]
      exact commaList_intercalate (show ∀ c ∈ [' '], c = ' ' by simp) hdevices hp.devices
    have hread := readDevicesClause_append hp.devices " ;".toList
    rw [← inside_devices] at hread
    have hfind : find? readDevicesClause (inside f.clauses)
        = some (", ".intercalate f.devices).toList := by
      rw [Flowtable.clauses, if_neg hdevices]
      by_cases hnil : clause? "hook ingress priority" f.priority = []
      · rw [hnil]
        exact find?_head hread
      · rw [inside_append hnil (by simp), ← List.singleton_append, ← List.append_assoc]
        refine find?_append (p := "evices = \x7b ".toList) (by decide)
          (fun s a => prefix_of_readDevicesClause) hread fun hin => ?_
        have hbrace := hin.subset (show '\x7b' ∈ _ by decide)
        rw [List.mem_append] at hbrace
        exact hbrace.elim hingress (by decide)
    rw [hfind, Option.map_some, Option.getD_some, hlist]

theorem bodyOf_flowtable (hfits : PriorityFits family f.priority) (hp : f.Plain) :
    BodyOf (braced f.clauses) f.clauses := by
  refine bodyOf_braced fun c hc => ?_
  rcases List.mem_append.mp hc with hc | hc
  · exact not_mem_ingress hfits (by decide) c hc
  · split at hc
    · cases hc
    · cases List.mem_singleton.mp hc
      have hlist : '\n' ∉ [',', ' '].intercalate (f.devices.map String.toList) :=
        not_mem_bareList (by decide) (by decide) hp.devices
      simp [hlist]

theorem readFlowtable_text (hscope : f.scope = key.scope) (hhandle : f.handle = none)
    (hfits : PriorityFits family f.priority) (hp : f.Plain) :
    Command.readFlowtable key.scope (f.name.toList ++ (braced f.clauses).toList) = .ok f := by
  refine (bind_of_ok (readTarget_append hp.name (bodyOf_flowtable hfits hp))).trans ?_
  dsimp only
  rw [find?_ingress hfits hp, find?_devices hfits hp]
  obtain ⟨scope, fname, priority, devices, handle⟩ := f
  obtain rfl : scope = key.scope := hscope
  obtain rfl : handle = none := hhandle
  have hpriority : (priority.map String.toList).map String.ofList = priority := by
    cases priority <;> simp
  rw [hpriority]
  rfl

theorem readsBack_flowtable (known : List Command.MapName) (hscope : f.scope = key.scope)
    (hhandle : f.handle = none) (hverb : verb.Puts) (hv : f.validate verb = .ok ())
    (hp : f.Plain) :
    ∃ tail rest, ReadsBack known key verb (.flowtable f) (.flowtable f) tail rest := by
  have hfits : PriorityFits key.family f.priority :=
    Flowtable.priority_of_validate (by rw [hscope]; rfl) hv
  refine readsBack_whole hverb hp.name (bodyOf_flowtable hfits hp) ?_ ?_
  · show Flowtable.command verb f = _
    rw [Flowtable.command, hscope, hhandle]
    rfl
  · show Command.readObject _ _ .flowtable _ _ _ = _
    unfold Command.readObject
    dsimp only
    rw [String.ofList_toList]
    exact bind_of_ok (readFlowtable_text hscope hhandle hfits hp)

end Flowtables

/-! ## Counters -/

section Counters

variable {c : Counter}

/-- The count clause of a counter that has both counts. -/
theorem countClause_eq {packets bytes : Nat} (hpackets : c.packets = some packets)
    (hbytes : c.bytes = some bytes) : c.countClause
      = ["packets" ++ " " ++ (toString packets ++ " " ++ ("bytes" ++ " " ++ toString bytes))] := by
  rw [Counter.countClause, hpackets, hbytes]
  refine congrArg (fun k => [k]) (String.toList_injective ?_)
  simp [toString_string]

/-- A counter has both counts or none. -/
def Counter.Whole (c : Counter) : Prop :=
  (c.packets = none ∧ c.bytes = none) ∨
    ∃ packets bytes, c.packets = some packets ∧ c.bytes = some bytes

theorem clean_countClause (hcounts : c.Whole) : ∀ k ∈ c.countClause, Clean k := by
  rcases hcounts with hnone | ⟨packets, bytes, hpackets, hbytes⟩
  · rw [Counter.countClause, if_pos hnone]
    exact fun k hk => absurd hk List.not_mem_nil
  · rw [countClause_eq hpackets hbytes, List.forall_mem_singleton]
    have hbytes' := (clean_of_bareWord (bareWord_toString bytes)).keyword (k := "bytes")
      (by decide)
    exact (hbytes'.keyword (bareWord_toString packets)).keyword (by decide)

theorem bodyOf_counter (hcounts : c.Whole) :
    BodyOf c.body (c.countClause ++ commentClause c.comment) := by
  have hbody := bodyOf_clauses (clean_countClause hcounts) c.comment
  unfold Counter.body
  split
  · rename_i hnil
    rw [hnil]
    exact bodyOf_empty
  · exact hbody

theorem find?_count {packets bytes : Nat} (hpackets : c.packets = some packets)
    (hbytes : c.bytes = some bytes) :
    find? readCountClause (inside c.countClause) = some (numeral packets, numeral bytes) := by
  have hinside : inside c.countClause = "packets ".toList ++ (numeral packets ++
      (" bytes ".toList ++ (numeral bytes ++ (" ;".toList ++ [])))) := by
    rw [countClause_eq hpackets hbytes]
    simp [inside, padded, numeral]
  rw [hinside]
  exact find?_head (readCountClause_append (digits_numeral packets) (digits_numeral bytes) [])

theorem readCounter_text (hscope : c.scope = key.scope) (hhandle : c.handle = none)
    (hcounts : c.Whole) (hp : c.Plain) :
    Command.readCounter key.scope (c.name.toList ++ c.body.toList) = .ok c := by
  have hclean := clean_countClause hcounts
  have hquote : '"' ∉ inside c.countClause :=
    not_mem_inside (by decide) fun k hk => (hclean k hk).not_mem (by decide)
  -- the comment comes first, as for sets and maps
  have htake := takeComment_inside (not_infix_of_quote hquote) (fun k hk => (hclean k hk).1)
    hp.comment
  refine (bind_of_ok (readTarget_append hp.name (bodyOf_counter hcounts))).trans ?_
  dsimp only
  rw [htake]
  dsimp only
  rw [comment_toList]
  rcases hcounts with ⟨hpackets, hbytes⟩ | ⟨packets, bytes, hpackets, hbytes⟩
  · -- without counts there is no clause to be found
    rw [Counter.countClause, if_pos ⟨hpackets, hbytes⟩]
    obtain ⟨scope, cname, comment, _, _, handle⟩ := c
    cases hscope
    cases hhandle
    cases hpackets
    cases hbytes
    rfl
  · rw [find?_count hpackets hbytes]
    dsimp only
    refine (bind_of_ok (number_numeral (hp.packets packets hpackets))).trans ?_
    refine (bind_of_ok (number_numeral (hp.bytes bytes hbytes))).trans ?_
    obtain ⟨scope, cname, comment, _, _, handle⟩ := c
    cases hscope
    cases hhandle
    cases hpackets
    cases hbytes
    rfl

theorem readsBack_counter (known : List Command.MapName) (hscope : c.scope = key.scope)
    (hhandle : c.handle = none) (hverb : verb.Puts) (hcounts : c.Whole) (hp : c.Plain) :
    ∃ tail rest, ReadsBack known key verb (.counter c) (.counter c) tail rest := by
  refine readsBack_whole hverb hp.name (bodyOf_counter hcounts) ?_ ?_
  · show Counter.command verb c = _
    rw [Counter.command, hscope, hhandle]
    rfl
  · show Command.readObject _ _ .counter _ _ _ = _
    unfold Command.readObject
    dsimp only
    rw [String.ofList_toList]
    exact bind_of_ok (readCounter_text hscope hhandle hcounts hp)

end Counters

/-! ## Tables -/

section Tables

variable {t : Table}

theorem bodyOf_table (t : Table) : BodyOf t.body (commentClause t.comment) := by
  unfold Table.body
  split
  · rename_i hnone
    rw [hnone]
    exact bodyOf_empty
  · exact bodyOf_braced (not_mem_commentClause t.comment)

theorem stripBraces_braced (s : List Char) :
    Command.stripBraces ('\x7b' :: ' ' :: (s ++ [' ', '\x7d'])) = ' ' :: (s ++ [' ']) := by
  have hfront : ('\x7b' :: ' ' :: (s ++ [' ', '\x7d'])).dropWhile (· = '\x7b')
      = ' ' :: (s ++ [' ', '\x7d']) := by
    rw [List.dropWhile_cons_of_pos (by decide), List.dropWhile_cons_of_neg (by decide)]
  have hback : (' ' :: (s ++ [' ', '\x7d'])).reverse = '\x7d' :: ' ' :: (s.reverse ++ [' ']) := by
    simp
  rw [Command.stripBraces, hfront, hback, List.dropWhile_cons_of_pos (by decide),
    List.dropWhile_cons_of_neg (by decide)]
  simp

/-- Of the body of a table, the comment comes back. -/
theorem readTable_text (hscope : t.scope = key.scope) (hhandle : t.handle = none)
    (hname : PlainName key.name) (hcomment : PlainComment t.comment) :
    ∃ rest, Command.readRest t.body.toList = some rest ∧
      Command.readTable key.family key.name.toList rest = .ok t := by
  -- a table that is named like the keyword would be taken for a handle
  have hkeyword : key.name.toList ≠ "handle".toList :=
    fun h => hname.2 (String.toList_injective h)
  obtain ⟨scope, comment, handle⟩ := t
  obtain rfl : scope = key.scope := hscope
  obtain rfl : handle = none := hhandle
  cases comment with
  | none =>
    refine ⟨[], rfl, ?_⟩
    rw [Command.readTable, if_neg hkeyword, String.ofList_toList]
    rfl
  | some c =>
    -- the braces and the blanks around the clause are taken off before it is read
    have hquote : ¬ "comment \"".toList <:+: inside [] := by decide
    have htake := takeComment_inside hquote (by simp) hcomment
    rw [List.nil_append] at htake
    obtain ⟨clause, hclause, -⟩ := toList_commentClause c
    have hinside : Trimmed (inside [clause]) :=
      trimmed_inside (hclause ▸ solid_commentClause (some c))
    have hbody : (Table.body { scope := key.scope, comment := some c }).toList
        = ' ' :: '\x7b' :: ' ' :: (inside [clause] ++ [' ', '\x7d']) := by
      rw [Table.body, if_neg (by simp), hclause, toList_braced, padded_cons]
      simp
    have htrimmed : Trimmed ('\x7b' :: ' ' :: (inside [clause] ++ [' ', '\x7d'])) := by
      have hcut : '\x7b' :: ' ' :: (inside [clause] ++ [' ', '\x7d'])
          = ['\x7b'] ++ (' ' :: (inside [clause] ++ [' '])) ++ ['\x7d'] := by
        simp
      rw [hcut]
      exact Trimmed.between (by decide) (by decide) (by simp) (by simp) _
    have hpad : trim (' ' :: (inside [clause] ++ [' '])) = inside [clause] :=
      trim_pad [' '] [' '] hinside (by decide) (by decide)
    refine ⟨_, by rw [hbody]; exact expect_append " " _, ?_⟩
    rw [Command.readTable, if_neg hkeyword, trim_eq_self htrimmed, stripBraces_braced, hpad,
      ← hclause, htake, String.ofList_toList]
    dsimp only
    rw [comment_toList]
    rfl

/-- A table is read back with what is written of it, the word behind its family as its name. -/
theorem readsBack_table (known : List Command.MapName) {t' : Table} (hscope : t.scope = key.scope)
    (hhandle : t.handle = none) (hscope' : t'.scope = key.scope) (hhandle' : t'.handle = none)
    (hwritten : verb.bodyOf t.body = t'.body) (hname : PlainName key.name)
    (hcomment : PlainComment t'.comment) :
    ∃ tail rest, ReadsBack known key verb (.table t) (.table t') tail rest := by
  obtain ⟨rest, hrest, hread⟩ := readTable_text hscope' hhandle' hname hcomment
  have hbody := bodyOf_table t'
  refine ⟨_, rest, ⟨hbody.line, head_of_readBody hbody.read, hbody.back⟩, hrest, ?_, ?_⟩
  · show (Table.command verb t).toList = _
    rw [Table.command, hscope, hhandle, namedLine_none, hwritten]
    simp [commandLine, TableKey.scope, familyText, toString_string]
    rfl
  · exact bind_of_ok hread

end Tables

end Nftables
