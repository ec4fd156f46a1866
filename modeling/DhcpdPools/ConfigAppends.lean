import DhcpdPools.ConfigReading

/-!
What a run of `parse_config` adds to `ranges`, on any bytes. Each character does one of
three things: it ends a word, it completes a range with one address, or it leaves the
globals (`step_quiet`). Along a run the range statement that is being read is carried
beside the state (`Statement`). As long as every second word parses and stands in its
statement, and every entry has a first address that waits for it (`Meets`), each entry
is made of addresses of its own statement and nothing else changes
(`parseConfig_appends`).
-/
namespace DhcpdPools.ConfigAppends
open Machine ConfigReader ConfigReading

/-! ## What a character does -/

/-- The character ends the word in the buffer, and the word is looked at. -/
def EndsWord (l : Lex) (c : Char) : Prop :=
  l.quote = false ∧ (l.comment = false ∨ c = '\n') ∧ (l.newclause = true ∨ l.argument ≠ .ITS_NOTHING_INTERESTING) ∧
    (isspace c = true ∧ (l.word ≠ [] ∨ l.oneIpRange = true) ∨
      c = ';' ∧ l.argument = .ITS_A_RANGE_SECOND_IP ∧ l.word ≠ [])

instance (l : Lex) (c : Char) : Decidable (EndsWord l c) := inferInstanceAs (Decidable (_ ∧ _))

/-- The semicolon completes a range that has one address. -/
def Completes (l : Lex) (c : Char) : Prop :=
  c = ';' ∧ l.quote = false ∧ l.argument = .ITS_A_RANGE_SECOND_IP ∧ l.word = []

instance (l : Lex) (c : Char) : Decidable (Completes l c) := inferInstanceAs (Decidable (_ ∧ _))

/-- The state in which an ended word is looked at. -/
def atWord (s : St) : St := { s with lex := { s.lex with comment := false }, pos := s.pos + 1 }

/-- Nothing that concerns the ranges happens. -/
structure Quiet (s s' : St) : Prop where
  globals : s'.core.g = s.core.g
  rangeP : s'.rangeP = s.rangeP
  oneIpRange : s'.lex.oneIpRange = s.lex.oneIpRange
  argument : s'.lex.argument = s.lex.argument ∨ s.lex.argument = .ITS_A_RANGE_FIRST_IP

section
variable (env : Env) (incl : List Char → Nat → Globals → Except Stop Globals)

theorem quiet_same (s : St) : Quiet s s := ⟨rfl, rfl, rfl, Or.inl rfl⟩

theorem Quiet.after {s s₁ s' : St} (first : Quiet s s₁) (argument : s₁.lex.argument = s.lex.argument)
    (second : Quiet s₁ s') : Quiet s s' :=
  ⟨second.1.trans first.1, second.2.trans first.2, second.3.trans first.3, argument ▸ second.4⟩

/-- Only the position and the comment flag are changed first. -/
theorem quiet_after {s : St} {comment : Bool} {pos : Nat} {x : Except Stop St}
    (went : ∃ s', x = .ok s' ∧ Quiet { s with lex := { s.lex with comment := comment }, pos := pos } s') :
    ∃ s', x = .ok s' ∧ Quiet s s' := by
  obtain ⟨s', same, quiet⟩ := went
  exact ⟨s', same, quiet.1, quiet.2, quiet.3, quiet.4⟩

/-- A character that does not end a word is skipped or goes into the buffer. -/
theorem afterSwitch_quiet (s : St) (c : Char) (goes : ¬(Awake s.lex ∧ isspace c = true ∧ s.lex.quote = false ∧
    (s.lex.word ≠ [] ∨ s.lex.oneIpRange = true))) : ∃ s', afterSwitch env incl s c = .ok s' ∧ Quiet s s' := by
  by_cases asleep : s.lex.comment = true ∨ s.lex.newclause = false ∧ s.lex.argument = .ITS_NOTHING_INTERESTING
  · exact ⟨s, if_pos asleep, quiet_same s⟩
  · rw [afterSwitch, if_neg asleep]
    have awake : Awake s.lex := by
      simp only [not_or, not_and, Bool.not_eq_true] at asleep
      refine ⟨asleep.1, ?_⟩
      by_cases new : s.lex.newclause = true
      · exact Or.inl new
      · exact Or.inr (asleep.2 (by simpa using new))
    by_cases skipped : (s.lex.newclause = true ∨ s.lex.argument ≠ .ITS_NOTHING_INTERESTING) ∧ isspace c = true ∧
        s.lex.word = [] ∧ s.lex.oneIpRange = false
    · rw [if_pos skipped]
      exact ⟨s, rfl, quiet_same s⟩
    · have taken : isspace c = false ∨ s.lex.quote = true := by
        by_contra ends
        simp only [not_or, Bool.not_eq_false, Bool.not_eq_true] at ends
        refine goes ⟨awake, ends.1, ends.2, ?_⟩
        by_contra empty
        simp only [not_or, not_not, Bool.not_eq_true] at empty
        exact skipped ⟨awake.2, ends.1, empty.1, empty.2⟩
      rw [if_neg skipped, if_pos ⟨awake.2, taken⟩]
      by_cases full : MAXLEN = (s.lex.word ++ [c]).length
      · rw [if_pos full]
        exact ⟨_, rfl, rfl, rfl, rfl, Or.inl rfl⟩
      · rw [if_neg full]
        exact ⟨_, rfl, rfl, rfl, rfl, Or.inl rfl⟩

/-- The word that a character ends is a clause word or an argument. -/
theorem step_word {s : St} {c : Char} (ends : EndsWord s.lex c) :
    step env incl s c =
      if s.lex.newclause then .ok (clauseWord env (atWord s)) else argumentWord env incl (atWord s) := by
  obtain ⟨open_, code, waits, ⟨blank, filled⟩ | ⟨rfl, second, filled⟩⟩ := ends
  · have reads : ∀ s₁ : St, s₁ = atWord s →
        afterSwitch env incl s₁ c =
          if s.lex.newclause then .ok (clauseWord env (atWord s)) else argumentWord env incl (atWord s) := by
      rintro s₁ rfl
      exact afterSwitch_end ⟨rfl, waits⟩ blank open_ filled
    rcases code with code | rfl
    · rw [step_space blank code]
      refine reads _ ?_
      rw [atWord, ← code]
    · have newline : step env incl s '\n' =
          afterSwitch env incl { s with lex := { s.lex with comment := false }, pos := s.pos + 1 } '\n' := by
        rw [step, if_neg (by decide), if_neg (by decide), if_pos rfl, if_neg (by rw [open_]; exact Bool.false_ne_true)]
      exact newline.trans (reads _ rfl)
  · have code' : s.lex.comment = false := code.resolve_right (by decide)
    have same : ({ s with pos := s.pos + 1 } : St) = atWord s := by rw [atWord, ← code']
    rw [step_semi, same, semicolon_second (s := atWord s) open_ second filled]
    exact afterSwitch_end ⟨rfl, waits⟩ rfl open_ (Or.inl filled)

/-- A semicolon behind the first address of a range makes an entry. -/
theorem step_completes {s : St} {c : Char} (completes : Completes s.lex c) :
    step env incl s c =
      match s.rangeP with
      | none => .error (.parsingFailed (s.pos + 1))
      | some (allocation, i) =>
        if allocation = s.core.g.allocation then
          newrange { s with core := { s.core with g := s.core.g.lastIsFirst i }, pos := s.pos + 1 }
        else .error .badPointer := by
  obtain ⟨rfl, open_, second, empty⟩ := completes
  rw [step_semi, semicolon, if_neg (by rw [open_]; exact Bool.false_ne_true), if_neg (by simp [second]),
    if_neg (by simp [second]), if_neg (by simp [empty])]
  exact if_pos ⟨second, empty⟩

theorem semicolon_quiet {s : St} (word : ¬EndsWord s.lex ';') (single : ¬Completes s.lex ';') :
    ∃ s', semicolon env incl s = .ok s' ∧ Quiet s s' := by
  by_cases open_ : s.lex.quote = true
  · rw [semicolon, if_pos open_]
    exact afterSwitch_quiet env incl s ';' (fun ends => absurd ends.2.1 (by decide))
  · rw [semicolon, if_neg open_]
    have unquoted : s.lex.quote = false := by simpa using open_
    by_cases other : s.lex.comment = false ∧ s.lex.argument ≠ .ITS_A_RANGE_FIRST_IP ∧
        s.lex.argument ≠ .ITS_A_RANGE_SECOND_IP ∧ s.lex.argument ≠ .ITS_AN_INCLUCE
    · rw [if_pos other]
      exact ⟨_, rfl, rfl, rfl, rfl, Or.inl rfl⟩
    · rw [if_neg other]
      by_cases first : s.lex.argument = .ITS_A_RANGE_FIRST_IP ∧ s.lex.oneIpRange = true
      · rw [if_pos first]
        exact ⟨_, rfl, rfl, rfl, rfl, Or.inr first.1⟩
      · rw [if_neg first]
        by_cases second : s.lex.argument = .ITS_A_RANGE_SECOND_IP
        · have filled : s.lex.word ≠ [] := fun empty => single ⟨rfl, unquoted, second, empty⟩
          rw [if_pos ⟨second, filled⟩]
          refine afterSwitch_quiet env incl s ' ' (fun ends => word ⟨unquoted, Or.inl ends.1.1, ends.1.2, Or.inr ?_⟩)
          exact ⟨rfl, second, filled⟩
        · rw [if_neg (fun both => second both.1), if_neg (fun both => second both.1)]
          exact ⟨s, rfl, quiet_same s⟩

theorem afterSwitch_brace (s : St) {c : Char} (brace : isspace c = false) :
    ∃ s', afterSwitch env incl s c = .ok s' ∧ Quiet s s' :=
  afterSwitch_quiet env incl s c (fun ends => absurd ends.2.1 (by rw [brace]; exact Bool.false_ne_true))

theorem openBrace_quiet (s : St) : ∃ s', openBrace env incl s = .ok s' ∧ Quiet s s' := by
  have entered : ∀ s₁ : St, Quiet s s₁ → s₁.lex = s.lex → ∃ s', (if s₁.lex.word = [] then
      .ok { s₁ with lex := { s₁.lex with newclause := true } } else afterSwitch env incl s₁ '\x7b') = .ok s' ∧
      Quiet s s' := by
    intro s₁ quiet same
    by_cases empty : s₁.lex.word = []
    · rw [if_pos empty]
      exact ⟨_, rfl, quiet.1, quiet.2, quiet.3, quiet.4⟩
    · rw [if_neg empty]
      obtain ⟨s', went, later⟩ := afterSwitch_brace env incl s₁ (c := '\x7b') (by decide)
      exact ⟨s', went, quiet.after (by rw [same]) later⟩
  unfold openBrace
  by_cases open_ : s.lex.quote = true
  · rw [if_pos open_]
    exact afterSwitch_brace env incl s (by decide)
  · rw [if_neg open_]
    refine entered (if s.lex.comment = true then s else { s with core := s.core.opened }) ?_ ?_
    · split_ifs
      · exact quiet_same s
      · exact ⟨rfl, rfl, rfl, Or.inl rfl⟩
    · split_ifs <;> rfl

theorem closeBrace_quiet (s : St) : ∃ s', closeBrace env incl s = .ok s' ∧ Quiet s s' := by
  unfold closeBrace
  by_cases open_ : s.lex.quote = true
  · rw [if_pos open_]
    exact afterSwitch_brace env incl s (by decide)
  · rw [if_neg open_]
    by_cases comment : s.lex.comment = true
    · rw [if_pos comment]
      exact ⟨s, rfl, quiet_same s⟩
    · rw [if_neg comment]
      refine ⟨_, rfl, ?_, rfl, rfl, Or.inl rfl⟩
      simp only [Core.close]
      split_ifs <;> rfl

/-- Any other character leaves the globals. -/
theorem step_quiet {s : St} {c : Char} (word : ¬EndsWord s.lex c) (single : ¬Completes s.lex c) :
    ∃ s', step env incl s c = .ok s' ∧ Quiet s s' := by
  have blank : ∀ {s₁ : St}, s₁.lex.newclause = s.lex.newclause → s₁.lex.argument = s.lex.argument →
      s₁.lex.word = s.lex.word → s₁.lex.oneIpRange = s.lex.oneIpRange → s₁.lex.quote = s.lex.quote →
      (s₁.lex.comment = false → s₁.lex.quote = false → s.lex.comment = false ∨ c = '\n') →
      ¬(Awake s₁.lex ∧ isspace c = true ∧ s₁.lex.quote = false ∧ (s₁.lex.word ≠ [] ∨ s₁.lex.oneIpRange = true)) := by
    rintro s₁ newclause argument words one quote code ⟨⟨comment, waits⟩, space, open_, filled⟩
    have read := code comment open_
    rw [newclause, argument] at waits
    rw [words, one] at filled
    exact word ⟨quote ▸ open_, read, waits, Or.inl ⟨space, filled⟩⟩
  by_cases hash : c = '#'
  · rw [step, if_pos hash]
    exact ⟨_, rfl, by split_ifs <;> exact ⟨rfl, rfl, rfl, Or.inl rfl⟩⟩
  by_cases quote : c = '"'
  · rw [step, if_neg hash, if_pos quote]
    exact ⟨_, rfl, by split_ifs <;> exact ⟨rfl, rfl, rfl, Or.inl rfl⟩⟩
  by_cases newline : c = '\n'
  · rw [step, if_neg hash, if_neg quote, if_pos newline]
    by_cases open_ : s.lex.quote = true
    · rw [if_pos open_]
      exact quiet_after (afterSwitch_quiet env incl { s with pos := s.pos + 1 } c
        (blank rfl rfl rfl rfl rfl (fun _ unquoted => absurd open_ (by rw [unquoted]; exact Bool.false_ne_true))))
    · rw [if_neg open_]
      exact quiet_after (afterSwitch_quiet env incl { s with lex := { s.lex with comment := false }, pos := s.pos + 1 } c
        (blank rfl rfl rfl rfl rfl (fun _ _ => Or.inr newline)))
  by_cases semi : c = ';'
  · subst semi
    rw [step_semi]
    exact quiet_after (semicolon_quiet env incl (s := { s with pos := s.pos + 1 }) word single)
  by_cases lbrace : c = '\x7b'
  · rw [step, if_neg hash, if_neg quote, if_neg newline, if_neg semi, if_pos lbrace]
    exact quiet_after (openBrace_quiet env incl { s with pos := s.pos + 1 })
  by_cases rbrace : c = '\x7d'
  · rw [step, if_neg hash, if_neg quote, if_neg newline, if_neg semi, if_neg lbrace, if_pos rbrace]
    exact quiet_after (closeBrace_quiet env incl { s with pos := s.pos + 1 })
  rw [step_other hash quote newline semi lbrace rbrace]
  exact quiet_after (afterSwitch_quiet env incl { s with pos := s.pos + 1 } c
    (blank rfl rfl rfl rfl rfl (fun code _ => Or.inl code)))

end

/-! ## What an entry is made of -/

section
variable (env : Env)

/-- `parse_ipaddr` on the word in the buffer. -/
def parsed (s : St) : DhcpVersion × Bool × Ipaddr :=
  parseIpaddr env.inet s.core.g.ipVersion (cstr s.lex.word) s.addr

/-- The first address of the range statement that is being read, from the word that
    parsed to the entry that is made of it. -/
def waiting (w : Option Ipaddr) (s : St) (c : Char) : Option Ipaddr :=
  if EndsWord s.lex c then
    if s.lex.newclause = false ∧ s.lex.argument = .ITS_A_RANGE_FIRST_IP ∧ (parsed env s).2.1 = true then
      some (parsed env s).2.2
    else none
  else if Completes s.lex c then none
  else w

/-- The statement that is being read: the first address of a range; is its semicolon read,
    outside of strings and comments; and has a character from behind the semicolon come into
    the word buffer? -/
structure Statement where
  first : Option Ipaddr
  ended : Bool
  stray : Bool

/-- No statement has begun. -/
def Statement.empty : Statement := ⟨none, false, false⟩

/-- The statement behind a character. A statement begins where its first word ends. -/
def Statement.next (w : Statement) (s : St) (c : Char) (s' : St) : Statement where
  first := if EndsWord s.lex c ∧ w.stray = true then none else waiting env w.first s c
  ended := if EndsWord s.lex c ∧ s.lex.newclause = true then false
    else w.ended || decide (c = ';' ∧ s.lex.quote = false ∧ s.lex.comment = false)
  stray := !s'.lex.word.isEmpty && (w.stray || w.ended && decide (s.lex.word.length < s'.lex.word.length))

/-- The result of a call of `parse_ipaddr` that succeeded on a word of the range
    statement: the first address, or the word that ends now. -/
def Heard (w : Statement) (s : St) (a : Ipaddr) : Prop :=
  w.first = some a ∨ w.stray = false ∧ (parsed env s).2.1 = true ∧ (parsed env s).2.2 = a

instance (w : Statement) (s : St) (a : Ipaddr) : Decidable (Heard env w s a) := inferInstanceAs (Decidable (_ ∨ _))

/-- The entry behind the last one is complete. -/
structure NewEntry (w : Statement) (s : St) (version : DhcpVersion) (r : Range) : Prop where
  first : Heard env w s r.firstIp
  last : Heard env w s r.lastIp
  ordered : ipcomp version r.firstIp r.lastIp ≤ 0
  counters : r.count = 0 ∧ r.touched = 0 ∧ r.backups = 0
  owner : r.sharedNet = some s.core.sharedP

/-- The word is the file of an include statement. -/
def Includes (l : Lex) (c : Char) : Prop := EndsWord l c ∧ l.newclause = false ∧ l.argument = .ITS_AN_INCLUCE

instance (l : Lex) (c : Char) : Decidable (Includes l c) := inferInstanceAs (Decidable (_ ∧ _))

/-- Entries are only added. -/
structure Grows (g g' : Globals) : Prop where
  length : g.numRanges ≤ g'.numRanges
  kept : ∀ i < g.numRanges, g'.ranges i = g.ranges i

/-- Nothing is changed in the table but one complete entry at the end; what an included
    file adds is said of its own run. -/
structure Appends (w : Statement) (s : St) (c : Char) (s' : St) : Prop where
  grows : Grows s.core.g s'.core.g
  entry : ¬Includes s.lex c → s'.core.g.numRanges = s.core.g.numRanges ∨
    s'.core.g.numRanges = s.core.g.numRanges + 1 ∧
      NewEntry env w s s'.core.g.ipVersion (s'.core.g.ranges s.core.g.numRanges)

/-- The second address of a range parses, and whatever makes an entry has a first address. -/
structure Addressed (w : Option Ipaddr) (s : St) (c : Char) : Prop where
  word : EndsWord s.lex c → s.lex.newclause = false → s.lex.argument = .ITS_A_RANGE_SECOND_IP →
    (parsed env s).2.1 = true ∧ (s.lex.oneIpRange = true ∨ w ≠ none)
  semicolon : Completes s.lex c → s.rangeP = none ∨ w ≠ none

/-- The second address of a range stands in its statement, too. -/
structure Meets (w : Statement) (s : St) (c : Char) : Prop extends Addressed env w.first s c where
  inside : EndsWord s.lex c → s.lex.newclause = false → s.lex.argument = .ITS_A_RANGE_SECOND_IP → w.stray = false

end

/-! ## The entries of the table -/

theorem Grows.refl (g : Globals) : Grows g g := ⟨Nat.le_refl _, fun _ _ => rfl⟩

theorem Grows.trans {g g' g'' : Globals} (first : Grows g g') (second : Grows g' g'') : Grows g g'' :=
  ⟨first.length.trans second.length,
    fun i inside => (second.kept i (Nat.lt_of_lt_of_le inside first.length)).trans (first.kept i inside)⟩

/-- An address that parsed is copied as it is. -/
theorem copyIpaddr_parsed {inet : Inet} {v : DhcpVersion} {word : List Char} {addr : Ipaddr}
    (parses : (parseIpaddr inet v word addr).2.1 = true) (dst : Ipaddr) :
    copyIpaddr (parseIpaddr inet v word addr).1 dst (parseIpaddr inet v word addr).2.2 =
      (parseIpaddr inet v word addr).2.2 := by
  cases v with
  | IPvUNKNOWN =>
    unfold parseIpaddr parseIpaddrInit at parses ⊢
    split_ifs at parses ⊢ <;> simp [parseIpaddrV4, parseIpaddrV6, copyIpaddr]
  | IPv4 => simp [parseIpaddr, parseIpaddrV4, copyIpaddr]
  | IPv6 => simp [parseIpaddr, parseIpaddrV6, copyIpaddr]

/-- The two addresses that the second one leaves behind the last entry, in their order. -/
theorem secondAddress_entry (g : Globals) (version : DhcpVersion) (one : Bool) (addr : Ipaddr) :
    let g' := g.secondAddress version one addr
    let old := g.ranges g.numRanges
    let first := if one then copyIpaddr version old.firstIp addr else old.firstIp
    let last := copyIpaddr version old.lastIp addr
    g'.numRanges = g.numRanges ∧ g'.ipVersion = version ∧ (∀ i < g.numRanges, g'.ranges i = g.ranges i) ∧
      ((g'.ranges g.numRanges).firstIp = first ∧ (g'.ranges g.numRanges).lastIp = last ∨
        (g'.ranges g.numRanges).firstIp = last ∧ (g'.ranges g.numRanges).lastIp = first) ∧
      ipcomp version (g'.ranges g.numRanges).firstIp (g'.ranges g.numRanges).lastIp ≤ 0 := by
  intro g' old first last
  have written : g' = ({ g with ipVersion := version }.setRange g.numRanges
      { old with firstIp := first, lastIp := last }).reorderLastFirst g.numRanges := by
    cases one <;> simp [g', old, first, last, Globals.secondAddress, Globals.copyFirst, Globals.copyLast, Globals.setRange]
  have others : ∀ r : Range, ∀ i < g.numRanges, Function.update g.ranges g.numRanges r i = g.ranges i := by
    intro r i inside
    exact Function.update_of_ne (Nat.ne_of_lt inside) r g.ranges
  rw [written, Globals.reorderLastFirst]
  simp only [Globals.setRange, Function.update_self, Function.update_idem]
  by_cases swapped : 0 < ipcomp version first last
  · rw [if_pos swapped]
    rw [ipcomp_pos] at swapped
    refine ⟨rfl, rfl, others _, Or.inr ?_, ?_⟩
    · simp
    · simpa [ipcomp_nonpos] using Nat.le_of_lt swapped
  · rw [if_neg swapped]
    refine ⟨rfl, rfl, others _, Or.inl ?_, ?_⟩
    · simp
    · simpa using swapped

/-- The entry that is finished at `newrange`. -/
theorem newrange_entry (g : Globals) (i owner : Nat) :
    (g.newrange i owner).numRanges = g.numRanges + 1 ∧ (g.newrange i owner).ipVersion = g.ipVersion ∧
      (g.newrange i owner).ranges = Function.update g.ranges i
        { g.ranges i with count := 0, touched := 0, backups := 0, sharedNet := some owner } := by
  unfold Globals.newrange Globals.setRange
  simp only
  split_ifs <;> exact ⟨rfl, rfl, rfl⟩

theorem newrange_ok {s s' : St} (went : newrange s = .ok s') :
    ∃ i, s.rangeP = some (s.core.g.allocation, i) ∧ s'.core.g = s.core.g.newrange i s.core.sharedP := by
  unfold newrange at went
  split at went
  · cases went
  · rename_i allocation i pointer
    split_ifs at went with valid
    subst valid
    cases went
    exact ⟨i, pointer, rfl⟩

/-! ## One character -/

/-- What is known of an address that waits. -/
def Waits (w : Option Ipaddr) (s : St) : Prop :=
  ∀ a, w = some a → s.lex.argument = .ITS_A_RANGE_SECOND_IP ∧ s.lex.oneIpRange = false ∧
    s.rangeP = some (s.core.g.allocation, s.core.g.numRanges) ∧ (s.core.g.ranges s.core.g.numRanges).firstIp = a

theorem waits_none (s : St) : Waits none s := fun _ none => by cases none

theorem Waits.quiet {w : Option Ipaddr} {s s' : St} (waits : Waits w s) (quiet : Quiet s s') : Waits w s' := by
  intro a some
  obtain ⟨second, one, pointer, first⟩ := waits a some
  rw [quiet.globals, quiet.rangeP, quiet.oneIpRange]
  refine ⟨?_, one, pointer, first⟩
  rcases quiet.argument with same | other
  · exact same.trans second
  · rw [second] at other
    cases other

section
variable {env : Env} {incl : List Char → Nat → Globals → Except Stop Globals}

theorem Appends.of_same {w : Statement} {s s' : St} {c : Char} (ranges : s'.core.g.ranges = s.core.g.ranges)
    (number : s'.core.g.numRanges = s.core.g.numRanges) : Appends env w s c s' :=
  ⟨⟨Nat.le_of_eq number.symm, fun _ _ => by rw [ranges]⟩, fun _ => Or.inl number⟩

/-- A finished entry behind the last one, made of addresses that were heard. -/
theorem appends_newrange {w : Statement} {s s₁ s' : St} {c : Char} (went : newrange s₁ = .ok s')
    (pointer : s₁.rangeP = some (s₁.core.g.allocation, s.core.g.numRanges))
    (number : s₁.core.g.numRanges = s.core.g.numRanges) (owner : s₁.core.sharedP = s.core.sharedP)
    (kept : ∀ i < s.core.g.numRanges, s₁.core.g.ranges i = s.core.g.ranges i)
    (first : Heard env w s (s₁.core.g.ranges s.core.g.numRanges).firstIp)
    (last : Heard env w s (s₁.core.g.ranges s.core.g.numRanges).lastIp)
    (ordered : ipcomp s₁.core.g.ipVersion (s₁.core.g.ranges s.core.g.numRanges).firstIp
      (s₁.core.g.ranges s.core.g.numRanges).lastIp ≤ 0) : Appends env w s c s' := by
  obtain ⟨i, place, made⟩ := newrange_ok went
  obtain rfl : s.core.g.numRanges = i := by
    rw [pointer] at place
    exact (Prod.mk.inj (Option.some.inj place)).2
  obtain ⟨length, version, ranges⟩ := newrange_entry s₁.core.g s.core.g.numRanges s₁.core.sharedP
  rw [← made] at length version ranges
  refine ⟨⟨by omega, ?_⟩, fun _ => Or.inr ⟨by omega, ?_⟩⟩
  · intro i inside
    rw [ranges, Function.update_of_ne (Nat.ne_of_lt inside), kept i inside]
  · rw [version, ranges, Function.update_self]
    exact ⟨first, last, ordered, ⟨rfl, rfl, rfl⟩, congrArg some owner⟩

theorem completes_appends {w : Statement} {s s' : St} {c : Char} (completes : Completes s.lex c)
    (waits : Waits w.first s) (meets : Addressed env w.first s c) (went : step env incl s c = .ok s') : Appends env w s c s' := by
  rw [step_completes env incl completes] at went
  cases pointed : s.rangeP with
  | none =>
    rw [pointed] at went
    cases went
  | some p =>
    obtain ⟨a, heard⟩ := Option.ne_none_iff_exists'.mp
      ((meets.semicolon completes).resolve_left (by rw [pointed]; exact Option.some_ne_none p))
    obtain ⟨-, -, pointer, first⟩ := waits a heard
    rw [pointer] at went
    simp only [if_true] at went
    have last : (s.core.g.lastIsFirst s.core.g.numRanges).ranges s.core.g.numRanges =
        { s.core.g.ranges s.core.g.numRanges with lastIp := (s.core.g.ranges s.core.g.numRanges).firstIp } := by
      simp [Globals.lastIsFirst, Globals.setRange]
    refine appends_newrange went rfl rfl rfl ?_ ?_ ?_ ?_
    · exact fun i inside => Function.update_of_ne (Nat.ne_of_lt inside) _ _
    · rw [last]
      exact Or.inl (first ▸ heard)
    · rw [last]
      exact Or.inl (first ▸ heard)
    · rw [last, ipcomp_nonpos]

theorem second_appends {w : Statement} {s s' : St} {c : Char} (second : s.lex.argument = .ITS_A_RANGE_SECOND_IP)
    (waits : Waits w.first s) (parses : (parsed env s).2.1 = true) (has : s.lex.oneIpRange = true ∨ w.first ≠ none)
    (inside : w.stray = false) (went : argumentWord env incl (atWord s) = .ok s') : Appends env w s c s' := by
  have arm : argumentWord env incl (atWord s) = newrange { atWord s with
      core := { s.core with g := s.core.g.secondAddress (parsed env s).1 s.lex.oneIpRange (parsed env s).2.2 }
      lex := { (atWord s).lex with
        newclause := false, word := [], argument := .ITS_NOTHING_INTERESTING, oneIpRange := false }
      addr := (parsed env s).2.2
      rangeP := some ((s.core.g.secondAddress (parsed env s).1 s.lex.oneIpRange (parsed env s).2.2).allocation,
        (s.core.g.secondAddress (parsed env s).1 s.lex.oneIpRange (parsed env s).2.2).numRanges) } := by
    simp only [argumentWord, atWord, second]
    rfl
  obtain ⟨number, version, kept, addresses, ordered⟩ :=
    secondAddress_entry s.core.g (parsed env s).1 s.lex.oneIpRange (parsed env s).2.2
  rw [arm] at went
  generalize s.core.g.secondAddress (parsed env s).1 s.lex.oneIpRange (parsed env s).2.2 = g' at *
  rw [← version] at ordered
  have here : Heard env w s (parsed env s).2.2 := Or.inr ⟨inside, parses, rfl⟩
  have copied : ∀ dst, copyIpaddr (parsed env s).1 dst (parsed env s).2.2 = (parsed env s).2.2 :=
    copyIpaddr_parsed parses
  have first : Heard env w s (if s.lex.oneIpRange = true then (parsed env s).2.2
      else (s.core.g.ranges s.core.g.numRanges).firstIp) := by
    by_cases one : s.lex.oneIpRange = true
    · rw [if_pos one]
      exact here
    · rw [if_neg one]
      obtain ⟨a, heard⟩ := Option.ne_none_iff_exists'.mp (has.resolve_left one)
      exact Or.inl ((waits a heard).2.2.2 ▸ heard)
  have both : Heard env w s (g'.ranges s.core.g.numRanges).firstIp ∧
      Heard env w s (g'.ranges s.core.g.numRanges).lastIp := by
    simp only [copied] at addresses
    rcases addresses with ⟨low, high⟩ | ⟨low, high⟩
    · rw [low, high]
      exact ⟨first, here⟩
    · rw [low, high]
      exact ⟨here, first⟩
  exact appends_newrange went (by rw [← number]) number rfl kept both.1 both.2 ordered

theorem first_appends {w : Statement} {s s' : St} {c : Char} (first : s.lex.argument = .ITS_A_RANGE_FIRST_IP)
    (went : argumentWord env incl (atWord s) = .ok s') :
    Appends env w s c s' ∧ ((parsed env s).2.1 = true → Waits (some (parsed env s).2.2) s') := by
  have arm : argumentWord env incl (atWord s) = if (parsed env s).2.1 = true then
      .ok { atWord s with
        core := { s.core with g := s.core.g.firstAddress (parsed env s).1 (parsed env s).2.2 }
        lex := { (atWord s).lex with
          newclause := false, word := [], oneIpRange := false, argument := .ITS_A_RANGE_SECOND_IP }
        addr := (parsed env s).2.2
        rangeP := some (s.core.g.allocation, s.core.g.numRanges) }
      else .ok { atWord s with
        core := { s.core with g := { s.core.g with ipVersion := (parsed env s).1 } }
        lex := { (atWord s).lex with newclause := false, word := [] }
        addr := (parsed env s).2.2
        rangeP := some (s.core.g.allocation, s.core.g.numRanges) } := by
    simp only [argumentWord, atWord, first]
    rfl
  rw [arm] at went
  by_cases parses : (parsed env s).2.1 = true
  · rw [if_pos parses] at went
    cases went
    refine ⟨⟨⟨Nat.le_refl _, ?_⟩, fun _ => Or.inl rfl⟩, ?_⟩
    · exact fun i inside => Function.update_of_ne (Nat.ne_of_lt inside) _ _
    · intro _ a same
      cases same
      refine ⟨rfl, rfl, rfl, ?_⟩
      simp only [Globals.firstAddress, Globals.copyFirst, Globals.setRange, Function.update_self]
      exact copyIpaddr_parsed parses _
  · rw [if_neg parses] at went
    cases went
    exact ⟨.of_same rfl rfl, fun holds => absurd holds parses⟩

theorem recordNetwork_ranges {k k' : Core} {name : List Char} {netmask : Int}
    (recorded : recordNetwork k name netmask = .ok k') :
    k'.g.ranges = k.g.ranges ∧ k'.g.numRanges = k.g.numRanges := by
  unfold recordNetwork at recorded
  simp only at recorded
  split_ifs at recorded
  cases recorded
  exact ⟨rfl, rfl⟩

theorem recordNetmask_ranges {k : Core} {addr : Ipaddr} {out : Core × Ipaddr}
    (recorded : recordNetmask k addr = .ok out) :
    out.1.g.ranges = k.g.ranges ∧ out.1.g.numRanges = k.g.numRanges := by
  obtain ⟨shifted, -, rest⟩ := bind_ok recorded
  cases rest
  exact ⟨rfl, rfl⟩

/-- A network, a netmask, an included file or a word without meaning. -/
theorem other_appends {w : Statement} {s s' : St} {c : Char} (ends : EndsWord s.lex c)
    (argument : s.lex.newclause = false)
    (notFirst : s.lex.argument ≠ .ITS_A_RANGE_FIRST_IP) (notSecond : s.lex.argument ≠ .ITS_A_RANGE_SECOND_IP)
    (included : Includes s.lex c → ∀ g', incl (cstr s.lex.word) s.core.sharedP s.core.g = .ok g' → Grows s.core.g g')
    (went : argumentWord env incl (atWord s) = .ok s') : Appends env w s c s' := by
  cases kind : s.lex.argument with
  | ITS_A_RANGE_FIRST_IP => exact absurd kind notFirst
  | ITS_A_RANGE_SECOND_IP => exact absurd kind notSecond
  | ITS_NOTHING_INTERESTING =>
    simp only [argumentWord, atWord, kind] at went
    cases went
    exact .of_same rfl rfl
  | ITS_A_SHAREDNET =>
    simp only [argumentWord, atWord, kind] at went
    obtain ⟨core, recorded, rest⟩ := bind_ok went
    cases rest
    obtain ⟨ranges, number⟩ := recordNetwork_ranges recorded
    exact .of_same ranges number
  | ITS_A_SUBNET =>
    simp only [argumentWord, atWord, kind] at went
    split_ifs at went with inside
    · cases went
      exact .of_same rfl rfl
    · obtain ⟨core, recorded, rest⟩ := bind_ok went
      cases rest
      obtain ⟨ranges, number⟩ := recordNetwork_ranges recorded
      exact .of_same ranges number
  | ITS_A_NETMASK =>
    simp only [argumentWord, atWord, kind] at went
    split_ifs at went with fill parses
    · obtain ⟨out, masked, rest⟩ := bind_ok went
      cases rest
      obtain ⟨ranges, number⟩ := recordNetmask_ranges masked
      exact .of_same ranges number
    · cases went
      exact .of_same rfl rfl
    · cases went
      exact .of_same rfl rfl
  | ITS_AN_INCLUCE =>
    have includes : Includes s.lex c := ⟨ends, argument, kind⟩
    simp only [argumentWord, atWord, kind] at went
    obtain ⟨g, read, rest⟩ := bind_ok went
    cases rest
    exact ⟨included includes g read, fun none => absurd includes none⟩

/-- The address that waits is the one that was recorded. -/
theorem next_first {w : Statement} {s s' : St} {c : Char} (known : (w.next env s c s').first ≠ none) :
    waiting env w.first s c ≠ none := by
  by_cases strays : EndsWord s.lex c ∧ w.stray = true
  · rw [Statement.next, if_pos strays] at known
    exact absurd rfl known
  · rwa [Statement.next, if_neg strays] at known

theorem waits_next {w : Statement} {s s' : St} {c : Char} (waits : Waits (waiting env w.first s c) s') :
    Waits (w.next env s c s').first s' := by
  by_cases strays : EndsWord s.lex c ∧ w.stray = true
  · rw [Statement.next, if_pos strays]
    exact waits_none s'
  · rw [Statement.next, if_neg strays]
    exact waits

/-- One character appends at most one complete entry, and the address that waits is known. -/
theorem step_appends {w : Statement} {s s' : St} {c : Char} (waits : Waits w.first s) (meets : Meets env w s c)
    (included : Includes s.lex c → ∀ g', incl (cstr s.lex.word) s.core.sharedP s.core.g = .ok g' → Grows s.core.g g')
    (went : step env incl s c = .ok s') : Appends env w s c s' ∧ Waits (waiting env w.first s c) s' := by
  by_cases ends : EndsWord s.lex c
  · rw [step_word env incl ends] at went
    by_cases clause : s.lex.newclause = true
    · rw [if_pos clause] at went
      cases went
      have reset : waiting env w.first s c = none := by simp [waiting, ends, clause]
      exact ⟨.of_same rfl rfl, reset ▸ waits_none _⟩
    · have argument : s.lex.newclause = false := by simpa using clause
      rw [if_neg clause] at went
      by_cases first : s.lex.argument = .ITS_A_RANGE_FIRST_IP
      · obtain ⟨appends, waits'⟩ := first_appends (c := c) (w := w) first went
        refine ⟨appends, ?_⟩
        by_cases parses : (parsed env s).2.1 = true
        · have next : waiting env w.first s c = some (parsed env s).2.2 := by simp [waiting, ends, argument, first, parses]
          exact next ▸ waits' parses
        · have next : waiting env w.first s c = none := by simp [waiting, ends, parses]
          exact next ▸ waits_none _
      · have reset : waiting env w.first s c = none := by simp [waiting, ends, first]
        refine ⟨?_, reset ▸ waits_none _⟩
        by_cases second : s.lex.argument = .ITS_A_RANGE_SECOND_IP
        · obtain ⟨parses, has⟩ := meets.word ends argument second
          exact second_appends second waits parses has (meets.inside ends argument second) went
        · exact other_appends ends argument first second included went
  · by_cases completes : Completes s.lex c
    · have reset : waiting env w.first s c = none := by simp [waiting, ends, completes]
      exact ⟨completes_appends completes waits meets.toAddressed went, reset ▸ waits_none _⟩
    · obtain ⟨s₁, same, quiet⟩ := step_quiet env incl ends completes
      rw [same] at went
      cases went
      have kept : waiting env w.first s c = w.first := by simp [waiting, ends, completes]
      refine ⟨.of_same (by rw [quiet.globals]) (by rw [quiet.globals]), ?_⟩
      rw [kept]
      exact waits.quiet quiet

end

/-! ## Whole runs -/

section
variable (env : Env)

/-- A property of every step of a run over some characters; `inner` is asked of the
    files that are included. -/
def Along (incl : List Char → Nat → Globals → Except Stop Globals) (inner : List Char → Nat → Globals → Prop)
    (P : Statement → St → Char → Except Stop St → Prop) : Statement → St → List Char → Prop
  | _, _, [] => True
  | w, s, c :: rest =>
    P w s c (step env incl s c) ∧
      (Includes s.lex c → inner (cstr s.lex.word) s.core.sharedP s.core.g) ∧
      match step env incl s c with
      | .ok s' => Along incl inner P (w.next env s c s') s' rest
      | .error _ => True

/-- A property of every step of a run of `parse_config` and of the runs for the files
    that it includes, at any depth. -/
def Throughout (P : Statement → St → Char → Except Stop St → Prop) : Nat → List Char → Nat → Globals → Prop
  | 0, _, _, _ => True
  | depth + 1, file, sharedP, g =>
    match env.files file with
    | none => True
    | some text =>
      Along env (parseConfig env depth) (Throughout P depth) P .empty
        (start env { g with opened := g.opened ++ [file] } sharedP) (text ++ [endOfFile])

/-- The step ends the program or appends as it should. -/
def Sound (w : Statement) (s : St) (c : Char) : Except Stop St → Prop
  | .ok s' => Appends env w s c s'
  | .error _ => True

section
variable {env} {incl : List Char → Nat → Globals → Except Stop Globals} {inner : List Char → Nat → Globals → Prop}

/-- Entries are only added along a run. -/
theorem along_grows : ∀ (text : List Char) {w : Statement} {s s' : St},
    Along env incl inner (Sound env) w s text → run (step env incl) s text = .ok s' → Grows s.core.g s'.core.g
  | [], _, s, _, _, went => by
    cases went
    exact .refl s.core.g
  | c :: rest, w, s, s', along, went => by
    obtain ⟨sound, -, later⟩ := along
    rw [run_cons] at went
    obtain ⟨s₁, stepped, ran⟩ := bind_ok went
    rw [stepped] at sound later
    exact sound.grows.trans (along_grows rest later ran)

/-- Steps that meet the condition are sound, as long as what is included is. -/
theorem along_sound {inner' : List Char → Nat → Globals → Prop}
    (mono : ∀ word sharedP g, inner word sharedP g → inner' word sharedP g)
    (grows : ∀ word sharedP g g', inner' word sharedP g → incl word sharedP g = .ok g' → Grows g g') :
    ∀ (text : List Char) {w : Statement} {s : St}, Waits w.first s →
      Along env incl inner (fun w s c _ => Meets env w s c) w s text → Along env incl inner' (Sound env) w s text
  | [], _, _, _, _ => trivial
  | c :: rest, w, s, waits, along => by
    obtain ⟨meets, included, later⟩ := along
    have included' := fun includes => mono _ _ _ (included includes)
    have stepped : ∀ s', step env incl s c = .ok s' → Appends env w s c s' ∧ Waits (waiting env w.first s c) s' := fun _ =>
      step_appends waits meets (fun includes g' read => grows _ _ _ g' (included' includes) read)
    refine ⟨?_, included', ?_⟩
    · cases outcome : step env incl s c with
      | error stop => trivial
      | ok s₁ => exact (stepped s₁ outcome).1
    · cases outcome : step env incl s c with
      | error stop => trivial
      | ok s₁ =>
        rw [outcome] at later
        exact along_sound mono grows rest (waits_next (stepped s₁ outcome).2) later

end

theorem throughout_grows : ∀ (depth : Nat) {file : List Char} {sharedP : Nat} {g g' : Globals},
    Throughout env (Sound env) depth file sharedP g → parseConfig env depth file sharedP g = .ok g' → Grows g g'
  | 0, _, _, _, _, _, read => by cases read
  | depth + 1, file, sharedP, g, g', sound, read => by
    unfold Throughout at sound
    unfold parseConfig at read
    cases opened : env.files file with
    | none =>
      rw [opened] at read
      cases read
    | some text =>
      rw [opened] at read sound
      obtain ⟨s, ran, rest⟩ := bind_ok read
      cases rest
      obtain ⟨length, kept⟩ := along_grows (text ++ [endOfFile]) sound ran
      exact ⟨length, kept⟩

instance (w : Option Ipaddr) (s : St) (c : Char) : Decidable (Addressed env w s c) :=
  decidable_of_iff ((EndsWord s.lex c → s.lex.newclause = false → s.lex.argument = .ITS_A_RANGE_SECOND_IP →
      (parsed env s).2.1 = true ∧ (s.lex.oneIpRange = true ∨ w ≠ none)) ∧
    (Completes s.lex c → s.rangeP = none ∨ w ≠ none))
    ⟨fun ⟨word, semicolon⟩ => ⟨word, semicolon⟩, fun ⟨word, semicolon⟩ => ⟨word, semicolon⟩⟩

instance (w : Statement) (s : St) (c : Char) : Decidable (Meets env w s c) :=
  decidable_of_iff (Addressed env w.first s c ∧
      (EndsWord s.lex c → s.lex.newclause = false → s.lex.argument = .ITS_A_RANGE_SECOND_IP → w.stray = false))
    ⟨fun ⟨addressed, inside⟩ => ⟨addressed, inside⟩, fun ⟨addressed, inside⟩ => ⟨addressed, inside⟩⟩

instance (g g' : Globals) : Decidable (Grows g g') :=
  decidable_of_iff (g.numRanges ≤ g'.numRanges ∧ ∀ i < g.numRanges, g'.ranges i = g.ranges i)
    ⟨fun ⟨length, kept⟩ => ⟨length, kept⟩, fun ⟨length, kept⟩ => ⟨length, kept⟩⟩

instance (w : Statement) (s : St) (version : DhcpVersion) (r : Range) : Decidable (NewEntry env w s version r) :=
  decidable_of_iff (Heard env w s r.firstIp ∧ Heard env w s r.lastIp ∧ ipcomp version r.firstIp r.lastIp ≤ 0 ∧
      (r.count = 0 ∧ r.touched = 0 ∧ r.backups = 0) ∧ r.sharedNet = some s.core.sharedP)
    ⟨fun ⟨first, last, ordered, counters, owner⟩ => ⟨first, last, ordered, counters, owner⟩,
      fun ⟨first, last, ordered, counters, owner⟩ => ⟨first, last, ordered, counters, owner⟩⟩

instance (w : Statement) (s : St) (c : Char) (s' : St) : Decidable (Appends env w s c s') :=
  decidable_of_iff (Grows s.core.g s'.core.g ∧ (¬Includes s.lex c → s'.core.g.numRanges = s.core.g.numRanges ∨
      s'.core.g.numRanges = s.core.g.numRanges + 1 ∧
        NewEntry env w s s'.core.g.ipVersion (s'.core.g.ranges s.core.g.numRanges)))
    ⟨fun ⟨grows, entry⟩ => ⟨grows, entry⟩, fun ⟨grows, entry⟩ => ⟨grows, entry⟩⟩

instance decidableSound (w : Statement) (s : St) (c : Char) : ∀ out, Decidable (Sound env w s c out)
  | .ok s' => inferInstanceAs (Decidable (Appends env w s c s'))
  | .error _ => isTrue trivial

/-- Is a property that can be decided at each step kept along a run? -/
instance decidableAlong (incl : List Char → Nat → Globals → Except Stop Globals) (inner : List Char → Nat → Globals → Prop)
    (P : Statement → St → Char → Except Stop St → Prop) [∀ word sharedP g, Decidable (inner word sharedP g)]
    [∀ w s c out, Decidable (P w s c out)] : ∀ (text : List Char) (w : Statement) (s : St),
    Decidable (Along env incl inner P w s text)
  | [], _, _ => isTrue trivial
  | c :: rest, w, s =>
    @instDecidableAnd _ _ inferInstance (@instDecidableAnd _ _ inferInstance
      (match step env incl s c with
      | .ok s' => decidableAlong incl inner P rest (w.next env s c s') s'
      | .error _ => isTrue trivial))

instance decidableThroughout (P : Statement → St → Char → Except Stop St → Prop)
    [∀ w s c out, Decidable (P w s c out)] : ∀ (depth : Nat) (file : List Char) (sharedP : Nat) (g : Globals),
    Decidable (Throughout env P depth file sharedP g)
  | 0, _, _, _ => isTrue trivial
  | depth + 1, file, sharedP, g =>
    have inner := decidableThroughout P depth
    match opened : env.files file with
    | none => isTrue (by rw [Throughout, opened]; trivial)
    | some text => decidable_of_iff (Along env (parseConfig env depth) (Throughout env P depth) P .empty
        (start env { g with opened := g.opened ++ [file] } sharedP) (text ++ [endOfFile])) (by rw [Throughout, opened])

end

/-- A main file that includes another one. -/
def sampleFiles (file : List Char) : Option (List Char) :=
  if file = "dhcpd.conf".toList then some "range 10.0.0.5 10.0.0.9;\ninclude \"more\";\nrange 10.0.0.9;\n".toList
  else if file = "more".toList then some "range 10.0.0.9 10.0.0.5;\n".toList
  else none

/-- A file with one text. -/
def oneFile (text : String) (_ : List Char) : Option (List Char) := some text.toList

/-- Is each step of the run over a text sound? -/
def soundText (text : String) : Bool :=
  decide (Throughout (sampleEnv (oneFile text)) (Sound (sampleEnv (oneFile text))) 1 "dhcpd.conf".toList 0
    (emptyGlobals .IPvUNKNOWN))

end DhcpdPools.ConfigAppends
