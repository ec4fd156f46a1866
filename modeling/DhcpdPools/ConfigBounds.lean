import DhcpdPools.ConfigAppends

/-!
Which elements of `word` the loop of `parse_config` reads and writes. The index stays
below `MAXLEN` in every run (`step_room`), so the only access outside the buffer is the
read of `word[i - 1]` when an empty word ends (`inBounds_iff`).
-/
namespace DhcpdPools.ConfigBounds
open Machine ConfigReader ConfigReading ConfigAppends

/-! ## What is accessed -/

/-- The elements of `word` that the loop body touches behind the `switch (c)`; the
    conditions are those of `afterSwitch`. -/
def touched (l : Lex) (c : Char) : List Int :=
  if l.comment ∨ l.newclause = false ∧ l.argument = .ITS_NOTHING_INTERESTING then []
  else if (l.newclause ∨ l.argument ≠ .ITS_NOTHING_INTERESTING) ∧ isspace c ∧ l.word = [] ∧ l.oneIpRange = false then []
  -- `word[i] = c`
  else if (l.newclause ∨ l.argument ≠ .ITS_NOTHING_INTERESTING) ∧ (isspace c = false ∨ l.quote) then [l.word.length]
  -- `word[i] = '\0'` and `word[i - 1] != '{'`
  else if l.newclause then [l.word.length, l.word.length - 1]
  -- `word[i] = '\0'`
  else if l.argument ≠ .ITS_NOTHING_INTERESTING then [l.word.length]
  else []

/-- The flags and the character with which the `switch (c)` is left by `break`, `none` for
    `continue` and `goto newrange`. -/
def leaves (l : Lex) (c : Char) : Option (Lex × Char) :=
  if c = '#' ∨ c = '"' then none
  else if c = '\n' then some (if l.quote then l else { l with comment := false }, c)
  else if c = ';' then
    if l.quote then some (l, c)
    else if l.argument = .ITS_A_RANGE_SECOND_IP ∧ l.word ≠ [] then some (l, ' ')
    else none
  else if c = '\x7b' then if l.quote ∨ l.word ≠ [] then some (l, c) else none
  else if c = '\x7d' then if l.quote then some (l, c) else none
  else some (l, c)

/-- The elements of `word` that the body of the loop touches. -/
def accesses (l : Lex) (c : Char) : List Int := (leaves l c).elim [] (fun left => touched left.1 left.2)

/-- No access is outside the buffer. -/
def InBounds (l : Lex) (c : Char) : Prop := ∀ k ∈ accesses l c, 0 ≤ k ∧ k < MAXLEN

instance (l : Lex) (c : Char) : Decidable (InBounds l c) := inferInstanceAs (Decidable (∀ _ ∈ _, _))

section
variable {env : Env} {incl : List Char → Nat → Globals → Except Stop Globals}

/-- The `switch (c)` keeps the word. -/
theorem leaves_word {l l' : Lex} {c d : Char} (left : leaves l c = some (l', d)) : l'.word = l.word := by
  rw [leaves] at left
  split_ifs at left
  all_goals
    obtain ⟨rfl, -⟩ := Prod.mk.inj (Option.some.inj left)
    rfl

/-- With these flags and this character the rest of the loop body runs. -/
theorem step_leaves {s : St} {c : Char} {l : Lex} {d : Char} (left : leaves s.lex c = some (l, d)) :
    ∃ core, core.g = s.core.g ∧ core.sharedP = s.core.sharedP ∧
      step env incl s c = afterSwitch env incl { s with core := core, lex := l, pos := s.pos + 1 } d := by
  have same : ∀ {l' : Lex} {d' : Char}, some (l', d') = some (l, d) → l' = l ∧ d' = d := fun equal =>
    Prod.mk.inj (Option.some.inj equal)
  rw [leaves] at left
  by_cases marks : c = '#' ∨ c = '"'
  · rw [if_pos marks] at left
    cases left
  rw [if_neg marks] at left
  rw [not_or] at marks
  by_cases newline : c = '\n'
  · rw [if_pos newline] at left
    obtain ⟨rfl, rfl⟩ := same left
    refine ⟨s.core, rfl, rfl, ?_⟩
    rw [step, if_neg marks.1, if_neg marks.2, if_pos newline]
    split_ifs <;> rfl
  rw [if_neg newline] at left
  by_cases semi : c = ';'
  · subst semi
    rw [if_pos rfl] at left
    rw [step_semi]
    by_cases quoted : s.lex.quote = true
    · rw [if_pos quoted] at left
      obtain ⟨rfl, rfl⟩ := same left
      exact ⟨s.core, rfl, rfl, if_pos quoted⟩
    · rw [if_neg quoted] at left
      split_ifs at left with second
      obtain ⟨rfl, rfl⟩ := same left
      exact ⟨s.core, rfl, rfl, semicolon_second (s := { s with pos := s.pos + 1 }) (by simpa using quoted) second.1 second.2⟩
  rw [if_neg semi] at left
  by_cases lbrace : c = '\x7b'
  · rw [if_pos lbrace] at left
    split_ifs at left with goes
    obtain ⟨rfl, rfl⟩ := same left
    rw [step, if_neg marks.1, if_neg marks.2, if_neg newline, if_neg semi, if_pos lbrace, openBrace]
    by_cases quoted : s.lex.quote = true
    · exact ⟨s.core, rfl, rfl, by rw [if_pos quoted, lbrace]⟩
    · have filled := goes.resolve_left quoted
      rw [if_neg quoted]
      by_cases comment : s.lex.comment = true
      · refine ⟨s.core, rfl, rfl, ?_⟩
        simp only [comment, if_true]
        rw [if_neg filled, lbrace]
      · refine ⟨s.core.opened, rfl, rfl, ?_⟩
        simp only [if_neg comment]
        rw [if_neg filled, lbrace]
  rw [if_neg lbrace] at left
  by_cases rbrace : c = '\x7d'
  · rw [if_pos rbrace] at left
    split_ifs at left with quoted
    obtain ⟨rfl, rfl⟩ := same left
    refine ⟨s.core, rfl, rfl, ?_⟩
    rw [step, if_neg marks.1, if_neg marks.2, if_neg newline, if_neg semi, if_neg lbrace, if_pos rbrace, closeBrace,
      if_pos quoted, rbrace]
  rw [if_neg rbrace] at left
  obtain ⟨rfl, rfl⟩ := same left
  exact ⟨s.core, rfl, rfl, step_other marks.1 marks.2 newline semi lbrace rbrace⟩

/-! ## The index stays below the size of the buffer -/

theorem newrange_word {s s' : St} (went : newrange s = .ok s') : s'.lex.word = s.lex.word := by
  unfold newrange at went
  split at went
  · cases went
  · split_ifs at went
    cases went
    rfl

/-- Behind an argument word the buffer is empty. -/
theorem argumentWord_word {s s' : St} (went : argumentWord env incl s = .ok s') : s'.lex.word = [] := by
  unfold argumentWord at went
  cases kind : s.lex.argument with
  | ITS_A_RANGE_SECOND_IP =>
    simp only [kind] at went
    exact newrange_word went
  | ITS_A_RANGE_FIRST_IP =>
    simp only [kind] at went
    split_ifs at went <;> (cases went; rfl)
  | ITS_A_SHAREDNET =>
    simp only [kind] at went
    obtain ⟨core, -, rest⟩ := bind_ok went
    cases rest
    rfl
  | ITS_A_SUBNET =>
    simp only [kind] at went
    split_ifs at went
    · cases went
      rfl
    · obtain ⟨core, -, rest⟩ := bind_ok went
      cases rest
      rfl
  | ITS_A_NETMASK =>
    simp only [kind] at went
    split_ifs at went
    · obtain ⟨out, -, rest⟩ := bind_ok went
      cases rest
      rfl
    · cases went
      rfl
    · cases went
      rfl
  | ITS_AN_INCLUCE =>
    simp only [kind] at went
    obtain ⟨g, -, rest⟩ := bind_ok went
    cases rest
    rfl
  | ITS_NOTHING_INTERESTING =>
    simp only [kind] at went
    cases went
    rfl

theorem afterSwitch_room {s s' : St} {c : Char} (room : s.lex.word.length < MAXLEN)
    (went : afterSwitch env incl s c = .ok s') : s'.lex.word.length < MAXLEN := by
  have none : ([] : List Char).length < MAXLEN := by decide
  dsimp only [afterSwitch] at went
  split_ifs at went with asleep skipped taken full new argument
  · cases went
    exact room
  · cases went
    exact room
  · cases went
    exact none
  · cases went
    simp only [List.length_append, List.length_singleton] at full ⊢
    omega
  · cases went
    exact none
  · rw [argumentWord_word went]
    exact none
  · cases went
    exact room

/-- What a step leaves that does not look at a word: the tables and the pointer; a block may end. -/
structure Stays (s s' : St) : Prop where
  globals : s'.core.g = s.core.g
  rangeP : s'.rangeP = s.rangeP
  owner : s'.core.sharedP = s.core.sharedP ∨ s'.core.sharedP = 0
  word : s'.lex.word = s.lex.word ∨ s'.lex.word = []

/-- Where the loop goes on at once, the word is kept or dropped, unless a range is completed. -/
theorem step_stays {s s' : St} {c : Char} (stays : leaves s.lex c = none) (single : ¬Completes s.lex c)
    (went : step env incl s c = .ok s') : Stays s s' := by
  rw [leaves] at stays
  by_cases hash : c = '#'
  · rw [step, if_pos hash] at went
    split_ifs at went <;> (cases went; exact ⟨rfl, rfl, .inl rfl, .inl rfl⟩)
  by_cases quote : c = '"'
  · rw [step, if_neg hash, if_pos quote] at went
    split_ifs at went <;> (cases went; exact ⟨rfl, rfl, .inl rfl, .inl rfl⟩)
  rw [if_neg (not_or.mpr ⟨hash, quote⟩)] at stays
  by_cases newline : c = '\n'
  · rw [if_pos newline] at stays
    cases stays
  rw [if_neg newline] at stays
  by_cases semi : c = ';'
  · subst semi
    rw [if_pos rfl] at stays
    split_ifs at stays with quoted second
    rw [step_semi] at went
    dsimp only [semicolon] at went
    split_ifs at went with _ _ complete
    · cases went
      exact ⟨rfl, rfl, .inl rfl, .inr rfl⟩
    · cases went
      exact ⟨rfl, rfl, .inl rfl, .inl rfl⟩
    · exact absurd ⟨rfl, by simpa using quoted, complete.1, complete.2⟩ single
    · cases went
      exact ⟨rfl, rfl, .inl rfl, .inl rfl⟩
  rw [if_neg semi] at stays
  by_cases lbrace : c = '\x7b'
  · rw [if_pos lbrace] at stays
    split_ifs at stays with goes
    rw [not_or, not_not] at goes
    rw [step, if_neg hash, if_neg quote, if_neg newline, if_neg semi, if_pos lbrace, openBrace, if_neg goes.1] at went
    by_cases comment : s.lex.comment = true
    · simp only [comment, if_true, goes.2] at went
      cases went
      exact ⟨rfl, rfl, .inl rfl, .inl goes.2.symm⟩
    · simp only [comment, Bool.false_eq_true, if_false, goes.2, if_true] at went
      cases went
      exact ⟨rfl, rfl, .inl rfl, .inl goes.2.symm⟩
  rw [if_neg lbrace] at stays
  by_cases rbrace : c = '\x7d'
  · rw [if_pos rbrace] at stays
    split_ifs at stays with quoted
    rw [step, if_neg hash, if_neg quote, if_neg newline, if_neg semi, if_neg lbrace, if_pos rbrace, closeBrace,
      if_neg quoted] at went
    split_ifs at went
    · cases went
      exact ⟨rfl, rfl, .inl rfl, .inl rfl⟩
    · cases went
      dsimp only [Core.close]
      split_ifs
      · exact ⟨rfl, rfl, .inr rfl, .inl rfl⟩
      · exact ⟨rfl, rfl, .inl rfl, .inl rfl⟩
  rw [if_neg rbrace] at stays
  cases stays

/-- A completed range goes through `newrange`. -/
theorem step_completed {s s' : St} {c : Char} (completes : Completes s.lex c) (went : step env incl s c = .ok s') :
    ∃ i, s.rangeP = some (s.core.g.allocation, i) ∧
      newrange { s with core := { s.core with g := s.core.g.lastIsFirst i }, pos := s.pos + 1 } = .ok s' := by
  rw [step_completes env incl completes] at went
  cases pointer : s.rangeP with
  | none =>
    rw [pointer] at went
    cases went
  | some p =>
    rw [pointer] at went
    dsimp only at went
    split_ifs at went with valid
    rw [← valid]
    exact ⟨p.2, rfl, went⟩

/-- The index is below `MAXLEN` at each loop head. -/
theorem step_room {s s' : St} {c : Char} (room : s.lex.word.length < MAXLEN) (went : step env incl s c = .ok s') :
    s'.lex.word.length < MAXLEN := by
  cases left : leaves s.lex c with
  | none =>
    by_cases completes : Completes s.lex c
    · obtain ⟨i, -, made⟩ := step_completed completes went
      have kept := newrange_word made
      rwa [kept]
    · rcases (step_stays left completes went).word with same | empty
      · rwa [same]
      · rw [empty]
        decide
  | some p =>
    obtain ⟨core, -, -, arm⟩ := @step_leaves env incl s c p.1 p.2 left
    rw [arm] at went
    refine afterSwitch_room ?_ went
    rwa [leaves_word left]

end

/-! ## The read in front of the buffer -/

/-- A word ends that has no letters, and a keyword is looked for in it. -/
def EmptyClause (l : Lex) (c : Char) : Prop :=
  l.word = [] ∧ l.newclause = true ∧ l.oneIpRange = true ∧ l.quote = false ∧ (l.comment = false ∨ c = '\n') ∧
    isspace c = true

instance (l : Lex) (c : Char) : Decidable (EmptyClause l c) := inferInstanceAs (Decidable (_ ∧ _))

/-- Behind the `switch (c)` the only index that can be wrong is `i - 1`. -/
theorem touched_inside_iff {l : Lex} {c : Char} (room : l.word.length < MAXLEN) :
    (∀ k ∈ touched l c, 0 ≤ k ∧ k < MAXLEN) ↔
      ¬(l.word = [] ∧ l.newclause = true ∧ l.oneIpRange = true ∧ l.quote = false ∧ l.comment = false ∧
        isspace c = true) := by
  have inside : (0 : Int) ≤ l.word.length ∧ (l.word.length : Int) < MAXLEN := ⟨Int.natCast_nonneg _, by exact_mod_cast room⟩
  rw [touched]
  split_ifs with asleep skipped taken new argument
  · refine iff_of_true (by simp) ?_
    rintro ⟨-, clause, -, -, code, -⟩
    rcases asleep with comment | ⟨off, -⟩
    · exact Bool.false_ne_true (code.symm.trans comment)
    · exact Bool.false_ne_true (off.symm.trans clause)
  · exact iff_of_true (by simp) (fun ends => Bool.false_ne_true (skipped.2.2.2.symm.trans ends.2.2.1))
  · refine iff_of_true (by simpa using inside) ?_
    rintro ⟨-, -, -, open_, -, space⟩
    rcases taken.2 with other | quoted
    · exact Bool.false_ne_true (other.symm.trans space)
    · exact Bool.false_ne_true (open_.symm.trans quoted)
  · -- Only here the index may be zero, and then everything else is as in an empty clause.
    have rest : l.word = [] → l.oneIpRange = true ∧ l.quote = false ∧ l.comment = false ∧ isspace c = true := by
      intro empty
      simp only [new, true_or, true_and, not_or, not_and, Bool.not_eq_false, Bool.not_eq_true] at asleep skipped taken
      exact ⟨skipped taken.1 empty, taken.2, asleep.1, taken.1⟩
    have enough : 0 ≤ (l.word.length : Int) - 1 ↔ l.word ≠ [] := by
      rw [← List.length_pos_iff]
      omega
    simp only [List.forall_mem_cons, List.not_mem_nil, false_implies, implies_true, and_true, enough, inside, true_and]
    constructor
    · exact fun filled ends => filled.1 ends.1
    · refine fun kept => ⟨fun empty => kept ?_, by omega⟩
      obtain ⟨one, open_, code, space⟩ := rest empty
      exact ⟨empty, new, one, open_, code, space⟩
  · exact iff_of_true (by simpa using inside) (fun ends => new ends.2.1)
  · exact iff_of_true (by simp) (fun ends => new ends.2.1)

/-- All accesses are inside the buffer exactly when no keyword is looked for in an empty word. -/
theorem inBounds_iff {l : Lex} {c : Char} (room : l.word.length < MAXLEN) : InBounds l c ↔ ¬EmptyClause l c := by
  have blank : ∀ {d : Char}, isspace c = true → isspace d = false → c ≠ d := by
    rintro d space other rfl
    exact Bool.false_ne_true (other.symm.trans space)
  have outside : (isspace c = true → False) → ¬EmptyClause l c := fun no ends => no ends.2.2.2.2.2
  rw [InBounds, accesses, leaves]
  by_cases marks : c = '#' ∨ c = '"'
  · rw [if_pos marks]
    refine iff_of_true (by simp) (outside fun space => ?_)
    rcases marks with rfl | rfl <;> cases space
  rw [if_neg marks]
  by_cases newline : c = '\n'
  · rw [if_pos newline, Option.elim_some]
    by_cases quoted : l.quote = true
    · rw [if_pos quoted, touched_inside_iff room]
      simp [EmptyClause, quoted]
    · rw [if_neg quoted, touched_inside_iff (by exact room)]
      simp [EmptyClause, newline]
  rw [if_neg newline]
  by_cases semi : c = ';'
  · have none_ := outside fun space => blank space (by decide : isspace ';' = false) semi
    rw [if_pos semi]
    refine iff_of_true ?_ none_
    split_ifs with quoted second
    · rw [Option.elim_some, touched_inside_iff room]
      simp [quoted]
    · rw [Option.elim_some, touched_inside_iff room]
      simp [second.2]
    · simp
  rw [if_neg semi]
  by_cases lbrace : c = '\x7b'
  · have none_ := outside fun space => blank space (by decide : isspace '\x7b' = false) lbrace
    rw [if_pos lbrace]
    refine iff_of_true ?_ none_
    split_ifs
    · rw [Option.elim_some, touched_inside_iff room, lbrace]
      simp [isspace]
    · simp
  rw [if_neg lbrace]
  by_cases rbrace : c = '\x7d'
  · have none_ := outside fun space => blank space (by decide : isspace '\x7d' = false) rbrace
    rw [if_pos rbrace]
    refine iff_of_true ?_ none_
    split_ifs
    · rw [Option.elim_some, touched_inside_iff room, rbrace]
      simp [isspace]
    · simp
  rw [if_neg rbrace, Option.elim_some, touched_inside_iff room]
  simp [EmptyClause, newline]

/-! ## Whole runs -/

section
variable {env : Env}

/-- Two properties of steps that agree under an invariant agree along a run. -/
theorem along_congr {incl : List Char → Nat → Globals → Except Stop Globals} {inner inner' : List Char → Nat → Globals → Prop}
    {P Q : Statement → St → Char → Except Stop St → Prop} {Inv : St → Prop}
    (keeps : ∀ {s s' c}, Inv s → step env incl s c = .ok s' → Inv s')
    (same : ∀ {w s c}, Inv s → (P w s c (step env incl s c) ↔ Q w s c (step env incl s c)))
    (included : ∀ {s c}, Inv s → Includes s.lex c →
      (inner (cstr s.lex.word) s.core.sharedP s.core.g ↔ inner' (cstr s.lex.word) s.core.sharedP s.core.g)) :
    ∀ (text : List Char) {w : Statement} {s : St}, Inv s →
      (Along env incl inner P w s text ↔ Along env incl inner' Q w s text)
  | [], _, _, _ => Iff.rfl
  | c :: rest, w, s, inv => by
    refine and_congr (same inv) (and_congr (imp_congr_right fun includes => included inv includes) ?_)
    cases outcome : step env incl s c with
    | error stop => exact Iff.rfl
    | ok s' => exact along_congr keeps same included rest (keeps inv outcome)

/-- They also agree through all files that a run includes, from where the invariant holds at the start of a file. -/
theorem throughout_congr {P Q : Statement → St → Char → Except Stop St → Prop} {Inv : St → Prop}
    {Begins : Nat → Globals → Prop}
    (begins : ∀ {sharedP g} (file : List Char), Begins sharedP g → Inv (start env { g with opened := g.opened ++ [file] } sharedP))
    (enters : ∀ {s}, Inv s → Begins s.core.sharedP s.core.g)
    (keeps : ∀ (depth : Nat) {s s' c}, Inv s → step env (parseConfig env depth) s c = .ok s' → Inv s')
    (same : ∀ (depth : Nat) {w s c}, Inv s →
      (P w s c (step env (parseConfig env depth) s c) ↔ Q w s c (step env (parseConfig env depth) s c))) :
    ∀ (depth : Nat) (file : List Char) (sharedP : Nat) (g : Globals), Begins sharedP g →
      (Throughout env P depth file sharedP g ↔ Throughout env Q depth file sharedP g)
  | 0, _, _, _, _ => Iff.rfl
  | depth + 1, file, sharedP, g, beginning => by
    unfold Throughout
    cases opened : env.files file with
    | none => exact Iff.rfl
    | some text =>
      exact along_congr (keeps depth) (same depth)
        (fun inv _ => throughout_congr begins enters keeps same depth _ _ _ (enters inv)) _ (begins file beginning)

/-- In a run over any bytes, at every level of include, the word buffer is accessed inside its bounds
    exactly when no blank ends an empty word in front of a new clause. -/
theorem word_bounds_iff (env : Env) : ∀ (depth : Nat) (file : List Char) (sharedP : Nat) (g : Globals),
    Throughout env (fun _ s c _ => InBounds s.lex c) depth file sharedP g ↔
      Throughout env (fun _ s c _ => ¬EmptyClause s.lex c) depth file sharedP g := by
  intro depth file sharedP g
  have begins : ([] : List Char).length < MAXLEN := by decide
  exact @throughout_congr env _ _ (fun s => s.lex.word.length < MAXLEN) (fun _ _ => True) (fun _ _ => begins)
    (fun _ => trivial) (fun _ => step_room) (fun _ => inBounds_iff) depth file sharedP g trivial

end

/-- `range }` makes the parser read the byte in front of the buffer. -/
theorem word_underrun :
    ¬Throughout (sampleEnv (oneFile "range \x7d\n")) (fun _ s c _ => InBounds s.lex c) 1 "dhcpd.conf".toList 0
      (emptyGlobals .IPvUNKNOWN) := by
  decide +kernel

end DhcpdPools.ConfigBounds
