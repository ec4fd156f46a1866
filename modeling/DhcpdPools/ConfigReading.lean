import DhcpdPools.ConfigTokens

/-!
The reader and `next`. Behind each item that `next` follows, the variables of the
reader are those of the mode (`At`): one lemma for each kind of item says so, from
what one character does. A text that is laid out so is read as its tokens
(`readFile_tokens`).
-/
namespace DhcpdPools.ConfigReading
open Machine ConfigReader ConfigTokens

/-! ## Single characters -/

section
variable {env : Env} {incl : List Char → Nat → Globals → Except Stop Globals}

/-- The reader takes words: it waits for a clause or for an argument. -/
def Awake (l : Lex) : Prop := l.comment = false ∧ (l.newclause = true ∨ l.argument ≠ .ITS_NOTHING_INTERESTING)

theorem afterSwitch_asleep {s : St} (asleep : s.lex.newclause = false ∧ s.lex.argument = .ITS_NOTHING_INTERESTING) (c : Char) :
    afterSwitch env incl s c = .ok s :=
  if_pos (Or.inr asleep)

theorem afterSwitch_comment {s : St} (comment : s.lex.comment = true) (c : Char) :
    afterSwitch env incl s c = .ok s :=
  if_pos (Or.inl comment)

theorem Awake.not_asleep {l : Lex} (awake : Awake l) :
    ¬(l.comment = true ∨ l.newclause = false ∧ l.argument = .ITS_NOTHING_INTERESTING) := by
  rintro (comment | ⟨off, nothing⟩)
  · exact Bool.false_ne_true (awake.1.symm.trans comment)
  · rcases awake.2 with on | something
    · exact Bool.false_ne_true (off.symm.trans on)
    · exact something nothing

/-- Blanks in front of a word are skipped. -/
theorem afterSwitch_blank {s : St} {c : Char} (awake : Awake s.lex) (blank : isspace c = true)
    (empty : s.lex.word = []) (two : s.lex.oneIpRange = false) : afterSwitch env incl s c = .ok s := by
  rw [afterSwitch, if_neg awake.not_asleep, if_pos ⟨awake.2, blank, empty, two⟩]

/-- A blank ends a word. -/
theorem afterSwitch_end {s : St} {c : Char} (awake : Awake s.lex) (blank : isspace c = true)
    (open_ : s.lex.quote = false) (ends : s.lex.word ≠ [] ∨ s.lex.oneIpRange = true) :
    afterSwitch env incl s c = if s.lex.newclause then .ok (clauseWord env s) else argumentWord env incl s := by
  have kept : ¬((s.lex.newclause = true ∨ s.lex.argument ≠ .ITS_NOTHING_INTERESTING) ∧ isspace c = true ∧
      s.lex.word = [] ∧ s.lex.oneIpRange = false) := by
    rintro ⟨-, -, empty, two⟩
    rcases ends with filled | one
    · exact filled empty
    · exact Bool.false_ne_true (two.symm.trans one)
  have ended : ¬((s.lex.newclause = true ∨ s.lex.argument ≠ .ITS_NOTHING_INTERESTING) ∧
      (isspace c = false ∨ s.lex.quote = true)) := by
    simp [blank, open_]
  rw [afterSwitch, if_neg awake.not_asleep, if_neg kept, if_neg ended]
  by_cases new : s.lex.newclause = true
  · rw [if_pos new, if_pos new]
  · rw [if_neg new, if_neg new, if_pos (awake.2.resolve_left new)]

/-- Another character goes into the buffer. -/
theorem afterSwitch_append {s : St} {c : Char} (awake : Awake s.lex) (taken : isspace c = false ∨ s.lex.quote = true)
    (inside : isspace c = true → s.lex.word ≠ []) (room : s.lex.word.length + 1 ≠ MAXLEN) :
    afterSwitch env incl s c = .ok { s with lex := { s.lex with word := s.lex.word ++ [c] } } := by
  have kept : ¬((s.lex.newclause = true ∨ s.lex.argument ≠ .ITS_NOTHING_INTERESTING) ∧ isspace c = true ∧
      s.lex.word = [] ∧ s.lex.oneIpRange = false) := fun h => inside h.2.1 h.2.2.1
  rw [afterSwitch, if_neg awake.not_asleep, if_neg kept, if_pos ⟨awake.2, taken⟩, if_neg]
  simp only [List.length_append, List.length_singleton]
  omega

/-- The character that fills the buffer: the word is forgotten, and with it the statement. -/
theorem afterSwitch_full {s : St} {c : Char} (awake : Awake s.lex) (taken : isspace c = false ∨ s.lex.quote = true)
    (inside : isspace c = true → s.lex.word ≠ []) (full : s.lex.word.length + 1 = MAXLEN) :
    afterSwitch env incl s c = .ok { s with lex := { s.lex with newclause := false, word := [] } } := by
  have kept : ¬((s.lex.newclause = true ∨ s.lex.argument ≠ .ITS_NOTHING_INTERESTING) ∧ isspace c = true ∧
      s.lex.word = [] ∧ s.lex.oneIpRange = false) := fun h => inside h.2.1 h.2.2.1
  rw [afterSwitch, if_neg awake.not_asleep, if_neg kept, if_pos ⟨awake.2, taken⟩, if_pos]
  simp only [List.length_append, List.length_singleton]
  omega

/-- In an argument the buffer goes on when it was full. -/
theorem afterSwitch_push {s : St} {c : Char} (awake : Awake s.lex) (old : s.lex.newclause = false)
    (taken : isspace c = false ∨ s.lex.quote = true) (inside : isspace c = true → s.lex.word ≠ []) :
    afterSwitch env incl s c = .ok { s with lex := { s.lex with word := push s.lex.word c } } := by
  by_cases last : s.lex.word.length + 1 = MAXLEN
  · rw [afterSwitch_full awake taken inside last, push, if_pos last, ← old]
  · rw [push, if_neg last]
    exact afterSwitch_append awake taken inside last

/-- A character without a meaning of its own. -/
theorem step_other {s : St} {c : Char} (hash : c ≠ '#') (quote : c ≠ '"') (newline : c ≠ '\n') (semi : c ≠ ';')
    (lbrace : c ≠ '\x7b') (rbrace : c ≠ '\x7d') :
    step env incl s c = afterSwitch env incl { s with pos := s.pos + 1 } c := by
  rw [step, if_neg hash, if_neg quote, if_neg newline, if_neg semi, if_neg lbrace, if_neg rbrace]

theorem plain_iff {c : Char} : plain c = true ↔ isspace c = false ∧ c ≠ '#' ∧ c ≠ '"' ∧ c ≠ ';' ∧ c ≠ '\x7b' ∧
    c ≠ '\x7d' ∧ c ≠ '\x00' := by
  simp [plain, and_assoc]

theorem step_plain {s : St} {c : Char} (char : plain c = true) :
    step env incl s c = afterSwitch env incl { s with pos := s.pos + 1 } c := by
  obtain ⟨space, hash, quote, semi, lbrace, rbrace, -⟩ := plain_iff.mp char
  refine step_other hash quote ?_ semi lbrace rbrace
  rintro rfl
  cases space

theorem step_space {s : St} {c : Char} (space : isspace c = true) (code : s.lex.comment = false) :
    step env incl s c = afterSwitch env incl { s with pos := s.pos + 1 } c := by
  by_cases newline : c = '\n'
  · subst newline
    have same : ({ s.lex with comment := false } : Lex) = s.lex := by rw [← code]
    rw [step, if_neg (by decide), if_neg (by decide), if_pos rfl]
    split_ifs
    · rfl
    · rw [same]
  · refine step_other ?_ ?_ newline ?_ ?_ ?_ <;> rintro rfl <;> cases space

/-- A word goes into the buffer. -/
theorem run_word {w : List Char} (chars : ∀ c ∈ w, plain c = true) : ∀ {s : St}, Awake s.lex →
    s.lex.word.length + w.length < MAXLEN → run (step env incl) s w =
      .ok { s with lex := { s.lex with word := s.lex.word ++ w }, pos := s.pos + w.length } := by
  induction w with
  | nil =>
    intro s _ _
    simp
  | cons c w ih =>
    intro s awake room
    have char := chars c List.mem_cons_self
    simp only [List.length_cons] at room
    have first : step env incl s c =
        .ok { s with lex := { s.lex with word := s.lex.word ++ [c] }, pos := s.pos + 1 } := by
      rw [step_plain char]
      exact afterSwitch_append (s := { s with pos := s.pos + 1 }) awake (Or.inl (plain_iff.mp char).1)
        (fun space => by rw [(plain_iff.mp char).1] at space; cases space) (by simp only; omega)
    have rest := ih (fun d member => chars d (List.mem_cons_of_mem _ member))
      (s := { s with lex := { s.lex with word := s.lex.word ++ [c] }, pos := s.pos + 1 }) awake
      (by simp only [List.length_append, List.length_singleton]; omega)
    rw [run_ok _ first, rest]
    simp [Nat.add_assoc, Nat.add_comm 1]

/-- Words of a statement without meaning are read over. -/
theorem run_asleep {w : List Char} (chars : ∀ c ∈ w, plain c = true) : ∀ {s : St},
    s.lex.newclause = false ∧ s.lex.argument = .ITS_NOTHING_INTERESTING →
    run (step env incl) s w = .ok { s with pos := s.pos + w.length } := by
  induction w with
  | nil =>
    intro s _
    rfl
  | cons c w ih =>
    intro s asleep
    have first : step env incl s c = .ok { s with pos := s.pos + 1 } := by
      rw [step_plain (chars c List.mem_cons_self)]
      exact afterSwitch_asleep (s := { s with pos := s.pos + 1 }) asleep c
    have rest := ih (fun d member => chars d (List.mem_cons_of_mem _ member)) (s := { s with pos := s.pos + 1 }) asleep
    rw [run_ok _ first, rest]
    simp [Nat.add_assoc, Nat.add_comm 1]

/-- A word that is too long for the buffer is read over, with the rest of its statement. -/
theorem run_word_full {w : List Char} (chars : ∀ c ∈ w, plain c = true) : ∀ {s : St}, Awake s.lex →
    s.lex.argument = .ITS_NOTHING_INTERESTING → s.lex.word.length < MAXLEN → MAXLEN ≤ s.lex.word.length + w.length →
    run (step env incl) s w = .ok { s with lex := { s.lex with newclause := false, word := [] }, pos := s.pos + w.length } := by
  induction w with
  | nil =>
    intro s _ _ room full
    exact absurd full (Nat.not_le_of_lt room)
  | cons c w ih =>
    intro s awake nothing room full
    have char := chars c List.mem_cons_self
    have taken : isspace c = false := (plain_iff.mp char).1
    have inside : isspace c = true → s.lex.word ≠ [] := fun space => by rw [taken] at space; cases space
    have later := fun d member => chars d (List.mem_cons_of_mem c member)
    by_cases last : s.lex.word.length + 1 = MAXLEN
    · have first : step env incl s c = .ok { s with lex := { s.lex with newclause := false, word := [] }, pos := s.pos + 1 } := by
        rw [step_plain char]
        exact afterSwitch_full (s := { s with pos := s.pos + 1 }) awake (Or.inl taken) inside last
      have rest := @run_asleep env incl w later { s with lex := { s.lex with newclause := false, word := [] }, pos := s.pos + 1 }
        ⟨rfl, nothing⟩
      rw [run_ok _ first, rest]
      simp [Nat.add_assoc, Nat.add_comm 1]
    · have first : step env incl s c = .ok { s with lex := { s.lex with word := s.lex.word ++ [c] }, pos := s.pos + 1 } := by
        rw [step_plain char]
        exact afterSwitch_append (s := { s with pos := s.pos + 1 }) awake (Or.inl taken) inside (by simp only; omega)
      have rest := ih later (s := { s with lex := { s.lex with word := s.lex.word ++ [c] }, pos := s.pos + 1 }) awake nothing
        (by simp only [List.length_append, List.length_singleton]; omega)
        (by simp only [List.length_append, List.length_cons] at full ⊢; omega)
      rw [run_ok _ first, rest]
      simp [Nat.add_assoc, Nat.add_comm 1]

/-- An argument goes into the buffer, however long it is. -/
theorem run_word_push {w : List Char} (chars : ∀ c ∈ w, plain c = true) : ∀ {s : St}, Awake s.lex →
    s.lex.newclause = false → run (step env incl) s w =
      .ok { s with lex := { s.lex with word := w.foldl push s.lex.word }, pos := s.pos + w.length } := by
  induction w with
  | nil =>
    intro s _ _
    rfl
  | cons c w ih =>
    intro s awake old
    have char := chars c List.mem_cons_self
    have first : step env incl s c =
        .ok { s with lex := { s.lex with word := push s.lex.word c }, pos := s.pos + 1 } := by
      rw [step_plain char]
      exact afterSwitch_push (s := { s with pos := s.pos + 1 }) awake old (Or.inl (plain_iff.mp char).1)
        (fun space => by rw [(plain_iff.mp char).1] at space; cases space)
    have rest := ih (fun d member => chars d (List.mem_cons_of_mem _ member))
      (s := { s with lex := { s.lex with word := push s.lex.word c }, pos := s.pos + 1 }) awake old
    rw [run_ok _ first, rest]
    simp [Nat.add_assoc, Nat.add_comm 1]

/-! ## Quoted strings and comments -/

theorem step_quoted {s : St} {c : Char} (inside : s.lex.quote = true) (quote : c ≠ '"') (hash : c ≠ '#') :
    step env incl s c = afterSwitch env incl { s with pos := s.pos + 1 } c := by
  rw [step, if_neg hash, if_neg quote]
  by_cases newline : c = '\n'
  · rw [if_pos newline, if_pos inside]
  · rw [if_neg newline]
    by_cases semi : c = ';'
    · rw [if_pos semi, semicolon, if_pos inside, semi]
    · rw [if_neg semi]
      by_cases lbrace : c = '\x7b'
      · rw [if_pos lbrace, openBrace, if_pos inside, lbrace]
      · rw [if_neg lbrace]
        by_cases rbrace : c = '\x7d'
        · rw [if_pos rbrace, closeBrace, if_pos inside, rbrace]
        · rw [if_neg rbrace]

theorem step_quoted_hash {s : St} (inside : s.lex.quote = true) :
    step env incl s '#' = .ok { s with pos := s.pos + 1 } := by
  rw [step, if_pos rfl, if_pos inside]

/-- The text of a string in a statement without meaning is read over. -/
theorem run_quoted_asleep {q : List Char} (text : '"' ∉ q) : ∀ {s : St}, s.lex.quote = true →
    s.lex.newclause = false ∧ s.lex.argument = .ITS_NOTHING_INTERESTING →
    run (step env incl) s q = .ok { s with pos := s.pos + q.length } := by
  induction q with
  | nil =>
    intro s _ _
    rfl
  | cons c q ih =>
    intro s inside asleep
    simp only [List.mem_cons, not_or] at text
    have first : step env incl s c = .ok { s with pos := s.pos + 1 } := by
      by_cases hash : c = '#'
      · rw [hash, step_quoted_hash inside]
      · rw [step_quoted inside (Ne.symm text.1) hash]
        exact afterSwitch_asleep (s := { s with pos := s.pos + 1 }) asleep c
    have rest := ih text.2 (s := { s with pos := s.pos + 1 }) inside asleep
    rw [run_ok _ first, rest]
    simp [Nat.add_assoc, Nat.add_comm 1]

/-- The buffer while a string is read, from what is in it already. -/
def stow : List Char → List Char → List Char
  | u, [] => u
  | u, c :: q => if c = '#' ∨ isspace c ∧ u = [] then stow u q else stow (u ++ [c]) q

theorem stow_filled {u : List Char} (filled : u ≠ []) (q : List Char) : stow u q = u ++ q.filter (fun c => c ≠ '#') := by
  induction q generalizing u with
  | nil => simp [stow]
  | cons c q ih =>
    by_cases hash : c = '#'
    · rw [stow, if_pos (Or.inl hash), ih filled]
      simp [hash]
    · rw [stow, if_neg (by simp [hash, filled]), ih (by simp)]
      simp [hash]

theorem stow_quotedWord (q : List Char) : stow [] q = quotedWord q := by
  induction q with
  | nil => rfl
  | cons c q ih =>
    unfold quotedWord at ih ⊢
    by_cases hash : c = '#'
    · rw [stow, if_pos (Or.inl hash), ih]
      simp [hash]
    · by_cases space : isspace c = true
      · rw [stow, if_pos (Or.inr ⟨space, rfl⟩), ih]
        simp [hash, space]
      · rw [stow, if_neg (by simp [hash, space]), stow_filled (by simp)]
        simp [hash, space]

theorem stow_length (u q : List Char) : u.length ≤ (stow u q).length := by
  induction q generalizing u with
  | nil => exact Nat.le_refl _
  | cons c q ih =>
    rw [stow]
    split_ifs
    · exact ih u
    · exact Nat.le_trans (by simp) (ih (u ++ [c]))

/-- The text of a string goes into the buffer. -/
theorem run_quoted {q : List Char} (text : '"' ∉ q) : ∀ {s : St}, s.lex.quote = true → Awake s.lex →
    s.lex.oneIpRange = false → (stow s.lex.word q).length < MAXLEN → run (step env incl) s q =
      .ok { s with lex := { s.lex with word := stow s.lex.word q }, pos := s.pos + q.length } := by
  induction q with
  | nil =>
    intro s _ _ _ _
    rfl
  | cons c q ih =>
    intro s inside awake two room
    simp only [List.mem_cons, not_or] at text
    by_cases lost : c = '#' ∨ isspace c = true ∧ s.lex.word = []
    · have first : step env incl s c = .ok { s with pos := s.pos + 1 } := by
        rcases lost with rfl | ⟨blank, empty⟩
        · exact step_quoted_hash inside
        · rw [step_quoted inside (Ne.symm text.1) (by rintro rfl; cases blank)]
          exact afterSwitch_blank (s := { s with pos := s.pos + 1 }) awake blank empty two
      rw [stow, if_pos lost] at room
      have rest := ih text.2 (s := { s with pos := s.pos + 1 }) inside awake two room
      rw [run_ok _ first, rest, stow, if_pos lost]
      simp [Nat.add_assoc, Nat.add_comm 1]
    · rw [not_or, not_and] at lost
      rw [stow, if_neg (by simpa [lost.1] using lost.2)] at room
      have longer := stow_length (s.lex.word ++ [c]) q
      have first : step env incl s c =
          .ok { s with lex := { s.lex with word := s.lex.word ++ [c] }, pos := s.pos + 1 } := by
        rw [step_quoted inside (Ne.symm text.1) lost.1]
        refine afterSwitch_append (s := { s with pos := s.pos + 1 }) awake (Or.inr inside) lost.2 ?_
        simp only [List.length_append, List.length_singleton] at longer ⊢
        omega
      have rest := ih text.2 (s := { s with lex := { s.lex with word := s.lex.word ++ [c] }, pos := s.pos + 1 })
        inside awake two room
      rw [run_ok _ first, rest, stow, if_neg (by simpa [lost.1] using lost.2)]
      simp [Nat.add_assoc, Nat.add_comm 1]

/-- The text of an argument goes into the buffer, however long it is. -/
theorem run_quoted_push {q : List Char} (text : '"' ∉ q) : ∀ {s : St}, s.lex.quote = true → Awake s.lex →
    s.lex.newclause = false → s.lex.oneIpRange = false → run (step env incl) s q =
      .ok { s with lex := { s.lex with word := pour s.lex.word (gluedText q) }, pos := s.pos + q.length } := by
  induction q with
  | nil =>
    intro s _ _ _ _
    rfl
  | cons c q ih =>
    intro s inside awake old two
    simp only [List.mem_cons, not_or] at text
    by_cases hash : c = '#'
    · subst hash
      have rest := ih text.2 (s := { s with pos := s.pos + 1 }) inside awake old two
      rw [run_ok _ (step_quoted_hash inside), rest]
      simp [gluedText, Nat.add_assoc, Nat.add_comm 1]
    · have text' : gluedText (c :: q) = c :: gluedText q := by simp [gluedText, hash]
      have arm := @step_quoted env incl s c inside (Ne.symm text.1) hash
      rw [text', pour]
      by_cases lost : isspace c = true ∧ s.lex.word = []
      · have first : step env incl s c = .ok { s with pos := s.pos + 1 } := by
          rw [arm]
          exact afterSwitch_blank (s := { s with pos := s.pos + 1 }) awake lost.1 lost.2 two
        have rest := ih text.2 (s := { s with pos := s.pos + 1 }) inside awake old two
        rw [run_ok _ first, rest, if_pos lost]
        simp [Nat.add_assoc, Nat.add_comm 1]
      · have first : step env incl s c =
            .ok { s with lex := { s.lex with word := push s.lex.word c }, pos := s.pos + 1 } := by
          rw [arm]
          exact afterSwitch_push (s := { s with pos := s.pos + 1 }) awake old (Or.inr inside) (fun blank empty => lost ⟨blank, empty⟩)
        have rest := ih text.2 (s := { s with lex := { s.lex with word := push s.lex.word c }, pos := s.pos + 1 }) inside awake
          old two
        rw [run_ok _ first, rest, if_neg lost]
        simp [Nat.add_assoc, Nat.add_comm 1]

/-- So is a string that makes the word too long. -/
theorem run_quoted_full {q : List Char} (text : '"' ∉ q) : ∀ {s : St}, s.lex.quote = true → Awake s.lex →
    s.lex.argument = .ITS_NOTHING_INTERESTING → s.lex.word ≠ [] → s.lex.word.length < MAXLEN →
    MAXLEN ≤ (stow s.lex.word q).length → run (step env incl) s q =
      .ok { s with lex := { s.lex with newclause := false, word := [] }, pos := s.pos + q.length } := by
  induction q with
  | nil =>
    intro s _ _ _ _ room full
    exact absurd full (Nat.not_le_of_lt room)
  | cons c q ih =>
    intro s inside awake nothing filled room full
    simp only [List.mem_cons, not_or] at text
    by_cases lost : c = '#'
    · subst lost
      rw [stow, if_pos (Or.inl rfl)] at full
      have rest := ih text.2 (s := { s with pos := s.pos + 1 }) inside awake nothing filled room full
      rw [run_ok _ (step_quoted_hash inside), rest]
      simp [Nat.add_assoc, Nat.add_comm 1]
    · rw [stow, if_neg (by simp [lost, filled])] at full
      have arm := @step_quoted env incl s c inside (Ne.symm text.1) lost
      by_cases last : s.lex.word.length + 1 = MAXLEN
      · have first : step env incl s c =
            .ok { s with lex := { s.lex with newclause := false, word := [] }, pos := s.pos + 1 } := by
          rw [arm]
          exact afterSwitch_full (s := { s with pos := s.pos + 1 }) awake (Or.inr inside) (fun _ => filled) last
        have rest := @run_quoted_asleep env incl q text.2
          { s with lex := { s.lex with newclause := false, word := [] }, pos := s.pos + 1 } inside ⟨rfl, nothing⟩
        rw [run_ok _ first, rest]
        simp [Nat.add_assoc, Nat.add_comm 1]
      · have first : step env incl s c =
            .ok { s with lex := { s.lex with word := s.lex.word ++ [c] }, pos := s.pos + 1 } := by
          rw [arm]
          exact afterSwitch_append (s := { s with pos := s.pos + 1 }) awake (Or.inr inside) (fun _ => filled) (by simp only; omega)
        have rest := ih text.2 (s := { s with lex := { s.lex with word := s.lex.word ++ [c] }, pos := s.pos + 1 }) inside awake
          nothing (by simp) (by simp only [List.length_append, List.length_singleton]; omega) full
        rw [run_ok _ first, rest]
        simp [Nat.add_assoc, Nat.add_comm 1]

/-- A character of a comment that the state does not mind. -/
theorem step_comment {s : St} {c : Char} (comment : s.lex.comment = true) (quote : s.lex.quote = false)
    (newline : c ≠ '\n') (semi : c = ';' → ¬(s.lex.argument = .ITS_A_RANGE_FIRST_IP ∧ s.lex.oneIpRange = true) ∧
      ¬(s.lex.argument = .ITS_A_RANGE_SECOND_IP ∧ s.lex.word = []))
    (lbrace : c = '\x7b' → s.lex.word ≠ [] ∨ s.lex.newclause = true) :
    step env incl s c = .ok { s with pos := s.pos + 1 } := by
  have ignored : ∀ d, afterSwitch env incl { s with pos := s.pos + 1 } d = .ok { s with pos := s.pos + 1 } :=
    afterSwitch_comment comment
  have off : ({ s.lex with comment := true } : Lex) = s.lex := by rw [← comment]
  rw [step]
  by_cases hash : c = '#'
  · rw [if_pos hash, if_neg (by simp [quote]), off]
  rw [if_neg hash]
  by_cases quoted : c = '"'
  · rw [if_pos quoted, if_pos comment]
  rw [if_neg quoted, if_neg newline]
  by_cases isSemi : c = ';'
  · obtain ⟨one, single⟩ := semi isSemi
    rw [if_pos isSemi, semicolon, if_neg (by simp [quote]), if_neg (by simp [comment]), if_neg one]
    by_cases second : s.lex.argument = .ITS_A_RANGE_SECOND_IP ∧ s.lex.word ≠ []
    · rw [if_pos second, ignored]
    · rw [if_neg second, if_neg single]
  rw [if_neg isSemi]
  by_cases isLbrace : c = '\x7b'
  · rw [if_pos isLbrace, openBrace, if_neg (by simp [quote]), if_pos comment]
    by_cases empty : s.lex.word = []
    · have new : s.lex.newclause = true := (lbrace isLbrace).resolve_left (fun h => h empty)
      have same : ({ s.lex with newclause := true } : Lex) = s.lex := by rw [← new]
      rw [if_pos empty, same]
    · rw [if_neg empty, ignored]
  rw [if_neg isLbrace]
  by_cases isRbrace : c = '\x7d'
  · rw [if_pos isRbrace, closeBrace, if_neg (by simp [quote]), if_pos comment]
  · rw [if_neg isRbrace, ignored]

theorem run_comment {t : List Char} (line : '\n' ∉ t) : ∀ {s : St}, s.lex.comment = true → s.lex.quote = false →
    Harmless s.lex t → run (step env incl) s t = .ok { s with pos := s.pos + t.length } := by
  induction t with
  | nil =>
    intro s _ _ _
    rfl
  | cons c t ih =>
    intro s comment quote safe
    simp only [List.mem_cons, not_or] at line
    have first : step env incl s c = .ok { s with pos := s.pos + 1 } :=
      step_comment comment quote (Ne.symm line.1) (fun semi => safe.1 (semi ▸ List.mem_cons_self))
        (fun lbrace => safe.2 (lbrace ▸ List.mem_cons_self))
    have later : Harmless s.lex t :=
      ⟨fun h => safe.1 (List.mem_cons_of_mem _ h), fun h => safe.2 (List.mem_cons_of_mem _ h)⟩
    have rest := ih line.2 (s := { s with pos := s.pos + 1 }) comment quote later
    rw [run_ok _ first, rest]
    simp [Nat.add_assoc, Nat.add_comm 1]

end

/-! ## The reader and `next` -/

/-- Block heads that are left in the buffer: they do not make a word interesting. -/
def Neutral (env : Env) (heads : List Char) : Prop :=
  '\x00' ∉ heads ∧ dull env heads = true ∧ (heads = [] ∨ ∃ x, heads = x ++ ['\x7b']) ∧ heads.length < MAXLEN

theorem neutral_nil (env : Env) : Neutral env [] := by
  refine ⟨List.not_mem_nil, ?_, Or.inl rfl, by decide⟩
  rw [dull, announced_short (by decide)]
  cases env.allAsShared <;> rfl

theorem isInteresting_stop (allAsShared : Bool) {x : List Char} (w : List Char)
    (nothing : isInterestingConfigClause allAsShared (x ++ ['\x7b']) = .ITS_NOTHING_INTERESTING) :
    isInterestingConfigClause allAsShared (x ++ '\x7b' :: w) = isInterestingConfigClause allAsShared w := by
  have split : ∀ key : String, '\x7b' ∉ key.toList → key.toList ≠ [] → ∀ y,
      strstr (x ++ '\x7b' :: y) key.toList = (strstr x key.toList || strstr y key.toList) :=
    fun key absent filled y => strstr_stop absent filled x y
  have range := split "range" (by decide) (by decide)
  have network := split "shared-network" (by decide) (by decide)
  have subnet := split "subnet" (by decide) (by decide)
  have netmask := split "netmask" (by decide) (by decide)
  have incl := split "include" (by decide) (by decide)
  have none : ∀ key : String, key.toList ≠ [] → strstr [] key.toList = false := by
    intro key filled
    cases text : key.toList with
    | nil => exact absurd text filled
    | cons a rest => rfl
  unfold isInterestingConfigClause at nothing ⊢
  rw [range, network, subnet, netmask, incl, none "range" (by decide), none "shared-network" (by decide),
    none "subnet" (by decide), none "netmask" (by decide), none "include" (by decide)] at nothing
  rw [range, network, subnet, netmask, incl]
  generalize strstr x "range".toList = r at nothing ⊢
  generalize strstr x "shared-network".toList = n at nothing ⊢
  generalize strstr x "subnet".toList = sn at nothing ⊢
  generalize strstr x "netmask".toList = nm at nothing ⊢
  generalize strstr x "include".toList = i at nothing ⊢
  -- Each keyword that is looked for is absent from the heads.
  cases r <;> cases n <;> cases i <;> cases allAsShared <;> cases sn <;> cases nm <;>
    first | rfl | (exact absurd nothing (by decide))

/-- Behind block heads a word means what it means alone. -/
theorem neutral_append {env : Env} {heads : List Char} (neutral : Neutral env heads) (w : List Char) :
    isInterestingConfigClause env.allAsShared (heads ++ w) = isInterestingConfigClause env.allAsShared w := by
  obtain ⟨-, nothing, rfl | ⟨x, rfl⟩, room⟩ := neutral
  · rfl
  · rw [List.append_assoc]
    exact isInteresting_stop _ w (dull_kind room nothing)

theorem isInteresting_ne_second (allAsShared : Bool) (w : List Char) :
    isInterestingConfigClause allAsShared w ≠ .ITS_A_RANGE_SECOND_IP := by
  unfold isInterestingConfigClause
  split_ifs <;> exact fun same => by cases same

/-- A brace behind a word without meaning makes another block head. -/
theorem isInteresting_brace (allAsShared : Bool) (w : List Char) :
    isInterestingConfigClause allAsShared (w ++ ['\x7b']) = isInterestingConfigClause allAsShared w := by
  have split : ∀ key : String, '\x7b' ∉ key.toList → key.toList ≠ [] →
      strstr (w ++ ['\x7b']) key.toList = strstr w key.toList := by
    intro key absent filled
    rw [strstr_stop absent filled]
    cases text : key.toList with
    | nil => exact absurd text filled
    | cons a rest => exact Bool.or_false _
  unfold isInterestingConfigClause
  rw [split "range" (by decide) (by decide), split "shared-network" (by decide) (by decide),
    split "subnet" (by decide) (by decide), split "netmask" (by decide) (by decide),
    split "include" (by decide) (by decide)]

theorem neutral_brace {env : Env} {heads w : List Char} (neutral : Neutral env heads) (text : '\x00' ∉ w)
    (nothing : dull env w = true) (room : (heads ++ w ++ ['\x7b']).length < MAXLEN) :
    Neutral env (heads ++ w ++ ['\x7b']) := by
  refine ⟨?_, ?_, Or.inr ⟨heads ++ w, rfl⟩, room⟩
  · simpa [not_or] using ⟨neutral.1, text⟩
  · have short : w.length < MAXLEN := by
      simp only [List.length_append] at room
      omega
    rw [dull, announced_short room, isInteresting_brace, neutral_append neutral, dull_kind short nothing]
    rfl

theorem neutral_addBrace {env : Env} {heads : List Char} (neutral : Neutral env heads)
    (room : (addBrace heads).length < MAXLEN) : Neutral env (addBrace heads) := by
  unfold addBrace at room ⊢
  split_ifs at room ⊢ with empty
  · exact neutral_nil env
  · have braced := neutral_brace (w := []) neutral List.not_mem_nil (neutral_nil env).2.1 (by simpa using room)
    simpa using braced

def Kept (env : Env) : Base → Prop
  | .fresh heads _ => Neutral env heads
  | .stage _ | .swallowed => True
  | .glued word _ => word ≠ [] ∧ word.length < MAXLEN

/-- A word that may be pending: it fits into the buffer, after block heads it has no brace,
    and the stages that wait for nothing have no word. -/
def Takes : Base → List Char → Prop
  | .fresh heads _, w => (∀ c ∈ w, plain c = true) ∧ heads.length + w.length < MAXLEN
  | .stage .skip, _ | .stage .opening, _ | .stage .ended, _ | .glued _ _, _ | .swallowed, _ => False
  | .stage _, w => w.length < MAXLEN

def Fits (env : Env) : Mode → Prop
  | .at b => Kept env b
  | .word b w => Kept env b ∧ Takes b w ∧ w ≠ [] ∧ '\x00' ∉ w
  | .single w => w ≠ [] ∧ '\x00' ∉ w ∧ w.length < MAXLEN
  | .included w => w ≠ [] ∧ '\x00' ∉ w ∧ w.length < MAXLEN

/-- The reader is in a mode: what it has read of the statement, where its tables are,
    and, between the two addresses of a range, where the range goes. -/
structure At (env : Env) (m : Mode) (k : Core) (s : St) : Prop where
  core : s.core = k
  lex : s.lex = m.lex
  fine : Fits env m
  pointer : m.base = .stage .second →
    s.rangeP = some (k.g.allocation, k.g.numRanges) ∧ k.g.ipVersion ≠ .IPvUNKNOWN

theorem At.moved {env : Env} {m : Mode} {k : Core} {s : St} (here : At env m k s) (pos : Nat) :
    At env m k { s with pos := pos } :=
  ⟨here.core, here.lex, here.fine, here.pointer⟩

/-- The results agree, and go on in a mode that the reader is in. -/
abbrev Follows (env : Env) : Except Stop St → Except Stop (Mode × Core) → Prop :=
  Match (fun s mk => At env mk.1 mk.2 s)

section
variable {env : Env} {incl : List Char → Nat → Globals → Except Stop Globals}

/-- The first word of a statement ends. -/
theorem clauseWord_reads {heads w : List Char} {second : Bool} {k : Core} {s : St}
    (here : At env (.word (.fresh heads second) w) k s) :
    At env (.at (.stage (announced env w))) k (clauseWord env s) := by
  obtain ⟨core, lex, addr, rangeP, pos⟩ := s
  obtain ⟨rfl, rfl, ⟨neutral, ⟨chars, room⟩, filled, text⟩, -⟩ := here
  rw [announced_short (Nat.lt_of_le_of_lt (Nat.le_add_left _ _) room)]
  obtain ⟨front, last, rfl⟩ : ∃ front last, w = front ++ [last] :=
    ⟨w.dropLast, w.getLast filled, (List.dropLast_append_getLast filled).symm⟩
  have noBrace : last ≠ '\x7b' := (plain_iff.mp (chars last (by simp))).2.2.2.2.1
  have text' : '\x00' ∉ heads ++ (front ++ [last]) := by simpa [not_or] using ⟨neutral.1, by simpa [not_or] using text⟩
  have never := isInteresting_ne_second env.allAsShared (front ++ [last])
  refine ⟨rfl, ?_, trivial, ?_⟩
  · have ends : (heads ++ (front ++ [last])).getLast? = some last := by simp
    simp only [clauseWord, Mode.lex, Base.lex, cstr_self text', neutral_append neutral, ends, Option.getD_some, ne_eq,
      noBrace, not_false_eq_true, if_true]
    generalize isInterestingConfigClause env.allAsShared (front ++ [last]) = kind at never ⊢
    cases kind <;> simp_all [stageOf, Stage.argument]
  · intro isSecond
    generalize isInterestingConfigClause env.allAsShared (front ++ [last]) = kind at never isSecond
    cases kind <;> simp_all [stageOf, Mode.base]

/-- Following a pointer that is valid. -/
theorem newrange_follows {s : St} {i : Nat} {b : Base} (pointer : s.rangeP = some (s.core.g.allocation, i))
    (lex : ({ s.lex with newclause := true } : Lex) = b.lex) (fine : Kept env b) (other : b ≠ .stage .second) :
    Follows env (newrange s) (.ok (.at b, { s.core with g := s.core.g.newrange i s.core.sharedP })) := by
  have made : ∃ moved, newrange s = .ok { s with
      core := { s.core with g := s.core.g.newrange i s.core.sharedP }
      lex := { s.lex with newclause := true }
      rangeP := moved } := by
    rw [newrange, pointer]
    exact ⟨_, if_pos rfl⟩
  obtain ⟨moved, made⟩ := made
  rw [made]
  exact ⟨rfl, lex, fine, fun isSecond => absurd isSecond other⟩

/-- An argument ends. -/
theorem argumentWord_reads {st : Stage} {w : List Char} {k : Core} {s : St} {r : Except Stop (Mode × Core)}
    (here : At env (.word (.stage st) w) k s) (settled : settle (argument env incl k w st) = some r) :
    Follows env (argumentWord env incl s) r := by
  obtain ⟨core, lex, addr, rangeP, pos⟩ := s
  obtain ⟨rfl, rfl, ⟨-, takes, filled, text⟩, pointer⟩ := here
  have same := parseIpaddr_dst env.inet core.g.ipVersion w addr noAddr
  have version := parseIpaddr_version env.inet core.g.ipVersion w noAddr
  have word : cstr w = w := cstr_self text
  obtain ⟨same1, same2, same3⟩ := same
  cases st with
  | skip => exact takes.elim
  | opening => exact takes.elim
  | ended => exact takes.elim
  | first =>
    simp only [argument] at settled
    simp only [argumentWord, Mode.lex, Base.lex, Stage.argument, List.nil_append, word, same1, same2]
    by_cases parses : (parseIpaddr env.inet core.g.ipVersion w noAddr).2.1 = true
    · rw [if_pos parses] at settled version ⊢
      obtain rfl := Option.some.inj settled
      rw [same3 (Or.inl (same2.trans parses))]
      exact ⟨rfl, rfl, trivial, fun _ => ⟨rfl, version⟩⟩
    · rw [if_neg parses] at settled version ⊢
      obtain rfl := Option.some.inj settled
      rw [version]
      exact ⟨rfl, rfl, trivial, fun isSecond => by cases isSecond⟩
  | second =>
    obtain ⟨-, known⟩ := pointer rfl
    simp only [argument] at settled
    obtain rfl := Option.some.inj settled
    simp only [argumentWord, Mode.lex, Base.lex, Stage.argument, List.nil_append, word, same1, same3 (Or.inr known)]
    exact newrange_follows rfl rfl trivial (fun same => by cases same)
  | name =>
    simp only [argument] at settled
    simp only [argumentWord, Mode.lex, Base.lex, Stage.argument, List.nil_append, word]
    cases recorded : recordNetwork core w 0 with
    | error e =>
      rw [recorded] at settled
      obtain rfl := Option.some.inj settled
      rfl
    | ok k =>
      rw [recorded] at settled
      obtain rfl := Option.some.inj settled
      exact ⟨rfl, rfl, trivial, fun isSecond => by cases isSecond⟩
  | subnet =>
    simp only [argument] at settled
    simp only [argumentWord, Mode.lex, Base.lex, Stage.argument, List.nil_append, word]
    by_cases inside : core.sharedP ≠ 0
    · rw [if_pos inside] at settled ⊢
      obtain rfl := Option.some.inj settled
      exact ⟨rfl, rfl, trivial, fun isSecond => by cases isSecond⟩
    · rw [if_neg inside] at settled ⊢
      cases recorded : recordNetwork core w (-1) with
      | error e =>
        rw [recorded] at settled
        obtain rfl := Option.some.inj settled
        rfl
      | ok k =>
        rw [recorded] at settled
        obtain rfl := Option.some.inj settled
        exact ⟨rfl, rfl, neutral_nil env, fun isSecond => by cases isSecond⟩
  | mask =>
    simp only [argument] at settled
    simp only [argumentWord, Mode.lex, Base.lex, Stage.argument, List.nil_append, word, same1, same2]
    by_cases wanted : (core.g.sharedNetworks core.sharedP).netmask ≠ 0
    · rw [if_pos wanted] at settled ⊢
      by_cases parses : (parseIpaddr env.inet core.g.ipVersion w noAddr).2.1 = true
      · rw [if_pos parses] at settled version ⊢
        rw [same3 (Or.inl (same2.trans parses))]
        cases recorded : recordNetmask { core with g := { core.g with ipVersion := _ } } _ with
        | error e =>
          rw [recorded] at settled
          obtain rfl := Option.some.inj settled
          rfl
        | ok recorded =>
          rw [recorded] at settled
          obtain rfl := Option.some.inj settled
          exact ⟨rfl, rfl, trivial, fun isSecond => by cases isSecond⟩
      · rw [if_neg parses] at settled version ⊢
        obtain rfl := Option.some.inj settled
        rw [version]
        exact ⟨rfl, rfl, trivial, fun isSecond => by cases isSecond⟩
    · rw [if_neg wanted] at settled ⊢
      obtain rfl := Option.some.inj settled
      exact ⟨rfl, rfl, trivial, fun isSecond => by cases isSecond⟩
  | file =>
    simp only [argument] at settled
    simp only [argumentWord, Mode.lex, Base.lex, Stage.argument, List.nil_append, word]
    cases included : incl w core.sharedP core.g with
    | error e =>
      rw [included] at settled
      obtain rfl := Option.some.inj settled
      rfl
    | ok g =>
      rw [included] at settled
      obtain rfl := Option.some.inj settled
      exact ⟨rfl, rfl, trivial, fun isSecond => by cases isSecond⟩

/-- The only address of a range is its last one too. -/
theorem secondAddress_one (g : Globals) {version : DhcpVersion} (known : version ≠ .IPvUNKNOWN) (addr : Ipaddr) :
    g.secondAddress version true addr = (g.firstAddress version addr).lastIsFirst g.numRanges := by
  have same : ∀ dst dst', copyIpaddr version dst addr = copyIpaddr version dst' addr := fun dst dst' =>
    copyIpaddr_dst known dst dst' addr
  have equal : ∀ a, ¬0 < ipcomp version a a := fun a => by
    rw [ipcomp_pos]
    exact Nat.lt_irrefl _
  simp [Globals.secondAddress, Globals.firstAddress, Globals.lastIsFirst, Globals.copyFirst, Globals.copyLast,
    Globals.reorderLastFirst, Globals.setRange, equal, same (g.ranges g.numRanges).lastIp (g.ranges g.numRanges).firstIp]

/-- An empty statement behind a range with one address means nothing. -/
theorem single_semi (k : Core) {w : List Char} (room : w.length < MAXLEN) :
    settle (tokRun env incl (k, .stage .first) [.word w, .semi, .semi]) =
      settle (tokRun env incl (k, .stage .first) [.word w, .semi]) := by
  rw [tokRun, tokRun, run_cons, run_cons, tokStep_word room, argument]
  split_ifs <;> rfl

/-- The word of a range with one address and a glued semicolon ends. -/
theorem single_reads {w : List Char} {k : Core} {s : St} {r : Except Stop (Mode × Core)}
    (here : At env (.single w) k s) (settled : settle (tokRun env incl (k, .stage .first) [.word w, .semi]) = some r) :
    Follows env (argumentWord env incl s) r := by
  obtain ⟨core, lex, addr, rangeP, pos⟩ := s
  obtain ⟨rfl, rfl, ⟨filled, text, room⟩, -⟩ := here
  obtain ⟨same1, same2, same3⟩ := parseIpaddr_dst env.inet core.g.ipVersion w addr noAddr
  have version := parseIpaddr_version env.inet core.g.ipVersion w noAddr
  rw [tokRun, run_cons, tokStep_word room, argument] at settled
  by_cases parses : (parseIpaddr env.inet core.g.ipVersion w noAddr).2.1 = true
  · rw [if_pos parses] at settled version
    obtain rfl := Option.some.inj settled
    simp only [argumentWord, Mode.lex, cstr_self text, same1, same3 (Or.inl (same2.trans parses)),
      secondAddress_one _ version]
    exact newrange_follows rfl rfl (neutral_nil env) (fun same => by cases same)
  · rw [if_neg parses] at settled
    cases settled

/-- The file name of an include statement with a glued semicolon ends. -/
theorem included_reads {w : List Char} {k : Core} {s : St} {r : Except Stop (Mode × Core)}
    (here : At env (.included w) k s) (settled : settle (tokRun env incl (k, .stage .file) [.word w, .semi]) = some r) :
    Follows env (argumentWord env incl s) r := by
  obtain ⟨core, lex, addr, rangeP, pos⟩ := s
  obtain ⟨rfl, rfl, ⟨filled, text, room⟩, -⟩ := here
  rw [tokRun, run_cons, tokStep_word room, argument] at settled
  simp only [argumentWord, Mode.lex, cstr_self text]
  cases included : incl w core.sharedP core.g with
  | error e =>
    rw [included] at settled
    obtain rfl := Option.some.inj settled
    rfl
  | ok g =>
    rw [included] at settled
    obtain rfl := Option.some.inj settled
    exact ⟨rfl, rfl, neutral_nil env, fun isSecond => by cases isSecond⟩

/-- Block heads that are left in the buffer end. -/
theorem clauseWord_heads {heads : List Char} {second : Bool} {k : Core} {s : St} (filled : heads ≠ [])
    (here : At env (.at (.fresh heads second)) k s) : At env (.at (.fresh [] false)) k (clauseWord env s) := by
  obtain ⟨core, lex, addr, rangeP, pos⟩ := s
  obtain ⟨rfl, rfl, ⟨text, nothing, form, room⟩, -⟩ := here
  obtain ⟨x, rfl⟩ := form.resolve_left filled
  have kind := dull_kind room nothing
  refine ⟨rfl, ?_, neutral_nil env, fun isSecond => by cases isSecond⟩
  have ends : (x ++ ['\x7b']).getLast? = some '\x7b' := by simp
  simp [clauseWord, Mode.lex, Base.lex, cstr_self text, kind]

/-- The first word of a statement ends, with what is glued to it. -/
theorem clauseWord_glued {word : List Char} {second : Bool} {k : Core} {s : St} (here : At env (.at (.glued word second)) k s)
    (passes : Passes env word) : At env (.at (.stage .skip)) k (clauseWord env s) := by
  obtain ⟨nothing, noBrace, text⟩ := passes
  obtain ⟨core, lex, addr, rangeP, pos⟩ := s
  obtain ⟨rfl, rfl, ⟨filled, room⟩, -⟩ := here
  have kind := dull_kind room nothing
  refine ⟨rfl, ?_, trivial, fun isSecond => by cases isSecond⟩
  have ends : word.getLast?.getD env.before ≠ '\x7b' := by
    rw [List.getLast?_eq_some_getLast filled] at noBrace ⊢
    exact fun same => noBrace (congrArg some same)
  simp [clauseWord, Mode.lex, Base.lex, cstr_self text, kind, ends, Stage.argument]

/-- In the stages that wait for a word, blanks in front of it change nothing. -/
theorem blank_stage {st : Stage} {k : Core} {s : St} (here : At env (.at (.stage st)) k s) {c : Char}
    (blank : isspace c = true) : ∃ s', afterSwitch env incl s c = .ok s' ∧ At env (.at (.stage st)) k s' := by
  obtain ⟨core, lex, addr, rangeP, pos⟩ := s
  obtain ⟨rfl, rfl, -, pointer⟩ := here
  have empty := parseIpaddr_empty env.inet core.g.ipVersion addr
  have version := parseIpaddr_version env.inet core.g.ipVersion [] addr
  cases st with
  | skip => exact ⟨_, afterSwitch_asleep ⟨rfl, rfl⟩ c, rfl, rfl, trivial, pointer⟩
  | opening => exact ⟨_, afterSwitch_asleep ⟨rfl, rfl⟩ c, rfl, rfl, trivial, pointer⟩
  | ended => exact ⟨_, afterSwitch_blank ⟨rfl, Or.inl rfl⟩ blank rfl rfl, rfl, rfl, trivial, pointer⟩
  | first =>
    -- The empty word is tried as an address.
    rw [empty, if_neg Bool.false_ne_true] at version
    refine ⟨⟨core, (Mode.at (.stage .first)).lex, (parseIpaddr env.inet core.g.ipVersion [] addr).2.2,
      some (core.g.allocation, core.g.numRanges), pos⟩, ?_, rfl, rfl, trivial, fun isSecond => by cases isSecond⟩
    refine (afterSwitch_end ⟨rfl, Or.inr (fun same => by cases same)⟩ blank rfl (Or.inr rfl)).trans
      ((if_neg Bool.false_ne_true).trans ?_)
    simp only [argumentWord, Mode.lex, Base.lex, Stage.argument, cstr, List.takeWhile_nil, empty, version]
    rfl
  | second | name | subnet | mask | file =>
    exact ⟨_, afterSwitch_blank ⟨rfl, Or.inr (fun same => by cases same)⟩ blank rfl rfl, rfl, rfl, trivial, pointer⟩

/-- A blank ends the word that is pending, as `commit` says. -/
theorem commit_reads {m : Mode} {k : Core} {s : St} {r : Except Stop (Mode × Core)} (here : At env m k s)
    (committed : commit env incl m k = some r) {c : Char} (blank : isspace c = true) :
    Follows env (afterSwitch env incl s c) r := by
  have lex := here.lex
  cases m with
  | «at» b =>
    cases b with
    | fresh heads second =>
      obtain rfl := Option.some.inj committed
      have awake : Awake s.lex := by
        rw [lex]
        exact ⟨rfl, Or.inl rfl⟩
      by_cases empty : heads = []
      · subst empty
        rw [afterSwitch_blank awake blank (by rw [lex]; rfl) (by rw [lex]; rfl)]
        change At env (.at (.fresh [] (second && true))) k s
        rwa [Bool.and_true]
      · rw [afterSwitch_end awake blank (by rw [lex]; rfl) (Or.inl (by rw [lex]; exact empty)), if_pos (by rw [lex]; rfl),
          decide_eq_false empty, Bool.and_false]
        exact clauseWord_heads empty here
    | stage st =>
      obtain rfl := Option.some.inj committed
      obtain ⟨s', made, there⟩ := @blank_stage env incl st k s here c blank
      rw [made]
      exact there
    | glued word second =>
      change (if _ then some _ else none) = some r at committed
      split_ifs at committed with ends
      obtain rfl := Option.some.inj committed
      rw [afterSwitch_end (by rw [lex]; exact ⟨rfl, Or.inl rfl⟩) blank (by rw [lex]; rfl)
        (Or.inl (by rw [lex]; exact here.fine.1)), if_pos (by rw [lex]; rfl)]
      exact clauseWord_glued here ends
    | swallowed =>
      obtain rfl := Option.some.inj committed
      rw [afterSwitch_asleep (by rw [lex]; exact ⟨rfl, rfl⟩)]
      exact here
  | word b w =>
    change settle (tokRun env incl (k, b.clause) [.word w]) = some r at committed
    rw [tokRun_single] at committed
    obtain ⟨-, takes, filled, -⟩ := here.fine
    cases b with
    | fresh heads second =>
      obtain rfl := Option.some.inj committed
      rw [afterSwitch_end (by rw [lex]; exact ⟨rfl, Or.inl rfl⟩) blank (by rw [lex]; rfl)
        (Or.inl (by rw [lex]; simpa [Mode.lex] using fun _ => filled)), if_pos (by rw [lex]; rfl)]
      exact clauseWord_reads here
    | stage st =>
      have awake : Awake s.lex ∧ s.lex.newclause = false := by
        rw [lex]
        cases st <;> first | exact takes.elim | exact ⟨⟨rfl, Or.inr (fun same => by cases same)⟩, rfl⟩
      rw [afterSwitch_end awake.1 blank (by rw [lex]; rfl) (Or.inl (by rw [lex]; simpa [Mode.lex, Base.lex] using filled)),
        if_neg (by rw [awake.2]; decide)]
      have room : w.length < MAXLEN := by
        cases st <;> first | exact takes.elim | exact takes
      exact argumentWord_reads here (tokStep_word room k st ▸ committed)
    | glued word second => exact takes.elim
    | swallowed => exact takes.elim
  | single w =>
    rw [afterSwitch_end (by rw [lex]; exact ⟨rfl, Or.inr (fun same => by cases same)⟩) blank (by rw [lex]; rfl)
      (Or.inr (by rw [lex]; rfl)), if_neg (by rw [lex]; exact Bool.false_ne_true)]
    exact single_reads here committed
  | included w =>
    obtain ⟨filled, -⟩ := here.fine
    rw [afterSwitch_end (by rw [lex]; exact ⟨rfl, Or.inr (fun same => by cases same)⟩) blank (by rw [lex]; rfl)
      (Or.inl (by rw [lex]; exact filled)), if_neg (by rw [lex]; exact Bool.false_ne_true)]
    exact included_reads here committed

/-- An open reader takes no quote and is in no comment. -/
theorem mode_open (m : Mode) : m.lex.comment = false ∧ m.lex.quote = false := by
  cases m with
  | «at» b => cases b <;> exact ⟨rfl, rfl⟩
  | word b w => cases b <;> exact ⟨rfl, rfl⟩
  | single w => exact ⟨rfl, rfl⟩
  | included w => exact ⟨rfl, rfl⟩

theorem space_reads {m : Mode} {k : Core} {s : St} {r : Except Stop (Mode × Core)} (here : At env m k s)
    (committed : commit env incl m k = some r) {c : Char} (blank : isspace c = true) :
    Follows env (run (step env incl) s [c]) r := by
  have code : s.lex.comment = false := by
    rw [here.lex]
    exact (mode_open m).1
  rw [run_one, step_space blank code]
  exact commit_reads (here.moved _) committed blank

/-- A comment is skipped and its newline ends the word that is pending. -/
theorem comment_reads {m : Mode} {k : Core} {s : St} {r : Except Stop (Mode × Core)} (here : At env m k s) {t : List Char}
    (line : '\n' ∉ t) (safe : Harmless m.lex t) (committed : commit env incl m k = some r) :
    Follows env (run (step env incl) s ('#' :: t ++ ['\n'])) r := by
  obtain ⟨core, lex, addr, rangeP, pos⟩ := s
  obtain ⟨rfl, rfl, fits, pointer⟩ := here
  obtain ⟨code, open_⟩ := mode_open m
  have hash : step env incl ⟨core, m.lex, addr, rangeP, pos⟩ '#' =
      .ok ⟨core, { m.lex with comment := true }, addr, rangeP, pos + 1⟩ := by
    rw [step, if_pos rfl, if_neg (by rw [open_]; exact Bool.false_ne_true)]
  have skipped : run (step env incl) ⟨core, { m.lex with comment := true }, addr, rangeP, pos + 1⟩ t =
      .ok ⟨core, { m.lex with comment := true }, addr, rangeP, pos + 1 + t.length⟩ := run_comment line rfl open_ safe
  have same : ({ m.lex with comment := false } : Lex) = m.lex := by rw [← code]
  have newline : step env incl ⟨core, { m.lex with comment := true }, addr, rangeP, pos + 1 + t.length⟩ '\n' =
      afterSwitch env incl ⟨core, m.lex, addr, rangeP, pos + 1 + t.length + 1⟩ '\n' := by
    rw [step, if_neg (by decide), if_neg (by decide), if_pos rfl, if_neg (by rw [open_]; exact Bool.false_ne_true)]
    exact congrArg (fun l => afterSwitch env incl ⟨core, l, addr, rangeP, pos + 1 + t.length + 1⟩ '\n') same
  rw [List.cons_append, run_ok _ hash, run_through _ skipped, run_one, newline]
  have there : At env m core ⟨core, m.lex, addr, rangeP, pos + 1 + t.length + 1⟩ := ⟨rfl, rfl, fits, pointer⟩
  exact commit_reads there committed (c := '\n') rfl

/-- Text is added to the first word of a statement, or makes it too long. -/
theorem stick_reads {word : List Char} {second : Bool} {k : Core} {x : Except Stop St} {r : Except Stop (Mode × Core)}
    (taken : stick word second k = some r) {s : St} (filled : word ≠ []) (core : s.core = k)
    (stored : word.length < MAXLEN → ∃ pos, x = .ok { s with lex := (Base.glued word second).lex, pos := pos })
    (forgotten : second = false → MAXLEN ≤ word.length → ∃ pos, x = .ok { s with lex := (Base.stage .skip).lex, pos := pos }) :
    Follows env x r := by
  unfold stick at taken
  split_ifs at taken with room twice
  · obtain rfl := Option.some.inj taken
    obtain ⟨pos, rfl⟩ := stored room
    exact ⟨core, rfl, ⟨filled, room⟩, fun isSecond => by cases isSecond⟩
  · obtain rfl := Option.some.inj taken
    obtain ⟨pos, rfl⟩ := forgotten (Bool.eq_false_of_not_eq_true twice) (Nat.le_of_not_lt room)
    exact ⟨core, rfl, trivial, fun isSecond => by cases isSecond⟩

/-- A word is read, as `put` says. -/
theorem word_reads {b : Base} {w : List Char} {k : Core} {s : St} {r : Except Stop (Mode × Core)} (here : At env (.at b) k s)
    (filled : w ≠ []) (chars : ∀ c ∈ w, plain c = true) (taken : put env b w k = some r) :
    Follows env (run (step env incl) s w) r := by
  have lex := here.lex
  have text : '\x00' ∉ w := fun zero => (plain_iff.mp (chars _ zero)).2.2.2.2.2.2 rfl
  have stored : ∀ awake : Awake s.lex, ∀ room : b.lex.word.length + w.length < MAXLEN, ∀ takes : Takes b w,
      Follows env (run (step env incl) s w) (.ok (.word b w, k)) := by
    intro awake room takes
    rw [run_word chars awake (by rw [lex]; exact room)]
    exact ⟨here.core, by rw [lex]; rfl, ⟨here.fine, takes, filled, text⟩, here.pointer⟩
  cases b with
  | fresh heads second =>
    change (if _ then some _ else if _ then some _ else none) = some r at taken
    split_ifs at taken with room forgotten
    · obtain rfl := Option.some.inj taken
      exact stored (by rw [lex]; exact ⟨rfl, Or.inl rfl⟩) room ⟨chars, room⟩
    · obtain rfl := Option.some.inj taken
      obtain ⟨-, rfl⟩ := forgotten
      rw [run_word_full chars (by rw [lex]; exact ⟨rfl, Or.inl rfl⟩) (by rw [lex]; rfl) (by rw [lex]; exact here.fine.2.2.2)
        (by rw [lex]; exact Nat.le_of_not_lt room), lex]
      exact ⟨here.core, rfl, trivial, fun isSecond => by cases isSecond⟩
  | glued word second =>
    refine stick_reads taken (List.append_ne_nil_of_right_ne_nil _ filled) here.core (fun room => ⟨s.pos + w.length, ?_⟩)
      (fun once full => ⟨s.pos + w.length, ?_⟩)
    · rw [run_word chars (by rw [lex]; exact ⟨rfl, Or.inl rfl⟩) (by rw [lex]; simpa [Mode.lex, Base.lex] using room), lex]
      rfl
    · subst once
      rw [run_word_full chars (by rw [lex]; exact ⟨rfl, Or.inl rfl⟩) (by rw [lex]; rfl) (by rw [lex]; exact here.fine.2)
        (by rw [lex]; simpa [Mode.lex, Base.lex] using full), lex]
      rfl
  | swallowed =>
    change (if dull env w then some _ else none) = some r at taken
    split_ifs at taken
    obtain rfl := Option.some.inj taken
    rw [run_asleep chars (by rw [lex]; exact ⟨rfl, rfl⟩)]
    exact ⟨here.core, by rw [lex]; rfl, trivial, fun isSecond => by cases isSecond⟩
  | stage st =>
    cases st with
    | ended => cases taken
    | skip | opening =>
      obtain rfl := Option.some.inj taken
      rw [run_asleep chars (by rw [lex]; exact ⟨rfl, rfl⟩)]
      exact here.moved _
    | first | second | name | subnet | mask | file =>
      change (if Lost w then some _ else some _) = some r at taken
      rw [run_word_push chars (by rw [lex]; exact ⟨rfl, Or.inr (fun same => by cases same)⟩) (by rw [lex]; rfl), lex]
      split_ifs at taken with lost
      · obtain rfl := Option.some.inj taken
        have empty : w.foldl push [] = [] := lost.2
        exact ⟨here.core, congrArg (Lex.mk _ _ _ _ _) empty, trivial, here.pointer⟩
      · obtain rfl := Option.some.inj taken
        have some : leftover w ≠ [] := fun empty =>
          if long : MAXLEN ≤ w.length then lost ⟨long, empty⟩ else filled (leftover_short (Nat.lt_of_not_le long) ▸ empty)
        exact ⟨here.core, rfl, ⟨trivial, leftover_length w, some, fun zero => text (leftover_subset zero)⟩, here.pointer⟩

theorem step_quote {s : St} (code : s.lex.comment = false) :
    step env incl s '"' = .ok { s with lex := { s.lex with quote := !s.lex.quote }, pos := s.pos + 1 } := by
  rw [step, if_neg (by decide), if_pos rfl, if_neg (by rw [code]; exact Bool.false_ne_true)]

/-- A quoted string is read. -/
theorem quoted_reads {m : Mode} {q : List Char} {k : Core} {s : St} {r : Except Stop (Mode × Core)} (here : At env m k s)
    (ends : '"' ∉ q) (taken : nextQuoted env m k q = some r) :
    Follows env (run (step env incl) s ('"' :: q ++ ['"'])) r := by
  obtain ⟨core, lex, addr, rangeP, pos⟩ := s
  obtain ⟨rfl, rfl, fits, pointer⟩ := here
  obtain ⟨code, open_⟩ := mode_open m
  have opened : step env incl ⟨core, m.lex, addr, rangeP, pos⟩ '"' =
      .ok ⟨core, { m.lex with quote := true }, addr, rangeP, pos + 1⟩ := by
    rw [step_quote code]
    simp only [open_, Bool.not_false]
  have same : ∀ u, ({ m.lex with word := u, quote := false } : Lex) = { m.lex with word := u } := fun u => by rw [← open_]
  have asleep : m.lex.newclause = false ∧ m.lex.argument = .ITS_NOTHING_INTERESTING →
      run (step env incl) ⟨core, m.lex, addr, rangeP, pos⟩ ('"' :: q ++ ['"']) =
        .ok ⟨core, m.lex, addr, rangeP, pos + 1 + q.length + 1⟩ := by
    intro asleep
    rw [List.cons_append, run_ok _ opened, run_through _ (run_quoted_asleep ends rfl asleep), run_one, step_quote code]
    exact congrArg (fun l => (Except.ok ⟨core, l, addr, rangeP, pos + 1 + q.length + 1⟩ : Except Stop St)) (same m.lex.word)
  have stored : Awake m.lex → m.lex.newclause = false → m.lex.oneIpRange = false → m.lex.word = [] →
      run (step env incl) ⟨core, m.lex, addr, rangeP, pos⟩ ('"' :: q ++ ['"']) =
        .ok ⟨core, { m.lex with word := quotedText q }, addr, rangeP, pos + 1 + q.length + 1⟩ := by
    intro awake old two empty
    have kept : pour m.lex.word (gluedText q) = quotedText q := by rw [empty, quotedText]
    have inside : run (step env incl) ⟨core, { m.lex with quote := true }, addr, rangeP, pos + 1⟩ q =
        .ok ⟨core, { m.lex with word := pour m.lex.word (gluedText q), quote := true }, addr, rangeP, pos + 1 + q.length⟩ :=
      run_quoted_push ends rfl awake old two
    rw [kept] at inside
    rw [List.cons_append, run_ok _ opened, run_through _ inside, run_one, step_quote code]
    exact congrArg (fun l => (Except.ok ⟨core, l, addr, rangeP, pos + 1 + q.length + 1⟩ : Except Stop St)) (same (quotedText q))
  -- A string behind the first word of a statement is added to it.
  have added : Awake m.lex → m.lex.oneIpRange = false → m.lex.word ≠ [] → (m.lex.word ++ gluedText q).length < MAXLEN →
      run (step env incl) ⟨core, m.lex, addr, rangeP, pos⟩ ('"' :: q ++ ['"']) =
        .ok ⟨core, { m.lex with word := m.lex.word ++ gluedText q }, addr, rangeP, pos + 1 + q.length + 1⟩ := by
    intro awake two filled room
    have kept : stow m.lex.word q = m.lex.word ++ gluedText q := stow_filled filled q
    have inside : run (step env incl) ⟨core, { m.lex with quote := true }, addr, rangeP, pos + 1⟩ q =
        .ok ⟨core, { m.lex with word := stow m.lex.word q, quote := true }, addr, rangeP, pos + 1 + q.length⟩ :=
      run_quoted ends rfl awake two (by rw [kept]; exact room)
    rw [kept] at inside
    rw [List.cons_append, run_ok _ opened, run_through _ inside, run_one, step_quote code]
    exact congrArg (fun l => (Except.ok ⟨core, l, addr, rangeP, pos + 1 + q.length + 1⟩ : Except Stop St))
      (same (m.lex.word ++ gluedText q))
  have forgotten : Awake m.lex → m.lex.argument = .ITS_NOTHING_INTERESTING → m.lex.word ≠ [] → m.lex.word.length < MAXLEN →
      MAXLEN ≤ (m.lex.word ++ gluedText q).length →
      run (step env incl) ⟨core, m.lex, addr, rangeP, pos⟩ ('"' :: q ++ ['"']) =
        .ok ⟨core, { m.lex with newclause := false, word := [] }, addr, rangeP, pos + 1 + q.length + 1⟩ := by
    intro awake nothing filled room full
    have inside : run (step env incl) ⟨core, { m.lex with quote := true }, addr, rangeP, pos + 1⟩ q =
        .ok ⟨core, { m.lex with newclause := false, word := [], quote := true }, addr, rangeP, pos + 1 + q.length⟩ :=
      run_quoted_full ends rfl awake nothing filled room (by rw [stow_filled filled]; exact full)
    rw [List.cons_append, run_ok _ opened, run_through _ inside, run_one, step_quote code]
    have closed : ({ m.lex with newclause := false, word := [], quote := false } : Lex) =
        { m.lex with newclause := false, word := [] } := by rw [← open_]
    exact congrArg (fun l => (Except.ok ⟨core, l, addr, rangeP, pos + 1 + q.length + 1⟩ : Except Stop St)) closed
  have takes : quotedText q ≠ [] ∧ '\x00' ∉ q → (quotedText q).length < MAXLEN ∧ quotedText q ≠ [] ∧ '\x00' ∉ quotedText q :=
    fun ⟨filled, absent⟩ => ⟨quotedText_length q, filled, fun zero => absent (quotedText_subset zero)⟩
  unfold nextQuoted at taken
  split at taken
  · obtain rfl := Option.some.inj taken
    rw [asleep ⟨rfl, rfl⟩]
    exact ⟨rfl, rfl, fits, pointer⟩
  · obtain rfl := Option.some.inj taken
    rw [asleep ⟨rfl, rfl⟩]
    exact ⟨rfl, rfl, fits, pointer⟩
  · split_ifs at taken with filled
    obtain rfl := Option.some.inj taken
    rw [stored ⟨rfl, Or.inr (fun same => by cases same)⟩ rfl rfl rfl]
    exact ⟨rfl, rfl, ⟨trivial, takes filled⟩, pointer⟩
  · split_ifs at taken with filled
    obtain rfl := Option.some.inj taken
    rw [stored ⟨rfl, Or.inr (fun same => by cases same)⟩ rfl rfl rfl]
    exact ⟨rfl, rfl, ⟨trivial, takes filled⟩, pointer⟩
  · rename_i word second
    refine @stick_reads env _ second core _ r taken ⟨core, (Base.glued word second).lex, addr, rangeP, pos⟩
      (List.append_ne_nil_of_left_ne_nil fits.1 _) rfl
      (fun room => ⟨_, added ⟨rfl, Or.inl rfl⟩ rfl fits.1 room⟩) (fun once full => ?_)
    subst once
    exact ⟨_, forgotten ⟨rfl, Or.inl rfl⟩ rfl fits.1 fits.2 full⟩
  · rename_i heads second w
    split_ifs at taken
    obtain ⟨-, ⟨-, room⟩, filled, -⟩ := fits
    have first : heads ++ w ≠ [] := List.append_ne_nil_of_right_ne_nil _ filled
    refine @stick_reads env _ second core _ r taken ⟨core, (Base.fresh heads second).lex, addr, rangeP, pos⟩
      (List.append_ne_nil_of_left_ne_nil first _) rfl
      (fun room => ⟨_, added ⟨rfl, Or.inl rfl⟩ rfl first room⟩) (fun once full => ?_)
    subst once
    exact ⟨_, forgotten ⟨rfl, Or.inl rfl⟩ rfl first (by simpa [Mode.lex, Base.lex] using room) full⟩
  · cases taken

/-- A statement that lacks its semicolon only reads on as if it had it. -/
theorem At.finish {k : Core} {s : St} (here : At env (.at (.stage .ended)) k s) : At env (.at (.fresh [] false)) k s :=
  ⟨here.core, here.lex, neutral_nil env, fun isSecond => by cases isSecond⟩

/-- A statement that is read over goes on like one of which the semicolon was swallowed. -/
theorem At.swallow {k : Core} {s : St} (here : At env (.at (.stage .skip)) k s) : At env (.at .swallowed) k s :=
  ⟨here.core, here.lex, trivial, fun isSecond => by cases isSecond⟩

/-- The semicolon behind the second address of a range, glued to it. -/
theorem second_reads {w : List Char} {k : Core} {s : St} {r : Except Stop (Mode × Core)}
    (here : At env (.word (.stage .second) w) k s)
    (settled : settle (tokRun env incl (k, .stage .second) [.word w, .semi]) = some r) :
    Follows env (argumentWord env incl s) r := by
  have room : w.length < MAXLEN := here.fine.2.1
  rw [tokRun, run_cons, tokStep_word room] at settled
  have alone : settle (argument env incl k w .second) = some (.ok (.at (.stage .ended), _)) := rfl
  obtain rfl := Option.some.inj settled
  have followed := argumentWord_reads here alone
  cases made : argumentWord env incl s with
  | error e =>
    rw [made] at followed
    exact followed.elim
  | ok s' =>
    rw [made] at followed
    exact followed.finish

theorem semicolon_second {s : St} (open_ : s.lex.quote = false) (second : s.lex.argument = .ITS_A_RANGE_SECOND_IP)
    (filled : s.lex.word ≠ []) : semicolon env incl s = afterSwitch env incl s ' ' := by
  rw [semicolon, if_neg (by rw [open_]; exact Bool.false_ne_true), if_neg (by simp [second]), if_neg (by simp [second]),
    if_pos ⟨second, filled⟩]

/-- After `range A ;` a semicolon ends the first word of a statement. -/
theorem semicolon_clause {s : St} (open_ : s.lex.quote = false) (code : s.lex.comment = false)
    (new : s.lex.newclause = true) (second : s.lex.argument = .ITS_A_RANGE_SECOND_IP) (filled : s.lex.word ≠ []) :
    semicolon env incl s = .ok (clauseWord env s) := by
  rw [semicolon_second open_ second filled, afterSwitch_end ⟨code, Or.inl new⟩ rfl open_ (Or.inl filled), if_pos new]

theorem semicolon_complete {s : St} {i : Nat} (open_ : s.lex.quote = false)
    (second : s.lex.argument = .ITS_A_RANGE_SECOND_IP) (empty : s.lex.word = [])
    (pointer : s.rangeP = some (s.core.g.allocation, i)) :
    semicolon env incl s = newrange { s with core := { s.core with g := s.core.g.lastIsFirst i } } := by
  rw [semicolon, if_neg (by rw [open_]; exact Bool.false_ne_true), if_neg (by simp [second]), if_neg (by simp [second]),
    if_neg (by simp [empty]), if_pos ⟨second, empty⟩, pointer]
  exact if_pos rfl

theorem step_semi (s : St) : step env incl s ';' = semicolon env incl { s with pos := s.pos + 1 } := by
  rw [step, if_neg (by decide), if_neg (by decide), if_neg (by decide), if_pos rfl]

/-- A semicolon is read. -/
theorem semi_reads {m : Mode} {k : Core} {s : St} {r : Except Stop (Mode × Core)} (here : At env m k s)
    (taken : nextSemi env incl m k = some r) : Follows env (step env incl s ';') r := by
  rw [step_semi]
  replace here := here.moved (s.pos + 1)
  generalize ({ s with pos := s.pos + 1 } : St) = s at here ⊢
  obtain ⟨core, lex, addr, rangeP, pos⟩ := s
  obtain ⟨rfl, rfl, fits, pointer⟩ := here
  unfold nextSemi at taken
  split at taken
  · rename_i heads second
    split_ifs at taken with bare
    obtain rfl := Option.some.inj taken
    cases second with
    | false => exact ⟨rfl, rfl, neutral_nil env, fun isSecond => by cases isSecond⟩
    | true =>
      -- The reader takes the semicolon for the end of the block heads.
      have filled : heads ≠ [] := fun empty => bare ⟨rfl, empty⟩
      rw [semicolon_clause rfl rfl rfl rfl filled]
      exact clauseWord_heads filled ⟨rfl, rfl, fits, pointer⟩
  · obtain rfl := Option.some.inj taken
    exact ⟨rfl, rfl, neutral_nil env, fun isSecond => by cases isSecond⟩
  · obtain rfl := Option.some.inj taken
    exact ⟨rfl, rfl, neutral_nil env, fun isSecond => by cases isSecond⟩
  · obtain rfl := Option.some.inj taken
    obtain ⟨place, -⟩ := pointer rfl
    rw [semicolon_complete rfl rfl rfl place]
    have made := newrange_follows (i := core.g.numRanges) (b := .fresh [] true)
      (s := ⟨{ core with g := core.g.lastIsFirst core.g.numRanges }, (Mode.at (.stage .second)).lex, addr, rangeP, pos⟩)
      place rfl (neutral_nil env) (fun same => by cases same)
    exact made
  · rename_i word second
    split_ifs at taken with once passes
    · obtain rfl := Option.some.inj taken
      subst once
      exact ⟨rfl, rfl, neutral_nil env, fun isSecond => by cases isSecond⟩
    · obtain rfl := Option.some.inj taken
      obtain rfl := Bool.eq_true_of_not_eq_false once
      rw [semicolon_clause rfl rfl rfl rfl fits.1]
      exact (clauseWord_glued ⟨rfl, rfl, fits, pointer⟩ passes).swallow
  · obtain rfl := Option.some.inj taken
    exact ⟨rfl, rfl, neutral_nil env, fun isSecond => by cases isSecond⟩
  · rename_i heads second w
    split_ifs at taken with nothing twice
    · subst twice
      obtain rfl := Option.some.inj taken
      -- The reader takes the semicolon for the end of the word.
      have filled : heads ++ w ≠ [] := List.append_ne_nil_of_right_ne_nil _ fits.2.2.1
      have skips : announced env w = .skip := of_decide_eq_true nothing
      have read := @clauseWord_reads env heads w true core _ ⟨rfl, rfl, fits, pointer⟩
      rw [semicolon_clause rfl rfl rfl rfl filled]
      rw [skips] at read
      exact read.swallow
    · obtain rfl := Option.some.inj taken
      obtain rfl := Bool.eq_false_of_not_eq_true twice
      exact ⟨rfl, rfl, neutral_nil env, fun isSecond => by cases isSecond⟩
  · obtain rfl := Option.some.inj taken
    exact ⟨rfl, rfl, ⟨fits.2.2.1, fits.2.2.2, fits.2.1⟩, fun isSecond => by cases isSecond⟩
  · obtain ⟨-, -, filled, -⟩ := id fits
    rw [semicolon_second rfl rfl filled, afterSwitch_end ⟨rfl, Or.inr (fun same => by cases same)⟩ rfl rfl (Or.inl filled)]
    exact second_reads ⟨rfl, rfl, fits, pointer⟩ taken
  · obtain rfl := Option.some.inj taken
    exact ⟨rfl, rfl, ⟨fits.2.2.1, fits.2.2.2, fits.2.1⟩, fun isSecond => by cases isSecond⟩
  · rename_i w
    -- The second semicolon ends the word in front of the first one.
    have old : ¬(Mode.single w).lex.newclause = true := Bool.false_ne_true
    rw [semicolon_second rfl rfl fits.1, afterSwitch_end ⟨rfl, Or.inr (fun same => by cases same)⟩ rfl rfl (Or.inl fits.1),
      if_neg old]
    exact single_reads ⟨rfl, rfl, fits, pointer⟩ (single_semi core fits.2.2 ▸ taken)
  · obtain rfl := Option.some.inj taken
    exact ⟨rfl, rfl, fits, fun isSecond => by cases isSecond⟩
  · cases taken

theorem openBrace_code {s : St} (open_ : s.lex.quote = false) (code : s.lex.comment = false) :
    openBrace env incl s =
      if s.lex.word = [] then .ok { s with core := s.core.opened, lex := { s.lex with newclause := true } }
      else afterSwitch env incl { s with core := s.core.opened } '\x7b' := by
  simp only [openBrace, open_, code, Bool.false_eq_true, if_false]

/-- An opening brace is read. -/
theorem lbrace_reads {m : Mode} {k : Core} {s : St} {r : Except Stop (Mode × Core)} (here : At env m k s)
    (taken : nextLbrace env m k = some r) : Follows env (step env incl s '\x7b') r := by
  have arm : step env incl s '\x7b' = openBrace env incl { s with pos := s.pos + 1 } := by
    rw [step, if_neg (by decide), if_neg (by decide), if_neg (by decide), if_neg (by decide), if_pos rfl]
  rw [arm]
  replace here := here.moved (s.pos + 1)
  generalize ({ s with pos := s.pos + 1 } : St) = s at here ⊢
  obtain ⟨core, lex, addr, rangeP, pos⟩ := s
  obtain ⟨rfl, rfl, fits, pointer⟩ := here
  obtain ⟨code, open_⟩ := mode_open m
  have glued : m.lex.word ≠ [] → Awake m.lex → (m.lex.word ++ ['\x7b']).length < MAXLEN →
      openBrace env incl ⟨core, m.lex, addr, rangeP, pos⟩ =
        .ok ⟨core.opened, { m.lex with word := m.lex.word ++ ['\x7b'] }, addr, rangeP, pos⟩ := by
    intro filled awake room
    rw [openBrace_code open_ code, if_neg filled]
    exact afterSwitch_append (s := ⟨core.opened, m.lex, addr, rangeP, pos⟩) awake (Or.inl rfl)
      (fun (space : isspace '\x7b' = true) => by cases space) (by simpa using Nat.ne_of_lt room)
  unfold nextLbrace at taken
  split at taken
  · rename_i heads second
    split_ifs at taken with room
    obtain rfl := Option.some.inj taken
    by_cases empty : heads = []
    · subst empty
      exact ⟨rfl, rfl, neutral_nil env, fun isSecond => by cases isSecond⟩
    · have longer : addBrace heads = heads ++ ['\x7b'] := if_neg empty
      rw [longer] at room ⊢
      rw [glued empty ⟨rfl, Or.inl rfl⟩ room]
      refine ⟨rfl, rfl, ?_, fun isSecond => by cases isSecond⟩
      rw [← longer] at room ⊢
      exact neutral_addBrace fits room
  · obtain rfl := Option.some.inj taken
    exact ⟨rfl, rfl, neutral_nil env, fun isSecond => by cases isSecond⟩
  · obtain rfl := Option.some.inj taken
    exact ⟨rfl, rfl, neutral_nil env, fun isSecond => by cases isSecond⟩
  · obtain rfl := Option.some.inj taken
    exact ⟨rfl, rfl, neutral_nil env, fun isSecond => by cases isSecond⟩
  · split_ifs at taken with dullWord
    obtain rfl := Option.some.inj taken
    obtain ⟨neutral, -, filled, text⟩ := fits
    rw [glued (List.append_ne_nil_of_right_ne_nil _ filled) ⟨rfl, Or.inl rfl⟩ dullWord.2]
    exact ⟨rfl, rfl, neutral_brace neutral text dullWord.1 dullWord.2, fun isSecond => by cases isSecond⟩
  · split_ifs at taken with dullWord
    obtain rfl := Option.some.inj taken
    obtain ⟨nothing, text, room⟩ := dullWord
    rw [glued fits.1 ⟨rfl, Or.inl rfl⟩ room]
    exact ⟨rfl, rfl, neutral_brace (neutral_nil env) text nothing room, fun isSecond => by cases isSecond⟩
  · cases taken

/-- A closing brace is read. -/
theorem rbrace_reads {m : Mode} {k : Core} {s : St} {r : Except Stop (Mode × Core)} (here : At env m k s)
    (taken : nextRbrace m k = some r) : Follows env (step env incl s '\x7d') r := by
  have arm : step env incl s '\x7d' = closeBrace env incl { s with pos := s.pos + 1 } := by
    rw [step, if_neg (by decide), if_neg (by decide), if_neg (by decide), if_neg (by decide), if_neg (by decide),
      if_pos rfl]
  rw [arm]
  obtain ⟨core, lex, addr, rangeP, pos⟩ := s
  obtain ⟨rfl, rfl, fits, -⟩ := here
  unfold nextRbrace at taken
  split at taken
  · obtain rfl := Option.some.inj taken
    exact ⟨rfl, rfl, fits, fun isSecond => by cases isSecond⟩
  · obtain rfl := Option.some.inj taken
    exact ⟨rfl, rfl, neutral_nil env, fun isSecond => by cases isSecond⟩
  · cases taken

/-- The reader does with the next item what `next` says. -/
theorem next_reads {m : Mode} {k : Core} {s : St} {i : Item} {r : Except Stop (Mode × Core)} (here : At env m k s)
    (fine : i.Fine) (followed : next env incl m k i = some r) : Follows env (run (step env incl) s i.text) r := by
  cases i with
  | space c => exact space_reads here followed fine
  | comment t =>
    change (if Harmless m.lex t then commit env incl m k else none) = some r at followed
    split_ifs at followed with safe
    exact comment_reads here fine safe followed
  | tok t =>
    cases t with
    | word w =>
      change nextWord env m k w = some r at followed
      unfold nextWord at followed
      split at followed
      · exact word_reads here fine.1 fine.2 followed
      · cases followed
    | quoted q => exact quoted_reads here fine followed
    | semi =>
      rw [Item.text, run_one]
      exact semi_reads here followed
    | lbrace =>
      rw [Item.text, run_one]
      exact lbrace_reads here followed
    | rbrace =>
      rw [Item.text, run_one]
      exact rbrace_reads here followed

/-- The reader is between two words, where the tokens have brought it. -/
def Reached (env : Env) (s : St) (r : Core × Clause) : Prop := ∃ b, At env (.at b) r.1 s ∧ r.2 = b.clause

theorem laid_cons {m : Mode} {k : Core} {i : Item} {rest : List Item} : Laid env incl m k (i :: rest) ↔
    match next env incl m k i with
    | none => False
    | some (.error _) => True
    | some (.ok (m', k')) => Laid env incl m' k' rest := by
  rw [Laid, follow]
  cases next env incl m k i with
  | none => rfl
  | some r =>
    cases r with
    | error e => rfl
    | ok mk => rfl

/-- A text that the reader follows is read as its tokens. -/
theorem reads (items : List Item) (fine : ∀ i ∈ items, i.Fine) : ∀ {m : Mode} {k : Core} {s : St}, At env m k s →
    Laid env incl m k items →
    Match (Reached env) (run (step env incl) s (textOf items)) (tokRun env incl (k, m.clause) (m.pending ++ tokensOf items)) := by
  induction items with
  | nil =>
    intro m k s here laid
    cases m with
    | «at» b => exact ⟨b, here, rfl⟩
    | word b w => cases laid
    | single w => cases laid
    | included w => cases laid
  | cons i rest ih =>
    intro m k s here laid
    have tokens : tokensOf (i :: rest) = tokensOf [i] ++ tokensOf rest := List.filterMap_append (l := [i])
    have text : textOf (i :: rest) = i.text ++ textOf rest := rfl
    rw [laid_cons] at laid
    cases followed : next env incl m k i with
    | none =>
      rw [followed] at laid
      exact laid.elim
    | some r =>
      rw [followed] at laid
      have followsItem := next_reads here (fine i List.mem_cons_self) followed
      rw [text, run_append, tokens, ← List.append_assoc, tokRun, run_append]
      rw [← tokRun, next_tokens followed]
      cases read : run (step env incl) s i.text with
      | error e =>
        rw [read] at followsItem
        cases r with
        | error e' => exact followsItem
        | ok mk => exact followsItem.elim
      | ok s' =>
        rw [read] at followsItem
        cases r with
        | error e => exact followsItem.elim
        | ok mk =>
          have later := ih (fun j member => fine j (List.mem_cons_of_mem _ member)) followsItem laid
          rw [tokRun, run_append] at later
          exact later

/-- The end of the file changes no table. -/
theorem end_reads {b : Base} {k : Core} {s : St} (here : At env (.at b) k s) :
    ∃ s', step env incl s endOfFile = .ok s' ∧ s'.core = k := by
  have arm : step env incl s endOfFile = afterSwitch env incl { s with pos := s.pos + 1 } endOfFile := step_plain (by decide)
  rw [arm]
  replace here := here.moved (s.pos + 1)
  generalize ({ s with pos := s.pos + 1 } : St) = s at here ⊢
  have other : isspace endOfFile = false := by decide
  by_cases asleep : s.lex.newclause = false ∧ s.lex.argument = .ITS_NOTHING_INTERESTING
  · exact ⟨s, afterSwitch_asleep asleep _, here.core⟩
  · have awake : Awake s.lex := by
      refine ⟨by rw [here.lex]; exact (mode_open _).1, ?_⟩
      by_cases new : s.lex.newclause = true
      · exact Or.inl new
      · exact Or.inr (fun nothing => asleep ⟨Bool.eq_false_of_not_eq_true new, nothing⟩)
    rw [afterSwitch, if_neg awake.not_asleep, if_neg (by simp [other]), if_pos ⟨awake.2, Or.inl other⟩]
    by_cases full : MAXLEN = (s.lex.word ++ [endOfFile]).length
    · exact ⟨_, if_pos full, here.core⟩
    · exact ⟨_, if_neg full, here.core⟩

/-- A file in a layout that the reader follows is read as its tokens. -/
theorem readFile_tokens {items : List Item} (fine : ∀ i ∈ items, i.Fine) {sharedP : Nat} {g : Globals}
    (laid : Laid env incl (.at (.fresh [] false)) ⟨g, sharedP, 0, 1000⟩ items) :
    readFile env incl (textOf items) sharedP g =
      (tokRun env incl (⟨g, sharedP, 0, 1000⟩, .fresh) (tokensOf items)).map (fun r => r.1.g) := by
  have begun : At env (.at (.fresh [] false)) ⟨g, sharedP, 0, 1000⟩ (start env g sharedP) :=
    ⟨rfl, rfl, neutral_nil env, fun isSecond => by cases isSecond⟩
  have ended : Match (fun s r => s.core.g = r.1.g) (run (step env incl) (start env g sharedP) (textOf items ++ [endOfFile]))
      (tokRun env incl (⟨g, sharedP, 0, 1000⟩, .fresh) (tokensOf items)) := by
    rw [run_append, ← bind_pure (tokRun env incl _ _)]
    refine (reads items fine begun laid).bind ?_
    rintro s r ⟨b, there, -⟩
    obtain ⟨s', made, core⟩ := @end_reads env incl b r.1 s there
    rw [run_one, made]
    exact congrArg Core.g core
  have whole : readFile env incl (textOf items) sharedP g =
      (run (step env incl) (start env g sharedP) (textOf items ++ [endOfFile])).map (fun s => s.core.g) := by
    rw [readFile]
    cases run (step env incl) (start env g sharedP) (textOf items ++ [endOfFile]) <;> rfl
  rw [whole, ended.map_eq]

end

end DhcpdPools.ConfigReading
