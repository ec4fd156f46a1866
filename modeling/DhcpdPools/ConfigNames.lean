import DhcpdPools.ConfigRoom

/-!
Quoted names. A text in quotes goes into the word buffer without its `#`, and mostly
without the blanks in front (`keptText`); what is in the buffer then names the network
or the file. The record of a shared network is not changed again (`parseConfig_retains`).
-/
namespace DhcpdPools.ConfigNames
open Machine ConfigReader ConfigReading ConfigTokens ConfigAppends ConfigBounds ConfigRoom

/-! ## The text in the buffer -/

/-- A string as the reader stores it. Where a range waits for its only address, blanks count. -/
def keptText (one : Bool) (q : List Char) : List Char :=
  if one then q.filter (fun c => c ≠ '#') else quotedWord q

/-- The reader stores a string as it is. -/
def Verbatim (one : Bool) (q : List Char) : Prop :=
  '#' ∉ q ∧ '\x00' ∉ q ∧ (one = true ∨ ∀ c ∈ q.head?, isspace c = false)

theorem filter_hash {q : List Char} : q.filter (fun c => c ≠ '#') = q ↔ '#' ∉ q := by
  rw [List.filter_eq_self]
  constructor
  · intro all member
    exact absurd (all '#' member) (by decide)
  · intro absent c member
    have differ : c ≠ '#' := fun same => absent (same ▸ member)
    simpa using differ

theorem keptText_suffix (one : Bool) (q : List Char) : keptText one q <:+ q.filter (fun c => c ≠ '#') := by
  cases one with
  | true => exact List.suffix_rfl
  | false => exact List.dropWhile_suffix _

theorem keptText_length (one : Bool) (q : List Char) : (keptText one q).length ≤ q.length :=
  (keptText_suffix one q).length_le.trans (List.length_filter_le _ _)

theorem keptText_eq {one : Bool} {q : List Char} :
    keptText one q = q ↔ '#' ∉ q ∧ (one = true ∨ ∀ c ∈ q.head?, isspace c = false) := by
  constructor
  · intro same
    have all : q.filter (fun c => c ≠ '#') = q := by
      refine List.filter_sublist.eq_of_length_le ?_
      have shorter := (keptText_suffix one q).length_le
      rw [same] at shorter
      exact shorter
    refine ⟨filter_hash.mp all, ?_⟩
    cases one with
    | true => exact Or.inl rfl
    | false =>
      refine Or.inr fun c first => ?_
      have stripped : q.dropWhile isspace = q := by
        simpa only [keptText, quotedWord, all, Bool.false_eq_true, if_false] using same
      cases q with
      | nil => cases first
      | cons d q =>
        obtain rfl : d = c := Option.some.inj first
        by_contra blank
        rw [List.dropWhile_cons, if_pos (by simpa using blank)] at stripped
        have shorter := (List.dropWhile_suffix (l := q) isspace).length_le
        rw [stripped, List.length_cons] at shorter
        omega
  · rintro ⟨absent, first⟩
    cases one with
    | true => exact filter_hash.mpr absent
    | false =>
      have head := first.resolve_left Bool.false_ne_true
      rw [keptText, if_neg Bool.false_ne_true, quotedWord, filter_hash.mpr absent]
      cases q with
      | nil => rfl
      | cons d q => rw [List.dropWhile_cons, head d rfl, if_neg Bool.false_ne_true]

/-- The string that is read from the buffer is the text in quotes when it is stored as it is. -/
theorem cstr_keptText {one : Bool} {q : List Char} : cstr (keptText one q) = q ↔ Verbatim one q := by
  constructor
  · intro same
    have stored : keptText one q = q := by
      have cut : cstr (keptText one q) <+: keptText one q := List.takeWhile_prefix _
      rw [same] at cut
      exact (cut.eq_of_length_le (keptText_length one q)).symm
    obtain ⟨absent, first⟩ := keptText_eq.mp stored
    refine ⟨absent, ?_, first⟩
    rw [stored, cstr, List.takeWhile_eq_self_iff] at same
    exact fun zero => absurd (same _ zero) (by decide)
  · rintro ⟨absent, zero, first⟩
    rw [keptText_eq.mpr ⟨absent, first⟩, cstr_self zero]

/-! ## Reading a name -/

/-- A statement may start: the reader waits for a clause outside of comments and strings, and nothing but
    block heads is in the buffer. -/
structure StatementStart (env : Env) (l : Lex) : Prop where
  newclause : l.newclause = true
  code : l.comment = false
  open_ : l.quote = false
  heads : Neutral env l.word
  room : l.word.length + 16 < MAXLEN

/-- A word that starts a statement of a kind that the reader waits for. -/
structure Keyword (env : Env) (keyword : List Char) (kind : IscConfParser) : Prop where
  chars : ∀ c ∈ keyword, plain c = true
  filled : keyword ≠ []
  short : keyword.length ≤ 14
  means : isInterestingConfigClause env.allAsShared keyword = kind
  argument : kind ≠ .ITS_NOTHING_INTERESTING ∧ kind ≠ .ITS_A_RANGE_FIRST_IP

theorem keyword_network (env : Env) : Keyword env "shared-network".toList .ITS_A_SHAREDNET := by
  refine ⟨List.all_eq_true.mp (by decide +kernel), by decide, by decide +kernel, ?_, by decide⟩
  cases env.allAsShared <;> decide +kernel

theorem keyword_include (env : Env) : Keyword env "include".toList .ITS_AN_INCLUCE := by
  refine ⟨List.all_eq_true.mp (by decide +kernel), by decide, by decide +kernel, ?_, by decide⟩
  cases env.allAsShared <;> decide +kernel

section
variable {env : Env} {incl : List Char → Nat → Globals → Except Stop Globals}

/-- With blanks that count the text of a string goes into the buffer up to its `#`. -/
theorem run_quoted_one {q : List Char} (text : '"' ∉ q) : ∀ {s : St}, s.lex.quote = true → Awake s.lex →
    s.lex.oneIpRange = true → s.lex.word.length + q.length < MAXLEN → run (step env incl) s q =
      .ok { s with lex := { s.lex with word := s.lex.word ++ q.filter (fun c => c ≠ '#') }, pos := s.pos + q.length } := by
  induction q with
  | nil =>
    intro s _ _ _ _
    simp
  | cons c q ih =>
    intro s inside awake one room
    simp only [List.mem_cons, not_or] at text
    simp only [List.length_cons] at room
    by_cases hash : c = '#'
    · have first : step env incl s c = .ok { s with pos := s.pos + 1 } := by
        rw [hash, step_quoted_hash inside]
      have rest := ih text.2 (s := { s with pos := s.pos + 1 }) inside awake one (by simp only; omega)
      rw [run_ok _ first, rest]
      simp [hash, Nat.add_assoc, Nat.add_comm 1]
    · have first : step env incl s c =
          .ok { s with lex := { s.lex with word := s.lex.word ++ [c] }, pos := s.pos + 1 } := by
        rw [step_quoted inside (Ne.symm text.1) hash, afterSwitch, if_neg (Awake.not_asleep awake), if_neg (by simp [one]),
          if_pos ⟨awake.2, Or.inr inside⟩, if_neg]
        simp only [List.length_append, List.length_singleton]
        omega
      have rest := ih text.2 (s := { s with lex := { s.lex with word := s.lex.word ++ [c] }, pos := s.pos + 1 })
        inside awake one (by simp only [List.length_append, List.length_singleton]; omega)
      rw [run_ok _ first, rest]
      simp [hash, Nat.add_assoc, Nat.add_comm 1]

theorem run_keptText {q : List Char} (text : '"' ∉ q) {s : St} (inside : s.lex.quote = true) (awake : Awake s.lex)
    (empty : s.lex.word = []) (room : q.length < MAXLEN) : run (step env incl) s q =
      .ok { s with lex := { s.lex with word := keptText s.lex.oneIpRange q }, pos := s.pos + q.length } := by
  cases one : s.lex.oneIpRange with
  | true =>
    have read := @run_quoted_one env incl q text s inside awake one (by rw [empty]; simpa using room)
    rw [read, empty, List.nil_append, keptText, if_pos rfl]
  | false =>
    have stored : stow s.lex.word q = keptText false q := by rw [empty, stow_quotedWord, keptText, if_neg Bool.false_ne_true]
    have fits : (keptText false q).length < MAXLEN := lt_of_le_of_lt (keptText_length false q) room
    have read := @run_quoted env incl q text s inside awake one (by rw [stored]; exact fits)
    rw [read, stored]

/-- A keyword and a blank: the reader waits for its argument. -/
theorem run_keyword {st : St} {keyword : List Char} {kind : IscConfParser} (starts : StatementStart env st.lex)
    (word : Keyword env keyword kind) :
    ∃ pos, run (step env incl) st (keyword ++ [' ']) =
      .ok { st with lex := ⟨false, false, st.lex.oneIpRange, false, kind, []⟩, pos := pos } := by
  obtain ⟨chars, filled, short, means, -, first⟩ := word
  obtain ⟨new, code, open_, heads, room⟩ := starts
  have read := @run_word env incl keyword chars st ⟨code, Or.inl new⟩ (by omega)
  have last : (st.lex.word ++ keyword).getLast?.getD env.before ≠ '\x7b' := by
    rw [List.getLast?_append_of_ne_nil _ filled, List.getLast?_eq_some_getLast filled, Option.getD_some]
    exact (plain_iff.mp (chars _ (List.getLast_mem filled))).2.2.2.2.1
  have zero : '\x00' ∉ st.lex.word ++ keyword := by
    rw [List.mem_append, not_or]
    exact ⟨heads.1, fun member => (plain_iff.mp (chars _ member)).2.2.2.2.2.2 rfl⟩
  have blank := @step_space env incl { st with
    lex := { st.lex with word := st.lex.word ++ keyword }, pos := st.pos + keyword.length } ' ' rfl code
  have ended := @afterSwitch_end env incl { st with
    lex := { st.lex with word := st.lex.word ++ keyword }, pos := st.pos + keyword.length + 1 } ' '
    ⟨code, Or.inl new⟩ rfl open_ (Or.inl (by simp [filled]))
  refine ⟨st.pos + keyword.length + 1, (run_through _ read [' ']).trans ?_⟩
  rw [run_one]
  refine blank.trans (ended.trans ?_)
  rw [if_pos new]
  unfold clauseWord
  simp only [cstr_self zero, neutral_append heads, means, if_pos last, if_neg first, code, open_]

/-- A keyword and a string behind it. -/
theorem run_string {st : St} {keyword s : List Char} {kind : IscConfParser} (starts : StatementStart env st.lex)
    (word : Keyword env keyword kind) (quote : '"' ∉ s) (room : s.length < MAXLEN) :
    ∃ pos, ∀ rest, run (step env incl) st (keyword ++ ' ' :: '"' :: s ++ '"' :: rest) = run (step env incl) { st with
      lex := ⟨false, false, st.lex.oneIpRange, false, kind, keptText st.lex.oneIpRange s⟩, pos := pos } rest := by
  obtain ⟨pos, named⟩ := @run_keyword env incl st keyword kind starts word
  have opens := @step_quote env incl { st with
    lex := ⟨false, false, st.lex.oneIpRange, false, kind, []⟩, pos := pos } rfl
  have inside := @run_keptText env incl s quote { st with
    lex := ⟨false, false, st.lex.oneIpRange, true, kind, []⟩, pos := pos + 1 } rfl ⟨rfl, Or.inr word.argument.1⟩ rfl room
  refine ⟨pos + 1 + s.length + 1, fun rest => ?_⟩
  have text : keyword ++ ' ' :: '"' :: s ++ '"' :: rest = (keyword ++ [' ']) ++ '"' :: (s ++ '"' :: rest) := by simp
  rw [text, run_through _ named, run_ok _ opens]
  refine (run_through _ inside ('"' :: rest)).trans ?_
  rw [run_ok _ (step_quote rfl)]
  rfl

end

/-! ## What is recorded stays -/

/-- New networks come behind the others, and those without a netmask to fill in are not changed. -/
structure Retains (g g' : Globals) : Prop where
  length : g.numSharedNetworks ≤ g'.numSharedNetworks
  kept : ∀ i ≤ g.numSharedNetworks, (g.sharedNetworks i).netmask = 0 → g'.sharedNetworks i = g.sharedNetworks i

theorem Retains.of_eq {g g' : Globals} (length : g'.numSharedNetworks = g.numSharedNetworks)
    (networks : g'.sharedNetworks = g.sharedNetworks) : Retains g g' :=
  ⟨Nat.le_of_eq length.symm, fun i _ _ => congrFun networks i⟩

theorem Retains.refl (g : Globals) : Retains g g := .of_eq rfl rfl

theorem Retains.trans {g g' g'' : Globals} (first : Retains g g') (second : Retains g' g'') : Retains g g'' := by
  refine ⟨first.length.trans second.length, fun i inside shared => ?_⟩
  have same := first.kept i inside shared
  rw [second.kept i (inside.trans first.length) (by rw [same]; exact shared), same]

theorem newrange_retains (g : Globals) (i owner : Nat) : Retains g (g.newrange i owner) := by
  refine .of_eq (newrange_fields g i owner).2.1 ?_
  unfold Globals.newrange Globals.setRange
  dsimp only
  split_ifs <;> rfl

theorem recordNetwork_retains {k k' : Core} {name : List Char} {netmask : Int}
    (recorded : recordNetwork k name netmask = .ok k') : Retains k.g k'.g := by
  unfold recordNetwork at recorded
  dsimp only at recorded
  split_ifs at recorded
  cases recorded
  refine ⟨Nat.le_succ _, fun i inside _ => Function.update_of_ne ?_ _ _⟩
  exact Nat.ne_of_lt (Nat.lt_succ_of_le inside)

section
variable {env : Env} {incl : List Char → Nat → Globals → Except Stop Globals}

theorem argumentWord_retains (includer : ∀ word sharedP g g', incl word sharedP g = .ok g' → Retains g g') {s s' : St}
    (went : argumentWord env incl s = .ok s') : Retains s.core.g s'.core.g := by
  cases kind : s.lex.argument with
  | ITS_A_RANGE_SECOND_IP =>
    simp only [argumentWord, kind] at went
    obtain ⟨i, -, made⟩ := newrange_ok went
    rw [made]
    refine Retains.trans ?_ (newrange_retains _ i _)
    have frame := (secondAddress_frame s.core.g (parseIpaddr env.inet s.core.g.ipVersion (cstr s.lex.word) s.addr).1
      s.lex.oneIpRange (parseIpaddr env.inet s.core.g.ipVersion (cstr s.lex.word) s.addr).2.2).networks
    exact .of_eq (secondAddress_same ..).networks (funext fun j => frame j List.not_mem_nil)
  | ITS_A_RANGE_FIRST_IP =>
    simp only [argumentWord, kind] at went
    split_ifs at went <;> (cases went; exact .of_eq rfl rfl)
  | ITS_A_SHAREDNET =>
    simp only [argumentWord, kind] at went
    obtain ⟨core, recorded, rest⟩ := bind_ok went
    cases rest
    exact recordNetwork_retains recorded
  | ITS_A_SUBNET =>
    simp only [argumentWord, kind] at went
    split_ifs at went
    · cases went
      exact .refl _
    · obtain ⟨core, recorded, rest⟩ := bind_ok went
      cases rest
      exact recordNetwork_retains recorded
  | ITS_A_NETMASK =>
    simp only [argumentWord, kind] at went
    split_ifs at went with asked
    · obtain ⟨out, masked, rest⟩ := bind_ok went
      cases rest
      obtain ⟨shifted, -, made⟩ := bind_ok masked
      cases made
      -- The network that gets a netmask is none of those that are kept.
      refine ⟨Nat.le_refl _, fun i _ shared => Function.update_of_ne ?_ _ _⟩
      rintro rfl
      exact asked shared
    · cases went
      exact .of_eq rfl rfl
    · cases went
      exact .refl _
  | ITS_AN_INCLUCE =>
    simp only [argumentWord, kind] at went
    obtain ⟨g, read, rest⟩ := bind_ok went
    cases rest
    exact includer _ _ _ _ read
  | ITS_NOTHING_INTERESTING =>
    simp only [argumentWord, kind] at went
    cases went
    exact .refl _

theorem step_retains (includer : ∀ word sharedP g g', incl word sharedP g = .ok g' → Retains g g') {s s' : St} {c : Char}
    (went : step env incl s c = .ok s') : Retains s.core.g s'.core.g := by
  by_cases ends : EndsWord s.lex c
  · rw [step_word env incl ends] at went
    split_ifs at went
    · cases went
      exact .refl _
    · have kept : Retains (atWord s).core.g s'.core.g := argumentWord_retains includer went
      exact kept
  · by_cases completes : Completes s.lex c
    · obtain ⟨i, -, made⟩ := step_completed completes went
      obtain ⟨j, -, grown⟩ := newrange_ok made
      rw [grown]
      have same : Retains s.core.g (s.core.g.lastIsFirst i) := .of_eq rfl rfl
      exact same.trans (newrange_retains _ j _)
    · obtain ⟨s₁, same, quiet⟩ := step_quiet env incl ends completes
      rw [same] at went
      cases went
      rw [quiet.globals]
      exact .refl _

theorem run_retains (includer : ∀ word sharedP g g', incl word sharedP g = .ok g' → Retains g g') :
    ∀ (text : List Char) {s s' : St}, run (step env incl) s text = .ok s' → Retains s.core.g s'.core.g
  | [], _, _, went => by
    cases went
    exact .refl _
  | c :: rest, s, s', went => by
    rw [run_cons] at went
    obtain ⟨s₁, stepped, ran⟩ := bind_ok went
    exact (step_retains includer stepped).trans (run_retains includer rest ran)

end

/-- Through a whole file and all that it includes the shared networks stay as they were recorded. -/
theorem parseConfig_retains (env : Env) : ∀ (depth : Nat) (word : List Char) (sharedP : Nat) (g g' : Globals),
    parseConfig env depth word sharedP g = .ok g' → Retains g g'
  | 0, _, _, _, _, read => by cases read
  | depth + 1, file, sharedP, g, g', read => by
    unfold parseConfig at read
    cases opened : env.files file with
    | none =>
      rw [opened] at read
      cases read
    | some text =>
      rw [opened] at read
      obtain ⟨s, ran, rest⟩ := bind_ok read
      cases rest
      have same : Retains g { g with opened := g.opened ++ [file] } := .of_eq rfl rfl
      exact same.trans (run_retains (parseConfig_retains env depth) _ ran)

/-! ## Networks and files -/

/-- A keyword, a string and what is behind it. -/
def statement (keyword s rest : List Char) : List Char := keyword ++ ' ' :: '"' :: s ++ '"' :: rest

/-- A shared network, up to the brace that opens its block. -/
def networkText (s : List Char) : List Char := statement "shared-network".toList s [' ', '\x7b']

/-- An include statement and a blank. -/
def includeText (s : List Char) (blank : Char) : List Char := statement "include".toList s [';', blank]

/-- The statement makes a network named `s`, which has that name at the end of whatever is read behind it. -/
def Records (env : Env) (depth : Nat) (st : St) (s : List Char) : Prop :=
  ∃ st', run (step env (parseConfig env depth)) st (networkText s) = .ok st' ∧
    st'.core.g.numSharedNetworks = st.core.g.numSharedNetworks + 1 ∧
    ∀ rest last, run (step env (parseConfig env depth)) st' rest = .ok last →
      (last.core.g.sharedNetworks (st.core.g.numSharedNetworks + 1)).name = s

/-- Whatever files there are, the statement is the reading of the file `s`, or the failure to open it. -/
def Opens (env : Env) (st : St) (s : List Char) (blank : Char) : Prop :=
  ∀ files depth, ∃ after, run (step { env with files := files } (parseConfig { env with files := files } depth)) st
    (includeText s blank) = (parseConfig { env with files := files } depth s st.core.sharedP st.core.g).map after

section
variable {env : Env}

/-- The reader at a blank behind a string that was stored as nothing: nothing happens. -/
theorem step_unnamed {incl : List Char → Nat → Globals → Except Stop Globals} {st : St} {kind : IscConfParser} {pos : Nat}
    {blank : Char} (space : isspace blank = true) (waits : kind ≠ .ITS_NOTHING_INTERESTING) :
    step env incl { st with lex := ⟨false, false, false, false, kind, []⟩, pos := pos } blank =
      .ok { st with lex := ⟨false, false, false, false, kind, []⟩, pos := pos + 1 } :=
  (step_space space rfl).trans
    (@afterSwitch_blank env incl { st with lex := ⟨false, false, false, false, kind, []⟩, pos := pos + 1 } blank
      ⟨rfl, Or.inr waits⟩ space rfl rfl)

/-- At a blank behind another string it is the argument. -/
theorem step_named {incl : List Char → Nat → Globals → Except Stop Globals} {st : St} {kind : IscConfParser} {pos : Nat}
    {one : Bool} {word : List Char} {blank : Char} (space : isspace blank = true) (waits : kind ≠ .ITS_NOTHING_INTERESTING)
    (named : word ≠ [] ∨ one = true) :
    step env incl { st with lex := ⟨false, false, one, false, kind, word⟩, pos := pos } blank =
      argumentWord env incl { st with lex := ⟨false, false, one, false, kind, word⟩, pos := pos + 1 } :=
  (step_space space rfl).trans
    (@afterSwitch_end env incl { st with lex := ⟨false, false, one, false, kind, word⟩, pos := pos + 1 } blank
      ⟨rfl, Or.inr waits⟩ space rfl named)

/-- A brace behind the name opens the block of the network. -/
theorem step_opens {incl : List Char → Nat → Globals → Except Stop Globals} {st : St} (open_ : st.lex.quote = false)
    (empty : st.lex.word = []) : ∃ st', step env incl st '\x7b' = .ok st' ∧ st'.core.g = st.core.g := by
  rw [step, if_neg (by decide), if_neg (by decide), if_neg (by decide), if_neg (by decide), if_pos rfl, openBrace,
    if_neg (by simp [open_])]
  dsimp only
  split_ifs <;> exact ⟨_, rfl, rfl⟩

section network
variable {incl : List Char → Nat → Globals → Except Stop Globals} {st : St} {keyword s : List Char}

theorem network_unnamed (starts : StatementStart env st.lex)
    (word : Keyword env keyword .ITS_A_SHAREDNET) (quote : '"' ∉ s) (room : s.length < MAXLEN)
    (one : st.lex.oneIpRange = false) (empty : keptText st.lex.oneIpRange s = []) :
    ∃ st', run (step env incl) st (statement keyword s [' ', '\x7b']) = .ok st' ∧ st'.core.g = st.core.g := by
  obtain ⟨pos, read⟩ := @run_string env incl st keyword s _ starts word quote room
  obtain ⟨st', opened, globals⟩ := @step_opens env incl
    { st with lex := ⟨false, false, false, false, .ITS_A_SHAREDNET, []⟩, pos := pos + 1 } rfl rfl
  refine ⟨st', ?_, globals⟩
  rw [statement, read, empty, one, run_ok _ (step_unnamed rfl (by decide)), run_one, opened]

theorem network_full (starts : StatementStart env st.lex)
    (word : Keyword env keyword .ITS_A_SHAREDNET) (quote : '"' ∉ s) (room : s.length < MAXLEN)
    (named : keptText st.lex.oneIpRange s ≠ [] ∨ st.lex.oneIpRange = true)
    (full : SHARED_NETWORKS < st.core.g.numSharedNetworks + 3) :
    run (step env incl) st (statement keyword s [' ', '\x7b']) = .error .increaseSharedNetworks := by
  obtain ⟨pos, read⟩ := @run_string env incl st keyword s _ starts word quote room
  rw [statement, read, run_cons, step_named rfl (by decide) named]
  simp only [argumentWord, recordNetwork, if_pos full]
  rfl

theorem network_named (starts : StatementStart env st.lex)
    (word : Keyword env keyword .ITS_A_SHAREDNET) (quote : '"' ∉ s) (room : s.length < MAXLEN)
    (named : keptText st.lex.oneIpRange s ≠ [] ∨ st.lex.oneIpRange = true)
    (free : st.core.g.numSharedNetworks + 3 ≤ SHARED_NETWORKS) :
    ∃ st', run (step env incl) st (statement keyword s [' ', '\x7b']) = .ok st' ∧
      st'.core.g = { st.core.g with numSharedNetworks := st.core.g.numSharedNetworks + 1 }.setNetwork
        (st.core.g.numSharedNetworks + 1) ⟨cstr (keptText st.lex.oneIpRange s), 0, 0, 0, 0, 0⟩ := by
  obtain ⟨pos, read⟩ := @run_string env incl st keyword s _ starts word quote room
  have some_ : ¬SHARED_NETWORKS < st.core.g.numSharedNetworks + 1 + 2 := by omega
  obtain ⟨st₁, recorded, open_, empty, globals⟩ : ∃ st₁, argumentWord env incl { st with
      lex := ⟨false, false, st.lex.oneIpRange, false, .ITS_A_SHAREDNET, keptText st.lex.oneIpRange s⟩, pos := pos + 1 } =
        .ok st₁ ∧ st₁.lex.quote = false ∧ st₁.lex.word = [] ∧
      st₁.core.g = { st.core.g with numSharedNetworks := st.core.g.numSharedNetworks + 1 }.setNetwork
        (st.core.g.numSharedNetworks + 1) ⟨cstr (keptText st.lex.oneIpRange s), 0, 0, 0, 0, 0⟩ := by
    simp only [argumentWord, recordNetwork, if_neg some_]
    exact ⟨_, rfl, rfl, rfl, rfl⟩
  obtain ⟨st', opened, same⟩ := @step_opens env incl st₁ open_ empty
  refine ⟨st', ?_, same.trans globals⟩
  rw [statement, read, run_ok _ ((step_named rfl (by decide) named).trans recorded), run_one, opened]

end network

/-- The name is recorded exactly when it is stored as it is and the table has room. -/
theorem records_iff (depth : Nat) {st : St} {s : List Char} (starts : StatementStart env st.lex) (filled : s ≠ [])
    (quote : '"' ∉ s) (room : s.length < MAXLEN) :
    Records env depth st s ↔ Verbatim st.lex.oneIpRange s ∧ st.core.g.numSharedNetworks + 3 ≤ SHARED_NETWORKS := by
  by_cases named : keptText st.lex.oneIpRange s ≠ [] ∨ st.lex.oneIpRange = true
  · by_cases free : st.core.g.numSharedNetworks + 3 ≤ SHARED_NETWORKS
    · obtain ⟨st₁, read, globals⟩ :=
        @network_named env (parseConfig env depth) st _ s starts (keyword_network env) quote room named free
      have length : st₁.core.g.numSharedNetworks = st.core.g.numSharedNetworks + 1 := by rw [globals]; rfl
      have entry : st₁.core.g.sharedNetworks (st.core.g.numSharedNetworks + 1) =
          ⟨cstr (keptText st.lex.oneIpRange s), 0, 0, 0, 0, 0⟩ := by
        rw [globals]
        exact Function.update_self ..
      rw [← cstr_keptText, and_iff_left free]
      constructor
      · rintro ⟨st', same, -, name⟩
        obtain rfl := Except.ok.inj (read.symm.trans same)
        have now := name [] st₁ rfl
        rw [entry] at now
        exact now
      · intro same
        refine ⟨st₁, read, length, fun rest last went => ?_⟩
        have kept := (run_retains (parseConfig_retains env depth) rest went).kept _ (Nat.le_of_eq length.symm)
          (by rw [entry])
        rw [kept, entry]
        exact same
    · have full : SHARED_NETWORKS < st.core.g.numSharedNetworks + 3 := Nat.lt_of_not_le free
      refine iff_of_false ?_ fun right => free right.2
      rintro ⟨st', same, -⟩
      rw [networkText, network_full starts (keyword_network env) quote room named full] at same
      cases same
  · rw [not_or, not_not, Bool.not_eq_true] at named
    obtain ⟨empty, one⟩ := named
    obtain ⟨st₁, read, globals⟩ :=
      @network_unnamed env (parseConfig env depth) st _ s starts (keyword_network env) quote room one empty
    refine iff_of_false ?_ ?_
    · rintro ⟨st', same, more, -⟩
      obtain rfl := Except.ok.inj (read.symm.trans same)
      rw [globals] at more
      omega
    · rintro ⟨verbatim, -⟩
      rw [← cstr_keptText, empty] at verbatim
      exact filled verbatim.symm

/-- A semicolon behind the name of a file does not end the statement. -/
theorem step_file_semi {incl : List Char → Nat → Globals → Except Stop Globals} {st : St} {one : Bool} {word : List Char}
    {pos : Nat} : step env incl { st with lex := ⟨false, false, one, false, .ITS_AN_INCLUCE, word⟩, pos := pos } ';' =
      .ok { st with lex := ⟨false, false, one, false, .ITS_AN_INCLUCE, word⟩, pos := pos + 1 } := by
  simp [step, semicolon]

section file
variable {incl : List Char → Nat → Globals → Except Stop Globals} {st : St} {keyword s : List Char} {blank : Char}

theorem file_unnamed (starts : StatementStart env st.lex) (word : Keyword env keyword .ITS_AN_INCLUCE) (quote : '"' ∉ s)
    (room : s.length < MAXLEN) (space : isspace blank = true) (one : st.lex.oneIpRange = false)
    (empty : keptText st.lex.oneIpRange s = []) :
    ∃ st', run (step env incl) st (statement keyword s [';', blank]) = .ok st' := by
  obtain ⟨pos, read⟩ := @run_string env incl st keyword s _ starts word quote room
  refine ⟨{ st with lex := ⟨false, false, false, false, .ITS_AN_INCLUCE, []⟩, pos := pos + 1 + 1 }, ?_⟩
  rw [statement, read, empty, one, run_ok _ step_file_semi, run_one, step_unnamed space (by decide)]

theorem file_named (starts : StatementStart env st.lex) (word : Keyword env keyword .ITS_AN_INCLUCE) (quote : '"' ∉ s)
    (room : s.length < MAXLEN) (space : isspace blank = true)
    (named : keptText st.lex.oneIpRange s ≠ [] ∨ st.lex.oneIpRange = true) :
    ∃ after, run (step env incl) st (statement keyword s [';', blank]) =
      (incl (cstr (keptText st.lex.oneIpRange s)) st.core.sharedP st.core.g).map after := by
  obtain ⟨pos, read⟩ := @run_string env incl st keyword s _ starts word quote room
  refine ⟨fun g => { st with
    core := { st.core with g := g }
    lex := ⟨true, false, st.lex.oneIpRange, false, .ITS_NOTHING_INTERESTING, []⟩
    pos := pos + 1 + 1 }, ?_⟩
  rw [statement, read, run_ok _ step_file_semi, run_one, step_named space (by decide) named]
  simp only [argumentWord]
  cases incl (cstr (keptText st.lex.oneIpRange s)) st.core.sharedP st.core.g <;> rfl

end file

/-- The file is opened exactly when its name is stored as it is. -/
theorem opens_iff {st : St} {s : List Char} {blank : Char} (starts : StatementStart env st.lex) (filled : s ≠ [])
    (quote : '"' ∉ s) (room : s.length < MAXLEN) (space : isspace blank = true) :
    Opens env st s blank ↔ Verbatim st.lex.oneIpRange s := by
  -- Without any file the name that is looked for is seen in the message.
  have missing : ∀ word sharedP g, parseConfig { env with files := fun _ => none } 1 word sharedP g =
      .error (.cannotOpen word) := fun _ _ _ => rfl
  by_cases named : keptText st.lex.oneIpRange s ≠ [] ∨ st.lex.oneIpRange = true
  · rw [← cstr_keptText]
    constructor
    · intro opens
      obtain ⟨after, same⟩ := opens (fun _ => none) 1
      obtain ⟨_, read⟩ := @file_named { env with files := fun _ => none } (parseConfig { env with files := fun _ => none } 1)
        st _ s blank ⟨starts.1, starts.2, starts.3, starts.4, starts.5⟩ (keyword_include _) quote room space named
      rw [includeText, read, missing, missing] at same
      exact Stop.cannotOpen.inj (Except.error.inj same)
    · intro same files depth
      obtain ⟨after, read⟩ := @file_named { env with files := files } (parseConfig { env with files := files } depth)
        st _ s blank ⟨starts.1, starts.2, starts.3, starts.4, starts.5⟩ (keyword_include _) quote room space named
      refine ⟨after, ?_⟩
      rw [includeText, read, same]
  · rw [not_or, not_not, Bool.not_eq_true] at named
    obtain ⟨empty, one⟩ := named
    refine iff_of_false ?_ ?_
    · intro opens
      obtain ⟨after, same⟩ := opens (fun _ => none) 1
      obtain ⟨st₁, read⟩ := @file_unnamed { env with files := fun _ => none }
        (parseConfig { env with files := fun _ => none } 1) st _ s blank
        ⟨starts.1, starts.2, starts.3, starts.4, starts.5⟩ (keyword_include _) quote room space one empty
      rw [includeText, read, missing] at same
      cases same
    · intro verbatim
      rw [← cstr_keptText, empty] at verbatim
      exact filled verbatim.symm

/-- At the start of a file a statement may start. -/
theorem start_starts (env : Env) (g : Globals) (sharedP : Nat) : StatementStart env (start env g sharedP).lex :=
  ⟨rfl, rfl, rfl, neutral_nil env, show 16 < MAXLEN by decide⟩

/-- A quoted text becomes the name of a network and of a file as it is, exactly when there is no `#` in it and no
    blank in front, and when the table has room. -/
theorem quoted_name_iff (env : Env) (depth : Nat) (st : St) (s : List Char) (blank : Char)
    (starts : StatementStart env st.lex) (filled : s ≠ []) (room : s.length < MAXLEN) (quote : '"' ∉ s)
    (space : isspace blank = true) :
    Records env depth st s ∧ Opens env st s blank ↔
      Verbatim st.lex.oneIpRange s ∧ st.core.g.numSharedNetworks + 3 ≤ SHARED_NETWORKS := by
  rw [records_iff depth starts filled quote room, opens_iff starts filled quote room space, and_right_comm, and_self]

end

theorem quoted_name_iff_sample :
    (StatementStart (sampleEnv fun _ => none) (start (sampleEnv fun _ => none) (emptyGlobals .IPv4) 0).lex ∧
      "a; b".toList ≠ [] ∧ "a; b".toList.length < MAXLEN ∧ '"' ∉ "a; b".toList ∧ isspace '\n' = true) ∧
    Records (sampleEnv fun _ => none) 1 (start (sampleEnv fun _ => none) (emptyGlobals .IPv4) 0) "a; b".toList ∧
    Opens (sampleEnv fun _ => none) (start (sampleEnv fun _ => none) (emptyGlobals .IPv4) 0) "a; b".toList '\n' :=
  ⟨⟨start_starts _ _ _, by decide, by decide, by decide, rfl⟩,
    (quoted_name_iff _ 1 _ "a; b".toList '\n' (start_starts _ _ _) (by decide) (by decide) (by decide) rfl).mpr
      ⟨⟨by decide, by decide, Or.inr fun _ first => Option.some.inj first ▸ rfl⟩, Nat.le_of_ble_eq_true rfl⟩⟩

/-- A main file with a `#` and a blank in the names of two networks, and one with a `#` in that of a file. -/
def hashFiles (file : List Char) : Option (List Char) :=
  if file = "networks".toList then some "shared-network \"a#b\" \x7b\n\x7d\nshared-network \" c\" \x7b\n\x7d\n".toList
  else if file = "includes".toList then some "include \"d#e\";\n".toList
  else none

/-- A `#` in quotes is lost, and so is a blank in front. -/
theorem quoted_hash_lost :
    ((parseConfig (sampleEnv hashFiles) 1 "networks".toList 0 (emptyGlobals .IPv4)).map fun g =>
        (g.numSharedNetworks, (g.sharedNetworks 1).name, (g.sharedNetworks 2).name)) = .ok (2, "ab".toList, "c".toList) ∧
      ((parseConfig (sampleEnv hashFiles) 2 "includes".toList 0 (emptyGlobals .IPv4)).map fun g => g.numSharedNetworks) =
        .error (.cannotOpen "de".toList) ∧
      ¬Records (sampleEnv hashFiles) 1 (start (sampleEnv hashFiles) (emptyGlobals .IPv4) 0) "a#b".toList := by
  refine ⟨rfl, rfl, ?_⟩
  rw [records_iff 1 (start_starts _ _ _) (by decide) (by decide) (by decide)]
  rintro ⟨⟨absent, -⟩, -⟩
  exact absent (by decide)

end DhcpdPools.ConfigNames
