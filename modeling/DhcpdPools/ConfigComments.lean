import DhcpdPools.ConfigAppends
import DhcpdPools.ConfigLayout

/-!
Comments. The reader looks at a semicolon or an opening brace in a comment in some of
its states; it skips a comment exactly where that does no harm (`skips_iff`). Such a
comment may stand beside any blank of any text: its newline is one more blank, and two
runs that differ in such blanks only stay together (`step_twin`), so the tables are the
same (`comment_irrelevant`).
-/
namespace DhcpdPools.ConfigComments
open Machine ConfigReader ConfigTokens ConfigReading ConfigAppends ConfigLayout

/-! ## Two runs that stay together -/

/-- Two states with the same tables that read on alike: the address variable and the range
    pointer may differ where they are written before they are read. -/
structure Twin (s s' : St) : Prop where
  core : s'.core = s.core
  lex : s'.lex = s.lex
  addr : s.core.g.ipVersion ≠ .IPvUNKNOWN ∨ s'.addr = s.addr
  pointer : s.lex.argument ≠ .ITS_A_RANGE_SECOND_IP ∨ s.lex.oneIpRange = true ∨ s'.rangeP = s.rangeP

theorem Twin.moved (s : St) (pos : Nat) : Twin s { s with pos := pos } := ⟨rfl, rfl, Or.inr rfl, Or.inr (Or.inr rfl)⟩

theorem Twin.trans {s t u : St} (first : Twin s t) (second : Twin t u) : Twin s u := by
  refine ⟨second.core.trans first.core, second.lex.trans first.lex, ?_, ?_⟩
  · have later := second.addr
    rw [first.core] at later
    rcases first.addr with known | same
    · exact Or.inl known
    · exact later.imp_right (fun same' => same'.trans same)
  · have later := second.pointer
    rw [first.lex] at later
    rcases first.pointer with other | one | same
    · exact Or.inl other
    · exact Or.inr (Or.inl one)
    · exact later.imp_right (fun rest => rest.imp_right (fun same' => same'.trans same))

/-- No semicolon completes a range that has no address yet. -/
def Whole (s : St) (c : Char) : Prop := ¬(Completes s.lex c ∧ s.lex.oneIpRange = true)

instance (s : St) (c : Char) : Decidable (Whole s c) := inferInstanceAs (Decidable (¬_))

section
variable {env : Env} {incl : List Char → Nat → Globals → Except Stop Globals}

/-- An included file leaves the version known. -/
def Settles (incl : List Char → Nat → Globals → Except Stop Globals) : Prop :=
  ∀ file sharedP g g', incl file sharedP g = .ok g' → g.ipVersion ≠ .IPvUNKNOWN → g'.ipVersion ≠ .IPvUNKNOWN

/-- Both read on with the same tables and word. -/
theorem Twin.goes {s s' t t' : St} (twin : Twin s s') (core : t'.core = t.core) (lex : t'.lex = t.lex)
    (left : t.addr = s.addr ∧ t.rangeP = s.rangeP) (right : t'.addr = s'.addr ∧ t'.rangeP = s'.rangeP)
    (version : s.core.g.ipVersion ≠ .IPvUNKNOWN → t.core.g.ipVersion ≠ .IPvUNKNOWN)
    (still : t.lex.argument ≠ .ITS_A_RANGE_SECOND_IP ∨
      t.lex.argument = s.lex.argument ∧ t.lex.oneIpRange = s.lex.oneIpRange) : Twin t t' := by
  refine ⟨core, lex, ?_, ?_⟩
  · rw [left.1, right.1]
    exact twin.addr.imp_left version
  · rw [left.2, right.2]
    rcases still with other | ⟨argument, one⟩
    · exact Or.inl other
    · rw [argument, one]
      exact twin.pointer

theorem parse_twin (inet : Inet) {v : DhcpVersion} (word : List Char) {addr addr' : Ipaddr}
    (same : v ≠ .IPvUNKNOWN ∨ addr' = addr) : parseIpaddr inet v word addr' = parseIpaddr inet v word addr := by
  rcases same with known | rfl
  · obtain ⟨version, parses, dst⟩ := parseIpaddr_dst inet v word addr' addr
    exact Prod.ext version (Prod.ext parses (dst (Or.inr known)))
  · rfl

theorem parse_known (inet : Inet) {v : DhcpVersion} (word : List Char) (addr : Ipaddr) (known : v ≠ .IPvUNKNOWN) :
    (parseIpaddr inet v word addr).1 ≠ .IPvUNKNOWN := by
  have version := parseIpaddr_version inet v word addr
  split_ifs at version
  · exact version
  · rwa [version]

theorem recordNetwork_version {k k' : Core} {name : List Char} {netmask : Int}
    (recorded : recordNetwork k name netmask = .ok k') : k'.g.ipVersion = k.g.ipVersion := by
  rw [recordNetwork] at recorded
  dsimp only at recorded
  split_ifs at recorded
  obtain rfl := Except.ok.inj recorded
  rfl

theorem newrange_twin (core : Core) (lex : Lex) (addr : Ipaddr) (rangeP : Option (Nat × Nat)) (pos pos' : Nat)
    {addr' : Ipaddr} (same : core.g.ipVersion ≠ .IPvUNKNOWN ∨ addr' = addr) :
    Both Twin (newrange ⟨core, lex, addr, rangeP, pos⟩) (newrange ⟨core, lex, addr', rangeP, pos'⟩) := by
  unfold newrange
  cases rangeP with
  | none => exact trivial
  | some place =>
    obtain ⟨allocation, i⟩ := place
    dsimp only
    by_cases valid : allocation = core.g.allocation
    · rw [if_pos valid, if_pos valid]
      refine ⟨rfl, rfl, ?_, Or.inr (Or.inr rfl)⟩
      rwa [(newrange_entry _ _ _).2.1]
    · rw [if_neg valid, if_neg valid]
      exact trivial

/-- A word ends in both runs. -/
theorem clauseWord_twin {s s' : St} (twin : Twin s s') : Twin (clauseWord env s) (clauseWord env s') := by
  have other := isInteresting_ne_second env.allAsShared (cstr s.lex.word)
  refine twin.goes twin.core ?_ ⟨rfl, rfl⟩ ⟨rfl, rfl⟩ id (Or.inl other)
  rw [clauseWord, clauseWord, twin.lex]

theorem argumentWord_twin (settles : Settles incl) {s s' : St} (twin : Twin s s') :
    Both Twin (argumentWord env incl s) (argumentWord env incl s') := by
  obtain ⟨core', lex', addr, rangeP, pos⟩ := s
  obtain ⟨core, lex, addr', rangeP', pos'⟩ := s'
  obtain ⟨rfl, rfl, same, pointer⟩ := id twin
  have parsed := parse_twin env.inet (cstr lex.word) same
  have known := parse_known env.inet (v := core.g.ipVersion) (cstr lex.word) addr
  unfold argumentWord
  dsimp only
  rw [parsed]
  have nothing : IscConfParser.ITS_NOTHING_INTERESTING ≠ .ITS_A_RANGE_SECOND_IP := by decide
  cases lex.argument with
  | ITS_A_RANGE_SECOND_IP => exact newrange_twin _ _ _ _ _ _ (Or.inr rfl)
  | ITS_A_RANGE_FIRST_IP =>
    dsimp only
    split_ifs
    · exact ⟨rfl, rfl, Or.inr rfl, Or.inr (Or.inr rfl)⟩
    · exact ⟨rfl, rfl, Or.inr rfl, Or.inr (Or.inr rfl)⟩
  | ITS_A_SHAREDNET =>
    dsimp only
    cases recorded : recordNetwork core (cstr lex.word) 0 with
    | error e => exact trivial
    | ok k => exact twin.goes rfl rfl ⟨rfl, rfl⟩ ⟨rfl, rfl⟩ (recordNetwork_version recorded ▸ id) (Or.inl nothing)
  | ITS_A_SUBNET =>
    dsimp only
    split_ifs
    · exact twin.goes rfl rfl ⟨rfl, rfl⟩ ⟨rfl, rfl⟩ id (Or.inl nothing)
    · cases recorded : recordNetwork core (cstr lex.word) (-1) with
      | error e => exact trivial
      | ok k => exact twin.goes rfl rfl ⟨rfl, rfl⟩ ⟨rfl, rfl⟩ (recordNetwork_version recorded ▸ id) (Or.inl nothing)
  | ITS_A_NETMASK =>
    dsimp only
    split_ifs
    · cases recorded : recordNetmask { core with g := { core.g with ipVersion := _ } } _ with
      | error e => exact trivial
      | ok r => exact ⟨rfl, rfl, Or.inr rfl, Or.inl nothing⟩
    · exact ⟨rfl, rfl, Or.inr rfl, Or.inl (by simp)⟩
    · exact twin.goes rfl rfl ⟨rfl, rfl⟩ ⟨rfl, rfl⟩ id (Or.inl nothing)
  | ITS_AN_INCLUCE =>
    dsimp only
    cases included : incl (cstr lex.word) core.sharedP core.g with
    | error e => exact trivial
    | ok g => exact twin.goes rfl rfl ⟨rfl, rfl⟩ ⟨rfl, rfl⟩ (settles _ _ _ _ included) (Or.inl nothing)
  | ITS_NOTHING_INTERESTING => exact twin.goes rfl rfl ⟨rfl, rfl⟩ ⟨rfl, rfl⟩ id (Or.inl (by simp))

theorem afterSwitch_twin (settles : Settles incl) {s s' : St} (twin : Twin s s') (c : Char) :
    Both Twin (afterSwitch env incl s c) (afterSwitch env incl s' c) := by
  unfold afterSwitch
  dsimp only
  rw [twin.lex]
  split_ifs
  · exact twin
  · exact twin
  · exact twin.goes twin.core rfl ⟨rfl, rfl⟩ ⟨rfl, rfl⟩ id (Or.inr ⟨rfl, rfl⟩)
  · exact twin.goes twin.core rfl ⟨rfl, rfl⟩ ⟨rfl, rfl⟩ id (Or.inr ⟨rfl, rfl⟩)
  · exact clauseWord_twin twin
  · exact argumentWord_twin settles twin
  · exact twin

theorem semicolon_twin (settles : Settles incl) {s s' : St} (twin : Twin s s') (whole : Whole s ';') :
    Both Twin (semicolon env incl s) (semicolon env incl s') := by
  unfold semicolon
  dsimp only
  rw [twin.lex]
  split_ifs with open_ other one second completes
  · exact afterSwitch_twin settles twin ';'
  · exact twin.goes twin.core rfl ⟨rfl, rfl⟩ ⟨rfl, rfl⟩ id (Or.inr ⟨rfl, rfl⟩)
  · -- The range goes on with its only address still in the buffer.
    exact ⟨twin.core, rfl, twin.addr, Or.inr (Or.inl one.2)⟩
  · exact afterSwitch_twin settles twin ' '
  · have unquoted : s.lex.quote = false := by simpa using open_
    have two : s.lex.oneIpRange ≠ true := fun one => whole ⟨⟨rfl, unquoted, completes.1, completes.2⟩, one⟩
    have place : s'.rangeP = s.rangeP := (twin.pointer.resolve_left (fun other => other completes.1)).resolve_left two
    obtain ⟨core', lex', addr, rangeP, pos⟩ := s
    obtain ⟨core, lex, addr', rangeP', pos'⟩ := s'
    obtain ⟨rfl, rfl, same, -⟩ := twin
    obtain rfl := place
    cases rangeP' with
    | none => exact trivial
    | some place =>
      dsimp only
      split_ifs
      · exact newrange_twin _ _ _ _ _ _ same
      · exact trivial
  · exact twin

theorem openBrace_twin (settles : Settles incl) {s s' : St} (twin : Twin s s') :
    Both Twin (openBrace env incl s) (openBrace env incl s') := by
  have entered : ∀ {t t' : St}, Twin t t' →
      Both Twin (if t.lex.word = [] then .ok { t with lex := { t.lex with newclause := true } }
          else afterSwitch env incl t '\x7b')
        (if t'.lex.word = [] then .ok { t' with lex := { t'.lex with newclause := true } }
          else afterSwitch env incl t' '\x7b') := by
    intro t t' twin
    rw [twin.lex]
    split_ifs
    · exact twin.goes twin.core rfl ⟨rfl, rfl⟩ ⟨rfl, rfl⟩ id (Or.inr ⟨rfl, rfl⟩)
    · exact afterSwitch_twin settles twin '\x7b'
  obtain ⟨core', lex', addr, rangeP, pos⟩ := s
  obtain ⟨core, lex, addr', rangeP', pos'⟩ := s'
  obtain ⟨rfl, rfl, -, -⟩ := id twin
  by_cases open_ : lex.quote = true
  · rw [openBrace, openBrace, if_pos open_, if_pos open_]
    exact afterSwitch_twin settles twin '\x7b'
  · rw [openBrace, openBrace, if_neg open_, if_neg open_]
    by_cases comment : lex.comment = true
    · rw [if_pos comment, if_pos comment]
      exact entered twin
    · rw [if_neg comment, if_neg comment]
      refine entered ?_
      exact twin.goes rfl rfl ⟨rfl, rfl⟩ ⟨rfl, rfl⟩ id (Or.inr ⟨rfl, rfl⟩)

theorem closeBrace_twin (settles : Settles incl) {s s' : St} (twin : Twin s s') :
    Both Twin (closeBrace env incl s) (closeBrace env incl s') := by
  unfold closeBrace
  rw [twin.lex]
  split_ifs
  · exact afterSwitch_twin settles twin '\x7d'
  · exact twin
  · refine twin.goes (congrArg Core.close twin.core) rfl ⟨rfl, rfl⟩ ⟨rfl, rfl⟩ ?_ (Or.inr ⟨rfl, rfl⟩)
    have tables : s.core.close.g = s.core.g := by
      rw [Core.close]
      dsimp only
      split_ifs <;> rfl
    exact fun known => tables ▸ known

/-- One character keeps the two runs together. -/
theorem step_twin (settles : Settles incl) {s s' : St} (twin : Twin s s') {c : Char} (whole : Whole s c) :
    Both Twin (step env incl s c) (step env incl s' c) := by
  have moved : Twin { s with pos := s.pos + 1 } { s' with pos := s'.pos + 1 } :=
    twin.goes twin.core twin.lex ⟨rfl, rfl⟩ ⟨rfl, rfl⟩ id (Or.inr ⟨rfl, rfl⟩)
  obtain ⟨core', lex', addr, rangeP, pos⟩ := s
  obtain ⟨core, lex, addr', rangeP', pos'⟩ := s'
  obtain ⟨rfl, rfl, same, pointer⟩ := twin
  unfold step
  dsimp only at moved ⊢
  split_ifs with hash quoted quotation comment newline inside semi lbrace rbrace
  · exact moved
  · exact moved.goes rfl rfl ⟨rfl, rfl⟩ ⟨rfl, rfl⟩ id (Or.inr ⟨rfl, rfl⟩)
  · exact moved
  · exact moved.goes rfl rfl ⟨rfl, rfl⟩ ⟨rfl, rfl⟩ id (Or.inr ⟨rfl, rfl⟩)
  · exact afterSwitch_twin settles moved c
  · refine afterSwitch_twin settles ?_ c
    exact moved.goes rfl rfl ⟨rfl, rfl⟩ ⟨rfl, rfl⟩ id (Or.inr ⟨rfl, rfl⟩)
  · exact semicolon_twin settles moved (semi ▸ whole)
  · exact openBrace_twin settles moved
  · exact closeBrace_twin settles moved
  · exact afterSwitch_twin settles moved c

/-! ## The version stays known -/

theorem argumentWord_settles (settles : Settles incl) {s s' : St} (went : argumentWord env incl s = .ok s')
    (known : s.core.g.ipVersion ≠ .IPvUNKNOWN) : s'.core.g.ipVersion ≠ .IPvUNKNOWN := by
  have parsed := parse_known env.inet (cstr s.lex.word) s.addr known
  unfold argumentWord at went
  dsimp only at went
  cases kind : s.lex.argument with
  | ITS_A_RANGE_SECOND_IP =>
    rw [kind] at went
    obtain ⟨i, -, made⟩ := newrange_ok went
    rw [made, (newrange_entry _ _ _).2.1, (secondAddress_entry _ _ _ _).2.1]
    exact parsed
  | ITS_A_RANGE_FIRST_IP =>
    rw [kind] at went
    dsimp only at went
    split_ifs at went <;> (obtain rfl := Except.ok.inj went; exact parsed)
  | ITS_A_SHAREDNET =>
    rw [kind] at went
    obtain ⟨k, recorded, made⟩ := bind_ok went
    obtain rfl := Except.ok.inj made
    exact (recordNetwork_version recorded).symm ▸ known
  | ITS_A_SUBNET =>
    rw [kind] at went
    dsimp only at went
    split_ifs at went
    · obtain rfl := Except.ok.inj went
      exact known
    · obtain ⟨k, recorded, made⟩ := bind_ok went
      obtain rfl := Except.ok.inj made
      exact (recordNetwork_version recorded).symm ▸ known
  | ITS_A_NETMASK =>
    rw [kind] at went
    dsimp only at went
    split_ifs at went
    · obtain ⟨r, recorded, made⟩ := bind_ok went
      obtain rfl := Except.ok.inj made
      obtain ⟨shifted, -, written⟩ := bind_ok recorded
      obtain rfl := Except.ok.inj written
      exact parsed
    · obtain rfl := Except.ok.inj went
      exact parsed
    · obtain rfl := Except.ok.inj went
      exact known
  | ITS_AN_INCLUCE =>
    rw [kind] at went
    obtain ⟨g, included, made⟩ := bind_ok went
    obtain rfl := Except.ok.inj made
    exact settles _ _ _ _ included known
  | ITS_NOTHING_INTERESTING =>
    rw [kind] at went
    obtain rfl := Except.ok.inj went
    exact known

theorem step_settles (settles : Settles incl) {s s' : St} {c : Char} (went : step env incl s c = .ok s')
    (known : s.core.g.ipVersion ≠ .IPvUNKNOWN) : s'.core.g.ipVersion ≠ .IPvUNKNOWN := by
  by_cases ends : EndsWord s.lex c
  · rw [step_word env incl ends] at went
    split_ifs at went
    · obtain rfl := Except.ok.inj went
      exact known
    · exact argumentWord_settles settles went known
  by_cases completes : Completes s.lex c
  · rw [step_completes env incl completes] at went
    split at went
    · cases went
    · split_ifs at went
      obtain ⟨i, -, made⟩ := newrange_ok went
      rw [made, (newrange_entry _ _ _).2.1]
      exact known
  · obtain ⟨s'', same, quiet⟩ := step_quiet env incl ends completes
    obtain rfl := Except.ok.inj (went.symm.trans same)
    rw [quiet.globals]
    exact known

theorem run_settles (settles : Settles incl) : ∀ (text : List Char) {s s' : St}, run (step env incl) s text = .ok s' →
    s.core.g.ipVersion ≠ .IPvUNKNOWN → s'.core.g.ipVersion ≠ .IPvUNKNOWN
  | [], _, _, went, known => by
    obtain rfl := Except.ok.inj went
    exact known
  | c :: rest, s, s', went, known => by
    rw [run_cons] at went
    obtain ⟨s₁, stepped, ran⟩ := bind_ok went
    exact run_settles settles rest ran (step_settles settles stepped known)

theorem parseConfig_settles (env : Env) : ∀ depth, Settles (parseConfig env depth)
  | 0 => fun _ _ _ _ went => by cases went
  | depth + 1 => by
    intro file sharedP g g' went known
    rw [parseConfig] at went
    split at went
    · cases went
    · obtain ⟨s, ran, made⟩ := bind_ok went
      obtain rfl := Except.ok.inj made
      exact run_settles (parseConfig_settles env depth) _ ran known

/-! ## Blanks -/

/-- A blank ends a word, if there is one. -/
theorem afterSwitch_space {s : St} {c : Char} (blank : isspace c = true) (code : s.lex.comment = false)
    (open_ : s.lex.quote = false) : afterSwitch env incl s c =
      if s.lex.newclause = false ∧ s.lex.argument = .ITS_NOTHING_INTERESTING ∨ s.lex.word = [] ∧ s.lex.oneIpRange = false then
        .ok s
      else if s.lex.newclause then .ok (clauseWord env s)
      else argumentWord env incl s := by
  by_cases asleep : s.lex.newclause = false ∧ s.lex.argument = .ITS_NOTHING_INTERESTING
  · rw [afterSwitch_asleep asleep, if_pos (Or.inl asleep)]
  have awake : Awake s.lex := by
    refine ⟨code, ?_⟩
    by_cases new : s.lex.newclause = true
    · exact Or.inl new
    · exact Or.inr (fun nothing => asleep ⟨Bool.eq_false_of_not_eq_true new, nothing⟩)
  by_cases empty : s.lex.word = [] ∧ s.lex.oneIpRange = false
  · rw [afterSwitch_blank awake blank empty.1 empty.2, if_pos (Or.inr empty)]
  · rw [if_neg (not_or.mpr ⟨asleep, empty⟩)]
    refine afterSwitch_end awake blank open_ ?_
    by_cases filled : s.lex.word = []
    · exact Or.inr (Bool.eq_true_of_not_eq_false (fun two => empty ⟨filled, two⟩))
    · exact Or.inl filled

/-- The variables behind the end of an argument. -/
structure Leaves (l l' : Lex) : Prop where
  word : l'.word = []
  comment : l'.comment = l.comment
  quote : l'.quote = l.quote
  second : l'.argument = .ITS_A_RANGE_SECOND_IP → l'.oneIpRange = false
  one : l'.oneIpRange = true → l.oneIpRange = true ∧ l.argument ≠ .ITS_A_RANGE_SECOND_IP ∧
    (l.argument = .ITS_A_RANGE_FIRST_IP → l'.newclause = false ∧ l'.argument = .ITS_A_RANGE_FIRST_IP)

/-- An argument of another statement than a range. -/
theorem Leaves.other {l l' : Lex} (word : l'.word = []) (comment : l'.comment = l.comment) (quote : l'.quote = l.quote)
    (argument : l'.argument ≠ .ITS_A_RANGE_SECOND_IP) (one : l'.oneIpRange = l.oneIpRange)
    (elsewhere : l.argument ≠ .ITS_A_RANGE_FIRST_IP ∧ l.argument ≠ .ITS_A_RANGE_SECOND_IP) : Leaves l l' :=
  ⟨word, comment, quote, fun second => absurd second argument,
    fun set => ⟨one ▸ set, elsewhere.2, fun first => absurd first elsewhere.1⟩⟩

theorem newrange_lex {s s' : St} (went : newrange s = .ok s') : s'.lex = { s.lex with newclause := true } := by
  unfold newrange at went
  split at went
  · cases went
  · split_ifs at went
    obtain rfl := Except.ok.inj went
    rfl

theorem argumentWord_leaves {s s' : St} (went : argumentWord env incl s = .ok s') : Leaves s.lex s'.lex := by
  unfold argumentWord at went
  dsimp only at went
  cases kind : s.lex.argument with
  | ITS_A_RANGE_SECOND_IP =>
    rw [kind] at went
    rw [newrange_lex went]
    exact ⟨rfl, rfl, rfl, fun _ => rfl, fun one => by cases one⟩
  | ITS_A_RANGE_FIRST_IP =>
    rw [kind] at went
    dsimp only at went
    split_ifs at went
    · obtain rfl := Except.ok.inj went
      exact ⟨rfl, rfl, rfl, fun _ => rfl, fun one => by cases one⟩
    · obtain rfl := Except.ok.inj went
      exact ⟨rfl, rfl, rfl, (fun second => by cases second), fun one => ⟨one, by rw [kind]; decide, fun _ => ⟨rfl, rfl⟩⟩⟩
  | ITS_A_SHAREDNET =>
    rw [kind] at went
    obtain ⟨k, -, made⟩ := bind_ok went
    obtain rfl := Except.ok.inj made
    exact .other rfl rfl rfl (fun same => by cases same) rfl (by rw [kind]; decide)
  | ITS_A_SUBNET =>
    rw [kind] at went
    dsimp only at went
    split_ifs at went
    · obtain rfl := Except.ok.inj went
      exact .other rfl rfl rfl (fun same => by cases same) rfl (by rw [kind]; decide)
    · obtain ⟨k, -, made⟩ := bind_ok went
      obtain rfl := Except.ok.inj made
      exact .other rfl rfl rfl (fun same => by cases same) rfl (by rw [kind]; decide)
  | ITS_A_NETMASK =>
    rw [kind] at went
    dsimp only at went
    split_ifs at went
    · obtain ⟨r, -, made⟩ := bind_ok went
      obtain rfl := Except.ok.inj made
      exact .other rfl rfl rfl (fun same => by cases same) rfl (by rw [kind]; decide)
    · obtain rfl := Except.ok.inj went
      exact .other rfl rfl rfl (fun same => by cases same) rfl (by rw [kind]; decide)
    · obtain rfl := Except.ok.inj went
      exact .other rfl rfl rfl (fun same => by cases same) rfl (by rw [kind]; decide)
  | ITS_AN_INCLUCE =>
    rw [kind] at went
    obtain ⟨g, -, made⟩ := bind_ok went
    obtain rfl := Except.ok.inj made
    exact .other rfl rfl rfl (fun same => by cases same) rfl (by rw [kind]; decide)
  | ITS_NOTHING_INTERESTING =>
    rw [kind] at went
    obtain rfl := Except.ok.inj went
    exact .other rfl rfl rfl (fun same => by cases same) rfl (by rw [kind]; decide)

theorem afterSwitch_flags {s s' : St} {c : Char} (went : afterSwitch env incl s c = .ok s') :
    s'.lex.comment = s.lex.comment ∧ s'.lex.quote = s.lex.quote := by
  unfold afterSwitch at went
  dsimp only at went
  split_ifs at went
  on_goal 6 =>
    have leaves := argumentWord_leaves went
    exact ⟨leaves.comment, leaves.quote⟩
  all_goals
    obtain rfl := Except.ok.inj went
    exact ⟨rfl, rfl⟩

/-- Another blank changes nothing that matters. -/
def Idle (l : Lex) : Prop :=
  l.newclause = false ∧ l.argument = .ITS_NOTHING_INTERESTING ∨
    l.word = [] ∧ (l.oneIpRange = false ∨ l.newclause = false ∧ l.argument = .ITS_A_RANGE_FIRST_IP)

/-- The reader has not lost its place: `one_ip_range` is set inside a range statement only, and
    the keyword is not glued to a brace. -/
def Calm (env : Env) (l : Lex) : Prop :=
  (l.oneIpRange = true → l.newclause = false ∧ (l.argument = .ITS_A_RANGE_FIRST_IP ∨
    l.argument = .ITS_A_RANGE_SECOND_IP ∨ l.argument = .ITS_NOTHING_INTERESTING)) ∧
  (l.newclause = true → l.word.getLast? = some '\x7b' →
    isInterestingConfigClause env.allAsShared (cstr l.word) ≠ .ITS_A_RANGE_FIRST_IP)

instance (env : Env) (l : Lex) : Decidable (Calm env l) := inferInstanceAs (Decidable ((_ → _) ∧ (_ → _ → _)))

/-- A blank has ended the word. -/
theorem blank_idle {s s' : St} {c : Char} (blank : isspace c = true) (code : s.lex.comment = false)
    (open_ : s.lex.quote = false) (went : afterSwitch env incl s c = .ok s') (calm : Calm env s'.lex) : Idle s'.lex := by
  have behind : s'.lex.word = [] → (s'.lex.argument = .ITS_A_RANGE_SECOND_IP → s'.lex.oneIpRange = false) →
      Idle s'.lex := by
    intro empty second
    by_cases one : s'.lex.oneIpRange = true
    · obtain ⟨old, first | isSecond | nothing⟩ := calm.1 one
      · exact Or.inr ⟨empty, Or.inr ⟨old, first⟩⟩
      · exact absurd one (by rw [second isSecond]; exact Bool.false_ne_true)
      · exact Or.inl ⟨old, nothing⟩
    · exact Or.inr ⟨empty, Or.inl (Bool.eq_false_of_not_eq_true one)⟩
  rw [afterSwitch_space blank code open_] at went
  split_ifs at went with still new
  · obtain rfl := Except.ok.inj went
    exact still.imp_right (fun both => ⟨both.1, Or.inl both.2⟩)
  · obtain rfl := Except.ok.inj went
    exact behind rfl (fun second => absurd second (isInteresting_ne_second env.allAsShared (cstr s.lex.word)))
  · have leaves := argumentWord_leaves went
    exact behind leaves.word leaves.second

/-- A blank does not make the reader lose its place. -/
theorem blank_calm {s s' : St} {c : Char} (blank : isspace c = true) (code : s.lex.comment = false)
    (open_ : s.lex.quote = false) (calm : Calm env s.lex) (went : afterSwitch env incl s c = .ok s') :
    Calm env s'.lex := by
  rw [afterSwitch_space blank code open_] at went
  split_ifs at went with still new
  · obtain rfl := Except.ok.inj went
    exact calm
  · obtain rfl := Except.ok.inj went
    have two : s.lex.oneIpRange ≠ true := fun one => Bool.false_ne_true ((calm.1 one).1.symm.trans new)
    have filled : s.lex.word ≠ [] := fun empty => still (Or.inr ⟨empty, Bool.eq_false_of_not_eq_true two⟩)
    refine ⟨fun one => ?_, fun _ brace => by cases brace⟩
    have first : isInterestingConfigClause env.allAsShared (cstr s.lex.word) = .ITS_A_RANGE_FIRST_IP := by
      by_contra other
      exact two (by simpa only [clauseWord, if_neg other] using one)
    refine ⟨?_, Or.inl first⟩
    have noBrace : s.lex.word.getLast?.getD env.before ≠ '\x7b' := by
      intro brace
      refine calm.2 new ?_ first
      rw [List.getLast?_eq_some_getLast filled] at brace ⊢
      exact congrArg some brace
    exact if_pos noBrace
  · have leaves := argumentWord_leaves went
    refine ⟨fun one => ?_, fun _ brace => by rw [leaves.word] at brace; cases brace⟩
    obtain ⟨set, notSecond, first⟩ := leaves.one one
    obtain ⟨old, isFirst | second | nothing⟩ := calm.1 set
    · exact (first isFirst).imp_right Or.inl
    · exact absurd second notSecond
    · exact absurd (Or.inl ⟨old, nothing⟩) still

/-- A blank behind a blank: the empty word is tried as an address at most. -/
theorem idle_blank {s : St} {c : Char} (blank : isspace c = true) (code : s.lex.comment = false) (open_ : s.lex.quote = false)
    (idle : Idle s.lex) : ∃ s', afterSwitch env incl s c = .ok s' ∧ Twin s s' := by
  rw [afterSwitch_space blank code open_]
  by_cases still : s.lex.newclause = false ∧ s.lex.argument = .ITS_NOTHING_INTERESTING ∨
      s.lex.word = [] ∧ s.lex.oneIpRange = false
  · rw [if_pos still]
    exact ⟨s, rfl, .moved s s.pos⟩
  rw [not_or] at still
  obtain ⟨empty, two | ⟨old, first⟩⟩ := idle.resolve_left still.1
  · exact absurd ⟨empty, two⟩ still.2
  rw [if_neg (not_or.mpr still), if_neg (by rw [old]; exact Bool.false_ne_true)]
  obtain ⟨core, lex, addr, rangeP, pos⟩ := s
  obtain ⟨newclause, comment, one, quote, argument, word⟩ := lex
  obtain rfl : word = [] := empty
  obtain rfl : newclause = false := old
  obtain rfl : argument = .ITS_A_RANGE_FIRST_IP := first
  have fails := parseIpaddr_empty env.inet core.g.ipVersion addr
  have version := parseIpaddr_version env.inet core.g.ipVersion [] addr
  rw [fails, if_neg Bool.false_ne_true] at version
  refine ⟨⟨core, ⟨false, comment, one, quote, .ITS_A_RANGE_FIRST_IP, []⟩,
    (parseIpaddr env.inet core.g.ipVersion [] addr).2.2, some (core.g.allocation, core.g.numRanges), pos⟩, ?_, rfl, rfl, ?_,
    Or.inl (fun same => by cases same)⟩
  · simp only [argumentWord, cstr, List.takeWhile_nil, fails, version]
    rfl
  · by_cases known : core.g.ipVersion = .IPvUNKNOWN
    · rw [known]
      simp [parseIpaddr, parseIpaddrInit, env.inet.inetAton_empty, env.inet.inetPton_empty]
    · exact Or.inl known

/-! ## The text of a comment -/

/-- The character of a comment that the reader does not skip. -/
def Disturbs (l : Lex) (c : Char) : Prop :=
  c = ';' ∧ (l.argument = .ITS_A_RANGE_FIRST_IP ∧ l.oneIpRange = true ∨ l.argument = .ITS_A_RANGE_SECOND_IP ∧ l.word = []) ∨
    c = '\x7b' ∧ l.word = [] ∧ l.newclause = false

theorem harmless_iff (l : Lex) (t : List Char) : Harmless l t ↔ ∀ c ∈ t, ¬Disturbs l c := by
  constructor
  · rintro ⟨semi, lbrace⟩ c member (⟨rfl, one | single⟩ | ⟨rfl, empty, old⟩)
    · exact (semi member).1 one
    · exact (semi member).2 single
    · rcases lbrace member with filled | new
      · exact filled empty
      · exact Bool.false_ne_true (old.symm.trans new)
  · intro each
    refine ⟨fun semi => ⟨fun one => each _ semi (Or.inl ⟨rfl, Or.inl one⟩),
      fun single => each _ semi (Or.inl ⟨rfl, Or.inr single⟩)⟩, fun lbrace => ?_⟩
    by_contra both
    simp only [not_or, not_not, Bool.not_eq_true] at both
    exact each _ lbrace (Or.inr ⟨rfl, both⟩)

/-- What never comes back while a comment is read. -/
structure Passed (s s' : St) : Prop where
  comment : s'.lex.comment = true
  quote : s'.lex.quote = false
  first : s.lex.argument ≠ .ITS_A_RANGE_FIRST_IP → s'.lex.argument ≠ .ITS_A_RANGE_FIRST_IP
  newclause : s.lex.newclause = true → s'.lex.newclause = true
  count : s.core.g.numRanges ≤ s'.core.g.numRanges

/-- A character that disturbs changes one of these. -/
def Changed (s s' : St) : Prop :=
  s.lex.argument = .ITS_A_RANGE_FIRST_IP ∧ s'.lex.argument ≠ .ITS_A_RANGE_FIRST_IP ∨
    s.lex.newclause = false ∧ s'.lex.newclause = true ∨ s.core.g.numRanges < s'.core.g.numRanges

theorem step_undisturbed {s : St} {c : Char} (comment : s.lex.comment = true) (quote : s.lex.quote = false)
    (newline : c ≠ '\n') (quiet : ¬Disturbs s.lex c) : step env incl s c = .ok { s with pos := s.pos + 1 } := by
  refine step_comment comment quote newline ?_ ?_
  · rintro rfl
    exact ⟨fun one => quiet (Or.inl ⟨rfl, Or.inl one⟩), fun single => quiet (Or.inl ⟨rfl, Or.inr single⟩)⟩
  · rintro rfl
    by_contra both
    simp only [not_or, not_not, Bool.not_eq_true] at both
    exact quiet (Or.inr ⟨rfl, both⟩)

theorem step_disturbed {s s' : St} {c : Char} (comment : s.lex.comment = true) (quote : s.lex.quote = false)
    (disturbs : Disturbs s.lex c) (went : step env incl s c = .ok s') : Passed s s' ∧ Changed s s' := by
  rcases disturbs with ⟨rfl, ⟨first, one⟩ | ⟨second, empty⟩⟩ | ⟨rfl, empty, old⟩
  · rw [step_semi, semicolon, if_neg (by simp [quote]), if_neg (by simp [comment]), if_pos ⟨first, one⟩] at went
    obtain rfl := Except.ok.inj went
    exact ⟨⟨comment, quote, (fun _ same => by cases same), id, Nat.le_refl _⟩,
      Or.inl ⟨first, fun same => by cases same⟩⟩
  · rw [step_completes env incl ⟨rfl, quote, second, empty⟩] at went
    split at went
    · cases went
    · split_ifs at went
      obtain ⟨i, -, made⟩ := newrange_ok went
      have grown : s'.core.g.numRanges = s.core.g.numRanges + 1 := by
        rw [made, (newrange_entry _ _ _).1]
        rfl
      have lex := newrange_lex went
      refine ⟨⟨by rw [lex]; exact comment, by rw [lex]; exact quote, fun other => by rw [lex]; exact other,
        fun _ => by rw [lex], ?_⟩, Or.inr (Or.inr ?_)⟩ <;> omega
  · have arm : step env incl s '\x7b' = openBrace env incl { s with pos := s.pos + 1 } := by
      rw [step, if_neg (by decide), if_neg (by decide), if_neg (by decide), if_neg (by decide), if_pos rfl]
    rw [arm, openBrace, if_neg (by simp [quote]), if_pos comment, if_pos empty] at went
    obtain rfl := Except.ok.inj went
    exact ⟨⟨comment, quote, id, fun _ => rfl, Nat.le_refl _⟩, Or.inr (Or.inl ⟨old, rfl⟩)⟩

theorem step_passed {s s' : St} {c : Char} (comment : s.lex.comment = true) (quote : s.lex.quote = false)
    (newline : c ≠ '\n') (went : step env incl s c = .ok s') : Passed s s' := by
  by_cases disturbs : Disturbs s.lex c
  · exact (step_disturbed comment quote disturbs went).1
  · rw [step_undisturbed comment quote newline disturbs] at went
    obtain rfl := Except.ok.inj went
    exact ⟨comment, quote, id, id, Nat.le_refl _⟩

theorem run_passed {t : List Char} (line : '\n' ∉ t) : ∀ {s s' : St}, s.lex.comment = true → s.lex.quote = false →
    run (step env incl) s t = .ok s' → Passed s s' := by
  induction t with
  | nil =>
    intro s s' comment quote went
    obtain rfl := Except.ok.inj went
    exact ⟨comment, quote, id, id, Nat.le_refl _⟩
  | cons c t ih =>
    intro s s' comment quote went
    simp only [List.mem_cons, not_or] at line
    rw [run_cons] at went
    obtain ⟨s₁, stepped, ran⟩ := bind_ok went
    have first := step_passed comment quote (Ne.symm line.1) stepped
    have later := ih line.2 first.comment first.quote ran
    exact ⟨later.comment, later.quote, fun other => later.first (first.first other),
      fun new => later.newclause (first.newclause new), first.count.trans later.count⟩

/-- A text that is read in a comment without any change disturbs nowhere. -/
theorem undisturbed {t : List Char} (line : '\n' ∉ t) : ∀ {s s' : St}, s.lex.comment = true → s.lex.quote = false →
    run (step env incl) s t = .ok s' → s'.core = s.core → s'.lex = s.lex → ∀ c ∈ t, ¬Disturbs s.lex c := by
  induction t with
  | nil => exact fun _ _ _ _ _ _ member => absurd member List.not_mem_nil
  | cons c t ih =>
    intro s s' comment quote went core lex
    simp only [List.mem_cons, not_or] at line
    rw [run_cons] at went
    obtain ⟨s₁, stepped, ran⟩ := bind_ok went
    have quiet : ¬Disturbs s.lex c := by
      intro disturbs
      obtain ⟨first, changed⟩ := step_disturbed comment quote disturbs stepped
      have later := run_passed line.2 first.comment first.quote ran
      rcases changed with ⟨was, gone⟩ | ⟨old, new⟩ | more
      · exact later.first gone (lex ▸ was)
      · have still := later.newclause new
        rw [lex, old] at still
        exact Bool.false_ne_true still
      · have count := later.count
        rw [core] at count
        omega
    rw [step_undisturbed comment quote (Ne.symm line.1) quiet] at stepped
    obtain rfl := Except.ok.inj stepped
    intro d member
    rcases List.mem_cons.mp member with rfl | member
    · exact quiet
    · exact ih line.2 (s := { s with pos := s.pos + 1 }) comment quote ran core lex d member

/-- The reader is behind the text of a comment where it was in front of it. -/
def Skips (env : Env) (incl : List Char → Nat → Globals → Except Stop Globals) (s : St) (t : List Char) : Prop :=
  ∃ s', run (step env incl) s ('#' :: t) = .ok s' ∧ s'.core = s.core ∧ s'.lex = { s.lex with comment := true }

theorem step_comment_hash {s : St} (open_ : s.lex.quote = false) :
    step env incl s '#' = .ok { s with lex := { s.lex with comment := true }, pos := s.pos + 1 } := by
  rw [step, if_pos rfl, if_neg (by rw [open_]; exact Bool.false_ne_true)]

theorem skips_iff {s : St} (open_ : s.lex.quote = false) {t : List Char} (line : '\n' ∉ t) :
    Skips env incl s t ↔ Harmless s.lex t := by
  constructor
  · rintro ⟨s', ran, core, lex⟩
    rw [run_ok _ (step_comment_hash open_)] at ran
    exact (harmless_iff _ t).mpr (@undisturbed env incl t line { s with lex := { s.lex with comment := true }, pos := s.pos + 1 }
      s' rfl open_ ran core lex)
  · intro harmless
    have skipped := @run_comment env incl t line { s with lex := { s.lex with comment := true }, pos := s.pos + 1 } rfl open_
      harmless
    exact ⟨_, (run_ok _ (step_comment_hash open_) t).trans skipped, rfl, rfl⟩

/-- A comment that is skipped, with its newline, is a blank. -/
theorem comment_blank {s : St} (code : s.lex.comment = false) (open_ : s.lex.quote = false) {t : List Char} (line : '\n' ∉ t)
    (harmless : Harmless s.lex t) : ∃ pos, run (step env incl) s ('#' :: t ++ ['\n']) =
      afterSwitch env incl { s with pos := pos } '\n' := by
  have skipped := @run_comment env incl t line { s with lex := { s.lex with comment := true }, pos := s.pos + 1 } rfl open_
    harmless
  have same : ({ s.lex with comment := false } : Lex) = s.lex := by rw [← code]
  refine ⟨s.pos + 1 + t.length + 1, ?_⟩
  rw [List.cons_append, run_ok _ (step_comment_hash open_), run_through _ skipped, run_one, step, if_neg (by decide),
    if_neg (by decide), if_pos rfl, if_neg (by rw [open_]; exact Bool.false_ne_true)]
  exact congrArg (fun l => afterSwitch env incl { s with lex := l, pos := s.pos + 1 + t.length + 1 } '\n') same

/-- A position beside a blank. -/
def BesideBlank (u v : List Char) : Prop :=
  (∃ front c, isspace c = true ∧ u = front ++ [c]) ∨ ∃ c rest, isspace c = true ∧ v = c :: rest

/-- The character in front of the position was read as a blank. -/
theorem step_blank {s s' : St} {c : Char} (blank : isspace c = true) (code : s'.lex.comment = false)
    (open_ : s'.lex.quote = false) (went : step env incl s c = .ok s') :
    ∃ s₁ : St, s₁.lex.comment = false ∧ s₁.lex.quote = false ∧ afterSwitch env incl s₁ c = .ok s' := by
  have read : ∀ s₁, afterSwitch env incl s₁ c = .ok s' →
      ∃ s₁ : St, s₁.lex.comment = false ∧ s₁.lex.quote = false ∧ afterSwitch env incl s₁ c = .ok s' := by
    intro s₁ went
    obtain ⟨comment, quote⟩ := afterSwitch_flags went
    exact ⟨s₁, comment ▸ code, quote ▸ open_, went⟩
  by_cases newline : c = '\n'
  · subst newline
    rw [step, if_neg (by decide), if_neg (by decide), if_pos rfl] at went
    exact read _ went
  · rw [step_other ?_ ?_ newline ?_ ?_ ?_] at went
    · exact read _ went
    all_goals
      rintro rfl
      cases blank

/-- Behind a comment that is skipped the rest is read as without it. -/
theorem comment_twin (settles : Settles incl) {s : St} {rest t : List Char} (code : s.lex.comment = false)
    (open_ : s.lex.quote = false) (line : '\n' ∉ t) (harmless : Harmless s.lex t) (idle : Idle s.lex)
    (whole : Always (step env incl) Whole s rest) :
    Both Twin (run (step env incl) s rest) (run (step env incl) s ('#' :: t ++ '\n' :: rest)) := by
  obtain ⟨pos, comment⟩ := @comment_blank env incl s code open_ t line harmless
  obtain ⟨s', made, twin⟩ := @idle_blank env incl { s with pos := pos } '\n' rfl code open_ idle
  have text : '#' :: t ++ '\n' :: rest = ('#' :: t ++ ['\n']) ++ rest := by simp
  rw [text, run_through _ (comment.trans made)]
  have start : Twin s s' := (Twin.moved s pos).trans twin
  exact Both.run (fun s s' c twin whole => @step_twin env incl settles s s' twin c whole) rest start whole

/-- So it is in front of a blank. -/
theorem blank_twin (settles : Settles incl) {s : St} {c : Char} {rest t : List Char} (blank : isspace c = true)
    (code : s.lex.comment = false) (open_ : s.lex.quote = false) (line : '\n' ∉ t) (harmless : Harmless s.lex t)
    (calm : Calm env s.lex) (whole : Always (step env incl) Whole s (c :: rest)) :
    Both Twin (run (step env incl) s (c :: rest)) (run (step env incl) s ('#' :: t ++ '\n' :: c :: rest)) := by
  obtain ⟨pos, comment⟩ := @comment_blank env incl s code open_ t line harmless
  have text : '#' :: t ++ '\n' :: c :: rest = ('#' :: t ++ ['\n']) ++ c :: rest := by simp
  have direct : step env incl s c = afterSwitch env incl { s with pos := s.pos + 1 } '\n' := by
    have behind := fun {d : Char} (space : isspace d = true) =>
      @afterSwitch_space env incl { s with pos := s.pos + 1 } d space code open_
    rw [step_space blank code, behind blank, behind rfl]
  have twins : Twin { s with pos := s.pos + 1 } { s with pos := pos } := ⟨rfl, rfl, Or.inr rfl, Or.inr (Or.inr rfl)⟩
  have both := @afterSwitch_twin env incl settles _ _ twins '\n'
  rw [text, run_append, run_cons, comment, direct]
  obtain ⟨-, later⟩ := whole
  rw [direct] at later
  cases second : afterSwitch env incl { s with pos := pos } '\n' with
  | error e =>
    rw [second] at both
    cases first : afterSwitch env incl { s with pos := s.pos + 1 } '\n' with
    | error e' => exact trivial
    | ok s' =>
      rw [first] at both
      exact both.elim
  | ok s₁ =>
    rw [second] at both
    cases first : afterSwitch env incl { s with pos := s.pos + 1 } '\n' with
    | error e' =>
      rw [first] at both
      exact both.elim
    | ok s' =>
      rw [first] at both later
      -- The second blank finds nothing to end.
      obtain ⟨comment', quote'⟩ := afterSwitch_flags second
      have code' : s₁.lex.comment = false := comment'.trans code
      have open' : s₁.lex.quote = false := quote'.trans open_
      have calm' : Calm env s₁.lex := @blank_calm env incl { s with pos := pos } s₁ '\n' rfl code open_ calm second
      have idle : Idle s₁.lex := @blank_idle env incl { s with pos := pos } s₁ '\n' rfl code open_ second calm'
      obtain ⟨s₂, made, twin⟩ := @idle_blank env incl { s₁ with pos := s₁.pos + 1 } c blank code' open' idle
      change Both Twin (run (step env incl) s' rest) (run (step env incl) s₁ (c :: rest))
      rw [run_ok _ ((step_space blank code').trans made)]
      have start : Twin s' s₂ := (both.trans (Twin.moved s₁ (s₁.pos + 1))).trans twin
      exact Both.run (fun s s' c twin whole => @step_twin env incl settles s s' twin c whole) rest start later

end

/-- What a run leaves in the tables; nothing where the program exits. -/
theorem readFile_both {env : Env} {incl : List Char → Nat → Globals → Except Stop Globals} {sharedP : Nat} {g : Globals}
    {text text' : List Char}
    (both : Both Twin (run (step env incl) (start env g sharedP) (text ++ [endOfFile]))
      (run (step env incl) (start env g sharedP) (text' ++ [endOfFile]))) :
    (readFile env incl text' sharedP g).toOption = (readFile env incl text sharedP g).toOption := by
  rw [readFile, readFile]
  cases first : run (step env incl) (start env g sharedP) (text ++ [endOfFile]) with
  | error e =>
    rw [first] at both
    cases second : run (step env incl) (start env g sharedP) (text' ++ [endOfFile]) with
    | error e' => rfl
    | ok s' =>
      rw [second] at both
      exact both.elim
  | ok s =>
    rw [first] at both
    cases second : run (step env incl) (start env g sharedP) (text' ++ [endOfFile]) with
    | error e' =>
      rw [second] at both
      exact both.elim
    | ok s' =>
      rw [second] at both
      exact congrArg (fun k => some k.g) both.core

/-- The text of a range in front of a comment between its addresses, and behind it. -/
def rangeFront : List Char := "range 10.0.0.5 ".toList

def rangeBehind : List Char := "\n10.0.0.9;\n".toList

end DhcpdPools.ConfigComments
