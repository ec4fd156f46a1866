import DhcpdPools.ConfigRoom

/-!
What any configuration leaves in the tables. A network has a name from the word buffer
(`parseConfig_names`). Where each entry of `ranges` is made of addresses of its statement,
it can be counted: it points to a network, and its addresses are in order
(`parseConfig_entries`).
-/
namespace DhcpdPools.ConfigRecords
open Machine ConfigReader ConfigReading ConfigAppends ConfigBounds ConfigRoom

/-! ## The word buffer -/

/-- What the buffer may hold: quotes and comment signs are not stored. -/
structure Wordlike (s : List Char) : Prop where
  fits : s.length < MAXLEN
  quote : '"' ∉ s
  hash : '#' ∉ s

theorem wordlike_nil : Wordlike [] := ⟨by decide, List.not_mem_nil, List.not_mem_nil⟩

theorem leaves_char {l l' : Lex} {c d : Char} (left : leaves l c = some (l', d)) : d ≠ '"' ∧ d ≠ '#' := by
  rw [leaves] at left
  split_ifs at left with marks
  all_goals
    obtain ⟨-, rfl⟩ := Prod.mk.inj (Option.some.inj left)
    first | exact ⟨by decide, by decide⟩ | exact ⟨fun same => marks (.inr same), fun same => marks (.inl same)⟩

section
variable {env : Env} {incl : List Char → Nat → Globals → Except Stop Globals}

theorem afterSwitch_wordlike {s s' : St} {c : Char} (word : Wordlike s.lex.word) (char : c ≠ '"' ∧ c ≠ '#')
    (went : afterSwitch env incl s c = .ok s') : Wordlike s'.lex.word := by
  have room := afterSwitch_room word.fits went
  dsimp only [afterSwitch] at went
  split_ifs at went
  · cases went
    exact word
  · cases went
    exact word
  · cases went
    exact wordlike_nil
  · cases went
    refine ⟨room, ?_, ?_⟩
    · simp [word.quote, Ne.symm char.1]
    · simp [word.hash, Ne.symm char.2]
  · cases went
    exact wordlike_nil
  · rw [argumentWord_word went]
    exact wordlike_nil
  · cases went
    exact word

theorem step_wordlike {s s' : St} {c : Char} (word : Wordlike s.lex.word) (went : step env incl s c = .ok s') :
    Wordlike s'.lex.word := by
  cases left : leaves s.lex c with
  | none =>
    by_cases completes : Completes s.lex c
    · obtain ⟨i, -, made⟩ := step_completed completes went
      rwa [newrange_word made]
    · rcases (step_stays left completes went).word with same | empty
      · rwa [same]
      · rw [empty]
        exact wordlike_nil
  | some p =>
    obtain ⟨core, -, -, arm⟩ := @step_leaves env incl s c p.1 p.2 left
    rw [arm] at went
    refine afterSwitch_wordlike ?_ (leaves_char left) went
    rwa [leaves_word left]

end

/-! ## Networks -/

/-- What may be the name of a network. -/
structure Nameable (s : List Char) : Prop extends Wordlike s where
  text : '\x00' ∉ s

/-- An entry of `shared_networks` before anything is counted; `available` of the first one
    is not initialised. -/
structure Network (k : Nat) (n : SharedNetwork) : Prop where
  name : Nameable n.name
  counters : n.used = 0 ∧ n.touched = 0 ∧ n.backups = 0
  available : k ≠ 0 → n.available = 0

def Networks (g : Globals) : Prop := ∀ k ≤ g.numSharedNetworks, Network k (g.sharedNetworks k)

/-- Once known, the version does not change. -/
def Settled (g g' : Globals) : Prop := g.ipVersion ≠ .IPvUNKNOWN → g'.ipVersion = g.ipVersion

theorem Settled.refl (g : Globals) : Settled g g := fun _ => rfl

theorem Settled.trans {g g' g'' : Globals} (first : Settled g g') (second : Settled g' g'') : Settled g g'' := by
  intro known
  have same := first known
  rw [second (same ▸ known), same]

theorem settled_parsed (env : Env) (s : St) {g : Globals} (version : g.ipVersion = (parsed env s).1) : Settled s.core.g g := by
  intro known
  rw [version, parsed]
  generalize s.core.g.ipVersion = v at known ⊢
  cases v with
  | IPvUNKNOWN => exact absurd rfl known
  | _ => rfl

theorem Networks.same {g g' : Globals} (networks : Networks g) (rows : g'.sharedNetworks = g.sharedNetworks)
    (count : g'.numSharedNetworks = g.numSharedNetworks) : Networks g' := by
  intro k inside
  rw [rows]
  exact networks k (count ▸ inside)

theorem nameable_word {word : List Char} (wordlike : Wordlike word) : Nameable (cstr word) := by
  have part : cstr word <+: word := List.takeWhile_prefix _
  refine ⟨⟨Nat.lt_of_le_of_lt part.length_le wordlike.fits, fun quote => wordlike.quote (part.subset quote),
    fun hash => wordlike.hash (part.subset hash)⟩, ?_⟩
  intro stop
  have other := List.mem_takeWhile_imp stop
  simp at other

/-- A new network has the word as its name. -/
theorem recordNetwork_networks {k k' : Core} {name : List Char} {netmask : Int} (networks : Networks k.g)
    (nameable : Nameable name) (recorded : recordNetwork k name netmask = .ok k') :
    Networks k'.g ∧ k'.g.ipVersion = k.g.ipVersion := by
  unfold recordNetwork at recorded
  dsimp only at recorded
  split_ifs at recorded with full
  cases recorded
  refine ⟨?_, rfl⟩
  intro j inside
  simp only [Globals.setNetwork] at inside ⊢
  by_cases new : j = k.g.numSharedNetworks + 1
  · rw [new, Function.update_self]
    exact ⟨nameable, ⟨rfl, rfl, rfl⟩, fun _ => rfl⟩
  · rw [Function.update_of_ne new]
    exact networks j (by omega)

theorem toString_char (n : Int) : ∀ c ∈ (toString n).toList, c = '-' ∨ c.isDigit = true := by
  have digits : ∀ m : Nat, ∀ c ∈ m.repr.toList, c.isDigit = true := by
    intro m c member
    rw [Nat.toList_repr] at member
    exact Nat.isDigit_of_mem_toDigits (by decide) (by decide) member
  intro c member
  cases n with
  | ofNat m => exact Or.inr (digits m c member)
  | negSucc m =>
    have text : (toString (Int.negSucc m)).toList = '-' :: (m + 1).repr.toList := String.toList_append
    rcases List.mem_cons.mp (text ▸ member) with sign | digit
    · exact Or.inl sign
    · exact Or.inr (digits _ c digit)

/-- A name stays one with the prefix length. -/
theorem nameable_mask {name : List Char} (nameable : Nameable name) (n : Int) :
    Nameable ((name ++ '/' :: (toString n).toList).take (MAXLEN - 2)) := by
  have part : (name ++ '/' :: (toString n).toList).take (MAXLEN - 2) <+: name ++ '/' :: (toString n).toList :=
    List.take_prefix _ _
  have other : ∀ c, c ∉ name → c ≠ '/' → c ≠ '-' → c.isDigit = false →
      c ∉ (name ++ '/' :: (toString n).toList).take (MAXLEN - 2) := by
    intro c before slash minus digit member
    rcases List.mem_append.mp (part.subset member) with front | back
    · exact before front
    · rcases List.mem_cons.mp back with same | number
      · exact slash same
      · rcases toString_char n c number with same | isDigit
        · exact minus same
        · exact Bool.false_ne_true (digit.symm.trans isDigit)
  refine ⟨⟨?_, other _ nameable.quote (by decide) (by decide) (by decide),
    other _ nameable.hash (by decide) (by decide) (by decide)⟩, other _ nameable.text (by decide) (by decide) (by decide)⟩
  exact Nat.lt_of_le_of_lt (List.length_take_le _ _) (by decide)

/-- A netmask changes the name of its network only. -/
theorem recordNetmask_networks {k : Core} {addr : Ipaddr} {out : Core × Ipaddr} (networks : Networks k.g)
    (owner : k.sharedP ≤ k.g.numSharedNetworks) (recorded : recordNetmask k addr = .ok out) :
    Networks out.1.g ∧ out.1.g.ipVersion = k.g.ipVersion := by
  obtain ⟨shifted, -, rest⟩ := bind_ok recorded
  cases rest
  refine ⟨?_, rfl⟩
  obtain ⟨nameable, counters, available⟩ := networks _ owner
  intro j inside
  by_cases here : j = k.sharedP
  · subst here
    simp only [Globals.setNetwork, Function.update_self]
    exact ⟨nameable_mask nameable shifted.2, counters, available⟩
  · simp only [Globals.setNetwork, Function.update_of_ne here]
    exact networks j inside

/-! ## Networks along a run -/

/-- What a call for an include statement promises of the networks. -/
def Names (incl : List Char → Nat → Globals → Except Stop Globals) : Prop :=
  ∀ word sharedP g g', Sized g → Networks g → sharedP ≤ g.numSharedNetworks → incl word sharedP g = .ok g' →
    Networks g' ∧ Settled g g'

section
variable {env : Env} {incl : List Char → Nat → Globals → Except Stop Globals}

theorem newrange_networks {s s' : St} (went : newrange s = .ok s') (networks : Networks s.core.g) :
    Networks s'.core.g ∧ s'.core.g.ipVersion = s.core.g.ipVersion := by
  obtain ⟨i, place, made⟩ := newrange_ok went
  obtain ⟨-, count, -⟩ := newrange_fields s.core.g i s.core.sharedP
  obtain ⟨-, version, -⟩ := newrange_entry s.core.g i s.core.sharedP
  rw [← made] at count version
  exact ⟨networks.same (funext fun k => (newrange_frame went place).networks k List.not_mem_nil) count, version⟩

theorem argumentWord_networks (names : Names incl) {s s' : St} (sized : Sized s.core.g) (networks : Networks s.core.g)
    (owner : s.core.sharedP ≤ s.core.g.numSharedNetworks) (word : Wordlike s.lex.word)
    (went : argumentWord env incl s = .ok s') : Networks s'.core.g ∧ Settled s.core.g s'.core.g := by
  unfold argumentWord at went
  cases kind : s.lex.argument with
  | ITS_A_RANGE_SECOND_IP =>
    simp only [kind] at went
    have frame := secondAddress_frame s.core.g (parsed env s).1 s.lex.oneIpRange (parsed env s).2.2
    have count := (secondAddress_same s.core.g (parsed env s).1 s.lex.oneIpRange (parsed env s).2.2).networks
    obtain ⟨-, version, -⟩ := secondAddress_entry s.core.g (parsed env s).1 s.lex.oneIpRange (parsed env s).2.2
    obtain ⟨networks', same⟩ := newrange_networks went (networks.same (funext fun k => frame.networks k List.not_mem_nil) count)
    exact ⟨networks', settled_parsed env s (same.trans version)⟩
  | ITS_A_RANGE_FIRST_IP =>
    simp only [kind] at went
    split_ifs at went
    · cases went
      exact ⟨networks, settled_parsed env s rfl⟩
    · cases went
      exact ⟨networks, settled_parsed env s rfl⟩
  | ITS_A_SHAREDNET =>
    simp only [kind] at went
    obtain ⟨core, recorded, rest⟩ := bind_ok went
    cases rest
    obtain ⟨networks', version⟩ := recordNetwork_networks networks (nameable_word word) recorded
    exact ⟨networks', fun _ => version⟩
  | ITS_A_SUBNET =>
    simp only [kind] at went
    split_ifs at went
    · cases went
      exact ⟨networks, .refl _⟩
    · obtain ⟨core, recorded, rest⟩ := bind_ok went
      cases rest
      obtain ⟨networks', version⟩ := recordNetwork_networks networks (nameable_word word) recorded
      exact ⟨networks', fun _ => version⟩
  | ITS_A_NETMASK =>
    simp only [kind] at went
    split_ifs at went
    · obtain ⟨out, masked, rest⟩ := bind_ok went
      cases rest
      obtain ⟨networks', version⟩ :=
        recordNetmask_networks (k := { s.core with g := { s.core.g with ipVersion := (parsed env s).1 } }) networks owner masked
      exact ⟨networks', settled_parsed env s version⟩
    · cases went
      exact ⟨networks, settled_parsed env s rfl⟩
    · cases went
      exact ⟨networks, .refl _⟩
  | ITS_AN_INCLUCE =>
    simp only [kind] at went
    obtain ⟨g, read, rest⟩ := bind_ok went
    cases rest
    exact names _ _ _ _ sized networks owner read
  | ITS_NOTHING_INTERESTING =>
    simp only [kind] at went
    cases went
    exact ⟨networks, .refl _⟩

theorem afterSwitch_networks (names : Names incl) {s s' : St} {c : Char} (sized : Sized s.core.g) (networks : Networks s.core.g)
    (owner : s.core.sharedP ≤ s.core.g.numSharedNetworks) (word : Wordlike s.lex.word)
    (went : afterSwitch env incl s c = .ok s') : Networks s'.core.g ∧ Settled s.core.g s'.core.g := by
  dsimp only [afterSwitch] at went
  split_ifs at went
  on_goal 6 => exact argumentWord_networks names sized networks owner word went
  all_goals
    cases went
    exact ⟨networks, .refl _⟩

/-- One character keeps the networks as they should be. -/
theorem step_networks (names : Names incl) {s s' : St} {c : Char} (sized : Sized s.core.g) (networks : Networks s.core.g)
    (owner : s.core.sharedP ≤ s.core.g.numSharedNetworks) (word : Wordlike s.lex.word)
    (went : step env incl s c = .ok s') : Networks s'.core.g ∧ Settled s.core.g s'.core.g := by
  cases left : leaves s.lex c with
  | none =>
    by_cases completes : Completes s.lex c
    · obtain ⟨i, -, made⟩ := step_completed completes went
      obtain ⟨networks', version⟩ := newrange_networks made (networks.same rfl rfl)
      exact ⟨networks', fun _ => version⟩
    · rw [(step_stays left completes went).globals]
      exact ⟨networks, .refl _⟩
  | some p =>
    obtain ⟨core, globals, sharedP, arm⟩ := @step_leaves env incl s c p.1 p.2 left
    rw [arm] at went
    rw [← globals] at sized networks owner ⊢
    refine afterSwitch_networks (s := { s with core := core, lex := p.1, pos := s.pos + 1 }) names sized networks
      (sharedP ▸ owner) ?_ went
    rwa [leaves_word left]

/-- The invariant at a loop head, with what `ConfigRoom` knows of the sizes. -/
structure Named (s : St) : Prop extends ConfigRoom.Inv s where
  networks : Networks s.core.g
  word : Wordlike s.lex.word

theorem step_named (includer : Includer incl) (names : Names incl) {s s' : St} {c : Char} (named : Named s)
    (went : step env incl s c = .ok s') : Named s' ∧ Later s.core.g s'.core.g ∧ Settled s.core.g s'.core.g := by
  obtain ⟨inv, later⟩ := step_inv includer named.toInv went
  obtain ⟨networks, settled⟩ := step_networks names named.sized named.networks named.owner named.word went
  exact ⟨⟨inv, networks, step_wordlike named.word went⟩, later, settled⟩

theorem start_named {sharedP : Nat} {g : Globals} (sized : Sized g) (owner : sharedP ≤ g.numSharedNetworks)
    (networks : Networks g) : Named (start env g sharedP) :=
  ⟨start_inv sized owner, networks, wordlike_nil⟩

theorem run_named (includer : Includer incl) (names : Names incl) : ∀ (text : List Char) {s s' : St}, Named s →
    run (step env incl) s text = .ok s' → Named s' ∧ Settled s.core.g s'.core.g
  | [], _, _, named, went => by
    cases went
    exact ⟨named, .refl _⟩
  | c :: rest, s, s', named, went => by
    rw [run_cons] at went
    obtain ⟨s₁, stepped, ran⟩ := bind_ok went
    obtain ⟨named₁, -, settled₁⟩ := step_named includer names named stepped
    obtain ⟨named', settled'⟩ := run_named includer names rest named₁ ran
    exact ⟨named', settled₁.trans settled'⟩

end

/-- The networks stay as they should be through a whole file and all that it includes. -/
theorem parseConfig_names (env : Env) : ∀ depth : Nat, Names (parseConfig env depth)
  | 0, _, _, _, _, _, _, _, read => by cases read
  | depth + 1, file, sharedP, g, g', sized, networks, owner, read => by
    unfold parseConfig at read
    cases opened : env.files file with
    | none =>
      rw [opened] at read
      cases read
    | some text =>
      rw [opened] at read
      obtain ⟨s, ran, rest⟩ := bind_ok read
      cases rest
      have sized' : Sized { g with opened := g.opened ++ [file] } := ⟨sized.ranges, sized.half, sized.networks⟩
      obtain ⟨named, settled⟩ := run_named (parseConfig_sized env depth) (parseConfig_names env depth) _
        (start_named sized' owner networks) ran
      exact ⟨named.networks, settled⟩

/-! ## Entries -/

/-- An entry of `ranges` that can be counted. -/
structure Entry (g : Globals) (r : Range) : Prop where
  owner : ∃ k ≤ g.numSharedNetworks, r.sharedNet = some k
  counters : r.count = 0 ∧ r.touched = 0 ∧ r.backups = 0
  ordered : key g.ipVersion r.firstIp ≤ key g.ipVersion r.lastIp

structure Entries (g : Globals) : Prop where
  known : g.numRanges ≠ 0 → g.ipVersion ≠ .IPvUNKNOWN
  ranges : ∀ i < g.numRanges, Entry g (g.ranges i)

theorem Entry.later {g g' : Globals} {r : Range} (entry : Entry g r) (more : g.numSharedNetworks ≤ g'.numSharedNetworks)
    (version : g'.ipVersion = g.ipVersion) : Entry g' r := by
  obtain ⟨⟨k, inside, owner⟩, counters, ordered⟩ := entry
  exact ⟨⟨k, inside.trans more, owner⟩, counters, by rwa [version]⟩

/-- Entries that are kept stay as they should be. -/
theorem Entries.kept {g g' : Globals} (entries : Entries g) (grows : Grows g g') (more : g.numSharedNetworks ≤ g'.numSharedNetworks)
    (settled : Settled g g') : ∀ i < g.numRanges, g'.ipVersion ≠ .IPvUNKNOWN ∧ Entry g' (g'.ranges i) := by
  intro i inside
  have known := entries.known (Nat.ne_of_gt (Nat.zero_lt_of_lt inside))
  rw [grows.kept i inside]
  exact ⟨(settled known).symm ▸ known, (entries.ranges i inside).later more (settled known)⟩

section
variable {env : Env} {incl : List Char → Nat → Globals → Except Stop Globals} {w : Option Ipaddr} {s s' : St} {c : Char}

/-- At an include statement the tables are those of the call. -/
theorem step_includes (includes : Includes s.lex c) (went : step env incl s c = .ok s') :
    incl (cstr s.lex.word) s.core.sharedP s.core.g = .ok s'.core.g := by
  obtain ⟨ends, argument, kind⟩ := includes
  rw [step_word env incl ends, if_neg (by simp [argument])] at went
  simp only [argumentWord, atWord, kind] at went
  obtain ⟨g, read, rest⟩ := bind_ok went
  cases rest
  exact read

/-- Only the second address of a range adds one. -/
theorem argumentWord_count (alone : s.lex.argument ≠ .ITS_AN_INCLUCE) (other : s.lex.argument ≠ .ITS_A_RANGE_SECOND_IP)
    (went : argumentWord env incl s = .ok s') : s'.core.g.numRanges = s.core.g.numRanges := by
  unfold argumentWord at went
  cases kind : s.lex.argument with
  | ITS_AN_INCLUCE => exact absurd kind alone
  | ITS_A_RANGE_SECOND_IP => exact absurd kind other
  | ITS_A_RANGE_FIRST_IP =>
    simp only [kind] at went
    split_ifs at went <;> (cases went; rfl)
  | ITS_A_SHAREDNET =>
    simp only [kind] at went
    obtain ⟨core, recorded, rest⟩ := bind_ok went
    cases rest
    exact (recordNetwork_ranges recorded).2
  | ITS_A_SUBNET =>
    simp only [kind] at went
    split_ifs at went
    · cases went
      rfl
    · obtain ⟨core, recorded, rest⟩ := bind_ok went
      cases rest
      exact (recordNetwork_ranges recorded).2
  | ITS_A_NETMASK =>
    simp only [kind] at went
    split_ifs at went
    · obtain ⟨out, masked, rest⟩ := bind_ok went
      cases rest
      exact (recordNetmask_ranges masked).2
    · cases went
      rfl
    · cases went
      rfl
  | ITS_NOTHING_INTERESTING =>
    simp only [kind] at went
    cases went
    rfl

/-- An address decides the version. -/
theorem argumentWord_version (address : s.lex.argument = .ITS_A_RANGE_FIRST_IP ∨ s.lex.argument = .ITS_A_RANGE_SECOND_IP)
    (went : argumentWord env incl (atWord s) = .ok s') : s'.core.g.ipVersion = (parsed env s).1 := by
  rcases address with first | second
  · simp only [argumentWord, atWord, first] at went
    split_ifs at went <;> (cases went; rfl)
  · simp only [argumentWord, atWord, second] at went
    obtain ⟨i, -, made⟩ := newrange_ok went
    rw [made, (newrange_entry _ _ _).2.1]
    exact (secondAddress_entry _ _ _ _).2.1

/-- With an entry, and while an address waits, the version is known. -/
theorem step_known (told : w ≠ none → s.core.g.ipVersion ≠ .IPvUNKNOWN) (meets : Addressed env w s c)
    (alone : ¬Includes s.lex c) (settled : Settled s.core.g s'.core.g) (went : step env incl s c = .ok s') :
    (s'.core.g.numRanges = s.core.g.numRanges ∨ s'.core.g.ipVersion ≠ .IPvUNKNOWN) ∧
      (waiting env w s c ≠ none → s'.core.g.ipVersion ≠ .IPvUNKNOWN) := by
  have kept : w ≠ none → s'.core.g.ipVersion ≠ .IPvUNKNOWN := fun waits => (settled (told waits)).symm ▸ told waits
  by_cases ends : EndsWord s.lex c
  · rw [step_word env incl ends] at went
    by_cases clause : s.lex.newclause = true
    · rw [if_pos clause] at went
      cases went
      exact ⟨Or.inl rfl, fun waits => absurd (by simp [waiting, ends, clause]) waits⟩
    · rw [if_neg clause] at went
      have argument : s.lex.newclause = false := by simpa using clause
      have heard : (s.lex.argument = .ITS_A_RANGE_FIRST_IP ∨ s.lex.argument = .ITS_A_RANGE_SECOND_IP) →
          (parsed env s).2.1 = true → s'.core.g.ipVersion ≠ .IPvUNKNOWN := by
        intro address parses
        have version := parseIpaddr_version env.inet s.core.g.ipVersion (cstr s.lex.word) s.addr
        rw [argumentWord_version address went]
        rw [parsed] at parses
        rwa [if_pos parses] at version
      constructor
      · by_cases second : s.lex.argument = .ITS_A_RANGE_SECOND_IP
        · exact Or.inr (heard (Or.inr second) (meets.word ends argument second).1)
        · refine Or.inl (argumentWord_count (s := atWord s) ?_ second went)
          exact fun includes => alone ⟨ends, argument, includes⟩
      · intro waits
        simp only [waiting, ends, if_true] at waits
        by_cases first : s.lex.newclause = false ∧ s.lex.argument = .ITS_A_RANGE_FIRST_IP ∧ (parsed env s).2.1 = true
        · exact heard (Or.inl first.2.1) first.2.2
        · exact absurd (if_neg first) waits
  · by_cases completes : Completes s.lex c
    · refine ⟨Or.inr ?_, fun waits => absurd (by simp [waiting, ends, completes]) waits⟩
      rcases meets.semicolon completes with missing | waits
      · rw [step_completes env incl completes, missing] at went
        cases went
      · exact kept waits
    · obtain ⟨s₁, same, quiet⟩ := step_quiet env incl ends completes
      rw [same] at went
      cases went
      refine ⟨Or.inl (by rw [quiet.globals]), fun waits => kept ?_⟩
      simpa [waiting, ends, completes] using waits

/-- One character keeps the entries as they should be. -/
theorem step_entries (includer : Includer incl) (names : Names incl) (named : Named s) (waits : Waits w s)
    (told : w ≠ none → s.core.g.ipVersion ≠ .IPvUNKNOWN) (entries : Entries s.core.g) (meets : Addressed env w s c)
    (included : Includes s.lex c → ∀ g', incl (cstr s.lex.word) s.core.sharedP s.core.g = .ok g' →
      Entries g' ∧ Grows s.core.g g') (went : step env incl s c = .ok s') :
    Entries s'.core.g ∧ Grows s.core.g s'.core.g ∧ Waits (waiting env w s c) s' ∧
      (waiting env w s c ≠ none → s'.core.g.ipVersion ≠ .IPvUNKNOWN) := by
  -- Where the second address stands is of no account here.
  have meets' : Meets env ⟨w, false, false⟩ s c := ⟨meets, fun _ _ _ => rfl⟩
  obtain ⟨appends, waits'⟩ := step_appends waits meets' (fun includes g' read => (included includes g' read).2) went
  obtain ⟨-, later, settled⟩ := step_named includer names named went
  by_cases includes : Includes s.lex c
  · refine ⟨(included includes _ (step_includes includes went)).1, appends.grows, waits', fun waits => absurd ?_ waits⟩
    simp [waiting, includes.1, includes.2.2]
  · obtain ⟨known, told'⟩ := step_known told meets includes settled went
    have kept := entries.kept appends.grows later.networks settled
    refine ⟨?_, appends.grows, waits', told'⟩
    rcases appends.entry includes with same | ⟨one, entry⟩
    · refine ⟨fun some => ?_, fun i inside => (kept i (same ▸ inside)).2⟩
      exact (kept 0 (Nat.pos_of_ne_zero (same ▸ some))).1
    · refine ⟨fun _ => known.resolve_left (by omega), fun i inside => ?_⟩
      rcases Nat.lt_succ_iff_lt_or_eq.mp (one ▸ inside) with before | rfl
      · exact (kept i before).2
      · exact ⟨⟨_, named.owner.trans later.networks, entry.owner⟩, entry.counters, (ipcomp_nonpos _ _ _).mp entry.ordered⟩

/-- What a call for an include statement promises of the entries. -/
def Adds (incl : List Char → Nat → Globals → Except Stop Globals) (inner : List Char → Nat → Globals → Prop) : Prop :=
  ∀ word sharedP g g', inner word sharedP g → Sized g → Networks g → Entries g → sharedP ≤ g.numSharedNetworks →
    incl word sharedP g = .ok g' → Entries g' ∧ Grows g g'

theorem run_entries {inner : List Char → Nat → Globals → Prop} (includer : Includer incl) (names : Names incl)
    (adds : Adds incl inner) : ∀ (text : List Char) {w : Statement} {s s' : St}, Named s → Waits w.first s →
      (w.first ≠ none → s.core.g.ipVersion ≠ .IPvUNKNOWN) → Entries s.core.g →
      Along env incl inner (fun w s c _ => Addressed env w.first s c) w s text → run (step env incl) s text = .ok s' →
      Entries s'.core.g ∧ Grows s.core.g s'.core.g
  | [], _, _, _, _, _, _, entries, _, went => by
    cases went
    exact ⟨entries, .refl _⟩
  | c :: rest, w, s, s', named, waits, told, entries, along, went => by
    obtain ⟨meets, included, later⟩ := along
    rw [run_cons] at went
    obtain ⟨s₁, stepped, ran⟩ := bind_ok went
    rw [stepped] at later
    obtain ⟨entries₁, grows₁, waits₁, told₁⟩ := step_entries includer names named waits told entries meets
      (fun includes g' => adds _ _ _ g' (included includes) named.sized named.networks entries named.owner) stepped
    obtain ⟨named₁, -, -⟩ := step_named includer names named stepped
    obtain ⟨entries', grows'⟩ := run_entries includer names adds rest named₁ (waits_next waits₁)
      (fun known => told₁ (next_first known)) entries₁ later ran
    exact ⟨entries', grows₁.trans grows'⟩

end

/-- Through a whole file and all that it includes each entry can be counted, as long as it is
    made of addresses that parsed. -/
theorem parseConfig_entries (env : Env) : ∀ depth : Nat,
    Adds (parseConfig env depth) (Throughout env (fun w s c _ => Addressed env w.first s c) depth)
  | 0, _, _, _, _, _, _, _, _, _, read => by cases read
  | depth + 1, file, sharedP, g, g', met, sized, networks, entries, owner, read => by
    unfold parseConfig at read
    unfold Throughout at met
    cases opened : env.files file with
    | none =>
      rw [opened] at read
      cases read
    | some text =>
      rw [opened] at read met
      obtain ⟨s, ran, rest⟩ := bind_ok read
      cases rest
      have sized' : Sized { g with opened := g.opened ++ [file] } := ⟨sized.ranges, sized.half, sized.networks⟩
      have entries' : Entries { g with opened := g.opened ++ [file] } :=
        ⟨entries.known, fun i inside => (entries.ranges i inside).later (Nat.le_refl _) rfl⟩
      obtain ⟨entries'', length, kept⟩ := run_entries (parseConfig_sized env depth) (parseConfig_names env depth)
        (parseConfig_entries env depth) _ (start_named sized' owner networks) (waits_none _) (fun none => absurd rfl none)
        entries' met ran
      exact ⟨entries'', length, kept⟩

end DhcpdPools.ConfigRecords
