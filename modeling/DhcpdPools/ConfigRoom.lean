import DhcpdPools.ConfigBounds

/-!
Room in the tables of `parse_config`. `ranges` has an entry behind the last range, and
`shared_networks` at every loop head one behind the last network (`Sized`), in every run
over any bytes and through all includes (`parseConfig_sized`). What an entry is written
through is a pointer into `ranges`; one that `parse_config` keeps while an included file
makes the table move is the only way out of the tables (`room_iff`).
-/
namespace DhcpdPools.ConfigRoom
open Machine ConfigReader ConfigReading ConfigAppends ConfigBounds

/-- The tables have room for the next entry; `RANGES` is what is allocated, and a 32-bit number
    as long as there are fewer than 2^31 ranges. -/
structure Sized (g : Globals) : Prop where
  ranges : g.numRanges < g.RANGES
  half : g.RANGES ≤ max 64 (2 * g.numRanges)
  networks : g.numSharedNetworks ≤ SHARED_NETWORKS - 2

/-- The tables only grow, and `ranges` only moves on. -/
structure Later (g g' : Globals) : Prop where
  allocation : g.allocation ≤ g'.allocation
  ranges : g.numRanges ≤ g'.numRanges
  networks : g.numSharedNetworks ≤ g'.numSharedNetworks

/-- The invariant at a loop head. `range_p` may be out of date, but it is never ahead. -/
structure Inv (s : St) : Prop where
  sized : Sized s.core.g
  owner : s.core.sharedP ≤ s.core.g.numSharedNetworks
  pointer : ∀ a i, s.rangeP = some (a, i) → a ≤ s.core.g.allocation ∧ (a = s.core.g.allocation → i ≤ s.core.g.numRanges)

theorem Later.refl (g : Globals) : Later g g := ⟨Nat.le_refl _, Nat.le_refl _, Nat.le_refl _⟩

theorem Later.trans {g g' g'' : Globals} (first : Later g g') (second : Later g' g'') : Later g g'' :=
  ⟨first.1.trans second.1, first.2.trans second.2, first.3.trans second.3⟩

/-- The counters and sizes decide. -/
structure SameSize (g g' : Globals) : Prop where
  numRanges : g'.numRanges = g.numRanges
  RANGES : g'.RANGES = g.RANGES
  allocation : g'.allocation = g.allocation
  networks : g'.numSharedNetworks = g.numSharedNetworks

theorem SameSize.later {g g' : Globals} (same : SameSize g g') : Later g g' :=
  ⟨Nat.le_of_eq same.allocation.symm, Nat.le_of_eq same.numRanges.symm, Nat.le_of_eq same.networks.symm⟩

theorem SameSize.sized {g g' : Globals} (same : SameSize g g') (sized : Sized g) : Sized g' := by
  obtain ⟨ranges, half, networks⟩ := sized
  exact ⟨by rw [same.1, same.2]; exact ranges, by rw [same.1, same.2]; exact half, by rw [same.4]; exact networks⟩

/-- The invariant is kept where the sizes are, the pointer stays or is set behind the last range, and the owner
    stays, ends or is a network. -/
theorem Inv.same {s s' : St} (inv : Inv s) (same : SameSize s.core.g s'.core.g)
    (owner : s'.core.sharedP = s.core.sharedP ∨ s'.core.sharedP = 0)
    (pointer : s'.rangeP = s.rangeP ∨ s'.rangeP = some (s.core.g.allocation, s.core.g.numRanges)) : Inv s' := by
  refine ⟨same.sized inv.sized, ?_, ?_⟩
  · rw [same.networks]
    rcases owner with kept | ended
    · rw [kept]
      exact inv.owner
    · rw [ended]
      exact Nat.zero_le _
  · intro a i place
    rw [same.allocation, same.numRanges]
    rcases pointer with kept | fresh
    · exact inv.pointer a i (kept ▸ place)
    · rw [fresh] at place
      obtain ⟨rfl, rfl⟩ := Prod.mk.inj (Option.some.inj place)
      exact ⟨Nat.le_refl _, fun _ => Nat.le_refl _⟩

/-! ## The two places where a table grows -/

/-- At `newrange` the table is doubled when the entry behind the new last range is missing. -/
theorem newrange_fields (g : Globals) (i owner : Nat) :
    (g.newrange i owner).numRanges = g.numRanges + 1 ∧ (g.newrange i owner).numSharedNetworks = g.numSharedNetworks ∧
      (g.RANGES < g.numRanges + 2 ∧ (g.newrange i owner).RANGES = g.RANGES * 2 ∧
          (g.newrange i owner).allocation = g.allocation + 1 ∨
        g.numRanges + 2 ≤ g.RANGES ∧ (g.newrange i owner).RANGES = g.RANGES ∧
          (g.newrange i owner).allocation = g.allocation) := by
  unfold Globals.newrange Globals.setRange
  by_cases full : g.RANGES < g.numRanges + 1 + 1
  · simp only [if_pos full]
    exact ⟨trivial, trivial, .inl ⟨full, trivial, trivial⟩⟩
  · simp only [if_neg full]
    exact ⟨trivial, trivial, .inr ⟨Nat.le_of_not_lt full, trivial, trivial⟩⟩

theorem newrange_sized {g : Globals} (sized : Sized g) (i owner : Nat) :
    Sized (g.newrange i owner) ∧ Later g (g.newrange i owner) := by
  obtain ⟨ranges, half, networks⟩ := sized
  obtain ⟨number, nets, grown⟩ := newrange_fields g i owner
  refine ⟨⟨?_, ?_, nets ▸ networks⟩, ?_, ?_, Nat.le_of_eq nets.symm⟩ <;> omega

/-- A new network has an entry, and the check behind it leaves room for the next one. -/
theorem recordNetwork_sized {k k' : Core} {name : List Char} {netmask : Int} (sized : Sized k.g)
    (recorded : recordNetwork k name netmask = .ok k') :
    Sized k'.g ∧ Later k.g k'.g ∧ k'.sharedP = k'.g.numSharedNetworks ∧ k'.g.allocation = k.g.allocation ∧
      k'.g.numRanges = k.g.numRanges := by
  unfold recordNetwork at recorded
  dsimp only at recorded
  split_ifs at recorded with full
  cases recorded
  refine ⟨⟨sized.ranges, sized.half, ?_⟩, ⟨Nat.le_refl _, Nat.le_refl _, Nat.le_succ _⟩, rfl, rfl, rfl⟩
  show k.g.numSharedNetworks + 1 ≤ SHARED_NETWORKS - 2
  omega

/-! ## One character -/

/-- Behind a completed range the pointer is set or still right. -/
theorem newrange_inv {s s' : St} (inv : Inv s) (went : newrange s = .ok s') :
    Inv s' ∧ Later s.core.g s'.core.g := by
  unfold newrange at went
  cases place : s.rangeP with
  | none =>
    rw [place] at went
    cases went
  | some p =>
    rw [place] at went
    dsimp only at went
    by_cases valid : p.1 = s.core.g.allocation
    · rw [if_pos valid] at went
      cases went
      obtain ⟨sized, later⟩ := newrange_sized inv.sized p.2 s.core.sharedP
      refine ⟨⟨sized, inv.owner.trans later.networks, ?_⟩, later⟩
      intro a i here
      dsimp only at here ⊢
      by_cases kept : (s.core.g.newrange p.2 s.core.sharedP).allocation = p.1
      · rw [if_pos kept] at here
        obtain ⟨rfl, rfl⟩ := Prod.mk.inj (Option.some.inj here)
        have low := (inv.pointer _ _ place).2 valid
        exact ⟨Nat.le_of_eq kept.symm, fun _ => low.trans later.ranges⟩
      · rw [if_neg kept] at here
        obtain ⟨rfl, rfl⟩ := Prod.mk.inj (Option.some.inj here)
        exact ⟨Nat.le_refl _, fun _ => Nat.le_refl _⟩
    · rw [if_neg valid] at went
      cases went

/-- What a call for an include statement promises. -/
def Includer (incl : List Char → Nat → Globals → Except Stop Globals) : Prop :=
  ∀ word sharedP g g', Sized g → sharedP ≤ g.numSharedNetworks → incl word sharedP g = .ok g' → Sized g' ∧ Later g g'

section
variable {env : Env} {incl : List Char → Nat → Globals → Except Stop Globals}

theorem secondAddress_same (g : Globals) (version : DhcpVersion) (one : Bool) (addr : Ipaddr) :
    SameSize g (g.secondAddress version one addr) := by
  unfold Globals.secondAddress Globals.reorderLastFirst
  cases one <;> dsimp only [Globals.copyFirst, Globals.copyLast, Globals.setRange] <;> split_ifs <;>
    exact ⟨rfl, rfl, rfl, rfl⟩

/-- The invariant with tables that have grown; the pointer is left. -/
theorem Inv.later {s s' : St} (inv : Inv s) (sized : Sized s'.core.g) (later : Later s.core.g s'.core.g)
    (owner : s'.core.sharedP ≤ s'.core.g.numSharedNetworks) (pointer : s'.rangeP = s.rangeP) : Inv s' := by
  refine ⟨sized, owner, ?_⟩
  intro a i place
  obtain ⟨past, low⟩ := inv.pointer a i (pointer ▸ place)
  have early := later.allocation
  have fewer := later.ranges
  refine ⟨by omega, fun now => ?_⟩
  have before := low (by omega)
  omega

/-- Behind an argument word the invariant holds. -/
theorem argumentWord_inv (includer : Includer incl) {s s' : St} (inv : Inv s) (went : argumentWord env incl s = .ok s') :
    Inv s' ∧ Later s.core.g s'.core.g := by
  unfold argumentWord at went
  cases kind : s.lex.argument with
  | ITS_A_RANGE_SECOND_IP =>
    simp only [kind] at went
    have same := secondAddress_same s.core.g (parseIpaddr env.inet s.core.g.ipVersion (cstr s.lex.word) s.addr).1
      s.lex.oneIpRange (parseIpaddr env.inet s.core.g.ipVersion (cstr s.lex.word) s.addr).2.2
    refine And.imp_right same.later.trans (newrange_inv ?_ went)
    exact inv.same same (.inl rfl) (.inr (by rw [same.allocation, same.numRanges]))
  | ITS_A_RANGE_FIRST_IP =>
    simp only [kind] at went
    split_ifs at went
    · cases went
      exact ⟨inv.same ⟨rfl, rfl, rfl, rfl⟩ (.inl rfl) (.inr rfl), SameSize.later ⟨rfl, rfl, rfl, rfl⟩⟩
    · cases went
      exact ⟨inv.same ⟨rfl, rfl, rfl, rfl⟩ (.inl rfl) (.inr rfl), SameSize.later ⟨rfl, rfl, rfl, rfl⟩⟩
  | ITS_A_SHAREDNET =>
    simp only [kind] at went
    obtain ⟨core, recorded, rest⟩ := bind_ok went
    cases rest
    obtain ⟨sized, later, owner, -, -⟩ := recordNetwork_sized inv.sized recorded
    exact ⟨inv.later sized later (Nat.le_of_eq owner) rfl, later⟩
  | ITS_A_SUBNET =>
    simp only [kind] at went
    split_ifs at went
    · cases went
      exact ⟨inv.same ⟨rfl, rfl, rfl, rfl⟩ (.inl rfl) (.inl rfl), .refl _⟩
    · obtain ⟨core, recorded, rest⟩ := bind_ok went
      cases rest
      obtain ⟨sized, later, owner, -, -⟩ := recordNetwork_sized inv.sized recorded
      exact ⟨inv.later sized later (Nat.le_of_eq owner) rfl, later⟩
  | ITS_A_NETMASK =>
    simp only [kind] at went
    split_ifs at went
    · obtain ⟨out, masked, rest⟩ := bind_ok went
      cases rest
      obtain ⟨shifted, -, made⟩ := bind_ok masked
      cases made
      exact ⟨inv.same ⟨rfl, rfl, rfl, rfl⟩ (.inl rfl) (.inl rfl), SameSize.later ⟨rfl, rfl, rfl, rfl⟩⟩
    · cases went
      exact ⟨inv.same ⟨rfl, rfl, rfl, rfl⟩ (.inl rfl) (.inl rfl), SameSize.later ⟨rfl, rfl, rfl, rfl⟩⟩
    · cases went
      exact ⟨inv.same ⟨rfl, rfl, rfl, rfl⟩ (.inl rfl) (.inl rfl), .refl _⟩
  | ITS_AN_INCLUCE =>
    simp only [kind] at went
    obtain ⟨g, read, rest⟩ := bind_ok went
    cases rest
    obtain ⟨sized, later⟩ := includer _ _ _ _ inv.sized inv.owner read
    exact ⟨inv.later sized later (inv.owner.trans later.networks) rfl, later⟩
  | ITS_NOTHING_INTERESTING =>
    simp only [kind] at went
    cases went
    exact ⟨inv.same ⟨rfl, rfl, rfl, rfl⟩ (.inl rfl) (.inl rfl), .refl _⟩

theorem afterSwitch_inv (includer : Includer incl) {s s' : St} {c : Char} (inv : Inv s)
    (went : afterSwitch env incl s c = .ok s') : Inv s' ∧ Later s.core.g s'.core.g := by
  have kept : ∀ lex : Lex, Inv { s with lex := lex } ∧ Later s.core.g s.core.g := fun lex =>
    ⟨inv.same ⟨rfl, rfl, rfl, rfl⟩ (.inl rfl) (.inl rfl), .refl _⟩
  dsimp only [afterSwitch] at went
  split_ifs at went
  · cases went
    exact ⟨inv, .refl _⟩
  · cases went
    exact ⟨inv, .refl _⟩
  · cases went
    exact kept _
  · cases went
    exact kept _
  · cases went
    exact kept _
  · exact argumentWord_inv includer inv went
  · cases went
    exact ⟨inv, .refl _⟩

/-- One character keeps the invariant. -/
theorem step_inv (includer : Includer incl) {s s' : St} {c : Char} (inv : Inv s) (went : step env incl s c = .ok s') :
    Inv s' ∧ Later s.core.g s'.core.g := by
  cases left : leaves s.lex c with
  | none =>
    by_cases completes : Completes s.lex c
    · obtain ⟨i, -, made⟩ := step_completed completes went
      have same : SameSize s.core.g (s.core.g.lastIsFirst i) := ⟨rfl, rfl, rfl, rfl⟩
      refine And.imp_right same.later.trans (newrange_inv ?_ made)
      exact inv.same same (.inl rfl) (.inl rfl)
    · have stays := step_stays left completes went
      have same : SameSize s.core.g s'.core.g := by rw [stays.globals]; exact ⟨rfl, rfl, rfl, rfl⟩
      exact ⟨inv.same same stays.owner (.inl stays.rangeP), same.later⟩
  | some p =>
    obtain ⟨core, globals, owner, arm⟩ := @step_leaves env incl s c p.1 p.2 left
    rw [arm] at went
    have same : SameSize s.core.g core.g := by rw [globals]; exact ⟨rfl, rfl, rfl, rfl⟩
    refine And.imp_right same.later.trans (afterSwitch_inv includer ?_ went)
    exact inv.same same (.inl owner) (.inl rfl)

theorem run_inv (includer : Includer incl) : ∀ (text : List Char) {s s' : St}, Inv s →
    run (step env incl) s text = .ok s' → Inv s' ∧ Later s.core.g s'.core.g
  | [], _, _, inv, went => by
    cases went
    exact ⟨inv, .refl _⟩
  | c :: rest, s, s', inv, went => by
    rw [run_cons] at went
    obtain ⟨s₁, stepped, ran⟩ := bind_ok went
    obtain ⟨inv₁, later₁⟩ := step_inv includer inv stepped
    obtain ⟨inv', later'⟩ := run_inv includer rest inv₁ ran
    exact ⟨inv', later₁.trans later'⟩

theorem start_inv {sharedP : Nat} {g : Globals} (sized : Sized g) (owner : sharedP ≤ g.numSharedNetworks) :
    Inv (start env g sharedP) :=
  ⟨sized, owner, fun _ _ none => by cases none⟩

end

/-- Through a whole file and all that it includes the tables keep room for the next entry. -/
theorem parseConfig_sized (env : Env) : ∀ depth : Nat, Includer (parseConfig env depth)
  | 0, _, _, _, _, _, _, read => by cases read
  | depth + 1, file, sharedP, g, g', sized, owner, read => by
    unfold parseConfig at read
    cases opened : env.files file with
    | none =>
      rw [opened] at read
      cases read
    | some text =>
      rw [opened] at read
      obtain ⟨s, ran, rest⟩ := bind_ok read
      cases rest
      have sized' : Sized { g with opened := g.opened ++ [file] } := ⟨sized.ranges, sized.half, sized.networks⟩
      obtain ⟨inv, later⟩ := run_inv (parseConfig_sized env depth) _ (start_inv sized' owner) ran
      exact ⟨inv.sized, later.allocation, later.ranges, later.networks⟩

/-! ## Which entries are touched -/

/-- The entries of `ranges` that a step reads or writes, each with the allocation that its pointer is for:
    `ranges + num_ranges` at the words of a range, `range_p` at a semicolon that completes one. -/
def entriesTouched (env : Env) (s : St) (c : Char) : List (Nat × Nat) :=
  if EndsWord s.lex c then
    if s.lex.newclause = false ∧ (s.lex.argument = .ITS_A_RANGE_SECOND_IP ∨
        s.lex.argument = .ITS_A_RANGE_FIRST_IP ∧ (parsed env s).2.1 = true) then
      [(s.core.g.allocation, s.core.g.numRanges)]
    else []
  else if Completes s.lex c then s.rangeP.toList
  else []

/-- The entries of `shared_networks` that a step reads or writes: the one behind the last network for a new
    one, and the current one for a netmask. -/
def networksTouched (s : St) (c : Char) : List Nat :=
  if EndsWord s.lex c ∧ s.lex.newclause = false then
    if s.lex.argument = .ITS_A_SHAREDNET ∨ s.lex.argument = .ITS_A_SUBNET ∧ s.core.sharedP = 0 then
      [s.core.g.numSharedNetworks + 1]
    else if s.lex.argument = .ITS_A_NETMASK then [s.core.sharedP]
    else []
  else []

/-- Other entries keep their value. -/
structure Frame (entries networks : List Nat) (g g' : Globals) : Prop where
  ranges : ∀ i, i ∉ entries → g'.ranges i = g.ranges i
  networks : ∀ i, i ∉ networks → g'.sharedNetworks i = g.sharedNetworks i

section
variable {env : Env} {incl : List Char → Nat → Globals → Except Stop Globals}

theorem Frame.none (g : Globals) (entries networks : List Nat) : Frame entries networks g g :=
  ⟨fun _ _ => rfl, fun _ _ => rfl⟩

theorem update_other {α : Type} (table : Nat → α) {i j : Nat} (value : α) (other : j ∉ [i]) :
    Function.update table i value j = table j :=
  Function.update_of_ne (by simpa using other) value table

theorem recordNetwork_frame {k k' : Core} {name : List Char} {netmask : Int}
    (recorded : recordNetwork k name netmask = .ok k') : Frame [] [k.g.numSharedNetworks + 1] k.g k'.g := by
  unfold recordNetwork at recorded
  dsimp only at recorded
  split_ifs at recorded
  cases recorded
  exact ⟨fun _ _ => rfl, fun _ other => update_other _ _ other⟩

theorem newrange_frame {s s' : St} {i : Nat} (went : newrange s = .ok s')
    (pointer : s.rangeP = some (s.core.g.allocation, i)) : Frame [i] [] s.core.g s'.core.g := by
  obtain ⟨j, place, made⟩ := newrange_ok went
  obtain rfl : i = j := (Prod.mk.inj (Option.some.inj (pointer.symm.trans place))).2
  rw [made]
  refine ⟨fun _ other => ?_, fun _ _ => ?_⟩
  · rw [(newrange_entry _ _ _).2.2]
    exact update_other _ _ other
  · unfold Globals.newrange Globals.setRange
    dsimp only
    split_ifs <;> rfl

theorem secondAddress_frame (g : Globals) (version : DhcpVersion) (one : Bool) (addr : Ipaddr) :
    Frame [g.numRanges] [] g (g.secondAddress version one addr) := by
  refine ⟨fun i other => ?_, fun _ _ => ?_⟩
  · have differ : i ≠ g.numRanges := by simpa using other
    unfold Globals.secondAddress Globals.reorderLastFirst
    cases one <;> simp only [Globals.copyFirst, Globals.copyLast, Globals.setRange] <;> split_ifs <;>
      simp [Function.update_of_ne differ]
  · unfold Globals.secondAddress Globals.reorderLastFirst
    cases one <;> simp only [Globals.copyFirst, Globals.copyLast, Globals.setRange] <;> split_ifs <;> rfl

theorem Frame.trans {entries networks : List Nat} {g g' g'' : Globals} (first : Frame entries networks g g')
    (second : Frame entries networks g' g'') : Frame entries networks g g'' :=
  ⟨fun i other => (second.ranges i other).trans (first.ranges i other),
    fun i other => (second.networks i other).trans (first.networks i other)⟩

/-- An argument word touches the entries of its arm. -/
theorem argumentWord_frame {s s' : St} {c : Char} (ends : EndsWord s.lex c) (argument : s.lex.newclause = false)
    (alone : s.lex.argument ≠ .ITS_AN_INCLUCE) (went : argumentWord env incl (atWord s) = .ok s') :
    Frame ((entriesTouched env s c).map Prod.snd) (networksTouched s c) s.core.g s'.core.g := by
  cases kind : s.lex.argument with
  | ITS_AN_INCLUCE => exact absurd kind alone
  | ITS_A_RANGE_SECOND_IP =>
    have entries : (entriesTouched env s c).map Prod.snd = [s.core.g.numRanges] := by
      simp [entriesTouched, ends, argument, kind]
    have networks : networksTouched s c = [] := by simp [networksTouched, ends, argument, kind]
    rw [entries, networks]
    simp only [argumentWord, atWord, kind] at went
    have counted := (secondAddress_same s.core.g (parsed env s).1 s.lex.oneIpRange (parsed env s).2.2).numRanges
    refine (secondAddress_frame s.core.g (parsed env s).1 s.lex.oneIpRange (parsed env s).2.2).trans ?_
    rw [← counted]
    exact newrange_frame went rfl
  | ITS_A_RANGE_FIRST_IP =>
    have networks : networksTouched s c = [] := by simp [networksTouched, ends, argument, kind]
    rw [networks]
    simp only [argumentWord, atWord, kind] at went
    split_ifs at went with parses
    · have entries : (entriesTouched env s c).map Prod.snd = [s.core.g.numRanges] := by
        simp [entriesTouched, ends, argument, kind, show (parsed env s).2.1 = true from parses]
      rw [entries]
      cases went
      exact ⟨fun _ other => update_other _ _ other, fun _ _ => rfl⟩
    · cases went
      exact ⟨fun _ _ => rfl, fun _ _ => rfl⟩
  | ITS_A_SHAREDNET =>
    have networks : networksTouched s c = [s.core.g.numSharedNetworks + 1] := by
      simp [networksTouched, ends, argument, kind]
    rw [networks]
    simp only [argumentWord, atWord, kind] at went
    obtain ⟨core, recorded, rest⟩ := bind_ok went
    cases rest
    obtain ⟨ranges, nets⟩ := recordNetwork_frame recorded
    exact ⟨fun i _ => ranges i (by simp), nets⟩
  | ITS_A_SUBNET =>
    simp only [argumentWord, atWord, kind] at went
    split_ifs at went with inside
    · cases went
      exact .none _ _ _
    · have networks : networksTouched s c = [s.core.g.numSharedNetworks + 1] := by
        simp [networksTouched, ends, argument, kind, not_not.mp inside]
      rw [networks]
      obtain ⟨core, recorded, rest⟩ := bind_ok went
      cases rest
      obtain ⟨ranges, nets⟩ := recordNetwork_frame recorded
      exact ⟨fun i _ => ranges i (by simp), nets⟩
  | ITS_A_NETMASK =>
    have networks : networksTouched s c = [s.core.sharedP] := by simp [networksTouched, ends, argument, kind]
    rw [networks]
    simp only [argumentWord, atWord, kind] at went
    split_ifs at went
    · obtain ⟨out, masked, rest⟩ := bind_ok went
      cases rest
      obtain ⟨shifted, -, made⟩ := bind_ok masked
      cases made
      exact ⟨fun _ _ => rfl, fun _ other => update_other _ _ other⟩
    · cases went
      exact ⟨fun _ _ => rfl, fun _ _ => rfl⟩
    · cases went
      exact .none _ _ _
  | ITS_NOTHING_INTERESTING =>
    simp only [argumentWord, atWord, kind] at went
    cases went
    exact .none _ _ _

/-- A step that includes no file changes no entry but those it touches. -/
theorem step_frame {s s' : St} {c : Char} (alone : ¬Includes s.lex c) (went : step env incl s c = .ok s') :
    Frame ((entriesTouched env s c).map Prod.snd) (networksTouched s c) s.core.g s'.core.g := by
  by_cases ends : EndsWord s.lex c
  · rw [step_word env incl ends] at went
    by_cases clause : s.lex.newclause = true
    · rw [if_pos clause] at went
      cases went
      exact .none _ _ _
    · rw [if_neg clause] at went
      have argument : s.lex.newclause = false := by simpa using clause
      exact argumentWord_frame ends argument (fun kind => alone ⟨ends, argument, kind⟩) went
  · by_cases completes : Completes s.lex c
    · obtain ⟨i, place, made⟩ := step_completed completes went
      have entries : (entriesTouched env s c).map Prod.snd = [i] := by
        simp [entriesTouched, ends, completes, place]
      have networks : networksTouched s c = [] := by simp [networksTouched, ends]
      rw [entries, networks]
      have first : Frame [i] [] s.core.g (s.core.g.lastIsFirst i) :=
        ⟨fun _ other => update_other _ _ other, fun _ _ => rfl⟩
      exact first.trans (newrange_frame made place)
    · obtain ⟨s₁, same, quiet⟩ := step_quiet env incl ends completes
      rw [same] at went
      cases went
      rw [quiet.globals]
      exact .none _ _ _

end

/-! ## Whole runs -/

/-- At a loop head the tables have room, and the step touches allocated entries only. -/
structure Roomy (env : Env) (s : St) (c : Char) : Prop where
  ranges : s.core.g.numRanges < s.core.g.RANGES
  word : s.core.g.numRanges < 2 ^ 31 → s.core.g.RANGES < 2 ^ 32
  networks : s.core.g.numSharedNetworks ≤ SHARED_NETWORKS - 2
  entries : ∀ e ∈ entriesTouched env s c, e.1 = s.core.g.allocation ∧ e.2 < s.core.g.RANGES
  places : ∀ i ∈ networksTouched s c, i < SHARED_NETWORKS

/-- The pointer that a semicolon follows to complete a range points into the table as it is now. -/
def PointerValid (s : St) (c : Char) : Prop :=
  Completes s.lex c → ∀ p ∈ s.rangeP, p.1 = s.core.g.allocation

theorem roomy_iff {env : Env} {s : St} {c : Char} (inv : Inv s) : Roomy env s c ↔ PointerValid s c := by
  obtain ⟨⟨ranges, half, networks⟩, owner, pointer⟩ := inv
  constructor
  · intro roomy completes p place
    have ends : ¬EndsWord s.lex c := fun ends => by
      rcases ends.2.2.2 with ⟨space, -⟩ | ⟨-, -, filled⟩
      · rw [completes.1] at space
        cases space
      · exact filled completes.2.2.2
    refine (roomy.entries p ?_).1
    rw [entriesTouched, if_neg ends, if_pos completes]
    exact Option.mem_toList.mpr place
  · intro valid
    refine ⟨ranges, by omega, networks, ?_, ?_⟩
    · intro e member
      rw [entriesTouched] at member
      split_ifs at member with ends words completes
      · rw [List.mem_singleton.mp member]
        exact ⟨rfl, ranges⟩
      · cases member
      · have place := Option.mem_toList.mp member
        have here := valid completes e place
        exact ⟨here, lt_of_le_of_lt ((pointer e.1 e.2 place).2 here) ranges⟩
      · cases member
    · intro i member
      have room : SHARED_NETWORKS = 8192 := rfl
      rw [networksTouched] at member
      split_ifs at member
      · have place := List.mem_singleton.mp member
        omega
      · have place := List.mem_singleton.mp member
        omega
      · cases member
      · cases member

theorem throughout_roomy (env : Env) (depth : Nat) (file : List Char) (sharedP : Nat) (g : Globals) (sized : Sized g)
    (owner : sharedP ≤ g.numSharedNetworks) :
    Throughout env (fun _ s c _ => Roomy env s c) depth file sharedP g ↔
      Throughout env (fun _ s c _ => PointerValid s c) depth file sharedP g := by
  refine @throughout_congr env _ _ Inv (fun sharedP g => Sized g ∧ sharedP ≤ g.numSharedNetworks) ?_
    (fun inv => ⟨inv.sized, inv.owner⟩) (fun depth _ _ _ inv went => (step_inv (parseConfig_sized env depth) inv went).1)
    (fun _ => roomy_iff) depth file sharedP g ⟨sized, owner⟩
  rintro sharedP g file ⟨sized, owner⟩
  exact start_inv ⟨sized.ranges, sized.half, sized.networks⟩ owner

/-- The tables as `prepare_memory` allocates them have room. -/
theorem emptyGlobals_sized (v : DhcpVersion) : Sized (emptyGlobals v) :=
  ⟨show 0 < 64 by decide, show 64 ≤ max 64 (2 * 0) by decide, show 0 ≤ SHARED_NETWORKS - 2 by decide⟩

/-- In a run over any bytes and all that they include, the tables have room at every loop head and only
    allocated entries are touched, also by the reports behind it, exactly when no semicolon completes a range
    through a pointer that is out of date. -/
theorem room_iff (env : Env) (v : DhcpVersion) (depth : Nat) (file : List Char) :
    (Throughout env (fun _ s c _ => Roomy env s c) depth file 0 (emptyGlobals v) ∧
        ∀ g', parseConfig env depth file 0 (emptyGlobals v) = .ok g' →
          (∀ i ≤ g'.numRanges, i < g'.RANGES) ∧ ∀ i ≤ g'.numSharedNetworks, i < SHARED_NETWORKS) ↔
      Throughout env (fun _ s c _ => PointerValid s c) depth file 0 (emptyGlobals v) := by
  rw [throughout_roomy env depth file 0 _ (emptyGlobals_sized v) (Nat.le_refl 0), and_iff_left_iff_imp]
  intro _ g' read
  obtain ⟨sized, -⟩ := parseConfig_sized env depth _ _ _ _ (emptyGlobals_sized v) (Nat.le_refl 0) read
  have room : SHARED_NETWORKS = 8192 := rfl
  have networks := sized.networks
  exact ⟨fun i inside => lt_of_le_of_lt inside sized.ranges, fun i inside => by omega⟩

/-- A parser that knows the address `1`. -/
def oneInet : Inet where
  inetAton s := if s = "1".toList then (true, 1#32) else (false, 0#32)
  inetPton := sampleInet.inetPton
  inetAton_empty := rfl
  inetPton_empty := sampleInet.inetPton_empty
  families _ parses := by cases parses

/-- A main file with one range, and an included one with 63, which make `ranges` move. -/
def movingFiles (file : List Char) : Option (List Char) :=
  if file = "dhcpd.conf".toList then some "range 1;\ninclude \"more\";\nrange ;;\n".toList
  else if file = "more".toList then some (List.replicate 63 "range 1;\n".toList).flatten
  else none

def movingEnv : Env := ⟨oneInet, movingFiles, false, '\x00', ⟨Vector.replicate 16 0⟩⟩

instance (s : St) (c : Char) : Decidable (PointerValid s c) :=
  inferInstanceAs (Decidable (_ → ∀ p ∈ s.rangeP, _))

/-- A range without addresses behind the include is written through a pointer to the table that was given back. -/
theorem stale_pointer :
    ¬Throughout movingEnv (fun _ s c _ => Roomy movingEnv s c) 2 "dhcpd.conf".toList 0 (emptyGlobals .IPvUNKNOWN) := by
  rw [throughout_roomy movingEnv 2 _ 0 _ (emptyGlobals_sized _) (Nat.le_refl 0)]
  decide +kernel

end DhcpdPools.ConfigRoom
