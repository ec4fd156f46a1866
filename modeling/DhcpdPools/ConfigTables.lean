import DhcpdPools.ConfigTree

/-!
What a tree of statements declares, as lists: its ranges, each with the number of its
network, and its networks (`declared`). The flow of the tree fills the tables with them
(`flow_fills`).
-/
namespace DhcpdPools.ConfigTables
open Machine ConfigReader ConfigTree

/-! ## Rows -/

/-- A table with rows behind its first `n` ones, which it keeps. -/
structure Extends {α : Type} (t t' : Nat → α) (n : Nat) (rows : List α) : Prop where
  added : ∀ i row, rows[i]? = some row → t' (n + i) = row
  before : ∀ i < n, t' i = t i

section
variable {α : Type} {t t1 t2 : Nat → α} {n : Nat} {rows rows' : List α}

theorem Extends.nothing : Extends t t n [] := by
  refine ⟨?_, fun _ _ => rfl⟩
  intro i row some
  cases some

theorem Extends.push (row : α) : Extends t (Function.update t n row) n [row] := by
  constructor
  · intro i row' place
    obtain ⟨rfl, rfl⟩ : i = 0 ∧ row' = row := by
      cases i with
      | zero => exact ⟨rfl, (Option.some.inj place).symm⟩
      | succ i => cases place
    exact Function.update_self ..
  · intro i old
    exact Function.update_of_ne (Nat.ne_of_lt old) ..

theorem Extends.trans (first : Extends t t1 n rows) (second : Extends t1 t2 (n + rows.length) rows') :
    Extends t t2 n (rows ++ rows') := by
  constructor
  · intro i row place
    by_cases early : i < rows.length
    · rw [List.getElem?_append_left early] at place
      rw [second.before _ (by omega), first.added i row place]
    · have late : rows.length ≤ i := Nat.le_of_not_lt early
      rw [List.getElem?_append_right late] at place
      rw [← second.added _ row place]
      congr 1
      omega
  · intro i old
    rw [second.before i (by omega), first.before i old]

theorem Extends.added_rows (grown : Extends t t1 n rows) : (List.range rows.length).map (fun i => t1 (n + i)) = rows := by
  refine List.ext_getElem (by simp) ?_
  intro i _ inside
  rw [List.getElem_map, List.getElem_range]
  exact grown.added i _ (List.getElem?_eq_getElem inside)

end

/-- The tables grow by these ranges and these networks, and keep what they had. -/
structure Fills (g g' : Globals) (ranges : List Range) (networks : List SharedNetwork) : Prop where
  numRanges : g'.numRanges = g.numRanges + ranges.length
  ranges : Extends g.ranges g'.ranges g.numRanges ranges
  numNetworks : g'.numSharedNetworks = g.numSharedNetworks + networks.length
  networks : Extends g.sharedNetworks g'.sharedNetworks (g.numSharedNetworks + 1) networks

section
variable {v : DhcpVersion} {g g1 g2 : Globals} {ranges ranges' : List Range} {nets nets' : List SharedNetwork}

theorem Fills.nothing : Fills g g [] [] := ⟨rfl, .nothing, rfl, .nothing⟩

theorem Fills.trans (first : Fills g g1 ranges nets) (second : Fills g1 g2 ranges' nets') :
    Fills g g2 (ranges ++ ranges') (nets ++ nets') := by
  constructor
  · rw [second.numRanges, first.numRanges, List.length_append, Nat.add_assoc]
  · have later := second.ranges
    rw [first.numRanges] at later
    exact first.ranges.trans later
  · rw [second.numNetworks, first.numNetworks, List.length_append, Nat.add_assoc]
  · have later := second.networks
    rw [first.numNetworks, Nat.add_right_comm] at later
    exact first.networks.trans later

theorem addRange_fills (a b : Ipaddr) (owner : Nat) : Fills g (addRange v a b owner g) [entry v a b owner] [] := by
  obtain ⟨count, table, counted, networks⟩ := addRange_fields (v := v) a b owner g
  refine ⟨count, ?_, counted, ?_⟩
  · rw [table]
    exact .push _
  · rw [networks]
    exact .nothing

theorem addNetwork_fills {name : List Char} {netmask : Int} (room : g.numSharedNetworks + 1 ≤ 8190) :
    ∃ g', addNetwork name netmask g = .ok g' ∧ Fills g g' [] [⟨name, 0, 0, 0, 0, netmask⟩] :=
  ⟨_, if_neg (by unfold SHARED_NETWORKS; omega), rfl, .nothing, rfl, .push _⟩

end

/-! ## Netmasks -/

/-- The ones at the top of a netmask. -/
def prefixLength (mask : BitVec 32) : Nat := ((List.range 32).takeWhile mask.getMsbD).length

/-- Ones at the top, at least one of them, and zeros below. -/
def Contiguous (mask : BitVec 32) : Prop :=
  0 < prefixLength mask ∧ mask = BitVec.allOnes 32 <<< (32 - prefixLength mask)

instance (mask : BitVec 32) : Decidable (Contiguous mask) := inferInstanceAs (Decidable (_ ∧ _))

theorem prefixLength_le (mask : BitVec 32) : prefixLength mask ≤ 32 := by
  have shorter := (List.takeWhile_sublist (l := List.range 32) mask.getMsbD).length_le
  rwa [List.length_range] at shorter

/-- The loop shifts the lowest one to the end. -/
theorem netmaskLoop_ok {k : Nat} : ∀ {mask : BitVec 32} {m : Nat} {netmask : Int}, mask.getLsbD k = true →
    (∀ j < k, mask.getLsbD j = false) → k ≤ m → netmaskLoop (m + 1) mask netmask = .ok (mask >>> k, netmask - k) := by
  induction k with
  | zero =>
    intro mask m netmask one _ _
    simp [netmaskLoop, one]
  | succ k ih =>
    intro mask m netmask one zeros enough
    obtain ⟨m, rfl⟩ : ∃ m', m = m' + 1 := ⟨m - 1, by omega⟩
    have shifted : ∀ j, (mask >>> 1).getLsbD j = mask.getLsbD (j + 1) := by
      intro j
      rw [BitVec.getLsbD_ushiftRight, Nat.add_comm]
    rw [netmaskLoop, if_neg (by rw [zeros 0 (Nat.succ_pos k)]; decide)]
    rw [ih (by rw [shifted, one]) (fun j below => by rw [shifted, zeros _ (by omega)]) (by omega)]
    rw [← BitVec.shiftRight_add, Nat.add_comm 1 k]
    congr 2
    push_cast
    omega

theorem netmaskLoop_contiguous {mask : BitVec 32} (contiguous : Contiguous mask) :
    ∃ shifted, netmaskLoop 33 mask 32 = .ok (shifted, prefixLength mask) := by
  obtain ⟨positive, form⟩ := contiguous
  have bound := prefixLength_le mask
  generalize prefixLength mask = p at positive form bound ⊢
  subst form
  have bit : ∀ j < 32, (BitVec.allOnes 32 <<< (32 - p)).getLsbD j = !decide (j < 32 - p) := by
    intro j inside
    have upper : j - (32 - p) < 32 := by omega
    rw [BitVec.getLsbD_shiftLeft, BitVec.getLsbD_allOnes, decide_eq_true inside, decide_eq_true upper, Bool.true_and,
      Bool.and_true]
  have one : (BitVec.allOnes 32 <<< (32 - p)).getLsbD (32 - p) = true := by
    rw [bit _ (by omega), decide_eq_false (Nat.lt_irrefl _)]
    rfl
  have zeros : ∀ j < 32 - p, (BitVec.allOnes 32 <<< (32 - p)).getLsbD j = false := by
    intro j below
    rw [bit j (by omega), decide_eq_true below]
    rfl
  have left : (32 : Int) - (32 - p : Nat) = p := by omega
  have loop := @netmaskLoop_ok (32 - p) _ 32 32 one zeros (by omega)
  rw [left] at loop
  exact ⟨_, loop⟩

/-! ## Declarations -/

/-- The network that a subnet is. The name has the prefix length, and as much of the
    address as `snprintf` leaves. -/
def subnetNetwork (inet : Inet) (v : DhcpVersion) (net : List Char) (mask : Option (List Char × List Char)) : SharedNetwork :=
  match mask with
  | none => ⟨net, 0, 0, 0, 0, -1⟩
  | some m =>
    let len := prefixLength (address inet v m.2).v4
    ⟨(net ++ '/' :: (toString len).toList).take (MAXLEN - 2), 0, 0, 0, 0, len⟩

/-- Ranges and networks in the order of the file, and the current network behind them. -/
structure Declared where
  ranges : List Range
  networks : List SharedNetwork
  current : Nat

/-- What is declared in front comes first. -/
def Declared.before (front behind : Declared) : Declared :=
  ⟨front.ranges ++ behind.ranges, front.networks ++ behind.networks, behind.current⟩

section
variable (env : Env) (v : DhcpVersion)

/-- What a tree declares where the ranges belong to the network `owner` and `n` networks
    are there. Inside a network they belong to it, up to the end of a network in it. -/
def declared : Config → Nat → Nat → Declared
  | .done, owner, _ => ⟨[], [], owner⟩
  | .other _ _ rest, owner, n | .included _ _ rest, owner, n => declared rest owner n
  | .range _ _ first second rest, owner, n =>
    let r := entry v (address env.inet v first) (address env.inet v (second.getD first)) owner
    Declared.before ⟨[r], [], owner⟩ (declared rest owner n)
  | .network _ name body rest, _, n =>
    let inner := Declared.before ⟨[], [⟨name.value, 0, 0, 0, 0, 0⟩], n + 1⟩ (declared body (n + 1) (n + 1))
    inner.before (declared rest 0 (n + inner.networks.length))
  | .subnet _ net mask body rest, owner, n =>
    if env.allAsShared = true ∧ owner = 0 then
      let inner := Declared.before ⟨[], [subnetNetwork env.inet v net mask], n + 1⟩ (declared body (n + 1) (n + 1))
      inner.before (declared rest 0 (n + inner.networks.length))
    else
      let inner := declared body owner n
      inner.before (declared rest inner.current (n + inner.networks.length))
  | .block _ _ body rest, owner, n =>
    let inner := declared body owner n
    inner.before (declared rest inner.current (n + inner.networks.length))

end

/-- What is declared has this, when each entry that is made of a statement has. -/
theorem declared_forall {env : Env} {v : DhcpVersion} {P : Range → Prop} {Q : SharedNetwork → Prop}
    (range : ∀ a b owner, P (entry v a b owner)) (network : ∀ name, Q ⟨name, 0, 0, 0, 0, 0⟩)
    (subnet : ∀ net mask, Q (subnetNetwork env.inet v net mask)) (T : Config) : ∀ owner n : Nat,
      (∀ r ∈ (declared env v T owner n).ranges, P r) ∧ ∀ net ∈ (declared env v T owner n).networks, Q net := by
  have before : ∀ {front behind : Declared}, ((∀ r ∈ front.ranges, P r) ∧ ∀ net ∈ front.networks, Q net) →
      ((∀ r ∈ behind.ranges, P r) ∧ ∀ net ∈ behind.networks, Q net) →
      (∀ r ∈ (front.before behind).ranges, P r) ∧ ∀ net ∈ (front.before behind).networks, Q net :=
    fun front behind => ⟨List.forall_mem_append.mpr ⟨front.1, behind.1⟩, List.forall_mem_append.mpr ⟨front.2, behind.2⟩⟩
  induction T with
  | done => exact fun _ _ => ⟨List.forall_mem_nil _, List.forall_mem_nil _⟩
  | other keyword args rest ih => exact ih
  | included keyword file rest ih => exact ih
  | range keyword flag first second rest ih =>
    exact fun owner n => before ⟨List.forall_mem_singleton.mpr (range ..), List.forall_mem_nil _⟩ (ih owner n)
  | network keyword name body rest ihBody ihRest =>
    exact fun owner n => before (before ⟨List.forall_mem_nil _, List.forall_mem_singleton.mpr (network _)⟩ (ihBody ..)) (ihRest ..)
  | subnet keyword net mask body rest ihBody ihRest =>
    intro owner n
    rw [declared]
    split_ifs
    · exact before (before ⟨List.forall_mem_nil _, List.forall_mem_singleton.mpr (subnet ..)⟩ (ihBody ..)) (ihRest ..)
    · exact before (ihBody ..) (ihRest ..)
  | block keyword args body rest ihBody ihRest => exact fun owner n => before (ihBody ..) (ihRest ..)

/-- Behind `n` networks, the ranges and what follows belong to networks of the table. -/
def Declared.Owned (n : Nat) (d : Declared) : Prop :=
  (∀ r ∈ d.ranges, ∃ k ≤ n + d.networks.length, r.sharedNet = some k) ∧ d.current ≤ n + d.networks.length

theorem Declared.Owned.before {n : Nat} {front behind : Declared} (first : front.Owned n)
    (second : behind.Owned (n + front.networks.length)) : (front.before behind).Owned n := by
  have length : n + (front.before behind).networks.length = n + front.networks.length + behind.networks.length := by
    rw [Declared.before, List.length_append, Nat.add_assoc]
  constructor
  · intro r member
    rw [length]
    rcases List.mem_append.mp member with old | new
    · obtain ⟨k, inside, owner⟩ := first.1 r old
      exact ⟨k, inside.trans (Nat.le_add_right _ _), owner⟩
    · exact second.1 r new
  · rw [length]
    exact second.2

theorem declared_owned (env : Env) (v : DhcpVersion) (T : Config) : ∀ {owner n : Nat}, owner ≤ n →
    (declared env v T owner n).Owned n := by
  have network : ∀ (net : SharedNetwork) (n : Nat), Declared.Owned n ⟨[], [net], n + 1⟩ :=
    fun net n => ⟨List.forall_mem_nil _, Nat.le_refl _⟩
  induction T with
  | done => exact fun inside => ⟨List.forall_mem_nil _, inside⟩
  | other keyword args rest ih => exact ih
  | included keyword file rest ih => exact ih
  | range keyword flag first second rest ih =>
    intro owner n inside
    refine Declared.Owned.before ⟨List.forall_mem_singleton.mpr ⟨owner, inside, ?_⟩, inside⟩ (ih inside)
    unfold entry
    split_ifs <;> rfl
  | network keyword name body rest ihBody ihRest =>
    intro owner n _
    exact ((network _ n).before (ihBody (Nat.le_refl _))).before (ihRest (Nat.zero_le _))
  | subnet keyword net mask body rest ihBody ihRest =>
    intro owner n inside
    unfold declared
    split_ifs
    · exact ((network _ n).before (ihBody (Nat.le_refl _))).before (ihRest (Nat.zero_le _))
    · exact (ihBody inside).before (ihRest (ihBody inside).2)
  | block keyword args body rest ihBody ihRest =>
    intro owner n inside
    exact (ihBody inside).before (ihRest (ihBody inside).2)

/-- The netmasks of the subnets. -/
def masks : Config → List (List Char)
  | .done => []
  | .other _ _ rest | .range _ _ _ _ rest | .included _ _ rest => masks rest
  | .subnet _ _ mask body rest => mask.toList.map Prod.snd ++ (masks body ++ masks rest)
  | .network _ _ body rest | .block _ _ body rest => masks body ++ masks rest

section
variable {env : Env} {v : DhcpVersion} {incl : List Char → Nat → Globals → Except Stop Globals}

theorem addSubnet_fills {net : List Char} {mask : Option (List Char × List Char)} {g : Globals}
    (contiguous : ∀ m ∈ mask.toList.map Prod.snd, Contiguous (address env.inet v m).v4) (room : g.numSharedNetworks + 1 ≤ 8190) :
    ∃ g', addSubnet env.inet v net mask g = .ok g' ∧ Fills g g' [] [subnetNetwork env.inet v net mask] := by
  cases mask with
  | none => exact addNetwork_fills room
  | some m =>
    obtain ⟨shifted, loop⟩ := netmaskLoop_contiguous (contiguous m.2 (List.mem_singleton.mpr rfl))
    obtain ⟨g1, added, fills⟩ := @addNetwork_fills g net (-1) room
    rw [addSubnet, added]
    refine ⟨_, addNetmask_eq loop, fills.numRanges, fills.ranges, fills.numNetworks, ?_⟩
    obtain rfl := addNetwork_ok added
    simp only [Globals.setNetwork, Function.update_self, Function.update_idem]
    exact .push _

/-- A flow that fills the tables as declared. -/
def Declares (g : Globals) (z : Except Stop (Nat × Globals)) (d : Declared) : Prop :=
  ∃ g', z = .ok (d.current, g') ∧ Fills g g' d.ranges d.networks

theorem Declares.after {g : Globals} {y : Except Stop Globals} {h : Globals → Except Stop (Nat × Globals)} {d d' : Declared}
    (made : ∃ g1, y = .ok g1 ∧ Fills g g1 d.ranges d.networks)
    (rest : ∀ g1, g1.numSharedNetworks = g.numSharedNetworks + d.networks.length → Declares g1 (h g1) d') :
    Declares g (y >>= h) (d.before d') := by
  obtain ⟨g1, rfl, fills⟩ := made
  obtain ⟨g2, made, fills'⟩ := rest g1 fills.numNetworks
  exact ⟨g2, made, fills.trans fills'⟩

theorem Declares.before {g : Globals} {z : Except Stop (Nat × Globals)} {h : Nat × Globals → Except Stop (Nat × Globals)}
    {d d' : Declared} (first : Declares g z d)
    (rest : ∀ g1, g1.numSharedNetworks = g.numSharedNetworks + d.networks.length → Declares g1 (h (d.current, g1)) d') :
    Declares g (z >>= h) (d.before d') := by
  obtain ⟨g1, rfl, fills⟩ := first
  obtain ⟨g2, made, fills'⟩ := rest g1 fills.numNetworks
  exact ⟨g2, made, fills.trans fills'⟩

/-- The network that a body is in, the body, and what follows. -/
theorem Declares.network {y : Except Stop Globals} {net : SharedNetwork} {body rest : Config} {n : Nat} {g : Globals}
    (there : g.numSharedNetworks = n) (made : ∃ g1, y = .ok g1 ∧ Fills g g1 [] [net])
    (inside : ∀ g1, g1.numSharedNetworks = n + 1 →
      Declares g1 (body.flow env v incl (n + 1) g1) (declared env v body (n + 1) (n + 1)))
    (behind : ∀ {n'}, n' = n + ((declared env v body (n + 1) (n + 1)).networks.length + 1) → ∀ g1, g1.numSharedNetworks = n' →
      Declares g1 (rest.flow env v incl 0 g1) (declared env v rest 0 n')) :
    Declares g (y >>= fun g => body.flow env v incl g.numSharedNetworks g >>= fun left => rest.flow env v incl 0 left.2)
      (let inner := Declared.before ⟨[], [net], n + 1⟩ (declared env v body (n + 1) (n + 1))
      inner.before (declared env v rest 0 (n + inner.networks.length))) := by
  rw [← bind_assoc]
  refine Declares.before (.after made ?_) ?_
  · intro g1 counted
    have one : g1.numSharedNetworks = n + 1 := counted.trans (congrArg (· + 1) there)
    rw [one]
    exact inside g1 one
  · intro g1 counted
    refine behind ?_ g1 ?_
    · rfl
    · rw [counted, there]

/-- A body that is in no network of its own, and what follows. -/
theorem Declares.plain {body rest : Config} {owner n : Nat} {g : Globals} (there : g.numSharedNetworks = n)
    (inside : Declares g (body.flow env v incl owner g) (declared env v body owner n))
    (behind : ∀ g1, g1.numSharedNetworks = n + (declared env v body owner n).networks.length →
      Declares g1 (rest.flow env v incl (declared env v body owner n).current g1)
        (declared env v rest (declared env v body owner n).current (n + (declared env v body owner n).networks.length))) :
    Declares g (body.flow env v incl owner g >>= fun left => rest.flow env v incl left.1 left.2)
      ((declared env v body owner n).before (declared env v rest (declared env v body owner n).current
        (n + (declared env v body owner n).networks.length))) := by
  refine inside.before ?_
  intro g1 counted
  exact behind g1 (by rw [counted, there])

/-- The flow of a tree without includes fills the tables with what the tree declares. -/
theorem flow_fills {T : Config} : ∀ {owner n : Nat} {g : Globals}, T.includes = [] →
    (env.allAsShared = true → ∀ m ∈ masks T, Contiguous (address env.inet v m).v4) →
    n + (declared env v T owner n).networks.length ≤ 8190 → g.numSharedNetworks = n →
    Declares g (T.flow env v incl owner g) (declared env v T owner n) := by
  induction T with
  | done => exact fun _ _ _ _ => ⟨_, rfl, .nothing⟩
  | other keyword args rest ih => exact ih
  | included keyword file rest ih =>
    intro owner n g none
    cases none
  | range keyword flag first second rest ih =>
    intro owner n g none contiguous few there
    refine Declares.after (y := .ok _) ⟨_, rfl, addRange_fills _ _ owner⟩ ?_
    intro g1 counted
    exact ih none contiguous few (counted.trans there)
  | network keyword name body rest ihBody ihRest =>
    intro owner n g none contiguous few there
    obtain ⟨noneBody, noneRest⟩ := List.append_eq_nil_iff.mp none
    simp only [declared, Declared.before, List.length_append, List.length_singleton, Nat.add_comm 1] at few
    refine .network there (addNetwork_fills (by omega)) ?_ ?_
    · intro g1 counted
      exact ihBody noneBody (fun shared m member => contiguous shared m (List.mem_append_left _ member)) (by omega) counted
    · rintro n' rfl g1 counted
      refine ihRest noneRest (fun shared m member => contiguous shared m (List.mem_append_right _ member)) ?_ counted
      omega
  | subnet keyword net mask body rest ihBody ihRest =>
    intro owner n g none contiguous few there
    obtain ⟨noneBody, noneRest⟩ := List.append_eq_nil_iff.mp none
    have contiguousBody : env.allAsShared = true → ∀ m ∈ masks body, Contiguous (address env.inet v m).v4 :=
      fun shared m member => contiguous shared m (List.mem_append_right _ (List.mem_append_left _ member))
    have contiguousRest : env.allAsShared = true → ∀ m ∈ masks rest, Contiguous (address env.inet v m).v4 :=
      fun shared m member => contiguous shared m (List.mem_append_right _ (List.mem_append_right _ member))
    rw [Config.flow, declared]
    rw [declared] at few
    by_cases network : env.allAsShared = true ∧ owner = 0
    · rw [if_pos network] at few
      rw [if_pos network, if_pos network]
      simp only [Declared.before, List.length_append, List.length_singleton, Nat.add_comm 1] at few
      have mine : ∀ m ∈ mask.toList.map Prod.snd, Contiguous (address env.inet v m).v4 :=
        fun m member => contiguous network.1 m (List.mem_append_left _ member)
      refine .network there (addSubnet_fills mine (by omega)) ?_ ?_
      · intro g1 counted
        exact ihBody noneBody contiguousBody (by omega) counted
      · rintro n' rfl g1 counted
        refine ihRest noneRest contiguousRest ?_ counted
        omega
    · rw [if_neg network] at few
      rw [if_neg network, if_neg network]
      simp only [Declared.before, List.length_append] at few
      refine .plain there (ihBody noneBody contiguousBody (by omega) there) ?_
      intro g1 counted
      refine ihRest noneRest contiguousRest ?_ counted
      omega
  | block keyword args body rest ihBody ihRest =>
    intro owner n g none contiguous few there
    obtain ⟨noneBody, noneRest⟩ := List.append_eq_nil_iff.mp none
    simp only [declared, Declared.before, List.length_append] at few
    refine .plain there (ihBody noneBody (fun shared m member => contiguous shared m (List.mem_append_left _ member))
      (by omega) there) ?_
    intro g1 counted
    refine ihRest noneRest (fun shared m member => contiguous shared m (List.mem_append_right _ member)) ?_ counted
    omega

end

/-! ## The version -/

/-- The version is decided, or nothing has decided it and no range was added. -/
def Decides (v : DhcpVersion) (g g' : Globals) : Prop :=
  g'.ipVersion = v ∨ g'.ipVersion = g.ipVersion ∧ g'.numRanges = g.numRanges

section
variable {env : Env} {v : DhcpVersion} {incl : List Char → Nat → Globals → Except Stop Globals} {g g1 g2 : Globals}

theorem Decides.refl (g : Globals) : Decides v g g := Or.inr ⟨rfl, rfl⟩

theorem Decides.trans (first : Decides v g g1) (second : Decides v g1 g2) : Decides v g g2 := by
  rcases second with decided | ⟨version, count⟩
  · exact Or.inl decided
  · rcases first with decided | ⟨version', count'⟩
    · exact Or.inl (version.trans decided)
    · exact Or.inr ⟨version.trans version', count.trans count'⟩

theorem addNetwork_decides {name : List Char} {netmask : Int} (added : addNetwork name netmask g = .ok g1) : Decides v g g1 := by
  obtain rfl := addNetwork_ok added
  exact Or.inr ⟨rfl, rfl⟩

theorem addSubnet_decides {net : List Char} {mask : Option (List Char × List Char)}
    (added : addSubnet env.inet v net mask g = .ok g1) : Decides v g g1 := by
  cases mask with
  | none => exact addNetwork_decides added
  | some m =>
    obtain ⟨named, -, masked⟩ := bind_ok added
    exact Or.inl (addNetmask_ok masked).1

/-- The first address of a tree without includes decides the version. -/
theorem flow_decides {T : Config} : ∀ {owner : Nat} {g : Globals} {left : Nat × Globals}, T.includes = [] →
    T.flow env v incl owner g = .ok left → Decides v g left.2 := by
  induction T with
  | done =>
    rintro owner g left - ⟨⟩
    exact .refl g
  | other keyword args rest ih => exact ih
  | included keyword file rest ih =>
    intro owner g left none
    cases none
  | range keyword flag first second rest ih =>
    intro owner g left none ran
    exact Decides.trans (Or.inl (addRange_version v _ _ owner g)) (ih none ran)
  | network keyword name body rest ihBody ihRest =>
    intro owner g left none ran
    obtain ⟨noneBody, noneRest⟩ := List.append_eq_nil_iff.mp none
    obtain ⟨g1, named, ran⟩ := bind_ok ran
    obtain ⟨inner, body, ran⟩ := bind_ok ran
    exact (addNetwork_decides named).trans ((ihBody noneBody body).trans (ihRest noneRest ran))
  | subnet keyword net mask body rest ihBody ihRest =>
    intro owner g left none ran
    obtain ⟨noneBody, noneRest⟩ := List.append_eq_nil_iff.mp none
    rw [Config.flow] at ran
    split_ifs at ran
    · obtain ⟨g1, named, ran⟩ := bind_ok ran
      obtain ⟨inner, body, ran⟩ := bind_ok ran
      exact (addSubnet_decides named).trans ((ihBody noneBody body).trans (ihRest noneRest ran))
    · obtain ⟨inner, body, ran⟩ := bind_ok ran
      exact (ihBody noneBody body).trans (ihRest noneRest ran)
  | block keyword args body rest ihBody ihRest =>
    intro owner g left none ran
    obtain ⟨noneBody, noneRest⟩ := List.append_eq_nil_iff.mp none
    obtain ⟨inner, body, ran⟩ := bind_ok ran
    exact (ihBody noneBody body).trans (ihRest noneRest ran)

end

end DhcpdPools.ConfigTables
