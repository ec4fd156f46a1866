import DhcpdPools.ConfigRanges

/-!
Which ranges and networks a canonical file gives when all subnets count as shared
networks (`parseConfig_shared`). A range belongs to the innermost network around it,
unless a shared network ended before it in the same subnet: then it belongs to none.
-/
namespace DhcpdPools.ConfigShared
open ConfigReader ConfigTokens ConfigTree ConfigMeaning ConfigCanonical ConfigTables ConfigRanges

section
variable (inet : Inet) (v : DhcpVersion)

/-- The networks of a tree: the shared networks, and the subnets that are not inside one. -/
def allNetworks : Bool → Config → List SharedNetwork
  | _, .done => []
  | inside, .other _ _ rest | inside, .range _ _ _ _ rest | inside, .included _ _ rest => allNetworks inside rest
  | inside, .network _ name body rest =>
    ⟨name.value, 0, 0, 0, 0, 0⟩ :: (allNetworks true body ++ allNetworks inside rest)
  | false, .subnet _ net mask body rest =>
    subnetNetwork inet v net mask :: (allNetworks true body ++ allNetworks false rest)
  | true, .subnet _ _ _ body rest => allNetworks true body ++ allNetworks true rest
  | inside, .block _ _ body rest => allNetworks inside body ++ allNetworks inside rest

/-- The ranges of a tree, each with the number of the innermost network around it: `owner`
    outside the networks of the tree, which are counted from `n`. -/
def allRanges : Config → Nat → Nat → List Range
  | .done, _, _ => []
  | .other _ _ rest, owner, n | .included _ _ rest, owner, n => allRanges rest owner n
  | .range _ _ first second rest, owner, n =>
    entry v (address inet v first) (address inet v (second.getD first)) owner :: allRanges rest owner n
  | .network _ _ body rest, owner, n =>
    allRanges body (n + 1) (n + 1) ++ allRanges rest owner (n + 1 + (allNetworks inet v true body).length)
  | .subnet _ _ _ body rest, 0, n =>
    allRanges body (n + 1) (n + 1) ++ allRanges rest 0 (n + 1 + (allNetworks inet v true body).length)
  | .subnet _ _ _ body rest, owner + 1, n =>
    allRanges body (owner + 1) n ++ allRanges rest (owner + 1) (n + (allNetworks inet v true body).length)
  | .block _ _ body rest, owner, n =>
    allRanges body owner n ++ allRanges rest owner (n + (allNetworks inet v (decide (owner ≠ 0)) body).length)

end

/-- Without a network inside another one, the innermost network is the current one. -/
theorem declared_shared {env : Env} {v : DhcpVersion} (shared : env.allAsShared = true) {T : Config} : ∀ {owner n : Nat},
    T.Proper env (decide (owner ≠ 0)) → declared env v T owner n =
      ⟨allRanges env.inet v T owner n, allNetworks env.inet v (decide (owner ≠ 0)) T, owner⟩ := by
  induction T with
  | done => exact fun _ => rfl
  | other keyword args rest ih => exact ih
  | included keyword file rest ih => exact ih
  | range keyword flag first second rest ih =>
    intro owner n proper
    rw [declared, ih proper]
    rfl
  | network keyword name body rest ihBody ihRest =>
    intro owner n proper
    obtain ⟨outside, properBody, properRest⟩ := proper
    obtain rfl : owner = 0 := by simpa using outside
    rw [declared, ihBody (by rwa [decide_eq_true (Nat.succ_ne_zero n)]), ihRest properRest]
    simp only [Declared.before, allRanges, allNetworks, decide_eq_true (Nat.succ_ne_zero n), List.nil_append,
      List.cons_append, List.length_cons, Nat.add_right_comm n 1, Nat.add_assoc n]
  | subnet keyword net mask body rest ihBody ihRest =>
    intro owner n proper
    obtain ⟨properBody, properRest⟩ := proper
    rw [shared, Bool.or_true] at properBody
    cases owner with
    | zero =>
      rw [declared, if_pos ⟨shared, rfl⟩, ihBody (by rwa [decide_eq_true (Nat.succ_ne_zero n)])]
      simp only [Declared.before]
      have outside : decide (0 ≠ 0) = false := rfl
      rw [ihRest properRest, outside]
      simp only [allRanges, allNetworks, decide_eq_true (Nat.succ_ne_zero n), List.nil_append,
        List.cons_append, List.length_cons, Nat.add_right_comm n 1, Nat.add_assoc n]
    | succ owner =>
      rw [declared, if_neg (fun outside => Nat.succ_ne_zero owner outside.2),
        ihBody (by rwa [decide_eq_true (Nat.succ_ne_zero owner)])]
      simp only [Declared.before]
      rw [ihRest properRest]
      simp only [allRanges, decide_eq_true (Nat.succ_ne_zero owner), allNetworks]
  | block keyword args body rest ihBody ihRest =>
    intro owner n proper
    rw [declared, ihBody proper.1]
    simp only [Declared.before]
    rw [ihRest proper.2]
    simp only [allRanges, allNetworks]

/-- An address that leaves room for the prefix length is not cut. -/
theorem subnetNetwork_name {inet : Inet} {v : DhcpVersion} {net : List Char} {m : List Char × List Char}
    (short : net.length ≤ 1019) : (subnetNetwork inet v net (some m)).name =
      net ++ '/' :: (toString (prefixLength (address inet v m.2).v4)).toList := by
  have digits : ∀ len : Fin 33, (toString len.val).toList.length ≤ 2 := by decide
  have few : (toString (prefixLength (address inet v m.2).v4)).toList.length ≤ 2 :=
    digits ⟨_, Nat.lt_succ_of_le (prefixLength_le _)⟩
  refine List.take_of_length_le ?_
  rw [List.length_append, List.length_cons]
  unfold MAXLEN
  omega

/-- With all subnets shared, `parse_config` records the networks and ranges of a canonical file. -/
theorem parseConfig_shared {env : Env} {v : DhcpVersion} {file : List Char} {depth : Nat} {g : Globals} (s : Source env v)
    (text : env.files file = some s.text) (shared : env.allAsShared = true) (none : s.tree.includes = [])
    (contiguous : ∀ m ∈ masks s.tree, Contiguous (address env.inet v m).v4) (agrees : Agrees v g.ipVersion)
    (few : g.numSharedNetworks + (declared env v s.tree 0 g.numSharedNetworks).networks.length ≤ 8190) :
    ∃ g', parseConfig env (depth + 1) file 0 g = .ok g' ∧
      Fills g g' (declared env v s.tree 0 g.numSharedNetworks).ranges (declared env v s.tree 0 g.numSharedNetworks).networks ∧
      (s.tree.Proper env false → Fills g g' (allRanges env.inet v s.tree 0 g.numSharedNetworks)
        (allNetworks env.inet v false s.tree)) := by
  obtain ⟨g', made, fills⟩ := @parseConfig_fills env v file depth g s text none (fun _ => contiguous) agrees few
  refine ⟨g', made, fills, ?_⟩
  intro proper
  have same := @declared_shared env v shared s.tree 0 g.numSharedNetworks proper
  rwa [same] at fills

/-- The address 10.0.0.0 with its first number in octal, and zeros in front. -/
def longAddress : List Char := List.replicate 1012 '0' ++ "12.0.0.0".toList

/-- Parsers that know a netmask and this address too. -/
def subnetInet : Inet where
  inetAton s :=
    if s = "255.255.255.0".toList then (true, 0xffffff00#32)
    else if s = longAddress then (true, 0x0a000000#32)
    else sampleInet.inetAton s
  inetPton := sampleInet.inetPton
  inetAton_empty := by decide +kernel
  inetPton_empty := rfl
  families _ parses := by cases parses

/-- Files whose subnets are all shared. -/
def sharedEnv (tree : Config) : Env :=
  { sampleEnv (fun _ => some (textOf (render tree.tokens))) with inet := subnetInet, allAsShared := true }

/-- The netmask of the subnets below. -/
def sampleMask : Option (List Char × List Char) := some ("netmask".toList, "255.255.255.0".toList)

/-- A subnet in a shared network, one of its own, and a range outside. -/
def officeTree : Config :=
  .network "shared-network".toList (.word "office".toList)
    (.subnet "subnet".toList "10.0.0.0".toList sampleMask
      (.block "pool".toList [] (.range "range".toList none "10.0.0.9".toList (some "10.0.0.5".toList) .done) .done) .done)
    (.subnet "subnet".toList "10.0.1.0".toList sampleMask
      (.block "group".toList [] (.range "range".toList none "10.0.0.5".toList none .done) .done)
      (.range "range".toList none "10.0.0.9".toList none .done))

section
variable {tree : Config}

theorem shared_keyword {kind : IscConfParser} {w : List Char} (same : isInterestingConfigClause true w = kind)
    (short : w.length < MAXLEN) : Keyword (sharedEnv tree) kind w := ⟨same, short⟩

theorem shared_address {w : List Char} (valid : (subnetInet.inetAton w).1 = true) (short : w.length < MAXLEN) :
    IsAddress (sharedEnv tree).inet .IPv4 w ∧ w.length < MAXLEN := ⟨valid, short⟩

/-- The head of a subnet with the netmask. -/
theorem shared_subnet {net : List Char} (short : net.length < MAXLEN) : (sharedEnv tree).allAsShared = true →
    net.length < MAXLEN ∧ ∀ m ∈ sampleMask, Keyword (sharedEnv tree) .ITS_A_NETMASK m.1 ∧
      IsAddress (sharedEnv tree).inet .IPv4 m.2 ∧ m.2.length < MAXLEN := by
  refine fun _ => ⟨short, ?_⟩
  rintro m ⟨⟩
  exact ⟨shared_keyword (by decide +kernel) (by decide +kernel), shared_address (by decide +kernel) (by decide +kernel)⟩

/-- A range without a flag. -/
theorem shared_range {first : List Char} {second : Option (List Char)} (one : (subnetInet.inetAton first).1 = true)
    (short : first.length < MAXLEN) (two : ∀ w ∈ second, (subnetInet.inetAton w).1 = true ∧ w.length < MAXLEN) {rest : Config}
    (valid : rest.Valid (sharedEnv tree) .IPv4) :
    (Config.range "range".toList none first second rest).Valid (sharedEnv tree) .IPv4 :=
  ⟨shared_keyword (by decide +kernel) (by decide +kernel), fun _ no => (by cases no), shared_address one short, two, valid⟩

end

theorem officeTree_valid : officeTree.Valid (sharedEnv officeTree) .IPv4 := by
  refine ⟨shared_keyword (by decide +kernel) (by decide +kernel), (by decide +kernel : "office".toList.length < MAXLEN),
    ⟨shared_keyword (by decide +kernel) (by decide +kernel), shared_subnet (by decide +kernel),
      ⟨shared_keyword (by decide +kernel) (by decide +kernel), shared_range (by decide +kernel) (by decide +kernel) ?_ trivial,
        trivial⟩, trivial⟩,
    shared_keyword (by decide +kernel) (by decide +kernel), shared_subnet (by decide +kernel),
    ⟨shared_keyword (by decide +kernel) (by decide +kernel),
      shared_range (by decide +kernel) (by decide +kernel) (fun _ no => by cases no) trivial, trivial⟩,
    shared_range (by decide +kernel) (by decide +kernel) (fun _ no => by cases no) trivial⟩
  rintro w ⟨⟩
  exact ⟨by decide +kernel, by decide +kernel⟩

theorem parseConfig_shared_office :
    (declared (sharedEnv officeTree) .IPv4 officeTree 0 0).networks =
        [⟨"office".toList, 0, 0, 0, 0, 0⟩, ⟨"10.0.1.0/24".toList, 0, 0, 0, 0, 24⟩] ∧
      (declared (sharedEnv officeTree) .IPv4 officeTree 0 0).ranges.map Range.sharedNet = [some 1, some 2, some 0] ∧
      ∃ g', parseConfig (sharedEnv officeTree) 1 "dhcpd.conf".toList 0 (emptyGlobals .IPvUNKNOWN) = .ok g' ∧
        Fills (emptyGlobals .IPvUNKNOWN) g' (declared (sharedEnv officeTree) .IPv4 officeTree 0 0).ranges
          (declared (sharedEnv officeTree) .IPv4 officeTree 0 0).networks ∧
        (officeTree.Proper (sharedEnv officeTree) false → Fills (emptyGlobals .IPvUNKNOWN) g'
          (allRanges subnetInet .IPv4 officeTree 0 0) (allNetworks subnetInet .IPv4 false officeTree)) :=
  ⟨by decide +kernel, by decide +kernel, parseConfig_shared (.ofTree officeTree (by decide +kernel) officeTree_valid) rfl rfl rfl
    (by decide +kernel) (Or.inl rfl) (by decide +kernel)⟩

/-- A subnet with zeros in front of its address, a shared network in it, and a range behind that. -/
def crossTree : Config :=
  .subnet "subnet".toList longAddress sampleMask
    (.network "shared-network".toList (.word "office".toList) (.range "range".toList none "10.0.0.5".toList none .done)
      (.range "range".toList none "10.0.0.9".toList none .done)) .done

theorem crossTree_valid : crossTree.Valid (sharedEnv crossTree) .IPv4 :=
  ⟨shared_keyword (by decide +kernel) (by decide +kernel), shared_subnet (by decide +kernel),
    ⟨shared_keyword (by decide +kernel) (by decide +kernel), (by decide +kernel : "office".toList.length < MAXLEN),
      shared_range (by decide +kernel) (by decide +kernel) (fun _ no => by cases no) trivial,
      shared_range (by decide +kernel) (by decide +kernel) (fun _ no => by cases no) trivial⟩, trivial⟩

/-- The name of the subnet is cut, and the range behind the shared network is in no network. -/
theorem parseConfig_shared_cut :
    (subnetInet.inetAton longAddress).1 = true ∧ longAddress.length < MAXLEN ∧
      crossTree.Valid (sharedEnv crossTree) .IPv4 ∧
      (∀ m ∈ masks crossTree, Contiguous (address subnetInet .IPv4 m).v4 ∧ prefixLength (address subnetInet .IPv4 m).v4 = 24) ∧
      ∃ g', parseConfig (sharedEnv crossTree) 1 "dhcpd.conf".toList 0 (emptyGlobals .IPvUNKNOWN) = .ok g' ∧
        g'.numRanges = 2 ∧ g'.numSharedNetworks = 2 ∧ (g'.sharedNetworks 1).name = longAddress ++ "/2".toList ∧
        (g'.sharedNetworks 1).name ≠ longAddress ++ "/24".toList ∧
        (g'.ranges 1).firstIp = address subnetInet .IPv4 "10.0.0.9".toList ∧ (g'.ranges 1).sharedNet = some 0 := by
  obtain ⟨g', made, fills⟩ := @parseConfig_fills (sharedEnv crossTree) .IPv4 "dhcpd.conf".toList 0 (emptyGlobals .IPvUNKNOWN)
    (.ofTree crossTree (by decide +kernel) crossTree_valid) rfl rfl (fun _ => by decide +kernel) (Or.inl rfl) (by decide +kernel)
  have net : g'.sharedNetworks 1 = ⟨longAddress ++ "/2".toList, 0, 0, 0, 0, 24⟩ :=
    fills.networks.added 0 _ (by decide +kernel)
  have range : g'.ranges 1 = entry .IPv4 (address subnetInet .IPv4 "10.0.0.9".toList)
      (address subnetInet .IPv4 "10.0.0.9".toList) 0 := fills.ranges.added 1 _ (by decide +kernel)
  refine ⟨by decide +kernel, by decide +kernel, crossTree_valid, by decide +kernel, g', made, fills.numRanges,
    fills.numNetworks, ?_, ?_, ?_, ?_⟩
  · rw [net]
  · rw [net]
    decide +kernel
  · rw [range]
    rfl
  · rw [range]
    rfl

end DhcpdPools.ConfigShared
