import DhcpdPools.ConfigCanonical
import DhcpdPools.ConfigTables

/-!
Which ranges and networks a canonical file gives (`parseConfig_records`): those of its
tree, in the order of the file, each range with its addresses in order and with the
number of the network around it.
-/
namespace DhcpdPools.ConfigRanges
open Machine ConfigReader ConfigTokens ConfigTree ConfigMeaning ConfigCanonical ConfigTables

/-- The names of the networks. -/
def networks : Config → List (List Char)
  | .done => []
  | .other _ _ rest | .range _ _ _ _ rest | .included _ _ rest => networks rest
  | .network _ name body rest => name.value :: (networks body ++ networks rest)
  | .subnet _ _ _ body rest | .block _ _ body rest => networks body ++ networks rest

/-- The two addresses of each range, and the number of its network: `owner` outside the
    networks of the tree, which are counted from `n`. -/
def ranges : Config → Nat → Nat → List (List Char × List Char × Nat)
  | .done, _, _ => []
  | .other _ _ rest, owner, n | .included _ _ rest, owner, n => ranges rest owner n
  | .range _ _ first second rest, owner, n => (first, second.getD first, owner) :: ranges rest owner n
  | .network _ _ body rest, owner, n =>
    ranges body (n + 1) (n + 1) ++ ranges rest owner (n + 1 + (networks body).length)
  | .subnet _ _ _ body rest, owner, n | .block _ _ body rest, owner, n =>
    ranges body owner n ++ ranges rest owner (n + (networks body).length)

/-- The tables grow by these ranges and these networks, and keep what they had. -/
structure Adds (inet : Inet) (v : DhcpVersion) (g g' : Globals) (added : List (List Char × List Char × Nat))
    (names : List (List Char)) : Prop where
  numRanges : g'.numRanges = g.numRanges + added.length
  ranges : ∀ i r, added[i]? = some r →
    g'.ranges (g.numRanges + i) = entry v (address inet v r.1) (address inet v r.2.1) r.2.2
  rangesBefore : ∀ i < g.numRanges, g'.ranges i = g.ranges i
  numNetworks : g'.numSharedNetworks = g.numSharedNetworks + names.length
  networks : ∀ i name, names[i]? = some name →
    g'.sharedNetworks (g.numSharedNetworks + 1 + i) = ⟨name, 0, 0, 0, 0, 0⟩
  networksBefore : ∀ i ≤ g.numSharedNetworks, g'.sharedNetworks i = g.sharedNetworks i

theorem adds_of_fills {inet : Inet} {v : DhcpVersion} {g g' : Globals} {added : List (List Char × List Char × Nat)}
    {names : List (List Char)}
    (fills : Fills g g' (added.map (fun r => entry v (address inet v r.1) (address inet v r.2.1) r.2.2))
      (names.map (fun name => ⟨name, 0, 0, 0, 0, 0⟩))) : Adds inet v g g' added names := by
  refine ⟨?_, ?_, fills.ranges.before, ?_, ?_, fun i old => fills.networks.before i (Nat.lt_succ_of_le old)⟩
  · rw [fills.numRanges, List.length_map]
  · intro i r place
    refine fills.ranges.added i _ ?_
    rw [List.getElem?_map, place]
    rfl
  · rw [fills.numNetworks, List.length_map]
  · intro i name place
    refine fills.networks.added i _ ?_
    rw [List.getElem?_map, place]
    rfl

/-- Where subnets are no networks, a tree declares its ranges and its shared networks. -/
theorem declared_off {env : Env} {v : DhcpVersion} (off : env.allAsShared = false) {T : Config} : ∀ {owner n : Nat},
    T.Proper env (decide (owner ≠ 0)) → declared env v T owner n =
      ⟨(ranges T owner n).map (fun r => entry v (address env.inet v r.1) (address env.inet v r.2.1) r.2.2),
        (networks T).map (fun name => ⟨name, 0, 0, 0, 0, 0⟩), owner⟩ := by
  induction T with
  | done => exact fun _ => rfl
  | other keyword args rest ih => exact ih
  | included keyword file rest ih => exact ih
  | range keyword flag first second rest ih =>
    intro owner n proper
    rw [declared, ih proper]
    rfl
  | network keyword name body rest ihBody ihRest =>
    intro owner n proper
    obtain ⟨outside, properBody, properRest⟩ := proper
    obtain rfl : owner = 0 := by simpa using outside
    rw [declared, ihBody (by rwa [decide_eq_true (Nat.succ_ne_zero n)]), ihRest properRest]
    simp only [Declared.before, ranges, networks, List.nil_append, List.map_append, List.map_cons, List.cons_append,
      List.length_cons, List.length_map, Nat.add_right_comm n 1, Nat.add_assoc n]
  | subnet keyword net mask body rest ihBody ihRest =>
    intro owner n proper
    obtain ⟨properBody, properRest⟩ := proper
    rw [off, Bool.or_false] at properBody
    rw [declared, if_neg (fun shared => by rw [off] at shared; exact Bool.false_ne_true shared.1), ihBody properBody]
    simp only [Declared.before]
    rw [ihRest properRest]
    simp only [ranges, networks, List.map_append, List.length_map]
  | block keyword args body rest ihBody ihRest =>
    intro owner n proper
    rw [declared, ihBody proper.1]
    simp only [Declared.before]
    rw [ihRest proper.2]
    simp only [ranges, networks, List.map_append, List.length_map]

/-- `parse_config` fills the tables with what a canonical file declares. -/
theorem parseConfig_fills {env : Env} {v : DhcpVersion} {file : List Char} {depth : Nat} {g : Globals} (s : Source env v)
    (text : env.files file = some s.text) (none : s.tree.includes = [])
    (contiguous : env.allAsShared = true → ∀ m ∈ masks s.tree, Contiguous (address env.inet v m).v4)
    (agrees : Agrees v g.ipVersion)
    (few : g.numSharedNetworks + (declared env v s.tree 0 g.numSharedNetworks).networks.length ≤ 8190) :
    ∃ g', parseConfig env (depth + 1) file 0 g = .ok g' ∧
      Fills g g' (declared env v s.tree 0 g.numSharedNetworks).ranges (declared env v s.tree 0 g.numSharedNetworks).networks := by
  obtain ⟨g', made, fills⟩ := @flow_fills env v (parseConfig env depth) s.tree 0 g.numSharedNetworks
    { g with opened := g.opened ++ [file] } none contiguous few rfl
  refine ⟨g', ?_, fills.numRanges, fills.ranges, fills.numNetworks, fills.networks⟩
  have read := @readFile_flow env v (parseConfig env depth) s 0 { g with opened := g.opened ++ [file] } (Or.inl none)
    agrees (fun inside => absurd rfl inside)
  rw [made] at read
  rw [parseConfig, text]
  exact read

/-- A canonical file with a range decides the version. -/
theorem parseConfig_decides {env : Env} {v : DhcpVersion} {file : List Char} {depth : Nat} {g g' : Globals} (s : Source env v)
    (text : env.files file = some s.text) (none : s.tree.includes = []) (agrees : Agrees v g.ipVersion)
    (made : parseConfig env (depth + 1) file 0 g = .ok g') : Decides v g g' := by
  have read := @readFile_flow env v (parseConfig env depth) s 0 { g with opened := g.opened ++ [file] } (Or.inl none)
    agrees (fun inside => absurd rfl inside)
  rw [parseConfig, text] at made
  obtain ⟨left, ran, rfl⟩ := map_ok (read.symm.trans made)
  have decided := flow_decides none ran
  exact decided

/-- `parse_config` records exactly the ranges and networks of a canonical file. -/
theorem parseConfig_records {env : Env} {v : DhcpVersion} {file : List Char} {depth : Nat} {g : Globals} (s : Source env v)
    (text : env.files file = some s.text) (off : env.allAsShared = false) (none : s.tree.includes = [])
    (proper : s.tree.Proper env false) (agrees : Agrees v g.ipVersion)
    (few : g.numSharedNetworks + (networks s.tree).length ≤ 8190) :
    ∃ g', parseConfig env (depth + 1) file 0 g = .ok g' ∧
      Adds env.inet v g g' (ranges s.tree 0 g.numSharedNetworks) (networks s.tree) := by
  have same := @declared_off env v off s.tree 0 g.numSharedNetworks proper
  obtain ⟨g', made, fills⟩ := @parseConfig_fills env v file depth g s text none
    (fun shared => absurd (off.symm.trans shared) Bool.false_ne_true) agrees (by rwa [same, List.length_map])
  rw [same] at fills
  exact ⟨g', made, adds_of_fills fills⟩

/-- A network with a range in a pool, a statement without meaning, and a range outside. -/
def sampleTree : Config :=
  .network "shared-network".toList (.word "office".toList)
    (.block "pool".toList []
      (.range "range".toList (some "dynamic-bootp".toList) "10.0.0.9".toList (some "10.0.0.5".toList) .done) .done)
    (.other "option".toList [.word "domain-name".toList, .quoted "a; b \x7b#".toList]
      (.range "range".toList none "10.0.0.5".toList none .done))

def sampleFile : Env := sampleEnv (fun _ => some (textOf (render sampleTree.tokens)))

theorem sampleTree_valid : sampleTree.Valid sampleFile .IPv4 := by
  have keyword : ∀ kind (w : List Char), isInterestingConfigClause false w = kind → w.length < MAXLEN →
      Keyword sampleFile kind w := fun kind w same short => ⟨same, short⟩
  have number : ∀ w : List Char, (sampleInet.inetAton w).1 = true → w.length < MAXLEN →
      IsAddress sampleFile.inet .IPv4 w ∧ w.length < MAXLEN := fun w valid short => ⟨valid, short⟩
  refine ⟨keyword _ _ (by decide +kernel) (by decide +kernel), (by decide +kernel : "office".toList.length < MAXLEN),
    ⟨keyword _ _ (by decide +kernel) (by decide +kernel), ⟨keyword _ _ (by decide +kernel) (by decide +kernel), ?_,
      number _ (by decide +kernel) (by decide +kernel), ?_, trivial⟩, trivial⟩,
    keyword _ _ (by decide +kernel) (by decide +kernel), keyword _ _ (by decide +kernel) (by decide +kernel), ?_,
    number _ (by decide +kernel) (by decide +kernel), ?_, trivial⟩
  · rintro w ⟨⟩
    exact ⟨⟨by decide +kernel, rfl⟩, by decide +kernel⟩
  · rintro w ⟨⟩
    exact number _ (by decide +kernel) (by decide +kernel)
  · rintro w ⟨⟩
  · rintro w ⟨⟩

theorem parseConfig_records_sample : ∃ g', parseConfig sampleFile 1 "dhcpd.conf".toList 0 (emptyGlobals .IPvUNKNOWN) = .ok g' ∧
    Adds sampleInet .IPv4 (emptyGlobals .IPvUNKNOWN) g'
      [("10.0.0.9".toList, "10.0.0.5".toList, 1), ("10.0.0.5".toList, "10.0.0.5".toList, 0)] ["office".toList] :=
  parseConfig_records (.ofTree sampleTree (by decide +kernel) sampleTree_valid) rfl rfl rfl ⟨rfl, ⟨trivial, trivial⟩, trivial⟩
    (Or.inl rfl) (by decide +kernel)

end DhcpdPools.ConfigRanges
