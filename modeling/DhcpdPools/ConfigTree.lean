import DhcpdPools.ConfigTokens

/-!
The configuration as a tree of statements. `effect` says what a tree adds to the
tables: no braces are counted, a body just belongs to its network. `flow` says so
where a network may stand inside another one, too (`flow_effect`).
-/
namespace DhcpdPools.ConfigTree
open Machine ConfigReader ConfigTokens

/-! ## Trees -/

inductive Arg where
  | word (w : List Char)
  | quoted (q : List Char)
deriving DecidableEq

def Arg.tok : Arg → Tok
  | .word w => .word w
  | .quoted q => .quoted q

/-- The word that the reader makes of an argument. -/
def Arg.value : Arg → List Char
  | .word w => w
  | .quoted q => quotedWord q

/-- A list of statements. A statement begins with its keyword; `block` and `other` are
    those without a meaning for the tables, with braces and without. -/
inductive Config where
  | done
  | other (keyword : List Char) (args : List Arg) (rest : Config)
  | range (keyword : List Char) (flag : Option (List Char)) (first : List Char) (second : Option (List Char))
      (rest : Config)
  | included (keyword : List Char) (file : Arg) (rest : Config)
  | network (keyword : List Char) (name : Arg) (body rest : Config)
  | subnet (keyword net : List Char) (mask : Option (List Char × List Char)) (body rest : Config)
  | block (keyword : List Char) (args : List Arg) (body rest : Config)
deriving DecidableEq

def words (ws : Option (List Char)) : List Tok := ws.toList.map Tok.word

def maskTokens (mask : Option (List Char × List Char)) : List Tok :=
  mask.toList.flatMap (fun m => [.word m.1, .word m.2])

def Config.tokens : Config → List Tok
  | .done => []
  | .other keyword args rest => .word keyword :: args.map Arg.tok ++ .semi :: rest.tokens
  | .range keyword flag first second rest =>
    .word keyword :: words flag ++ .word first :: words second ++ .semi :: rest.tokens
  | .included keyword file rest => .word keyword :: file.tok :: .semi :: rest.tokens
  | .network keyword name body rest =>
    .word keyword :: name.tok :: .lbrace :: body.tokens ++ .rbrace :: rest.tokens
  | .subnet keyword net mask body rest =>
    .word keyword :: .word net :: maskTokens mask ++ .lbrace :: body.tokens ++ .rbrace :: rest.tokens
  | .block keyword args body rest =>
    .word keyword :: args.map Arg.tok ++ .lbrace :: body.tokens ++ .rbrace :: rest.tokens

/-- How deep the blocks are nested. -/
def Config.depth : Config → Nat
  | .done => 0
  | .other _ _ rest | .range _ _ _ _ rest | .included _ _ rest => rest.depth
  | .network _ _ body rest | .subnet _ _ _ body rest | .block _ _ body rest => max (body.depth + 1) rest.depth

/-- The file names of the include statements. -/
def Config.includes : Config → List Arg
  | .done => []
  | .other _ _ rest | .range _ _ _ _ rest => rest.includes
  | .included _ file rest => file :: rest.includes
  | .network _ _ body rest | .subnet _ _ _ body rest | .block _ _ body rest => body.includes ++ rest.includes

/-! ## What a tree means -/

/-- A string that is an address of the family. -/
def IsAddress (inet : Inet) (v : DhcpVersion) (w : List Char) : Prop :=
  match v with
  | .IPvUNKNOWN => False
  | .IPv4 => (inet.inetAton w).1 = true
  | .IPv6 => (inet.inetPton w).1 = true

/-- The address that it is. -/
def address (inet : Inet) (v : DhcpVersion) (w : List Char) : Ipaddr :=
  match v with
  | .IPvUNKNOWN => noAddr
  | .IPv4 => .ofV4 (inet.inetAton w).2
  | .IPv6 => ⟨(inet.inetPton w).2⟩

/-- A string that is no address of any family. -/
def NoAddress (inet : Inet) (w : List Char) : Prop := (inet.inetAton w).1 = false ∧ (inet.inetPton w).1 = false

/-- A range with the addresses in order, which belongs to a network. -/
def entry (v : DhcpVersion) (a b : Ipaddr) (owner : Nat) : Range :=
  if key v a ≤ key v b then ⟨some owner, a, b, 0, 0, 0⟩ else ⟨some owner, b, a, 0, 0, 0⟩

/-- A range is added behind the last one. -/
def addRange (v : DhcpVersion) (a b : Ipaddr) (owner : Nat) (g : Globals) : Globals :=
  ({ g with ipVersion := v }.setRange g.numRanges (entry v a b owner)).newrange g.numRanges owner

/-- A network is added behind the last one. -/
def addNetwork (name : List Char) (netmask : Int) (g : Globals) : Except Stop Globals :=
  if SHARED_NETWORKS < g.numSharedNetworks + 1 + 2 then .error .increaseSharedNetworks
  else .ok ({ g with numSharedNetworks := g.numSharedNetworks + 1 }.setNetwork (g.numSharedNetworks + 1)
    ⟨name, 0, 0, 0, 0, netmask⟩)

/-- The last network gets its netmask. -/
def addNetmask (v : DhcpVersion) (mask : Ipaddr) (g : Globals) : Except Stop Globals :=
  (recordNetmask ⟨{ g with ipVersion := v }, g.numSharedNetworks, 0, 0⟩ mask).map (fun r => r.1.g)

/-- A subnet is added as a network. -/
def addSubnet (inet : Inet) (v : DhcpVersion) (net : List Char) (mask : Option (List Char × List Char)) (g : Globals) :
    Except Stop Globals :=
  match mask with
  | none => addNetwork net (-1) g
  | some m => do
    let g ← addNetwork net (-1) g
    addNetmask v (address inet v m.2) g

section
variable (env : Env) (v : DhcpVersion) (incl : List Char → Nat → Globals → Except Stop Globals)

/-- What a tree does to the tables, when its ranges belong to the network `owner`. -/
def Config.effect : Config → Nat → Globals → Except Stop Globals
  | .done, _, g => .ok g
  | .other _ _ rest, owner, g => rest.effect owner g
  | .range _ _ first second rest, owner, g =>
    rest.effect owner
      (addRange v (address env.inet v first) (address env.inet v (second.getD first)) owner g)
  | .included _ file rest, owner, g => do
    let g ← incl file.value owner g
    rest.effect owner g
  | .network _ name body rest, owner, g => do
    let g ← addNetwork name.value 0 g
    let g ← body.effect g.numSharedNetworks g
    rest.effect owner g
  | .subnet _ net mask body rest, owner, g =>
    if env.allAsShared = true ∧ owner = 0 then do
      let g ← addSubnet env.inet v net mask g
      let g ← body.effect g.numSharedNetworks g
      rest.effect owner g
    else do
      let g ← body.effect owner g
      rest.effect owner g
  | .block _ _ body rest, owner, g => do
    let g ← body.effect owner g
    rest.effect owner g

/-- The same for networks nested in any way, with the network that is the current one
    behind the tree: where a network ends, none is. -/
def Config.flow : Config → Nat → Globals → Except Stop (Nat × Globals)
  | .done, owner, g => .ok (owner, g)
  | .other _ _ rest, owner, g => rest.flow owner g
  | .range _ _ first second rest, owner, g =>
    rest.flow owner
      (addRange v (address env.inet v first) (address env.inet v (second.getD first)) owner g)
  | .included _ file rest, owner, g => do
    let g ← incl file.value owner g
    rest.flow owner g
  | .network _ name body rest, _, g => do
    let g ← addNetwork name.value 0 g
    let left ← body.flow g.numSharedNetworks g
    rest.flow 0 left.2
  | .subnet _ net mask body rest, owner, g =>
    if env.allAsShared = true ∧ owner = 0 then do
      let g ← addSubnet env.inet v net mask g
      let left ← body.flow g.numSharedNetworks g
      rest.flow 0 left.2
    else do
      let left ← body.flow owner g
      rest.flow left.1 left.2
  | .block _ _ body rest, owner, g => do
    let left ← body.flow owner g
    rest.flow left.1 left.2

end

/-! ## Valid trees -/

section
variable (env : Env) (v : DhcpVersion)

/-- A word that begins a statement of some kind. -/
def Keyword (kind : IscConfParser) (w : List Char) : Prop :=
  isInterestingConfigClause env.allAsShared w = kind ∧ w.length < MAXLEN

/-- An argument that gives a word. -/
def Arg.Filled : Arg → Prop
  | .word w => w.length < MAXLEN
  | .quoted q => quotedWord q ≠ [] ∧ '\x00' ∉ q ∧ (quotedWord q).length < MAXLEN

/-- Keywords are of their kind, ranges have addresses of the family `v`, and what goes into
    the word buffer fits. -/
def Config.Valid : Config → Prop
  | .done => True
  | .other keyword _ rest => Keyword env .ITS_NOTHING_INTERESTING keyword ∧ rest.Valid
  | .range keyword flag first second rest =>
    Keyword env .ITS_A_RANGE_FIRST_IP keyword ∧ (∀ w ∈ flag, NoAddress env.inet w ∧ w.length < MAXLEN) ∧
      (IsAddress env.inet v first ∧ first.length < MAXLEN) ∧
      (∀ w ∈ second, IsAddress env.inet v w ∧ w.length < MAXLEN) ∧ rest.Valid
  | .included keyword file rest => Keyword env .ITS_AN_INCLUCE keyword ∧ file.Filled ∧ rest.Valid
  | .network keyword name body rest =>
    Keyword env .ITS_A_SHAREDNET keyword ∧ name.Filled ∧ body.Valid ∧ rest.Valid
  | .subnet keyword net mask body rest =>
    Keyword env (if env.allAsShared then .ITS_A_SUBNET else .ITS_NOTHING_INTERESTING) keyword ∧
      (env.allAsShared = true → net.length < MAXLEN ∧ ∀ m ∈ mask, Keyword env .ITS_A_NETMASK m.1 ∧
        IsAddress env.inet v m.2 ∧ m.2.length < MAXLEN) ∧ body.Valid ∧ rest.Valid
  | .block keyword _ body rest => Keyword env .ITS_NOTHING_INTERESTING keyword ∧ body.Valid ∧ rest.Valid

/-- No network is declared inside another one; a subnet is one when all are shared. -/
def Config.Proper : Bool → Config → Prop
  | _, .done => True
  | inside, .other _ _ rest | inside, .range _ _ _ _ rest | inside, .included _ _ rest => rest.Proper inside
  | inside, .network _ _ body rest => inside = false ∧ body.Proper true ∧ rest.Proper inside
  | inside, .subnet _ _ _ body rest => body.Proper (inside || env.allAsShared) ∧ rest.Proper inside
  | inside, .block _ _ body rest => body.Proper inside ∧ rest.Proper inside

/-- What holds of every include statement, inside a network or outside. -/
def Config.Includes (P : Bool → Arg → Prop) : Bool → Config → Prop
  | _, .done => True
  | inside, .other _ _ rest | inside, .range _ _ _ _ rest => rest.Includes P inside
  | inside, .included _ file rest => P inside file ∧ rest.Includes P inside
  | inside, .network _ _ body rest => body.Includes P true ∧ rest.Includes P inside
  | inside, .subnet _ _ _ body rest => body.Includes P (inside || env.allAsShared) ∧ rest.Includes P inside
  | inside, .block _ _ body rest => body.Includes P inside ∧ rest.Includes P inside

end

theorem Config.Includes.mono {env : Env} {P R : Bool → Arg → Prop} {T : Config} : ∀ {inside : Bool},
    T.Includes env P inside → (∀ inside, ∀ a ∈ T.includes, P inside a → R inside a) → T.Includes env R inside := by
  induction T with
  | done => exact fun _ _ => trivial
  | other keyword args rest ih => exact fun given weaker => ih given weaker
  | range keyword flag first second rest ih => exact fun given weaker => ih given weaker
  | included keyword file rest ih =>
    exact fun given weaker => ⟨weaker _ file List.mem_cons_self given.1,
      ih given.2 (fun inside a member => weaker inside a (List.mem_cons_of_mem _ member))⟩
  | network keyword name body rest ihBody ihRest =>
    exact fun given weaker => ⟨ihBody given.1 (fun inside a member => weaker inside a (List.mem_append_left _ member)),
      ihRest given.2 (fun inside a member => weaker inside a (List.mem_append_right _ member))⟩
  | subnet keyword net mask body rest ihBody ihRest =>
    exact fun given weaker => ⟨ihBody given.1 (fun inside a member => weaker inside a (List.mem_append_left _ member)),
      ihRest given.2 (fun inside a member => weaker inside a (List.mem_append_right _ member))⟩
  | block keyword args body rest ihBody ihRest =>
    exact fun given weaker => ⟨ihBody given.1 (fun inside a member => weaker inside a (List.mem_append_left _ member)),
      ihRest given.2 (fun inside a member => weaker inside a (List.mem_append_right _ member))⟩

theorem Config.Includes.and {env : Env} {P R : Bool → Arg → Prop} {T : Config} : ∀ {inside : Bool},
    T.Includes env P inside → T.Includes env R inside → T.Includes env (fun inside a => P inside a ∧ R inside a) inside := by
  induction T with
  | done => exact fun _ _ => trivial
  | other keyword args rest ih => exact ih
  | range keyword flag first second rest ih => exact ih
  | included keyword file rest ih => exact fun one two => ⟨⟨one.1, two.1⟩, ih one.2 two.2⟩
  | network keyword name body rest ihBody ihRest => exact fun one two => ⟨ihBody one.1 two.1, ihRest one.2 two.2⟩
  | subnet keyword net mask body rest ihBody ihRest => exact fun one two => ⟨ihBody one.1 two.1, ihRest one.2 two.2⟩
  | block keyword args body rest ihBody ihRest => exact fun one two => ⟨ihBody one.1 two.1, ihRest one.2 two.2⟩

theorem includes_true {env : Env} {T : Config} : ∀ {inside : Bool}, T.Includes env (fun _ _ => True) inside := by
  induction T with
  | done => exact trivial
  | other keyword args rest ih => exact ih
  | range keyword flag first second rest ih => exact ih
  | included keyword file rest ih => exact ⟨trivial, ih⟩
  | network keyword name body rest ihBody ihRest => exact ⟨ihBody, ihRest⟩
  | subnet keyword net mask body rest ihBody ihRest => exact ⟨ihBody, ihRest⟩
  | block keyword args body rest ihBody ihRest => exact ⟨ihBody, ihRest⟩

theorem includes_none {env : Env} {P : Bool → Arg → Prop} {T : Config} {inside : Bool} (none : T.includes = []) :
    T.Includes env P inside :=
  includes_true.mono (fun _ a member _ => by rw [none] at member; cases member)

/-! ## Addresses and ranges -/

section
variable {inet : Inet} {v version : DhcpVersion} {w : List Char}

/-- The version is the family `v`, or still open. -/
def Agrees (v version : DhcpVersion) : Prop := version = .IPvUNKNOWN ∨ version = v

theorem parse_address (valid : IsAddress inet v w) (agrees : Agrees v version) (dst : Ipaddr) :
    parseIpaddr inet version w dst = (v, true, address inet v w) := by
  cases v with
  | IPvUNKNOWN => exact valid.elim
  | IPv4 =>
    have parses : (inet.inetAton w).1 = true := valid
    rcases agrees with rfl | rfl <;> simp [parseIpaddr, parseIpaddrInit, parseIpaddrV4, address, parses]
  | IPv6 =>
    have parses : (inet.inetPton w).1 = true := valid
    have other := inet.families w parses
    rcases agrees with rfl | rfl <;> simp [parseIpaddr, parseIpaddrInit, parseIpaddrV6, address, parses, other]

theorem parse_flag (no : NoAddress inet w) (dst : Ipaddr) : (parseIpaddr inet version w dst).2.1 = false := by
  obtain ⟨no4, no6⟩ := no
  cases version <;> simp [parseIpaddr, parseIpaddrInit, parseIpaddrV4, parseIpaddrV6, no4, no6]

theorem copy_address (valid : IsAddress inet v w) (dst : Ipaddr) :
    copyIpaddr v dst (address inet v w) = address inet v w := by
  cases v with
  | IPvUNKNOWN => exact valid.elim
  | IPv4 => simp [copyIpaddr, address]
  | IPv6 => rfl

end

/-- Of the entry only the addresses are kept. -/
theorem newrange_setRange (g : Globals) {i owner : Nat} {r r' : Range} (first : r.firstIp = r'.firstIp)
    (last : r.lastIp = r'.lastIp) : (g.setRange i r).newrange i owner = (g.setRange i r').newrange i owner := by
  simp [Globals.newrange, Globals.setRange, first, last]

theorem addRange_version (v : DhcpVersion) (a b : Ipaddr) (owner : Nat) (g : Globals) :
    (addRange v a b owner g).ipVersion = v := by
  unfold addRange Globals.newrange
  simp only
  split_ifs <;> rfl

theorem addRange_fields {v : DhcpVersion} (a b : Ipaddr) (owner : Nat) (g : Globals) :
    (addRange v a b owner g).numRanges = g.numRanges + 1 ∧
      (addRange v a b owner g).ranges = Function.update g.ranges g.numRanges (entry v a b owner) ∧
      (addRange v a b owner g).numSharedNetworks = g.numSharedNetworks ∧
      (addRange v a b owner g).sharedNetworks = g.sharedNetworks := by
  have same : ∀ r : Range, (r = ⟨some owner, r.firstIp, r.lastIp, 0, 0, 0⟩) → Function.update
      (Function.update g.ranges g.numRanges r) g.numRanges
      { (Function.update g.ranges g.numRanges r) g.numRanges with
        count := 0, touched := 0, backups := 0, sharedNet := some owner } = Function.update g.ranges g.numRanges r := by
    intro r form
    rw [Function.update_self, Function.update_idem]
    exact congrArg (Function.update g.ranges g.numRanges) form.symm
  have form : entry v a b owner = ⟨some owner, (entry v a b owner).firstIp, (entry v a b owner).lastIp, 0, 0, 0⟩ := by
    unfold entry
    split_ifs <;> rfl
  unfold addRange Globals.newrange Globals.setRange
  simp only
  split_ifs
  · exact ⟨rfl, same _ form, rfl, rfl⟩
  · exact ⟨rfl, same _ form, rfl, rfl⟩

/-- A range with one address. -/
theorem single_range {v : DhcpVersion} {a : Ipaddr} (copied : ∀ dst, copyIpaddr v dst a = a) (g : Globals) (owner : Nat) :
    ((g.firstAddress v a).lastIsFirst g.numRanges).newrange g.numRanges owner = addRange v a a owner g := by
  have same : (g.firstAddress v a).lastIsFirst g.numRanges = { g with ipVersion := v }.setRange g.numRanges
      { g.ranges g.numRanges with firstIp := a, lastIp := a } := by
    simp [Globals.firstAddress, Globals.copyFirst, Globals.lastIsFirst, Globals.setRange, copied]
  rw [same, addRange]
  exact newrange_setRange _ (by simp [entry]) (by simp [entry])

/-- A range with two addresses. -/
theorem double_range {v : DhcpVersion} {a b : Ipaddr} (copiedA : ∀ dst, copyIpaddr v dst a = a)
    (copiedB : ∀ dst, copyIpaddr v dst b = b) (g : Globals) (owner : Nat) :
    ((g.firstAddress v a).secondAddress v false b).newrange g.numRanges owner = addRange v a b owner g := by
  have copied : (g.firstAddress v a).copyLast g.numRanges b = { g with ipVersion := v }.setRange g.numRanges
      { g.ranges g.numRanges with firstIp := a, lastIp := b } := by
    simp [Globals.firstAddress, Globals.copyFirst, Globals.copyLast, Globals.setRange, copiedA, copiedB]
  have same : (g.firstAddress v a).secondAddress v false b =
      ((g.firstAddress v a).copyLast g.numRanges b).reorderLastFirst g.numRanges := rfl
  rw [same, copied, addRange, Globals.reorderLastFirst, entry]
  simp only [Globals.setRange, Function.update_self, ipcomp_pos]
  by_cases order : key v a ≤ key v b
  · rw [if_neg (Nat.not_lt.mpr order), if_pos order]
    exact newrange_setRange { g with ipVersion := v } rfl rfl
  · rw [if_pos (Nat.lt_of_not_le order), if_neg order, Function.update_idem]
    exact newrange_setRange { g with ipVersion := v } rfl rfl

/-! ## New networks -/

theorem addNetwork_ok {name : List Char} {netmask : Int} {g g' : Globals} (added : addNetwork name netmask g = .ok g') :
    g' = { g with numSharedNetworks := g.numSharedNetworks + 1 }.setNetwork (g.numSharedNetworks + 1)
      ⟨name, 0, 0, 0, 0, netmask⟩ := by
  unfold addNetwork at added
  split_ifs at added
  exact (Except.ok.inj added).symm

theorem addNetwork_fields {name : List Char} {netmask : Int} {g g' : Globals} (added : addNetwork name netmask g = .ok g') :
    g'.ipVersion = g.ipVersion ∧ g'.numSharedNetworks ≠ 0 ∧ (g'.sharedNetworks g'.numSharedNetworks).netmask = netmask := by
  obtain rfl := addNetwork_ok added
  exact ⟨rfl, Nat.succ_ne_zero _, by simp [Globals.setNetwork]⟩

theorem addNetmask_eq {v : DhcpVersion} {mask : Ipaddr} {g : Globals} {shifted : BitVec 32} {len : Int}
    (loop : netmaskLoop 33 mask.v4 32 = .ok (shifted, len)) : addNetmask v mask g =
      .ok ({ g with ipVersion := v }.setNetwork g.numSharedNetworks { g.sharedNetworks g.numSharedNetworks with
        name := ((g.sharedNetworks g.numSharedNetworks).name ++ '/' :: (toString len).toList).take (MAXLEN - 2)
        netmask := len }) := by
  unfold addNetmask recordNetmask
  rw [loop]
  rfl

theorem addNetmask_ok {v : DhcpVersion} {mask : Ipaddr} {g g' : Globals} (added : addNetmask v mask g = .ok g') :
    g'.ipVersion = v ∧ g'.numSharedNetworks = g.numSharedNetworks := by
  obtain ⟨out, recorded, rfl⟩ := map_ok added
  obtain ⟨shifted, -, rest⟩ := bind_ok recorded
  obtain rfl := Except.ok.inj rest
  exact ⟨rfl, rfl⟩

theorem addSubnet_positive {inet : Inet} {v : DhcpVersion} {net : List Char} {mask : Option (List Char × List Char)}
    {g g' : Globals} (added : addSubnet inet v net mask g = .ok g') : g'.numSharedNetworks ≠ 0 := by
  cases mask with
  | none => exact (addNetwork_fields added).2.1
  | some m =>
    obtain ⟨g1, named, masked⟩ := bind_ok added
    rw [(addNetmask_ok masked).2]
    exact (addNetwork_fields named).2.1

/-! ## Networks that are not nested -/

section
variable {env : Env} {v : DhcpVersion} {incl : List Char → Nat → Globals → Except Stop Globals}

/-- A subnet that is no network is a plain block. -/
theorem within_plain {owner : Nat} (plain : ¬(env.allAsShared = true ∧ owner = 0)) :
    (decide (owner ≠ 0) || env.allAsShared) = decide (owner ≠ 0) := by
  by_cases shared : env.allAsShared = true
  · have within : owner ≠ 0 := fun outside => plain ⟨shared, outside⟩
    rw [decide_eq_true within, Bool.true_or]
  · rw [Bool.eq_false_of_not_eq_true shared, Bool.or_false]

/-- A tree without nested networks leaves the current network as it was. -/
theorem flow_effect {T : Config} : ∀ {owner : Nat} {g : Globals}, T.Proper env (decide (owner ≠ 0)) →
    T.flow env v incl owner g = (T.effect env v incl owner g).map (fun g => (owner, g)) := by
  -- A body whose network may differ from the one around it, and what follows it.
  have two : ∀ {body rest : Config} {owner inner : Nat} {g : Globals},
      body.flow env v incl inner g = (body.effect env v incl inner g).map (fun g => (inner, g)) →
      (∀ g, rest.flow env v incl owner g = (rest.effect env v incl owner g).map (fun g => (owner, g))) →
      (body.flow env v incl inner g >>= fun left => rest.flow env v incl owner left.2) =
        (body.effect env v incl inner g >>= rest.effect env v incl owner).map (fun g => (owner, g)) := by
    intro body rest owner inner g same later
    rw [same]
    cases body.effect env v incl inner g with
    | error e => rfl
    | ok g' => exact later g'
  have plain : ∀ {body rest : Config} {owner : Nat} {g : Globals},
      body.flow env v incl owner g = (body.effect env v incl owner g).map (fun g => (owner, g)) →
      (∀ g, rest.flow env v incl owner g = (rest.effect env v incl owner g).map (fun g => (owner, g))) →
      (body.flow env v incl owner g >>= fun left => rest.flow env v incl left.1 left.2) =
        (body.effect env v incl owner g >>= rest.effect env v incl owner).map (fun g => (owner, g)) := by
    intro body rest owner g same later
    rw [← two same later, same]
    cases body.effect env v incl owner g <;> rfl
  induction T with
  | done => exact fun _ => rfl
  | other keyword args rest ih => exact ih
  | range keyword flag first second rest ih => exact ih
  | included keyword file rest ih =>
    intro owner g proper
    rw [Config.flow, Config.effect]
    cases incl file.value owner g with
    | error e => rfl
    | ok g' => exact ih proper
  | network keyword name body rest ihBody ihRest =>
    intro owner g proper
    obtain ⟨outside, properBody, properRest⟩ := proper
    obtain rfl : owner = 0 := by simpa using outside
    rw [Config.flow, Config.effect]
    cases added : addNetwork name.value 0 g with
    | error e => rfl
    | ok g' =>
      exact two (ihBody (by rwa [decide_eq_true (addNetwork_fields added).2.1])) (fun _ => ihRest properRest)
  | subnet keyword net mask body rest ihBody ihRest =>
    intro owner g proper
    obtain ⟨properBody, properRest⟩ := proper
    rw [Config.flow, Config.effect]
    by_cases network : env.allAsShared = true ∧ owner = 0
    · obtain ⟨shared, rfl⟩ := network
      rw [if_pos ⟨shared, rfl⟩, if_pos ⟨shared, rfl⟩]
      rw [shared, Bool.or_true] at properBody
      cases added : addSubnet env.inet v net mask g with
      | error e => rfl
      | ok g' => exact two (ihBody (by rwa [decide_eq_true (addSubnet_positive added)])) (fun _ => ihRest properRest)
    · rw [if_neg network, if_neg network]
      rw [within_plain network] at properBody
      exact plain (ihBody properBody) (fun _ => ihRest properRest)
  | block keyword args body rest ihBody ihRest =>
    intro owner g proper
    exact plain (ihBody proper.1) (fun _ => ihRest proper.2)

/-- Including a file keeps to the family. -/
def Keeps (incl : List Char → Nat → Globals → Except Stop Globals) (v : DhcpVersion) (inside : Bool) (file : Arg) : Prop :=
  ∀ owner g g', decide (owner ≠ 0) = inside → Agrees v g.ipVersion → incl file.value owner g = .ok g' →
    Agrees v g'.ipVersion

end

end DhcpdPools.ConfigTree
