import DhcpdPools.LeaseReport

/-!
What a report does not depend on: the memory that nothing has set, and the order in which
the sorting function of the library leaves what compares equal. With a canonical
configuration, a lease file of whole declarations and ranges that begin at different
addresses, every run writes the same text and returns the same value (`main_memory`).
-/
namespace DhcpdPools.Memory
open CommandLine Counting Inventory LeaseFile LeaseLog LeaseReport LeaseVersion Machine Occupancy Output OutputTables Program
open ConfigReader (Globals MAXLEN)

/-! ## What is printed of a network -/

/-- No printer reads the netmask of a network. -/
def unmasked (n : SharedNetwork) : SharedNetwork := { n with netmask := 0 }

/-- Another table of networks that shows the same. -/
structure Shows (p : Report) (nets : Nat → SharedNetwork) : Prop where
  networks : ∀ k ≤ p.numSharedNetworks, unmasked (nets k) = unmasked (p.sharedNetworks k)
  owned : ∀ r ∈ p.ranges, ∃ k ≤ p.numSharedNetworks, r.sharedNet = some k

section
variable {p : Report} {nets : Nat → SharedNetwork}

theorem Shows.entry {β : Type} (same : Shows p nets) {h : SharedNetwork → β} (blind : ∀ n, h (unmasked n) = h n) {k : Nat}
    (inside : k ≤ p.numSharedNetworks) : h (nets k) = h (p.sharedNetworks k) := by
  rw [← blind, same.networks k inside, blind]

theorem Shows.list {β : Type} (same : Shows p nets) {h : SharedNetwork → β} (blind : ∀ n, h (unmasked n) = h n) :
    (Report.networks { p with sharedNetworks := nets }).map h = p.networks.map h := by
  simp only [Report.networks, List.map_map]
  refine List.map_congr_left fun i inside => ?_
  exact same.entry blind (Nat.succ_le_of_lt (List.mem_range.mp inside))

theorem Shows.texts (same : Shows p nets) {h : SharedNetwork → List Char} (blind : ∀ n, h (unmasked n) = h n) :
    (Report.networks { p with sharedNetworks := nets }).flatMap h = p.networks.flatMap h :=
  congrArg List.flatten (same.list blind)

theorem Shows.name {β : Type} (same : Shows p nets) (none : β) (h : List Char → β) {r : Range} (member : r ∈ p.ranges) :
    (r.sharedNet.elim none fun i => h (nets i).name) = r.sharedNet.elim none fun i => h (p.sharedNetworks i).name := by
  obtain ⟨k, inside, owner⟩ := same.owned r member
  rw [owner, Option.elim_some, Option.elim_some]
  exact same.entry (h := fun n => h n.name) (fun _ => rfl) inside

/-! ## What is printed of the tables -/

variable (same : Shows p nets) (ntop : Ntop)
include same

theorem outputXml_shows : outputXml ntop { p with sharedNetworks := nets } = outputXml ntop p := by
  have ranges : p.ranges.flatMap (xmlRange ntop { p with sharedNetworks := nets }) = p.ranges.flatMap (xmlRange ntop p) := by
    refine List.flatMap_congr fun r member => ?_
    have location : Report.location { p with sharedNetworks := nets } r = p.location r := same.name [] id member
    have addresses : Report.addresses ntop { p with sharedNetworks := nets } r = p.addresses ntop r := rfl
    have size : Report.rangeSize { p with sharedNetworks := nets } r = p.rangeSize r := rfl
    unfold xmlRange
    rw [location, addresses, size]
  have leases : xmlLease ntop { p with sharedNetworks := nets } = xmlLease ntop p := rfl
  have networks := same.texts (h := xmlNetwork "shared-network") fun _ => rfl
  have summary := same.entry (h := xmlNetwork "summary") (fun _ => rfl) (Nat.zero_le _)
  simp only [outputXml, ranges, leases, networks, summary]

theorem outputJson_shows : outputJson ntop { p with sharedNetworks := nets } = outputJson ntop p := by
  have ranges : p.ranges.map (jsonRange ntop { p with sharedNetworks := nets }) = p.ranges.map (jsonRange ntop p) := by
    refine List.map_congr_left fun r member => ?_
    have location : Report.location { p with sharedNetworks := nets } r = p.location r := same.name [] id member
    have addresses : Report.addresses ntop { p with sharedNetworks := nets } r = p.addresses ntop r := rfl
    have size : Report.rangeSize { p with sharedNetworks := nets } r = p.rangeSize r := rfl
    unfold jsonRange
    rw [location, addresses, size]
  have leases : ∀ i l, jsonLeases ntop { p with sharedNetworks := nets } i l = jsonLeases ntop p i l := by
    intro i l
    induction l generalizing i with
    | nil => rfl
    | cons a l ih =>
      simp only [jsonLeases, ih]
      rfl
  have networks := same.list (h := jsonNetwork) fun _ => rfl
  have summary := same.entry (h := jsonSummary) (fun _ => rfl) (Nat.zero_le _)
  simp only [outputJson, ranges, leases, networks, summary]

theorem outputCsv_shows : outputCsv ntop { p with sharedNetworks := nets } = outputCsv ntop p := by
  have ranges : p.ranges.map (csvRange ntop { p with sharedNetworks := nets }) = p.ranges.map (csvRange ntop p) := by
    refine List.map_congr_left fun r member => ?_
    have location : Report.locationOrNone { p with sharedNetworks := nets } r = p.locationOrNone r :=
      same.name "not_defined".toList id member
    simp only [csvRange, rangeFields, location]
    rfl
  have networks := same.list (h := csvNetwork p) fun _ => rfl
  have summary := same.entry (h := csvSum p) (fun _ => rfl) (Nat.zero_le _)
  have network : csvNetwork { p with sharedNetworks := nets } = csvNetwork p := rfl
  have sum : csvSum { p with sharedNetworks := nets } = csvSum p := rfl
  have header : csvHeader { p with sharedNetworks := nets } = csvHeader p := rfl
  simp only [outputCsv, ranges, network, networks, sum, summary, header]

theorem outputTxt_shows : outputTxt ntop { p with sharedNetworks := nets } = outputTxt ntop p := by
  have ranges : p.ranges.flatMap (txtRange ntop { p with sharedNetworks := nets }) = p.ranges.flatMap (txtRange ntop p) := by
    refine List.flatMap_congr fun r member => ?_
    have location := same.name "not_defined         ".toList (fun name => name.rightpad 20 ' ') member
    simp only [txtRange, location]
    rfl
  have networks := same.texts (h := fun n => txtNetwork n.name (txtNetworkRow p n)) fun _ => rfl
  have summary := same.entry (h := fun n => txtNetwork n.name (txtSumRow p n)) (fun _ => rfl) (Nat.zero_le _)
  have network : txtNetworkRow { p with sharedNetworks := nets } = txtNetworkRow p := rfl
  have sum : txtSumRow { p with sharedNetworks := nets } = txtSumRow p := rfl
  have rangeHeader : txtRangeHeader { p with sharedNetworks := nets } = txtRangeHeader p := rfl
  have header : txtNetworkHeader { p with sharedNetworks := nets } = txtNetworkHeader p := rfl
  simp only [outputTxt, ranges, network, networks, sum, summary, rangeHeader, header]

theorem outputHtml_shows (page : Page) : outputHtml ntop { p with sharedNetworks := nets } page = outputHtml ntop p page := by
  have ranges : p.ranges.flatMap (htmlRange ntop { p with sharedNetworks := nets }) = p.ranges.flatMap (htmlRange ntop p) := by
    refine List.flatMap_congr fun r member => ?_
    have location : Report.locationOrNone { p with sharedNetworks := nets } r = p.locationOrNone r :=
      same.name "not_defined".toList id member
    simp only [htmlRange, location]
    rfl
  have networks := same.texts (h := fun n => htmlRow [n.name] (htmlNetworkRow p n)) fun _ => rfl
  have summary := same.entry (h := fun n => htmlRow [n.name] (htmlSumRow p n)) (fun _ => rfl) (Nat.zero_le _)
  have network : htmlNetworkRow { p with sharedNetworks := nets } = htmlNetworkRow p := rfl
  have sum : htmlSumRow { p with sharedNetworks := nets } = htmlSumRow p := rfl
  have head : htmlHead { p with sharedNetworks := nets } = htmlHead p := rfl
  simp only [outputHtml, ranges, network, networks, sum, summary, head]

end

/-! ## What is printed of alarms -/

section
open Alarm
variable (cfg : Configuration) (v : DhcpVersion) (programName : List Char)

/-- The walk through the ranges goes back from one of them. -/
theorem rangePerfdata_inside {ranges : List Range} (past : Range) : ∀ (n : Nat) (p : Int), p ≤ ranges.length →
    rangePerfdata cfg v (ranges ++ [past]) n p = rangePerfdata cfg v ranges n p := by
  intro n
  induction n with
  | zero => exact fun _ _ => rfl
  | succ n ih =>
    intro p inside
    have here : Alarm.entry (ranges ++ [past]) (p - 1) = Alarm.entry ranges (p - 1) := by
      unfold Alarm.entry
      split_ifs with positive
      · exact List.getElem?_append_left (by omega)
      · rfl
    rw [rangePerfdata, rangePerfdata, here, ih (p - 1) (by omega)]

theorem snetPerfdata_unmasked (nets : List SharedNetwork) : ∀ (n : Nat) (p : Int),
    snetPerfdata cfg (nets.map unmasked) n p = snetPerfdata cfg nets n p := by
  intro n
  induction n with
  | zero => exact fun _ => rfl
  | succ n ih =>
    intro p
    have here : Alarm.entry (nets.map unmasked) p = (Alarm.entry nets p).map unmasked := by
      unfold Alarm.entry
      split_ifs
      · exact List.getElem?_map ..
      · rfl
    rw [snetPerfdata, snetPerfdata, here, ih]
    cases Alarm.entry nets p <;> rfl

theorem classify_unmasked (ranges : List Range) (past : Range) (nets : List SharedNetwork) :
    classify cfg v ranges past (nets.map unmasked) = classify cfg v ranges past nets := by
  have counts : ∀ c, (nets.tail.map unmasked).foldl (snetStep cfg) c = nets.tail.foldl (snetStep cfg) c := by
    intro c
    rw [List.foldl_map]
    rfl
  simp only [classify, List.length_map, ← List.map_tail, counts]

/-- No printed alarm needs a netmask. -/
theorem outputAlarming_unmasked (ranges : List Range) (past : Range) (nets : List SharedNetwork) :
    outputAlarming cfg v programName ranges past (nets.map unmasked) = outputAlarming cfg v programName ranges past nets := by
  simp only [outputAlarming, classify_unmasked, snetPerfdata_unmasked, List.length_map]

/-- Where the range loop stops, and what it has counted, does not depend on the entry behind the last range. -/
theorem classify_past (ranges : List Range) (past past' : Range) (nets : List SharedNetwork) :
    (classify cfg v ranges past nets).ranges.rangeP = (classify cfg v ranges past' nets).ranges.rangeP ∧
      (classify cfg v ranges past nets).ranges.count = (classify cfg v ranges past' nets).ranges.count ∧
      (classify cfg v ranges past' nets).ranges.rangeP ≤ ranges.length := by
  by_cases asked : rBit cfg.numberLimit = true
  · obtain ⟨stop, count⟩ := classify_ranges cfg v ranges past nets asked
    obtain ⟨stop', count'⟩ := classify_ranges cfg v ranges past' nets asked
    refine ⟨stop.trans stop'.symm, count.trans count'.symm, ?_⟩
    rw [stop']
    exact (List.takeWhile_prefix _).length_le
  · simp [classify, asked]

/-- No printed alarm needs the entry behind the last range. -/
theorem outputAlarming_past (ranges : List Range) (past past' : Range) (nets : List SharedNetwork) :
    outputAlarming cfg v programName ranges past nets = outputAlarming cfg v programName ranges past' nets := by
  obtain ⟨stop, count, inside⟩ := classify_past cfg v ranges past past' nets
  have walk := rangePerfdata_inside cfg v past ranges.length _ (Int.ofNat_le.mpr inside)
  have walk' := rangePerfdata_inside cfg v past' ranges.length _ (Int.ofNat_le.mpr inside)
  have sharedP : (classify cfg v ranges past nets).sharedP = (classify cfg v ranges past' nets).sharedP := rfl
  have counted : (classify cfg v ranges past nets).nets = (classify cfg v ranges past' nets).nets := rfl
  simp only [outputAlarming, headline, returnValue, walk, walk', stop, count, sharedP, counted]

end

/-! ## Runs in the same world -/

/-- What a run finds: memory that nothing has set, the sorting function of the library, and
    the bound on nested includes. -/
structure Residue where
  buffers : Buffers
  qsort : Qsort
  depth : Nat
  ranges : Nat → Range
  sharedNetworks : Nat → SharedNetwork
  tmpRanges : Nat → Range
  before : Char
  configAddr : Ipaddr
  leaseLine : List Char
  leaseAddr : Ipaddr
  fresh : List Lease → Ipaddr

/-- The same files, programs and functions of the library, but for this. -/
def Residue.within (m : Residue) (w : World) : World :=
  { w with
    buffers := m.buffers
    qsort := m.qsort
    depth := m.depth
    ranges := m.ranges
    sharedNetworks := m.sharedNetworks
    tmpRanges := m.tmpRanges
    before := m.before
    configAddr := m.configAddr
    leaseLine := m.leaseLine
    leaseAddr := m.leaseAddr
    fresh := m.fresh }

/-- Tables that print the same. -/
structure Alike (v : DhcpVersion) (a a' : Analysis) : Prop where
  version : a.ipVersion = v
  version' : a'.ipVersion = v
  leases : a'.leases.map (facts v) = a.leases.map (facts v)
  ranges : a'.ranges = a.ranges
  backups : a'.backupsFound = a.backupsFound
  networks : a'.sharedNetworks.map unmasked = a.sharedNetworks.map unmasked
  owned : ∀ r ∈ a.ranges, ∃ k < a.sharedNetworks.length, r.sharedNet = some k

section
variable {w : World} {s s' : Settings} {macs : Bool} {g g' : Globals} {function : OutputFunction} {v : DhcpVersion}
  {a a' : Analysis}

theorem networkAt_unmasked {nets nets' : List SharedNetwork} (same : nets'.map unmasked = nets.map unmasked) {k : Nat}
    (inside : k < nets.length) : unmasked (networkAt g' nets' k) = unmasked (networkAt g nets k) := by
  have length : nets'.length = nets.length := by simpa using congrArg List.length same
  have there := congrArg (·[k]?) same
  simp only [List.getElem?_map, List.getElem?_eq_getElem inside, List.getElem?_eq_getElem (length ▸ inside), Option.map_some,
    Option.some.injEq] at there
  rw [networkAt, networkAt, List.getElem?_eq_getElem inside, List.getElem?_eq_getElem (length ▸ inside)]
  exact there

/-- Such tables are printed in the same way. -/
theorem outputAnalysis_alike (m : Residue) (known : v ≠ .IPvUNKNOWN) (alike : Alike v a a') (alarms : s'.alarms = s.alarms)
    (leaseFile : cstr s'.dhcpdleaseFile = cstr s.dhcpdleaseFile) (length : a.sharedNetworks.length = g.numSharedNetworks + 1)
    (count : g'.numSharedNetworks = g.numSharedNetworks) :
    outputAnalysis (m.within w) s' macs g' function a' = outputAnalysis w s macs g function a := by
  obtain ⟨rfl, version, leases, ranges, backups, networks, owned⟩ := alike
  rw [← @outputAnalysis_facts w s macs g function a known a'.leases leases]
  have printed : a'.report s' macs g' =
      { Analysis.report s macs g { a with leases := a'.leases } with sharedNetworks := networkAt g' a'.sharedNetworks } := by
    simp only [Analysis.report, version, ranges, backups, alarms, count]
  have same : Shows (Analysis.report s macs g { a with leases := a'.leases }) (networkAt g' a'.sharedNetworks) := by
    constructor
    · intro k inside
      exact networkAt_unmasked networks (by rw [length]; exact Nat.lt_succ_of_le inside)
    · intro r member
      obtain ⟨k, inside, owner⟩ := owned r member
      rw [length] at inside
      exact ⟨k, Nat.le_of_lt_succ inside, owner⟩
  have ntop : (m.within w).ntop = w.ntop := rfl
  have pages : page (m.within w) s' = page w s := by simp only [page, Residue.within, leaseFile]
  cases function with
  | alarming =>
    have alarm := outputAlarming_unmasked { s.alarms with backupsFound := a.backupsFound } a.ipVersion w.programName a.ranges
    have pieces : pieceText (m.within w) (a'.report s' macs g') =
        pieceText w (Analysis.report s macs g { a with leases := a'.leases }) := by
      funext piece
      cases piece with
      | address ip =>
        simp only [pieceText, printed]
        rfl
      | _ => rfl
    simp only [outputAnalysis, pieces, alarms, backups, version, ranges]
    rw [← alarm a.past, ← networks, outputAlarming_past _ _ _ _ a.past a'.past, alarm a'.past]
    rfl
  | txt => simp only [outputAnalysis, printed, ntop, outputTxt_shows same]
  | html => simp only [outputAnalysis, printed, ntop, pages, outputHtml_shows same]
  | xml => simp only [outputAnalysis, printed, ntop, outputXml_shows same]
  | json => simp only [outputAnalysis, printed, ntop, outputJson_shows same]
  | csv => simp only [outputAnalysis, printed, ntop, outputCsv_shows same]

end

/-! ## What is read -/

section
variable {strtod : Strtod} {b : Build} {os : List Opt}

theorem cstr_strncpy {dst src : List Char} {n : Nat} (short : src.length < n) : cstr (strncpy dst src n) = cstr src := by
  obtain ⟨k, room⟩ : ∃ k, n - src.length = k + 1 := ⟨n - src.length - 1, by omega⟩
  rw [strncpy, List.take_of_length_le (Nat.le_of_lt short), List.rightpad, room, List.replicate_succ, List.append_assoc,
    List.cons_append]
  exact takeWhile_stop _ src (by simp) _

/-- A name that fits is read from its buffer as it was given. -/
theorem cstr_given (last : Option (List Char)) {dst name : List Char} (short : (last.getD name).length < MAXLEN - 1) :
    cstr (last.elim (strncpy dst name (MAXLEN - 1)) fun a => strncpy (strncpy dst name (MAXLEN - 1)) a (MAXLEN - 1)) =
      cstr (last.getD name) := by
  cases last <;> exact cstr_strncpy short

/-- Whether options are accepted does not depend on the buffers. -/
theorem options_within {m m' : Buffers} {s : Settings} (ran : run (option strtod) (defaults b m) os = .ok s) :
    run (option strtod) (defaults b m') os = .ok (settled strtod (defaults b m') os) := by
  refine run_goes strtod _ ?_
  rcases run_ends (option_decided strtod) os (defaults b m) with ⟨e, -, stops⟩ | ⟨s', goes, -⟩
  · rw [ran] at stops
    cases stops
  · exact goes

end

section
open ConfigTree ConfigTables
variable {env : ConfigReader.Env} {v : DhcpVersion}

/-- What the reader finds in memory does not matter for what a tree means. -/
theorem valid_within (before : Char) (junk : Ipaddr) {T : Config} : T.Valid env v →
    T.Valid { env with before := before, junk := junk } v := by
  induction T with
  | done => exact id
  | other keyword args rest ih => exact fun ⟨kind, valid⟩ => ⟨kind, ih valid⟩
  | range keyword flag first second rest ih => exact fun ⟨kind, flags, one, two, valid⟩ => ⟨kind, flags, one, two, ih valid⟩
  | included keyword file rest ih => exact fun ⟨kind, filled, valid⟩ => ⟨kind, filled, ih valid⟩
  | network keyword name body rest ihBody ihRest =>
    exact fun ⟨kind, filled, inner, valid⟩ => ⟨kind, filled, ihBody inner, ihRest valid⟩
  | subnet keyword net mask body rest ihBody ihRest =>
    exact fun ⟨kind, masked, inner, valid⟩ => ⟨kind, masked, ihBody inner, ihRest valid⟩
  | block keyword args body rest ihBody ihRest => exact fun ⟨kind, inner, valid⟩ => ⟨kind, ihBody inner, ihRest valid⟩

theorem declared_within (before : Char) (junk : Ipaddr) (T : Config) : ∀ owner n : Nat,
    declared { env with before := before, junk := junk } v T owner n = declared env v T owner n := by
  induction T with
  | done => exact fun _ _ => rfl
  | other keyword args rest ih => exact ih
  | included keyword file rest ih => exact ih
  | range keyword flag first second rest ih =>
    intro owner n
    simp only [declared, ih]
  | network keyword name body rest ihBody ihRest =>
    intro owner n
    simp only [declared, ihBody, ihRest]
  | subnet keyword net mask body rest ihBody ihRest =>
    intro owner n
    simp only [declared, ihBody, ihRest]
  | block keyword args body rest ihBody ihRest =>
    intro owner n
    simp only [declared, ihBody, ihRest]

end

/-! ## The order of the ranges -/

section
open DhcpdPools.Sort (keyOrder lexOrder netName)
variable {v : DhcpVersion} {nets nets' : Nat → SharedNetwork} {s s' : Settings} {a b : Range}

theorem lexOrder_names (left : netName nets' a = netName nets a) (right : netName nets' b = netName nets b) (fields : List Char) :
    lexOrder v nets' fields a b = lexOrder v nets fields a b := by
  have keys : ∀ c, keyOrder v nets' c a b = keyOrder v nets c a b := by
    intro c
    unfold keyOrder
    split <;> first | rfl | simp only [compareOn, left, right]
  induction fields with
  | nil => rfl
  | cons c rest ih => simp only [lexOrder, compareLex, keys, ih]

/-- The order of two ranges depends on the names of their networks only. -/
theorem inOrder_names (sorts : s'.sorts = s.sorts) (reverse : s'.reverseOrder = s.reverseOrder)
    (left : netName nets' a = netName nets a) (right : netName nets' b = netName nets b) :
    InOrder s' v nets' a b ↔ InOrder s v nets a b := by
  have forward := lexOrder_names (v := v) left right s.sorts
  have backward := lexOrder_names (v := v) right left s.sorts
  simp only [InOrder, byKeys, compareLex, sorts, reverse, forward, backward]

theorem byKeys_tied {fields : List Char} (first : (byKeys v nets fields a b).isLE) (second : (byKeys v nets fields b a).isLE) :
    key v a.firstIp = key v b.firstIp := by
  have swapped : lexOrder v nets fields b a = (lexOrder v nets fields a b).swap := Std.OrientedCmp.eq_swap
  rw [byKeys, compareLex] at first second
  rw [swapped] at second
  cases order : lexOrder v nets fields a b with
  | lt =>
    rw [order] at second
    cases second
  | gt =>
    rw [order] at first
    cases first
  | eq =>
    rw [order] at first second
    exact Nat.le_antisymm (Std.isLE_compare.mp second) (Std.isLE_compare.mp first)

/-- Only ranges that begin at one address can change places. -/
theorem inOrder_tied (first : InOrder s v nets a b) (second : InOrder s v nets b a) : key v a.firstIp = key v b.firstIp := by
  unfold InOrder at first second
  by_cases none : s.sorts = []
  · simp only [none, if_true] at first second
    split_ifs at first second <;> omega
  · simp only [none, if_false] at first second
    split_ifs at first second
    · exact byKeys_tied second first
    · exact byKeys_tied first second

/-- Ranges that begin at different addresses have one order. -/
theorem inOrder_unique {l l' : List Range} (same : l'.Perm l) (distinct : (l.map fun r => key v r.firstIp).Nodup)
    (names : ∀ r ∈ l, netName nets' r = netName nets r) (sorts : s'.sorts = s.sorts)
    (reverse : s'.reverseOrder = s.reverseOrder) (sorted : l.Pairwise (InOrder s v nets))
    (sorted' : l'.Pairwise (InOrder s' v nets')) : l' = l := by
  have ordered : l'.Pairwise (InOrder s v nets) := sorted'.imp_of_mem fun left right order =>
    (inOrder_names sorts reverse (names _ (same.mem_iff.mp left)) (names _ (same.mem_iff.mp right))).mp order
  refine List.Perm.eq_of_pairwise ?_ ordered sorted same
  intro a b left right forward backward
  exact List.inj_on_of_nodup_map distinct (same.mem_iff.mp left) right (inOrder_tied forward backward)

end

/-! ## The tables -/

section
variable {undef : ℚ → ℕ} {v : DhcpVersion} {held : Holdings} {ranges : List Range} {first first' : SharedNetwork}
  {nets : List SharedNetwork} {out out' : Counted}

/-- An inventory of the same networks differs at most in the netmask of the summary. -/
theorem surveyed_unmasked (right : Surveyed undef v held ranges (first :: nets) out)
    (right' : Surveyed undef v held ranges (first' :: nets) out') (name : first'.name = first.name) :
    out'.sharedNetworks.map unmasked = out.sharedNetworks.map unmasked := by
  refine List.ext_getElem? fun k => ?_
  rw [List.getElem?_map, List.getElem?_map]
  cases k with
  | zero =>
    have summary := right.summary first rfl
    have summary' := right'.summary first' rfl
    rw [List.head?_eq_getElem?] at summary summary'
    rw [summary, summary', Option.map_some, Option.map_some]
    simp only [surveyedSum, unmasked, name]
  | succ k =>
    cases found : nets[k]? with
    | none =>
      have behind : nets.length ≤ k := List.getElem?_eq_none_iff.mp found
      rw [List.getElem?_eq_none (by rw [right'.length]; simpa using behind),
        List.getElem?_eq_none (by rw [right.length]; simpa using behind)]
    | some n =>
      rw [right.networks (k + 1) n (Nat.succ_ne_zero k) (by simpa using found),
        right'.networks (k + 1) n (Nat.succ_ne_zero k) (by simpa using found)]

end

section
open ConfigTables
variable {w : World} {s s' : Settings} {macs : Bool} {g g' : Globals} {file : List Char} {v : DhcpVersion}
  {ranges : List Range} {nets : List SharedNetwork}

/-- The printed tables are the inventory of what was declared, by the last declaration of each address. -/
theorem tables_inventory (known : v ≠ .IPvUNKNOWN) (version : g.ipVersion = v) (fills : Fills (prepareMemory w) g ranges nets)
    (untouched : Untouched ranges ((prepareMemory w).sharedNetworks 0 :: nets)) (log : Log v file) :
    Surveyed w.undef v (log.holdings w.inet macs) ranges ((prepareMemory w).sharedNetworks 0 :: nets)
      ⟨(tables w s macs g file).ranges, (tables w s macs g file).sharedNetworks⟩ := by
  subst version
  have counted := analyse_surveyed (leaseEnv w macs) w.qsort w.undef g.ipVersion w.leaseLine w.leaseAddr file untouched
  have map := @leaseData_map w macs g.ipVersion file known log
  rw [leaseData] at map
  rw [fileVersion_fixed known, map] at counted
  rw [← recorded_fills fills, ← networksOf_fills fills] at counted ⊢
  exact counted.arranged (ordered_perm s _ _ _)

theorem tables_leases (known : v ≠ .IPvUNKNOWN) (version : g.ipVersion = v) (log : Log v file) :
    Counting.Sorted v (tables w s macs g file).leases ∧ tableMap v (tables w s macs g file).leases = log.holdings w.inet macs ∧
      (tables w s macs g file).backupsFound = log.backups := by
  subst version
  obtain ⟨-, -, distinct⟩ := parseLeases_inv (leaseEnv w macs) g.ipVersion w.leaseLine w.leaseAddr file
  have fixed := fileVersion_fixed known file
  rw [fixed] at distinct
  simp only [tables, fixed]
  exact ⟨hashSort_distinct w.hash distinct, (tableMap_hashSort w.hash distinct).trans (leaseData_map known log), leaseData_flag known log⟩

/-- What was declared and the lease file decide what is printed, whatever a run finds in memory. -/
theorem tables_alike (m : Residue) (known : v ≠ .IPvUNKNOWN) (version : g.ipVersion = v) (version' : g'.ipVersion = v)
    (fills : Fills (prepareMemory w) g ranges nets) (fills' : Fills (prepareMemory (m.within w)) g' ranges nets)
    (untouched : ∀ w, Untouched ranges ((prepareMemory w).sharedNetworks 0 :: nets))
    (owned : ∀ r ∈ ranges, ∃ k ≤ nets.length, r.sharedNet = some k)
    (distinct : (ranges.map fun r => key v r.firstIp).Nodup) (log : Log v file) (sorts : s'.sorts = s.sorts)
    (reverse : s'.reverseOrder = s.reverseOrder)
    (sorted : (tables w s macs g file).ranges.Pairwise (InOrder s v (networkAt g (tables w s macs g file).sharedNetworks)))
    (sorted' : (tables (m.within w) s' macs g' file).ranges.Pairwise
      (InOrder s' v (networkAt g' (tables (m.within w) s' macs g' file).sharedNetworks))) :
    Alike v (tables w s macs g file) (tables (m.within w) s' macs g' file) := by
  have right := @tables_inventory w s macs g file v ranges nets known version fills (untouched w) log
  have right' := @tables_inventory (m.within w) s' macs g' file v ranges nets known version' fills' (untouched _) log
  have networks := surveyed_unmasked right right' rfl
  have place : ∀ r ∈ (tables w s macs g file).ranges,
      ∃ k < (tables w s macs g file).sharedNetworks.length, r.sharedNet = some k := by
    intro r member
    obtain ⟨r, declared, rfl⟩ := List.mem_map.mp (right.ranges.mem_iff.mp member)
    obtain ⟨k, inside, owner⟩ := owned r declared
    refine ⟨k, ?_, owner⟩
    rw [right.length]
    exact Nat.lt_succ_of_le inside
  have names : ∀ r ∈ (tables w s macs g file).ranges,
      DhcpdPools.Sort.netName (networkAt g' (tables (m.within w) s' macs g' file).sharedNetworks) r =
        DhcpdPools.Sort.netName (networkAt g (tables w s macs g file).sharedNetworks) r := by
    intro r member
    obtain ⟨k, inside, owner⟩ := place r member
    have name := congrArg SharedNetwork.name (@networkAt_unmasked g g' _ _ networks k inside)
    simp only [DhcpdPools.Sort.netName, owner, Option.map_some, Option.getD_some]
    exact congrArg cstr name
  have apart : ((tables w s macs g file).ranges.map fun r => key v r.firstIp).Nodup := by
    rw [(right.ranges.map _).nodup_iff, List.map_map]
    exact distinct
  obtain ⟨table, map, flag⟩ := @tables_leases w s macs g file v known version log
  obtain ⟨table', map', flag'⟩ := @tables_leases (m.within w) s' macs g' file v known version' log
  refine ⟨?_, ?_, facts_eq table' table (map'.trans map.symm), ?_, flag'.trans flag.symm, networks, place⟩
  · rw [tables, version, fileVersion_fixed known]
  · rw [tables, version', fileVersion_fixed known]
  · exact inOrder_unique (right'.ranges.trans right.ranges.symm) apart names sorts reverse sorted sorted'

end

/-! ## Whole runs -/

section
open ConfigTree ConfigTables ConfigCanonical
variable {w : World} {os : List Opt} {s s' : Settings} {function : OutputFunction} {macs : Bool} {g g' : Globals}
  {file : List Char} {v : DhcpVersion}

/-- Settings that print the same. -/
structure Agree (s s' : Settings) : Prop where
  sorts : s'.sorts = s.sorts
  reverse : s'.reverseOrder = s.reverseOrder
  shared : s'.allAsShared = s.allAsShared
  alarms : s'.alarms = s.alarms
  format : s'.printMacAddresesTmp = s.printMacAddresesTmp
  config : cstr s'.dhcpdconfFile = cstr s.dhcpdconfFile
  leases : cstr s'.dhcpdleaseFile = cstr s.dhcpdleaseFile

/-- Runs that have read the same tables print the same. -/
theorem main_alike (m : Residue) (known : v ≠ .IPvUNKNOWN) (agree : Agree s s') (reads : Reads w os s function macs g file)
    (reads' : Reads (m.within w) os s' function macs g' file) {ranges : List Range} {nets : List SharedNetwork}
    (fills : Fills (prepareMemory w) g ranges nets) (fills' : Fills (prepareMemory (m.within w)) g' ranges nets)
    (version : g.ipVersion = v) (version' : g'.ipVersion = v)
    (untouched : ∀ w, Untouched ranges ((prepareMemory w).sharedNetworks 0 :: nets))
    (owned : ∀ r ∈ ranges, ∃ k ≤ nets.length, r.sharedNet = some k) (few : ranges.length < 2 ^ 31)
    (distinct : (ranges.map fun r => key v r.firstIp).Nodup) (log : Log v file) (sorts : Sorts w.qsort)
    (sorts' : Sorts m.qsort) : main (m.within w) os = main w os := by
  have count : g.numRanges = ranges.length := fills.numRanges.trans (Nat.zero_add _)
  have count' : g'.numRanges = ranges.length := fills'.numRanges.trans (Nat.zero_add _)
  have fixed : (tables w s macs g file).ipVersion = v := by rw [tables, version, fileVersion_fixed known]
  have fixed' : (tables (m.within w) s' macs g' file).ipVersion = v := by rw [tables, version', fileVersion_fixed known]
  have sorted := tables_inOrder reads sorts
  have sorted' := tables_inOrder reads' sorts'
  rw [fixed] at sorted
  rw [fixed'] at sorted'
  have alike := tables_alike m known version version' fills fills' untouched owned distinct log agree.sorts agree.reverse
    sorted sorted'
  have length : (tables w s macs g file).sharedNetworks.length = g.numSharedNetworks + 1 := by
    rw [(@tables_inventory w s macs g file v ranges nets known version fills (untouched w) log).length, List.length_cons,
      fills.numNetworks]
    exact congrArg Nat.succ (Nat.zero_add _).symm
  rw [main_tables reads (by rwa [count]), main_tables reads' (by rwa [count']),
    outputAnalysis_alike m known alike agree.alarms agree.leases length (fills'.numNetworks.trans fills.numNetworks.symm)]

end

/-- Memory with the remains of something else. -/
def sampleResidue : Residue where
  buffers := ⟨List.replicate MAXLEN 'x', List.replicate MAXLEN 'y', List.replicate MAXLEN 'z'⟩
  qsort := insertionQsort
  depth := 7
  ranges k := ⟨some k, .ofV4 9, .ofV4 8, 3, 2, 1⟩
  sharedNetworks _ := ⟨"stale".toList, 5, 4, 3, 2, 24⟩
  tmpRanges k := ⟨some k, .ofV4 7, .ofV4 6, 3, 2, 1⟩
  before := ';'
  configAddr := .ofV4 5
  leaseLine := "lease 10.0.0.7 ".toList
  leaseAddr := .ofV4 4
  fresh _ := .ofV4 3

section
open ConfigTree ConfigTokens ConfigCanonical

/-- A network with one range, and a range outside of it. -/
def sampleTree : Config :=
  .network "shared-network".toList (.word "office".toList) (.range "range".toList none "10.0.0.5".toList none .done)
    (.range "range".toList none "10.0.0.9".toList none .done)

/-- `sampleWorld` with the file of this, and the leases of `sampleMixed`. -/
def apartWorld : World :=
  { sampleWorld with
    files := fun _ => some (textOf (render sampleTree.tokens))
    leaseFiles := fun _ => some (sampleText [sampleActive, sampleOther, sampleFree]) }

theorem sampleTree_valid : sampleTree.Valid (configEnv apartWorld sampleSettings) .IPv4 := by
  have keyword : ∀ kind (w : List Char), ConfigReader.isInterestingConfigClause false w = kind → w.length < MAXLEN →
      Keyword (configEnv apartWorld sampleSettings) kind w := fun kind w same short => ⟨same, short⟩
  have number : ∀ w : List Char, (sampleWorld.inet.inetAton w).1 = true → w.length < MAXLEN →
      IsAddress sampleWorld.inet .IPv4 w ∧ w.length < MAXLEN := fun w valid short => ⟨valid, short⟩
  have nothing : ∀ {P : List Char → Prop}, ∀ w ∈ (none : Option (List Char)), P w := fun w member => by cases member
  refine ⟨keyword _ _ (by decide +kernel) (by decide +kernel), (by decide +kernel : "office".toList.length < MAXLEN),
    ⟨keyword _ _ (by decide +kernel) (by decide +kernel), nothing, number _ (by decide +kernel) (by decide +kernel), nothing,
      trivial⟩,
    keyword _ _ (by decide +kernel) (by decide +kernel), nothing, number _ (by decide +kernel) (by decide +kernel), nothing,
    trivial⟩

def sampleSource : Source (configEnv apartWorld sampleSettings) .IPv4 :=
  .ofTree sampleTree (by decide +kernel) sampleTree_valid

end

end DhcpdPools.Memory
