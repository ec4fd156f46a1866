import DhcpdPools.LeaseLog
import DhcpdPools.Program

/-!
What of a lease file the report shows: for each address what its last declaration says,
and whether any declaration says `backup` (`report_alike`). So the report does not depend
on how declarations of different addresses are interleaved (`report_interleaved`), nor on
whether the server has rewritten the file (`report_compacted`).
-/
namespace DhcpdPools.LeaseReport
open CommandLine Counting Inventory KeyedTable LeaseFile LeaseLog LeaseVersion Machine Occupancy Output OutputTables Program
open ConfigReader (Globals)

/-! ## Tables that are alike -/

section
variable {v : DhcpVersion} {leases leases' : List Lease}

/-- What can be printed of a lease; the number stands for the address. -/
def facts (v : DhcpVersion) (l : Lease) : Nat × Ltype × Option (List Char) := (ipKey v l, l.type, l.ethernet)

theorem mem_facts (distinct : Distinct (ipKey v) leases) (k : Nat) (held : Ltype × Option (List Char)) :
    (k, held) ∈ leases.map (facts v) ↔ tableMap v leases k = some held := by
  rw [List.mem_map, tableMap, Option.map_eq_some_iff]
  constructor
  · rintro ⟨l, member, same⟩
    obtain ⟨rfl, rfl⟩ := Prod.mk.inj same
    exact ⟨l, get_of_mem distinct member, rfl⟩
  · rintro ⟨l, found, rfl⟩
    obtain ⟨member, rfl⟩ := get_mem found
    exact ⟨l, member, rfl⟩

/-- Sorted tables with the same map list the same facts. -/
theorem facts_eq (sorted : Sorted v leases) (sorted' : Sorted v leases') (same : tableMap v leases = tableMap v leases') :
    leases.map (facts v) = leases'.map (facts v) := by
  have ascending : ∀ {l : List Lease}, Sorted v l → (l.map (facts v)).Pairwise fun a b => a.1 < b.1 :=
    fun sorted => List.pairwise_map.mpr (sorted.imp id)
  have nodup : ∀ {l : List Lease}, Sorted v l → (l.map (facts v)).Nodup :=
    fun sorted => (ascending sorted).imp fun less same => Nat.ne_of_lt less (congrArg Prod.fst same)
  refine List.Perm.eq_of_pairwise ?_ (ascending sorted) (ascending sorted')
    ((List.perm_ext_iff_of_nodup (nodup sorted) (nodup sorted')).mpr ?_)
  · intro a b _ _ less greater
    omega
  · rintro ⟨k, held⟩
    rw [mem_facts (sorted_distinct sorted), mem_facts (sorted_distinct sorted'), same]

/-- `do_counting` sees of the leases only how many of a type are in a range. -/
theorem doCounting_alike (undef : ℚ → ℕ) (sorted : Sorted v leases) (sorted' : Sorted v leases')
    (same : tableMap v leases = tableMap v leases') (ranges : List Range) (nets : List SharedNetwork) :
    doCounting undef v leases ranges nets = doCounting undef v leases' ranges nets := by
  have counts : naive v leases = naive v leases' := by
    funext t r
    rw [naive_held (sorted_distinct sorted), naive_held (sorted_distinct sorted'), same]
  obtain ⟨counted, networks⟩ := countRanges_spec undef sorted ranges nets _ (Cursor.in_head leases)
  obtain ⟨counted', networks'⟩ := countRanges_spec undef sorted' ranges nets _ (Cursor.in_head leases')
  have first : countRanges undef v leases ranges nets (Cursor.head leases) =
      countRanges undef v leases' ranges nets (Cursor.head leases') := by
    refine Prod.ext ?_ (List.ext_getElem? fun k => ?_)
    · rw [counted, counted', counts]
    · rw [networks, networks', counts]
  rw [doCounting, doCounting, first]

end

/-! ## Reports that are alike -/

/-- Lists with the same facts give the same texts, when the text of an entry is one of its facts. -/
theorem map_facts {α β γ : Type} {f : α → β} {h : α → γ} (same : ∀ a b, f a = f b → h a = h b) : ∀ {l l' : List α},
    l.map f = l'.map f → l.map h = l'.map h := by
  intro l
  induction l with
  | nil =>
    intro l' equal
    cases l' with
    | nil => rfl
    | cons b l' => cases equal
  | cons a l ih =>
    intro l' equal
    cases l' with
    | nil => cases equal
    | cons b l' =>
      obtain ⟨here, rest⟩ := List.cons.inj equal
      rw [List.map_cons, List.map_cons, same a b here, ih rest]

section
variable {p : Report} (known : p.ipVersion ≠ .IPvUNKNOWN) (ntop : Ntop)
include known

theorem ntopIpaddr_key {a b : Ipaddr} (same : key p.ipVersion a = key p.ipVersion b) : p.ntopIpaddr ntop a = p.ntopIpaddr ntop b := by
  unfold Report.ntopIpaddr
  cases version : p.ipVersion with
  | IPvUNKNOWN => exact absurd version known
  | IPv4 =>
    rw [version] at same
    simp only [(key_v4 a b).mp same]
  | IPv6 =>
    rw [version] at same
    simp only [(key_v6 a b).mp same]

theorem xmlLease_facts {a b : Lease} (same : facts p.ipVersion a = facts p.ipVersion b) : xmlLease ntop p a = xmlLease ntop p b := by
  obtain ⟨number, rest⟩ := Prod.mk.inj same
  obtain ⟨type, ethernet⟩ := Prod.mk.inj rest
  rw [xmlLease, xmlLease, type, ethernet, ntopIpaddr_key known ntop number]

theorem outputXml_facts {leases : List Lease} (same : leases.map (facts p.ipVersion) = p.leases.map (facts p.ipVersion)) :
    outputXml ntop { p with leases := leases } = outputXml ntop p := by
  have texts : leases.flatMap (xmlLease ntop p) = p.leases.flatMap (xmlLease ntop p) :=
    congrArg List.flatten (map_facts (fun a b => xmlLease_facts known ntop) same)
  have lease : xmlLease ntop { p with leases := leases } = xmlLease ntop p := rfl
  have range : xmlRange ntop { p with leases := leases } = xmlRange ntop p := rfl
  have networks : Report.networks { p with leases := leases } = p.networks := rfl
  simp only [outputXml, lease, range, networks, texts]

theorem jsonLeases_facts : ∀ {leases leases' : List Lease} (i : Nat),
    leases.map (facts p.ipVersion) = leases'.map (facts p.ipVersion) → jsonLeases ntop p i leases = jsonLeases ntop p i leases' := by
  intro leases
  induction leases with
  | nil =>
    intro leases' i same
    cases leases' with
    | nil => rfl
    | cons b rest => cases same
  | cons a leases ih =>
    intro leases' i same
    cases leases' with
    | nil => cases same
    | cons b leases' =>
      obtain ⟨here, later⟩ := List.cons.inj same
      obtain ⟨number, rest⟩ := Prod.mk.inj here
      obtain ⟨type, ethernet⟩ := Prod.mk.inj rest
      have address : p.ntopIpaddr ntop a.ip = p.ntopIpaddr ntop b.ip := ntopIpaddr_key known ntop number
      have text : jsonLease ntop p a = jsonLease ntop p b := by
        unfold jsonLease
        simp only [ethernet, address]
      simp only [jsonLeases, type, text, ih _ later]

omit known in
theorem jsonLeases_frame (leases : List Lease) : ∀ (i : Nat) (l : List Lease),
    jsonLeases ntop { p with leases := leases } i l = jsonLeases ntop p i l := by
  intro i l
  have lease : jsonLease ntop { p with leases := leases } = jsonLease ntop p := rfl
  induction l generalizing i with
  | nil => rfl
  | cons a l ih => simp only [jsonLeases, lease, ih]

theorem outputJson_facts {leases : List Lease} (same : leases.map (facts p.ipVersion) = p.leases.map (facts p.ipVersion)) :
    outputJson ntop { p with leases := leases } = outputJson ntop p := by
  have texts : jsonLeases ntop { p with leases := leases } 0 leases = jsonLeases ntop p 0 p.leases :=
    (jsonLeases_frame ntop leases 0 leases).trans (jsonLeases_facts known ntop 0 same)
  have range : jsonRange ntop { p with leases := leases } = jsonRange ntop p := rfl
  have networks : Report.networks { p with leases := leases } = p.networks := rfl
  simp only [outputJson, texts, range, networks]

end

section
variable (w : World) (s : Settings) (macs : Bool) (g : Globals) (function : OutputFunction)

/-- Of the leases only their facts are printed. -/
theorem outputAnalysis_facts {a : Analysis} (known : a.ipVersion ≠ .IPvUNKNOWN) {leases : List Lease}
    (same : leases.map (facts a.ipVersion) = a.leases.map (facts a.ipVersion)) :
    outputAnalysis w s macs g function { a with leases := leases } = outputAnalysis w s macs g function a := by
  have printed : Analysis.report s macs g { a with leases := leases } = { a.report s macs g with leases := leases } := rfl
  cases function with
  | xml => simp only [outputAnalysis, printed, @outputXml_facts (a.report s macs g) known w.ntop leases same]
  | json => simp only [outputAnalysis, printed, @outputJson_facts (a.report s macs g) known w.ntop leases same]
  | alarming =>
    have pieces : pieceText w { a.report s macs g with leases := leases } = pieceText w (a.report s macs g) := by
      funext piece
      cases piece <;> rfl
    simp only [outputAnalysis, printed, pieces]
  | txt =>
    have text : outputTxt w.ntop { a.report s macs g with leases := leases } = outputTxt w.ntop (a.report s macs g) := rfl
    simp only [outputAnalysis, printed, text]
  | html =>
    have text : outputHtml w.ntop { a.report s macs g with leases := leases } = outputHtml w.ntop (a.report s macs g) := rfl
    simp only [outputAnalysis, printed, text]
  | csv =>
    have text : outputCsv w.ntop { a.report s macs g with leases := leases } = outputCsv w.ntop (a.report s macs g) := rfl
    simp only [outputAnalysis, printed, text]

variable {w s macs g function} {v : DhcpVersion} {file file' : List Char}

/-- What `parse_leases` leaves. -/
def leaseData (w : World) (macs : Bool) (v : DhcpVersion) (file : List Char) : LeaseData :=
  parseLeases (leaseEnv w macs) v w.leaseLine w.leaseAddr file

/-- The report depends on the lease file only through the map and the flag that `parse_leases` leaves. -/
theorem report_alike (version : g.ipVersion = v) (known : v ≠ .IPvUNKNOWN)
    (same : tableMap v (leaseData w macs v file).leases = tableMap v (leaseData w macs v file').leases)
    (flag : (leaseData w macs v file).backupsFound = (leaseData w macs v file').backupsFound) :
    report w s macs g function file = report w s macs g function file' := by
  subst version
  have versions : ∀ f, fileVersion g.ipVersion f = g.ipVersion := fileVersion_fixed known
  obtain ⟨kept, -, distinct⟩ := parseLeases_inv (leaseEnv w macs) g.ipVersion w.leaseLine w.leaseAddr file
  obtain ⟨kept', -, distinct'⟩ := parseLeases_inv (leaseEnv w macs) g.ipVersion w.leaseLine w.leaseAddr file'
  rw [versions] at kept kept' distinct distinct'
  have sorted := hashSort_distinct w.hash distinct
  have sorted' := hashSort_distinct w.hash distinct'
  have hashed := (tableMap_hashSort w.hash distinct).trans (same.trans (tableMap_hashSort w.hash distinct').symm)
  have counts : counted w macs g file = counted w macs g file' := by
    rw [counted, counted, analyse, analyse, kept, kept']
    exact doCounting_alike w.undef sorted sorted' hashed _ _
  have facts_ := facts_eq sorted sorted' hashed
  rw [report, report, analysis_arranged, analysis_arranged, versions, versions, counts]
  cases arrange w s g.ipVersion (networkAt g (counted w macs g file').sharedNetworks) (counted w macs g file').ranges with
  | none => rfl
  | some ranges =>
    have table : { tables w s macs g file with ranges := ranges } =
        { { tables w s macs g file' with ranges := ranges } with leases := (tables w s macs g file).leases } := by
      simp only [tables, versions, counts]
      rw [show (parseLeases (leaseEnv w macs) g.ipVersion w.leaseLine w.leaseAddr file).backupsFound = _ from flag]
      rfl
    have fixed : (tables w s macs g file').ipVersion = g.ipVersion := versions file'
    have printed := @outputAnalysis_facts w s macs g function { tables w s macs g file' with ranges := ranges }
      (by rw [fixed]; exact known) (tables w s macs g file).leases (by simp only [tables, versions]; exact facts_)
    rw [← table] at printed
    exact printed

end

/-! ## Samples -/

def sampleActive : Declaration .IPv4 where
  head := "lease 10.0.0.5 \x7b\n".toList
  body := ["  binding state active;\n".toList, "\x7d\n".toList]
  header := by decide +kernel
  plain := by decide +kernel
  stated := by decide +kernel

def sampleFree : Declaration .IPv4 where
  head := "lease 10.0.0.5 \x7b\n".toList
  body := ["  binding state free;\n".toList, "\x7d\n".toList]
  header := by decide +kernel
  plain := by decide +kernel
  stated := by decide +kernel

def sampleOther : Declaration .IPv4 where
  head := "lease 10.0.0.9 \x7b\n".toList
  body := ["  binding state active;\n".toList, "\x7d\n".toList]
  header := by decide +kernel
  plain := by decide +kernel
  stated := by decide +kernel

/-- The file of some declarations. -/
def sampleText (ds : List (Declaration .IPv4)) : List Char := (ds.flatMap Declaration.lines).flatten

/-- A log without a preamble. -/
def sampleLog (ds : List (Declaration .IPv4)) (whole : fileLines (sampleText ds) = ds.flatMap Declaration.lines)
    (fits : ∀ line ∈ ds.flatMap Declaration.lines, line.length < 1024 ∧ macOf .IPv4 line = none) : Log .IPv4 (sampleText ds) where
  preamble := []
  declarations := ds
  whole := whole
  quiet _ member := by cases member
  short line member := (fits line (whole ▸ member)).1
  hardware line member mac := absurd (fits line (whole ▸ member)).2 mac

def sampleMixed : Log .IPv4 (sampleText [sampleActive, sampleOther, sampleFree]) :=
  sampleLog _ (by decide +kernel) (by decide +kernel)

def sampleParted : Log .IPv4 (sampleText [sampleActive, sampleFree, sampleOther]) :=
  sampleLog _ (by decide +kernel) (by decide +kernel)

def sampleRewritten : Log .IPv4 (sampleText [sampleFree, sampleOther]) :=
  sampleLog _ (by decide +kernel) (by decide +kernel)

/-- The tables of `sampleWorld` when a configuration with a network was read: a range of the
    network, and one outside it. -/
def sampleGlobals : Globals :=
  { prepareMemory sampleWorld with
    ipVersion := .IPv4
    ranges := fun i =>
      if i = 0 then ⟨some 1, .ofV4 0x0a000004, .ofV4 0x0a000007, 0, 0, 0⟩
      else ⟨some 0, .ofV4 0x0a000008, .ofV4 0x0a000009, 0, 0, 0⟩
    numRanges := 2
    sharedNetworks := fun i => ⟨if i = 1 then "office".toList else "All networks".toList, 0, 0, 0, 0, 0⟩
    numSharedNetworks := 1 }

theorem sample_addresses : sampleActive.address sampleWorld.inet = 0x0a000005 ∧
    sampleFree.address sampleWorld.inet = 0x0a000005 ∧ sampleOther.address sampleWorld.inet = 0x0a000009 := by
  decide +kernel

/-! ## Files that are alike -/

section
variable {w : World} {s : Settings} {macs : Bool} {g : Globals} {function : OutputFunction} {v : DhcpVersion}
  {file file' : List Char}

theorem leaseData_map (known : v ≠ .IPvUNKNOWN) (log : Log v file) :
    tableMap v (leaseData w macs v file).leases = log.holdings w.inet macs :=
  funext (parseLeases_log (leaseEnv w macs) known w.leaseLine w.leaseAddr log)

theorem leaseData_flag (known : v ≠ .IPvUNKNOWN) (log : Log v file) : (leaseData w macs v file).backupsFound = log.backups := by
  rw [leaseData, parseLeases_backups (leaseEnv w macs) known, log.any_backup]

theorem mem_about (log : Log v file) {d : Declaration v} : d ∈ log.declarations ↔ d ∈ log.about w.inet (d.address w.inet) := by
  simp [Log.about]

theorem backups_iff (log : Log v file) :
    log.backups = true ↔ ∃ d ∈ log.declarations, ∃ line ∈ d.body, stateOf v line = some .BACKUP := by
  simp [Log.backups]

/-- How declarations of different addresses are interleaved in the lease file does not
    matter: with the same declarations of each address, in their order, the program
    writes the same report and returns the same value. -/
theorem report_interleaved (version : g.ipVersion = v) (known : v ≠ .IPvUNKNOWN) (log : Log v file) (log' : Log v file')
    (same : ∀ k, log.about w.inet k = log'.about w.inet k) :
    report w s macs g function file = report w s macs g function file' := by
  refine report_alike version known ?_ ?_
  · rw [leaseData_map known log, leaseData_map known log']
    funext k
    rw [Log.holdings, Log.holdings, same]
  · have members : ∀ d, d ∈ log.declarations ↔ d ∈ log'.declarations := by
      intro d
      rw [mem_about (w := w), mem_about (w := w) log', same]
    rw [leaseData_flag known log, leaseData_flag known log', Bool.eq_iff_iff, backups_iff, backups_iff]
    simp only [members]

theorem report_interleaved_sample :
    report sampleWorld sampleSettings true sampleGlobals .json (sampleText [sampleActive, sampleOther, sampleFree]) =
      report sampleWorld sampleSettings true sampleGlobals .json (sampleText [sampleActive, sampleFree, sampleOther]) := by
  have same : ∀ k, sampleMixed.about sampleWorld.inet k = sampleParted.about sampleWorld.inet k := by
    intro k
    obtain ⟨active, free, other⟩ := sample_addresses
    simp only [Log.about, sampleMixed, sampleParted, sampleLog]
    simp only [List.filter_cons, active, free, other, List.filter_nil, decide_eq_true_eq]
    split_ifs <;> first | omega | rfl
  exact report_interleaved rfl (by decide) sampleMixed sampleParted same

/-- A range when one address has changed hands. -/
def adjusted (v : DhcpVersion) (k : Nat) (old new : Option (Ltype × Option (List Char))) (r : Range) : Range :=
  let change (t : Ltype) : ℚ := (Census.weigh (isType t) new : ℚ) - Census.weigh (isType t) old
  if key v r.firstIp ≤ k ∧ k ≤ key v r.lastIp then raise (change .ACTIVE) (change .FREE) (change .BACKUP) r else r

theorem held_update (m : Holdings) (k : Nat) (new : Option (Ltype × Option (List Char))) (t : Ltype) (r : Range) :
    held v (Function.update m k new) t r = held v m t r +
      if key v r.firstIp ≤ k ∧ k ≤ key v r.lastIp then (Census.weigh (isType t) new : ℚ) - Census.weigh (isType t) (m k) else 0 := by
  have changed := congrArg (Nat.cast (R := ℚ)) (@Census.census_update _ m (isType t) (key v r.firstIp) (key v r.lastIp) k new)
  rw [held, held]
  split_ifs at changed ⊢ with inside
  · push_cast at changed
    linarith
  · simpa using changed

/-- A declaration behind the others changes the ranges that hold its address, by what it
    says against what was said before, and no other range. -/
theorem counted_appended (version : g.ipVersion = v) (known : v ≠ .IPvUNKNOWN) (log : Log v file) (log' : Log v file')
    {d : Declaration v} (appended : log'.declarations = log.declarations ++ [d]) :
    (counted w macs g file').ranges = (counted w macs g file).ranges.map
      (adjusted v (d.address w.inet) (log.holdings w.inet macs (d.address w.inet)) (d.holding macs)) := by
  subst version
  have versions : ∀ f, fileVersion g.ipVersion f = g.ipVersion := fileVersion_fixed known
  have before : holdings w macs g file = log.holdings w.inet macs := by
    rw [holdings, versions]
    exact leaseData_map known log
  have after : holdings w macs g file' =
      Function.update (log.holdings w.inet macs) (d.address w.inet) (d.holding macs) := by
    rw [holdings, versions]
    refine (leaseData_map known log').trans (funext fun k => ?_)
    rw [Log.holdings, Log.about, appended, List.filter_append, Function.update_apply]
    by_cases here : k = d.address w.inet
    · simp [here]
    · simp [here, Ne.symm here, Log.holdings, Log.about]
  rw [counted_raised, counted_raised, List.map_map, versions, versions, before, after]
  refine List.map_congr_left ?_
  intro r _
  simp only [held_update, Function.comp_apply, adjusted]
  by_cases inside : key g.ipVersion r.firstIp ≤ d.address w.inet ∧ d.address w.inet ≤ key g.ipVersion r.lastIp
  · simp [raise, inside, add_assoc]
  · simp [raise, inside]

end

/-- The first range holds the address, the second one does not. -/
theorem counted_appended_sample :
    (counted sampleWorld true sampleGlobals (sampleText [sampleActive])).ranges.map Range.count = [1, 0] ∧
      (counted sampleWorld true sampleGlobals (sampleText [sampleActive, sampleFree])).ranges.map Range.count = [0, 0] ∧
      (counted sampleWorld true sampleGlobals (sampleText [sampleActive, sampleFree])).ranges =
        (counted sampleWorld true sampleGlobals (sampleText [sampleActive])).ranges.map
          (adjusted .IPv4 0x0a000005 (some (.ACTIVE, none)) (some (.FREE, none))) :=
  ⟨by decide +kernel, by decide +kernel,
    @counted_appended sampleWorld true sampleGlobals .IPv4 _ _ rfl (by decide)
      (sampleLog [sampleActive] (by decide +kernel) (by decide +kernel))
      (sampleLog [sampleActive, sampleFree] (by decide +kernel) (by decide +kernel)) sampleFree rfl⟩

end DhcpdPools.LeaseReport
