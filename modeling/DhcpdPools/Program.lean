import DhcpdPools.CommandLine
import DhcpdPools.ConfigRanges
import DhcpdPools.Inventory
import DhcpdPools.OutputTables
import DhcpdPools.Perfdata

/-!
`main` as a whole: the options, the selection of the report, the configuration, the lease
file, counting, sorting, and the report with the exit status. Behind the configuration a
run cannot fail but in the alarm report (`report_txt` and the lemmas beside it), and its
tables are the inventory of the ranges that were recorded (`analysis_surveyed`).
-/
namespace DhcpdPools.Program
open Machine CommandLine Output OutputTables
open ConfigReader (Globals Stop parseConfig)

/-! ## The code -/

/-- What a run takes from outside: what is fixed when the program is built, the functions of
    the library, the files, and the memory that is not initialised. -/
structure World where
  build : Build
  buffers : Buffers
  strtod : Strtod
  inet : Inet
  ntop : Ntop
  hash : Uthash
  qsort : Occupancy.Qsort
  /-- Converting a `double` that is no `unsigned long`. -/
  undef : ℚ → ℕ
  files : List Char → Option (List Char)
  leaseFiles : List Char → Option (List Char)
  /-- A bound on nested includes. -/
  depth : Nat
  ranges : Nat → Range
  sharedNetworks : Nat → SharedNetwork
  tmpRanges : Nat → Range
  before : Char
  configAddr : Ipaddr
  leaseLine : List Char
  leaseAddr : Ipaddr
  fresh : List Lease → Ipaddr
  programName : List Char
  lastModified : List Char
  packageString : List Char
  packageUrl : List Char

/-- Why a run ends without a report. -/
inductive Failure where
  | exit (e : Exit)
  | config (e : Stop)
  /-- `parse_leases` cannot open its file. -/
  | leases (file : List Char)
  /-- A read outside the tables. -/
  | outside
deriving DecidableEq

/-- `prepare_memory`, and `set_ipv_functions (IPvUNKNOWN)`. -/
def prepareMemory (w : World) : Globals where
  ipVersion := .IPvUNKNOWN
  ranges := w.ranges
  numRanges := 0
  RANGES := 64
  allocation := 0
  sharedNetworks := Function.update w.sharedNetworks 0
    { w.sharedNetworks 0 with name := "All networks".toList, used := 0, touched := 0, backups := 0 }
  numSharedNetworks := 0
  opened := []

/-- The loop of `flip_ranges` with `n` rounds to go; `i` is unsigned and wraps. -/
def flipLoop (flipMe : List Range) : Nat → BitVec 32 → Nat → List Range → Option (List Range)
  | 0, _, _, tmp => some tmp
  | n + 1, i, j, tmp => do
    let r ← flipMe[i.toNat]?
    flipLoop flipMe n (i - 1) (j + 1) (tmp.set j r)

/-- `flip_ranges`, on a table of `num_ranges` entries. -/
def flipRanges (flipMe tmpRanges : List Range) : Option (List Range) :=
  (flipLoop flipMe flipMe.length (BitVec.ofNat 32 flipMe.length - 1) 0 tmpRanges).map (·.take flipMe.length)

/-- The tables when `output_analysis` is called; `past` is the entry behind the last range. -/
structure Analysis where
  ipVersion : DhcpVersion
  leases : List Lease
  ranges : List Range
  past : Range
  sharedNetworks : List SharedNetwork
  backupsFound : Bool

section
variable (w : World) (s : Settings) (macs : Bool) (g : Globals)

def configEnv : ConfigReader.Env := ⟨w.inet, w.files, s.allAsShared, w.before, w.configAddr⟩

def leaseEnv : LeaseFile.Env := ⟨w.inet, w.fresh, macs, w.hash⟩

/-- The ranges that were recorded. -/
def recorded : List Range := (List.range g.numRanges).map g.ranges

/-- The entries of `shared_networks` in use. -/
def networksOf : List SharedNetwork := (List.range (g.numSharedNetworks + 1)).map g.sharedNetworks

/-- An entry of `shared_networks` behind the counting. -/
def networkAt (nets : List SharedNetwork) (k : Nat) : SharedNetwork := nets[k]?.getD (g.sharedNetworks k)

/-- The functions in `config.sorts`. -/
def sortFunctions (v : DhcpVersion) : List (Option (Range → Range → Int)) :=
  s.sorts.filterMap (DhcpdPools.Sort.fieldSelector v)

/-- `if (config.sorts != NULL) mergesort_ranges (...)`, with the temporary table afterwards. -/
def sortRanges (v : DhcpVersion) (nets : Nat → SharedNetwork) (ranges tmpRanges : List Range) :
    Option (List Range × List Range) :=
  if s.sorts = [] then some (ranges, tmpRanges)
  else MergeSort.mergesortRanges (DhcpdPools.Sort.merge nets (sortFunctions s v)) ranges.length ranges tmpRanges

/-- The ranges in the order of the report: sorted when keys are given, and turned round. -/
def arrange (v : DhcpVersion) (nets : Nat → SharedNetwork) (ranges : List Range) : Option (List Range) := do
  let sorted ← sortRanges s v nets ranges ((List.range ranges.length).map w.tmpRanges)
  if s.reverseOrder then flipRanges sorted.1 sorted.2 else some sorted.1

/-- `parse_leases`, `prepare_data`, `do_counting`, `mergesort_ranges` and `flip_ranges`. -/
def analysis (file : List Char) : Option Analysis := do
  let data := LeaseFile.parseLeases (leaseEnv w macs) g.ipVersion w.leaseLine w.leaseAddr file
  let prepared := Occupancy.prepareData w.hash w.qsort data.ipVersion data.leases (recorded g)
  let counted := Counting.doCounting w.undef data.ipVersion prepared.1 prepared.2 (networksOf g)
  let ranges ← arrange w s data.ipVersion (networkAt g counted.sharedNetworks) counted.ranges
  some ⟨data.ipVersion, prepared.1, ranges, g.ranges g.numRanges, counted.sharedNetworks, data.backupsFound⟩

/-- What the printers read. -/
def Analysis.report (a : Analysis) : Report where
  ipVersion := a.ipVersion
  headerLimit := s.alarms.headerLimit
  numberLimit := s.alarms.numberLimit
  backupsFound := a.backupsFound
  printMacAddreses := macs
  leases := a.leases
  ranges := a.ranges
  sharedNetworks := networkAt g a.sharedNetworks
  numSharedNetworks := g.numSharedNetworks

/-- What `fprintf` writes for a piece of the alarm report. -/
def pieceText (p : Report) : Alarm.Piece → List Char
  | .text s => s.toList
  | .int n => Nat.toDigits 10 n
  | .number x => Printf.formatG x
  | .name s => s
  | .address ip => p.ntopIpaddr w.ntop ip

def page : Page := ⟨cstr s.dhcpdleaseFile, w.lastModified, w.packageString, w.packageUrl⟩

/-- `output_analysis`: the text and what is returned. -/
def outputAnalysis (function : OutputFunction) (a : Analysis) : Option (List Char × Nat) :=
  let p := a.report s macs g
  match function with
  | .txt => some (outputTxt w.ntop p, 0)
  | .alarming =>
    (Alarm.outputAlarming { s.alarms with backupsFound := a.backupsFound } a.ipVersion w.programName a.ranges a.past
      a.sharedNetworks).map fun out => (out.1.flatMap (pieceText w p), out.2)
  | .html => some (outputHtml w.ntop p (page w s), 0)
  | .xml => some (outputXml w.ntop p, 0)
  | .json => some (outputJson w.ntop p, 0)
  | .csv => some (outputCsv w.ntop p, 0)

/-- What follows the configuration: the report on a lease file. -/
def report (function : OutputFunction) (file : List Char) : Option (List Char × Nat) := do
  let a ← analysis w s macs g file
  outputAnalysis w s macs g function a

end

/-- `main`: what is written, and the exit status. -/
def main (w : World) (os : List Opt) : Except Failure (List Char × Nat) := do
  let s ← (run (option w.strtod) (defaults w.build w.buffers) os).mapError .exit
  let selected ← (selectFormat s.printMacAddresesTmp).mapError .exit
  let g ← (parseConfig (configEnv w s) w.depth (cstr s.dhcpdconfFile) 0 (prepareMemory w)).mapError .config
  match w.leaseFiles (cstr s.dhcpdleaseFile) with
  | none => .error (.leases (cstr s.dhcpdleaseFile))
  | some file =>
    match report w s selected.2 g selected.1 file with
    | none => .error .outside
    | some out => .ok out

/-! ## The order of the ranges -/

/-- The loop of `flip_ranges` copies what is left of the table from its end on. -/
theorem flipLoop_spec {flipMe : List Range} : ∀ (n j : Nat) (i : BitVec 32) (tmp : List Range),
    n + j = flipMe.length → tmp.length = flipMe.length → (0 < n → i.toNat = n - 1) →
      flipLoop flipMe n i j tmp = some (tmp.take j ++ (flipMe.take n).reverse) := by
  intro n
  induction n with
  | zero =>
    intro j i tmp rounds size _
    rw [flipLoop, List.take_of_length_le (by omega)]
    simp
  | succ n ih =>
    intro j i tmp rounds size index
    have inside : n < flipMe.length := by omega
    have here : i.toNat = n := index (Nat.succ_pos n)
    rw [flipLoop, here, List.getElem?_eq_getElem inside]
    have next : 0 < n → (i - 1).toNat = n - 1 := by
      intro positive
      have bound := i.isLt
      bv_omega
    refine (ih (j + 1) (i - 1) (tmp.set j flipMe[n]) (by omega) (by rw [List.length_set, size]) next).trans ?_
    have room : j < tmp.length := by omega
    rw [List.take_add_one, List.getElem?_set_self room, List.take_set_of_le (Nat.le_refl j),
      List.take_succ_eq_append_getElem inside, List.reverse_append, List.append_assoc]
    rfl

/-- `flip_ranges` turns the table round. -/
theorem flipRanges_spec {flipMe tmp : List Range} (few : flipMe.length ≤ 2 ^ 32) (size : tmp.length = flipMe.length) :
    flipRanges flipMe tmp = some flipMe.reverse := by
  have last : 0 < flipMe.length → (BitVec.ofNat 32 flipMe.length - 1).toNat = flipMe.length - 1 := by
    intro positive
    have one : (1 : BitVec 32).toNat = 1 := rfl
    rw [BitVec.toNat_sub, BitVec.toNat_ofNat, one]
    omega
  rw [flipRanges, flipLoop_spec flipMe.length 0 _ tmp (by omega) size last]
  simp

section
open DhcpdPools.Sort WeakSort MergeSort

/-- The ranges by the keys; ties stand the other way round than they were. -/
def keyed (s : Settings) (v : DhcpVersion) (nets : Nat → SharedNetwork) (ranges : List Range) : List Range :=
  if s.sorts = [] then ranges else sortBack (merge nets (sortFunctions s v)) ranges

/-- The order of the report. -/
def ordered (s : Settings) (v : DhcpVersion) (nets : Nat → SharedNetwork) (ranges : List Range) : List Range :=
  if s.reverseOrder then (keyed s v nets ranges).reverse else keyed s v nets ranges

theorem ordered_perm (s : Settings) (v : DhcpVersion) (nets : Nat → SharedNetwork) (ranges : List Range) :
    (ordered s v nets ranges).Perm ranges := by
  have sorted : (keyed s v nets ranges).Perm ranges := by
    unfold keyed
    split_ifs
    · rfl
    · exact sortBack_perm _
  unfold ordered
  split_ifs
  · exact (List.reverse_perm _).trans sorted
  · exact sorted

theorem fieldSelector_selects (v : DhcpVersion) (c : Char) : (fieldSelector v c).isSome = selects c := by
  unfold selects fieldSelector
  split <;> rfl

/-- The characters of accepted options have functions. -/
theorem sortFunctions_selected {s : Settings} (accepted : ∀ c ∈ s.sorts, selects c = true) (v : DhcpVersion) :
    s.sorts.mapM (fieldSelector v) = some (sortFunctions s v) := by
  unfold sortFunctions
  generalize s.sorts = fields at accepted
  induction fields with
  | nil => rfl
  | cons c fields ih =>
    have some_ : (fieldSelector v c).isSome = true := by rw [fieldSelector_selects, accepted c List.mem_cons_self]
    obtain ⟨func, selected⟩ := Option.isSome_iff_exists.mp some_
    rw [List.mapM_cons, selected, ih fun d member => accepted d (List.mem_cons_of_mem _ member),
      List.filterMap_cons_some selected]
    rfl

theorem sortRanges_spec {s : Settings} (accepted : ∀ c ∈ s.sorts, selects c = true) (v : DhcpVersion)
    (nets : Nat → SharedNetwork) {ranges tmp : List Range} (room : tmp.length = ranges.length) :
    ∃ tmp' : List Range, tmp'.length = ranges.length ∧
      sortRanges s v nets ranges tmp = some (keyed s v nets ranges, tmp') := by
  unfold sortRanges keyed
  by_cases none : s.sorts = []
  · rw [if_pos none, if_pos none]
    exact ⟨tmp, room, rfl⟩
  · have weak := merge_weak nets (sortFunctions_selected accepted v)
    obtain ⟨tmp', ran, size⟩ := mergesortRanges_spec weak ranges.length (Nat.le_refl _) (Nat.le_of_eq room.symm)
    rw [if_neg none, if_neg none, ran, List.take_length, List.drop_length, List.append_nil]
    exact ⟨tmp', size.trans room, rfl⟩

/-- Sorting and turning round never fail. `mergesort_ranges` takes the number of ranges as an `int`. -/
theorem arrange_spec (w : World) {s : Settings} (accepted : ∀ c ∈ s.sorts, selects c = true) (v : DhcpVersion)
    (nets : Nat → SharedNetwork) {ranges : List Range} (few : ranges.length < 2 ^ 31) :
    arrange w s v nets ranges = some (ordered s v nets ranges) := by
  have room : ((List.range ranges.length).map w.tmpRanges).length = ranges.length := by simp
  obtain ⟨tmp', size, ran⟩ := sortRanges_spec accepted v nets room
  have count : (keyed s v nets ranges).length = ranges.length := by
    unfold keyed
    split_ifs
    · rfl
    · exact (sortBack_perm _).length_eq
  rw [arrange, ordered, ran, Option.bind_eq_bind, Option.bind_some]
  split_ifs
  · exact flipRanges_spec (by rw [count]; omega) (size.trans count.symm)
  · rfl

/-- The sorting function of the system sorts. -/
def Sorts (qsort : Occupancy.Qsort) : Prop :=
  ∀ v ranges, (qsort.sort (Occupancy.rangecomp v) ranges).Pairwise fun a b => Occupancy.rangecomp v a b ≤ 0

/-- By the keys, then by the first address from the highest one on. -/
def byKeys (v : DhcpVersion) (nets : Nat → SharedNetwork) (fields : List Char) : Range → Range → Ordering :=
  compareLex (lexOrder v nets fields) fun a b => compare (key v b.firstIp) (key v a.firstIp)

/-- What is asked for: by the keys when there are any and else by the first address, and in reverse. -/
def InOrder (s : Settings) (v : DhcpVersion) (nets : Nat → SharedNetwork) (a b : Range) : Prop :=
  let upto (x y : Range) : Prop :=
    if s.sorts = [] then key v x.firstIp ≤ key v y.firstIp else (byKeys v nets s.sorts x y).isLE
  if s.reverseOrder then upto b a else upto a b

/-- Ranges in the order of their addresses are put in the order that is asked for. -/
theorem ordered_inOrder {s : Settings} (accepted : ∀ c ∈ s.sorts, selects c = true) {v : DhcpVersion}
    (nets : Nat → SharedNetwork) {ranges : List Range}
    (sorted : ranges.Pairwise fun a b => key v a.firstIp ≤ key v b.firstIp) :
    (ordered s v nets ranges).Pairwise (InOrder s v nets) := by
  have upto : (keyed s v nets ranges).Pairwise fun x y =>
      if s.sorts = [] then key v x.firstIp ≤ key v y.firstIp else (byKeys v nets s.sorts x y).isLE := by
    unfold keyed
    by_cases none : s.sorts = []
    · simpa only [if_pos none] using sorted
    · simp only [if_neg none]
      have selected := sortFunctions_selected accepted v
      refine (sortBack_refined (merge_weak nets selected) (R := fun x y => key v y.firstIp ≤ key v x.firstIp) sorted).imp ?_
      rintro x y (less | ⟨tied, later⟩)
      · rw [byKeys, compareLex, (merge_lt nets selected x y).mp less]
        rfl
      · have upto := (upto_lexOrder nets selected x y).mp tied.2
        have notLess : lexOrder v nets s.sorts x y ≠ .lt := by
          rw [Ne, ← merge_lt nets selected, tied.1]
          exact Bool.false_ne_true
        rw [byKeys, compareLex]
        cases order : lexOrder v nets s.sorts x y with
        | lt => exact absurd order notLess
        | gt =>
          rw [order] at upto
          cases upto
        | eq => exact Std.isLE_compare.mpr later
  unfold ordered InOrder
  by_cases reverse : s.reverseOrder = true
  · simp only [if_pos reverse]
    exact List.pairwise_reverse.mpr upto
  · simp only [if_neg reverse]
    exact upto

end

/-! ## A whole run -/

/-- Options that are accepted select sort functions only. -/
theorem accepted {strtod : Strtod} {b : Build} {m : Buffers} {os : List Opt} {s : Settings}
    (ran : run (option strtod) (defaults b m) os = .ok s) : ∀ c ∈ s.sorts, selects c = true := by
  refine run_induction (P := fun _ t => ∀ c ∈ t.sorts, selects c = true) ?_ ran (fun c member => by cases member)
  intro t o t' _ went held
  cases o with
  | sort optarg =>
    obtain ⟨sorts, appended, rest⟩ := bind_ok went
    obtain rfl := Except.ok.inj rest
    rw [appendSort_run] at appended
    cases unknown : optarg.find? fun c => !selects c with
    | some c =>
      rw [unknown] at appended
      cases appended
    | none =>
      rw [unknown] at appended
      obtain rfl := Except.ok.inj appended
      intro c member
      rcases List.mem_append.mp member with old | new
      · exact held c old
      · simpa using List.find?_eq_none.mp unknown c new
  | _ =>
    rw [option_ok strtod went]
    exact held

section
open LeaseVersion LeaseFile Counting Occupancy
variable (w : World) (os : List Opt) (s : Settings) (function : OutputFunction) (macs : Bool) (g : Globals) (file : List Char)

/-- What a run has got when it reads the lease file. -/
structure Reads : Prop where
  options : run (option w.strtod) (defaults w.build w.buffers) os = .ok s
  format : selectFormat s.printMacAddresesTmp = .ok (function, macs)
  config : parseConfig (configEnv w s) w.depth (cstr s.dhcpdconfFile) 0 (prepareMemory w) = .ok g
  leases : w.leaseFiles (cstr s.dhcpdleaseFile) = some file

/-- The tables behind `do_counting`. -/
def counted : Counted :=
  analyse (leaseEnv w macs) w.qsort w.undef g.ipVersion w.leaseLine w.leaseAddr file (recorded g) (networksOf g)

/-- The tables that are printed. -/
def tables : Analysis where
  ipVersion := fileVersion g.ipVersion file
  leases := hashSort w.hash (fileVersion g.ipVersion file)
    (parseLeases (leaseEnv w macs) g.ipVersion w.leaseLine w.leaseAddr file).leases
  ranges := ordered s (fileVersion g.ipVersion file) (networkAt g (counted w macs g file).sharedNetworks)
    (counted w macs g file).ranges
  past := g.ranges g.numRanges
  sharedNetworks := (counted w macs g file).sharedNetworks
  backupsFound := (parseLeases (leaseEnv w macs) g.ipVersion w.leaseLine w.leaseAddr file).backupsFound

variable {w os s function macs g file}

theorem main_reads (reads : Reads w os s function macs g file) :
    main w os = (report w s macs g function file).elim (.error .outside) .ok := by
  simp only [main, reads.options, reads.format, reads.config, reads.leases, Except.mapError, bind, Except.bind]
  cases report w s macs g function file <;> rfl

/-- What the lease file leaves for each address. -/
def holdings (w : World) (macs : Bool) (g : Globals) (file : List Char) : Inventory.Holdings :=
  tableMap (fileVersion g.ipVersion file) (parseLeases (leaseEnv w macs) g.ipVersion w.leaseLine w.leaseAddr file).leases

/-- Each range in the order of `qsort`, its counters raised by what the leases say of its addresses. -/
theorem counted_raised (w : World) (macs : Bool) (g : Globals) (file : List Char) : (counted w macs g file).ranges =
    (w.qsort.sort (rangecomp (fileVersion g.ipVersion file)) (recorded g)).map fun r =>
      raise (Inventory.held (fileVersion g.ipVersion file) (holdings w macs g file) .ACTIVE r)
        (Inventory.held (fileVersion g.ipVersion file) (holdings w macs g file) .FREE r)
        (Inventory.held (fileVersion g.ipVersion file) (holdings w macs g file) .BACKUP r) r := by
  obtain ⟨version, -, distinct⟩ := parseLeases_inv (leaseEnv w macs) g.ipVersion w.leaseLine w.leaseAddr file
  obtain ⟨raised, -⟩ := countRanges_spec w.undef (Inventory.hashSort_distinct w.hash distinct)
    (w.qsort.sort (rangecomp (fileVersion g.ipVersion file)) (recorded g)) (networksOf g) _ (Cursor.in_head _)
  simp only [Inventory.naive_hashSort w.hash distinct] at raised
  rw [counted, analyse, version]
  exact raised

theorem counted_length : (counted w macs g file).ranges.length = g.numRanges := by
  rw [counted_raised, List.length_map, (w.qsort.permutes _ _).length_eq, recorded, List.length_map, List.length_range]

theorem counted_sorted (sorts : Sorts w.qsort) : (counted w macs g file).ranges.Pairwise fun a b =>
    key (fileVersion g.ipVersion file) a.firstIp ≤ key (fileVersion g.ipVersion file) b.firstIp := by
  rw [counted_raised]
  refine List.pairwise_map.mpr ((sorts _ _).imp ?_)
  intro a b upto
  exact (ipcomp_nonpos _ _ _).mp upto

/-- The entries behind the summary, with the sums over their ranges added. -/
theorem counted_network (w : World) (macs : Bool) (g : Globals) (file : List Char) {k : Nat} (other : k ≠ 0) :
    (counted w macs g file).sharedNetworks[k]? = (networksOf g)[k]?.map (raiseShared
      (total k (blockSize w.undef (fileVersion g.ipVersion file)) (recorded g))
      (total k (Inventory.held (fileVersion g.ipVersion file) (holdings w macs g file) .ACTIVE) (recorded g))
      (total k (Inventory.held (fileVersion g.ipVersion file) (holdings w macs g file) .FREE) (recorded g))
      (total k (Inventory.held (fileVersion g.ipVersion file) (holdings w macs g file) .BACKUP) (recorded g))) := by
  obtain ⟨version, -, distinct⟩ := parseLeases_inv (leaseEnv w macs) g.ipVersion w.leaseLine w.leaseAddr file
  obtain ⟨-, networks⟩ := countRanges_spec w.undef (Inventory.hashSort_distinct (leaseEnv w macs).hash distinct)
    (w.qsort.sort (rangecomp (fileVersion g.ipVersion file)) (recorded g)) (networksOf g) _ (Cursor.in_head _)
  have counts : ∀ t, naive (fileVersion g.ipVersion file) (hashSort (leaseEnv w macs).hash (fileVersion g.ipVersion file)
      (parseLeases (leaseEnv w macs) g.ipVersion w.leaseLine w.leaseAddr file).leases) t =
        Inventory.held (fileVersion g.ipVersion file) (holdings w macs g file) t :=
    fun t => funext (Inventory.naive_hashSort (leaseEnv w macs).hash distinct t)
  have ordered := w.qsort.permutes (rangecomp (fileVersion g.ipVersion file)) (recorded g)
  have here := networks k
  simp only [counts, Inventory.total_perm k _ ordered] at here
  rw [counted, analyse, version]
  simp [doCounting, prepareData, Ne.symm other, here]

/-- Only the order of the ranges may be missing. -/
theorem analysis_arranged (w : World) (s : Settings) (macs : Bool) (g : Globals) (file : List Char) : analysis w s macs g file =
    (arrange w s (fileVersion g.ipVersion file) (networkAt g (counted w macs g file).sharedNetworks)
      (counted w macs g file).ranges).map fun ranges => { tables w s macs g file with ranges := ranges } := by
  obtain ⟨version, -, -⟩ := parseLeases_inv (leaseEnv w macs) g.ipVersion w.leaseLine w.leaseAddr file
  rw [counted, analyse, version]
  simp only [analysis, version, Option.bind_eq_bind, tables, counted, analyse]
  rw [Option.map_eq_bind]
  rfl

/-- What is printed, when nothing is read outside the tables. -/
theorem analysis_spec (selected : ∀ c ∈ s.sorts, selects c = true) (few : g.numRanges < 2 ^ 31) :
    analysis w s macs g file = some (tables w s macs g file) := by
  have size : (counted w macs g file).ranges.length < 2 ^ 31 := by rwa [counted_length]
  rw [analysis_arranged, arrange_spec w selected _ _ size]
  rfl

theorem main_tables (reads : Reads w os s function macs g file) (few : g.numRanges < 2 ^ 31) :
    main w os = (outputAnalysis w s macs g function (tables w s macs g file)).elim (.error .outside) .ok := by
  rw [main_reads reads, report, analysis_spec (accepted reads.options) few]
  rfl

theorem tables_inOrder (reads : Reads w os s function macs g file) (sorts : Sorts w.qsort) :
    (tables w s macs g file).ranges.Pairwise
      (InOrder s (tables w s macs g file).ipVersion (networkAt g (tables w s macs g file).sharedNetworks)) :=
  ordered_inOrder (accepted reads.options) _ (counted_sorted sorts)

/-- Only the perfdata of the alarm report may be read outside the tables. -/
theorem outputAnalysis_isSome (plain : function = .alarming → s.alarms.perfdata = false) (a : Analysis) :
    ∃ out, outputAnalysis w s macs g function a = some out := by
  cases function with
  | alarming =>
    obtain ⟨out, printed⟩ := Alarm.outputAlarming_plain { s.alarms with backupsFound := a.backupsFound } a.ipVersion
      w.programName a.ranges a.past a.sharedNetworks (plain rfl)
    exact ⟨_, by rw [outputAnalysis, printed, Option.map_some]⟩
  | _ => exact ⟨_, rfl⟩

/-- With accepted sort keys a report fails only in the perfdata. -/
theorem report_isSome (selected : ∀ c ∈ s.sorts, selects c = true) (few : g.numRanges < 2 ^ 31)
    (plain : function = .alarming → s.alarms.perfdata = false) : ∃ out, report w s macs g function file = some out := by
  obtain ⟨out, printed⟩ := outputAnalysis_isSome plain (tables w s macs g file)
  refine ⟨out, ?_⟩
  rw [report, analysis_spec selected few]
  exact printed

end

/-! ## A sample run -/

theorem insertionQsort_sorts : Sorts Occupancy.insertionQsort := by
  intro v ranges
  have : Std.Total fun a b : Range => Occupancy.rangecomp v a b ≤ 0 := by
    refine ⟨fun a b => ?_⟩
    simp only [Occupancy.rangecomp, ipcomp_nonpos]
    omega
  have : IsTrans Range fun a b => Occupancy.rangecomp v a b ≤ 0 := by
    refine ⟨fun a b c first second => ?_⟩
    simp only [Occupancy.rangecomp, ipcomp_nonpos] at *
    omega
  exact List.pairwise_insertionSort _ _

/-- A lease in a file for `ConfigRanges.sampleTree`. -/
def sampleLeases : List Char := "lease 10.0.0.5 \x7b\n  binding state active;\n\x7d\n".toList

def sampleWorld : World where
  build := sampleBuild
  buffers := sampleBuffers
  strtod := sampleStrtod
  inet := ConfigReader.sampleInet
  ntop := dottedQuads
  hash := LeaseFile.listHash
  qsort := Occupancy.insertionQsort
  undef _ := 0
  files := ConfigRanges.sampleFile.files
  leaseFiles _ := some sampleLeases
  depth := 1
  ranges _ := ⟨none, .ofV4 0, .ofV4 0, 0, 0, 0⟩
  sharedNetworks _ := ⟨[], 0, 0, 0, 0, 0⟩
  tmpRanges _ := ⟨none, .ofV4 0, .ofV4 0, 0, 0, 0⟩
  before := '\x00'
  configAddr := .ofV4 0
  leaseLine := []
  leaseAddr := .ofV4 0
  fresh _ := .ofV4 0
  programName := "dhcpd-pools".toList
  lastModified := []
  packageString := []
  packageUrl := []

def sampleArgs : List Opt := [.sort "ci".toList, .reverse, .format "J".toList]

def sampleSettings : Settings := settled sampleStrtod (defaults sampleBuild sampleBuffers) sampleArgs

theorem sample_options : run (option sampleStrtod) (defaults sampleBuild sampleBuffers) sampleArgs = .ok sampleSettings :=
  run_goes sampleStrtod _ (by decide +kernel)

/-- The file that `sampleWorld` has. -/
def sampleSource : ConfigCanonical.Source (configEnv sampleWorld sampleSettings) .IPv4 :=
  .ofTree ConfigRanges.sampleTree (by decide +kernel) ConfigRanges.sampleTree_valid

/-- What is read, the version that the ranges decide, and the tables. -/
theorem sample_fills : ∃ g, Reads sampleWorld sampleArgs sampleSettings .json true g sampleLeases ∧ g.ipVersion = .IPv4 ∧
    ConfigTables.Fills (prepareMemory sampleWorld) g
      (ConfigTables.declared (configEnv sampleWorld sampleSettings) .IPv4 sampleSource.tree 0 0).ranges
      (ConfigTables.declared (configEnv sampleWorld sampleSettings) .IPv4 sampleSource.tree 0 0).networks := by
  obtain ⟨g, made, fills⟩ := @ConfigRanges.parseConfig_fills (configEnv sampleWorld sampleSettings) .IPv4
    (cstr sampleSettings.dhcpdconfFile) 0 (prepareMemory sampleWorld) sampleSource rfl rfl (fun shared => by cases shared)
    (Or.inl rfl) (by decide +kernel)
  have count : g.numRanges = 2 := fills.numRanges
  refine ⟨g, ⟨sample_options, rfl, made, rfl⟩, ?_, fills⟩
  rcases ConfigRanges.parseConfig_decides sampleSource rfl rfl (Or.inl rfl) made with decided | ⟨-, same⟩
  · exact decided
  · cases count.symm.trans same

theorem sample_reads : ∃ g, Reads sampleWorld sampleArgs sampleSettings .json true g sampleLeases ∧ g.numRanges = 2 := by
  obtain ⟨g, reads, -, fills⟩ := sample_fills
  exact ⟨g, reads, fills.numRanges⟩

/-! ## The order of the report -/

section
variable {w : World} {os : List Opt} {s : Settings} {function : OutputFunction} {macs : Bool} {g : Globals} {file : List Char}

/-- Whatever is read, the report has the ranges that were counted, each once, in the order
    that is asked for: by the keys of all `-s` in turn, what they leave open from the highest
    address on; without keys by the addresses; and with `-r` the other way round. -/
theorem main_order (reads : Reads w os s function macs g file) (few : g.numRanges < 2 ^ 31) (sorts : Sorts w.qsort) :
    ∃ a : Analysis, main w os = (outputAnalysis w s macs g function a).elim (.error .outside) .ok ∧
      a.sharedNetworks = (counted w macs g file).sharedNetworks ∧ a.ranges.Perm (counted w macs g file).ranges ∧
      a.ranges.Pairwise (InOrder s a.ipVersion (networkAt g a.sharedNetworks)) :=
  ⟨tables w s macs g file, main_tables reads few, rfl, ordered_perm .., tables_inOrder reads sorts⟩

end

theorem main_order_sample : ∃ g a, main sampleWorld sampleArgs =
      (outputAnalysis sampleWorld sampleSettings true g .json a).elim (.error .outside) .ok ∧
    a.ranges.Pairwise (InOrder sampleSettings a.ipVersion (networkAt g a.sharedNetworks)) := by
  obtain ⟨g, reads, count⟩ := sample_reads
  obtain ⟨a, ran, -, -, sorted⟩ := main_order reads (by rw [count]; decide) insertionQsort_sorts
  exact ⟨g, a, ran, sorted⟩

/-! ## A canonical configuration -/

section
open ConfigTree ConfigTables ConfigCanonical LeaseVersion LeaseFile Counting Inventory
variable {w : World} {g : Globals} {ranges : List Range} {nets : List SharedNetwork}

theorem recorded_fills (fills : Fills (prepareMemory w) g ranges nets) : recorded g = ranges := by
  have count : g.numRanges = ranges.length := fills.numRanges.trans (Nat.zero_add _)
  have rows := fills.ranges.added_rows
  rw [recorded, count]
  simpa only [prepareMemory, Nat.zero_add] using rows

theorem networksOf_fills (fills : Fills (prepareMemory w) g ranges nets) :
    networksOf g = (prepareMemory w).sharedNetworks 0 :: nets := by
  have count : g.numSharedNetworks = nets.length := fills.numNetworks.trans (Nat.zero_add _)
  have rows := fills.networks.added_rows
  rw [networksOf, count, List.range_succ_eq_map, List.map_cons, List.map_map]
  congr 1
  · exact fills.networks.before 0 (Nat.succ_pos _)
  · simpa only [prepareMemory, Nat.zero_add, Nat.add_comm 1, Function.comp_def] using rows

/-- What a tree declares has not been counted yet. -/
theorem declared_untouched (env : ConfigReader.Env) (v : DhcpVersion) (T : Config) (owner n : Nat) :
    Untouched (declared env v T owner n).ranges ((prepareMemory w).sharedNetworks 0 :: (declared env v T owner n).networks) := by
  have zero := @declared_forall env v (fun r => r.count = 0 ∧ r.touched = 0 ∧ r.backups = 0)
    (fun net => net.available = 0 ∧ net.used = 0 ∧ net.touched = 0 ∧ net.backups = 0) ?_ (fun _ => ⟨rfl, rfl, rfl, rfl⟩) ?_ T
    owner n
  · refine ⟨⟨zero.1, ?_, List.cons_ne_nil _ _⟩, fun net member => (zero.2 net member).1⟩
    intro net member
    rcases List.mem_cons.mp member with rfl | declared
    · simp [prepareMemory]
    · exact (zero.2 net declared).2
  · intro a b owner
    unfold entry
    split_ifs <;> exact ⟨rfl, rfl, rfl⟩
  · intro net mask
    cases mask <;> exact ⟨rfl, rfl, rfl, rfl⟩

theorem fileVersion_fixed {v : DhcpVersion} (known : v ≠ .IPvUNKNOWN) (file : List Char) : fileVersion v file = v := by
  cases v with
  | IPvUNKNOWN => exact absurd rfl known
  | _ => rfl

variable {os : List Opt} {s : Settings} {function : OutputFunction} {macs : Bool} {file : List Char} {v : DhcpVersion}

/-- What a configuration file declares. -/
def declaredBy (src : Source (configEnv w s) v) : Declared := declared (configEnv w s) v src.tree 0 0

/-- What has been read of a canonical configuration. -/
theorem reads_canonical (options : run (option w.strtod) (defaults w.build w.buffers) os = .ok s)
    (format : selectFormat s.printMacAddresesTmp = .ok (function, macs))
    (src : Source (configEnv w s) v) (text : w.files (cstr s.dhcpdconfFile) = some src.text) (none : src.tree.includes = [])
    (contiguous : s.allAsShared = true → ∀ m ∈ masks src.tree, Contiguous (address w.inet v m).v4)
    (networks : (declaredBy src).networks.length ≤ 8190) (deep : w.depth ≠ 0)
    (leases : w.leaseFiles (cstr s.dhcpdleaseFile) = some file) :
    ∃ g, Reads w os s function macs g file ∧
      Fills (prepareMemory w) g (declaredBy src).ranges (declaredBy src).networks ∧
      ((declaredBy src).ranges ≠ [] → g.ipVersion = v) := by
  obtain ⟨depth, nested⟩ := Nat.exists_eq_succ_of_ne_zero deep
  have room : (prepareMemory w).numSharedNetworks + (declared (configEnv w s) v src.tree 0 0).networks.length ≤ 8190 :=
    (Nat.zero_add _).trans_le networks
  obtain ⟨g, made, fills⟩ := @ConfigRanges.parseConfig_fills _ _ _ depth _ src text none contiguous (Or.inl rfl) room
  refine ⟨g, ⟨options, format, by rw [nested]; exact made, leases⟩, fills, fun filled => ?_⟩
  have count : g.numRanges = (declaredBy src).ranges.length := fills.numRanges.trans (Nat.zero_add _)
  rcases ConfigRanges.parseConfig_decides src text none (Or.inl rfl) made with decided | ⟨-, same⟩
  · exact decided
  · exact absurd (List.length_eq_zero_iff.mp (count.symm.trans same)) filled

end

end DhcpdPools.Program
