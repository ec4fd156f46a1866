import DhcpdPools.Capacity
import DhcpdPools.Census
import DhcpdPools.Occupancy

/-!
What the program is for, without cursors and counters: the lease file leaves a state for
some addresses, and a range is reported with the number of its addresses in each state
(`Surveyed`). `parse_leases`, `prepare_data` and `do_counting` compute this inventory for
every lease file and every range table (`analyse_surveyed`).
-/
namespace DhcpdPools.Inventory
open Census Counting KeyedTable LeaseFile LeaseVersion Occupancy

/-! ## The inventory -/

/-- What is known of the addresses: the state, and the hardware address. -/
abbrev Holdings := Nat → Option (Ltype × Option (List Char))

def isType (t : Ltype) (e : Ltype × Option (List Char)) : Bool := e.1 = t

section
variable (undef : ℚ → ℕ) (v : DhcpVersion) (m : Holdings)

/-- How many addresses of a range are in a state. -/
def held (t : Ltype) (r : Range) : ℚ := census m (isType t) (key v r.firstIp) (key v r.lastIp)

/-- A range with its figures. -/
def surveyed (r : Range) : Range :=
  { r with count := held v m .ACTIVE r, touched := held v m .FREE r, backups := held v m .BACKUP r }

/-- A shared network with the sums over its ranges. -/
def surveyedNetwork (ranges : List Range) (k : Nat) (n : SharedNetwork) : SharedNetwork :=
  { n with
    available := total k (blockSize undef v) ranges
    used := total k (held v m .ACTIVE) ranges
    touched := total k (held v m .FREE) ranges
    backups := total k (held v m .BACKUP) ranges }

/-- The sums over all ranges; the backups outside the shared networks count twice. -/
def surveyedSum (ranges : List Range) (all : SharedNetwork) : SharedNetwork :=
  { all with
    available := (ranges.map (getRangeSize v)).sum
    used := (ranges.map (held v m .ACTIVE)).sum
    touched := (ranges.map (held v m .FREE)).sum
    backups := total 0 (held v m .BACKUP) ranges + (ranges.map (held v m .BACKUP)).sum }

/-- The tables are the inventory of these ranges and networks. -/
structure Surveyed (declared : List Range) (nets : List SharedNetwork) (out : Counted) : Prop where
  ranges : out.ranges.Perm (declared.map (surveyed v m))
  networks : ∀ k n, k ≠ 0 → nets[k]? = some n → out.sharedNetworks[k]? = some (surveyedNetwork undef v m declared k n)
  summary : ∀ all, nets.head? = some all → out.sharedNetworks.head? = some (surveyedSum v m declared all)
  length : out.sharedNetworks.length = nets.length

/-- Without ranges there is nothing to be known. -/
theorem Surveyed.nothing {undef : ℚ → ℕ} {v : DhcpVersion} {m : Holdings} {nets : List SharedNetwork} {out : Counted}
    (empty : Surveyed undef v m [] nets out) (v' : DhcpVersion) (m' : Holdings) : Surveyed undef v' m' [] nets out :=
  ⟨empty.ranges, empty.networks, empty.summary, empty.length⟩

/-- The order of the ranges does not matter. -/
theorem Surveyed.arranged {undef : ℚ → ℕ} {v : DhcpVersion} {m : Holdings} {declared : List Range} {nets : List SharedNetwork}
    {out : Counted} (right : Surveyed undef v m declared nets out) {ranges : List Range} (same : ranges.Perm out.ranges) :
    Surveyed undef v m declared nets ⟨ranges, out.sharedNetworks⟩ :=
  ⟨same.trans right.ranges, right.networks, right.summary, right.length⟩

end

/-- The tables that `parse_config` leaves for this: all counters are 0; `available` of the
    entry 0 is not initialised. -/
structure Untouched (ranges : List Range) (nets : List SharedNetwork) : Prop extends Fresh ranges nets where
  available : ∀ n ∈ nets.tail, n.available = 0

/-! ## The program computes it -/

section
variable {v : DhcpVersion} {leases : List Lease}

/-- The leases of a type in a range, by their addresses. -/
theorem naive_held (distinct : Distinct (ipKey v) leases) (t : Ltype) (r : Range) :
    naive v leases t r = held v (tableMap v leases) t r := by
  have within : (fun l => decide (Within v r l)) =
      fun l => decide (key v r.firstIp ≤ ipKey v l ∧ ipKey v l ≤ key v r.lastIp) := by
    funext l
    refine decide_eq_decide.mpr ?_
    rw [Within, ipcomp_nonpos, ipcomp_nonpos]
    rfl
  have counts := census_table distinct (fun l => decide (l.type = t)) (key v r.firstIp) (key v r.lastIp)
  rw [naive, within, held, counts]
  congr 1
  refine census_congr ?_
  intro k _ _
  rw [tableMap, Option.any_map]
  rfl

/-- Which table the hash has made of the leases does not matter. -/
theorem tableMap_perm {leases' : List Lease} (distinct : Distinct (ipKey v) leases) (same : leases'.Perm leases) :
    tableMap v leases' = tableMap v leases := by
  have distinct' : Distinct (ipKey v) leases' := (same.map _).nodup_iff.mpr distinct
  funext k
  unfold tableMap
  congr 1
  refine Option.ext fun l => ?_
  constructor
  · intro found
    obtain ⟨member, rfl⟩ := get_mem found
    exact get_of_mem distinct (same.mem_iff.mp member)
  · intro found
    obtain ⟨member, rfl⟩ := get_mem found
    exact get_of_mem distinct' (same.mem_iff.mpr member)

theorem total_perm (k : Nat) (f : Range → ℚ) {ranges ranges' : List Range} (same : ranges'.Perm ranges) :
    total k f ranges' = total k f ranges :=
  ((same.filter _).map f).sum_eq

end

/-- A hash table has one entry for an address, so sorted it is what `do_counting` relies on. -/
theorem hashSort_distinct (hash : Uthash) {v : DhcpVersion} {leases : List Lease} (distinct : Distinct (ipKey v) leases) :
    Sorted v (hashSort hash v leases) := by
  apply hashSort_sorted
  refine (List.pairwise_map.mp distinct).imp ?_
  intro a b differ same
  exact differ ((ipcomp_zero v a.ip b.ip).mp same)

theorem sorted_distinct {v : DhcpVersion} {leases : List Lease} (sorted : Sorted v leases) : Distinct (ipKey v) leases :=
  List.pairwise_map.mpr (sorted.imp Nat.ne_of_lt)

theorem tableMap_hashSort (hash : Uthash) {v : DhcpVersion} {leases : List Lease} (distinct : Distinct (ipKey v) leases) :
    tableMap v (hashSort hash v leases) = tableMap v leases :=
  tableMap_perm distinct (hash.permutes _ leases)

/-- The naive count over the sorted table is the one over the addresses. -/
theorem naive_hashSort (hash : Uthash) {v : DhcpVersion} {leases : List Lease} (distinct : Distinct (ipKey v) leases)
    (t : Ltype) (r : Range) : naive v (hashSort hash v leases) t r = held v (tableMap v leases) t r := by
  have hashed : (hashSort hash v leases).Perm leases := hash.permutes _ leases
  rw [naive_held ((hashed.map _).nodup_iff.mpr distinct), tableMap_hashSort hash distinct]

section
variable (undef : ℚ → ℕ) {v : DhcpVersion} {m : Holdings} {leases : List Lease} (sorted : Sorted v leases)
  (counts : ∀ t, naive v leases t = held v m t) {ranges : List Range}
include sorted counts

theorem doCounting_ranges (zero : ∀ r ∈ ranges, r.count = 0 ∧ r.touched = 0 ∧ r.backups = 0) (nets : List SharedNetwork) :
    (doCounting undef v leases ranges nets).ranges = ranges.map (surveyed v m) := by
  obtain ⟨counted, -⟩ := countRanges_spec undef sorted ranges nets (Cursor.head leases) (Cursor.in_head leases)
  rw [doCounting, counted]
  refine List.map_congr_left ?_
  intro r member
  obtain ⟨count, touched, backups⟩ := zero r member
  simp [raise, surveyed, counts, count, touched, backups]

theorem doCounting_network {nets : List SharedNetwork} {k : Nat} (other : k ≠ 0) {n : SharedNetwork}
    (at_k : nets[k]? = some n) (zero : n.available = 0 ∧ n.used = 0 ∧ n.touched = 0 ∧ n.backups = 0) :
    (doCounting undef v leases ranges nets).sharedNetworks[k]? = some (surveyedNetwork undef v m ranges k n) := by
  obtain ⟨-, networks⟩ := countRanges_spec undef sorted ranges nets (Cursor.head leases) (Cursor.in_head leases)
  obtain ⟨available, used, touched, backups⟩ := zero
  simp [doCounting, Ne.symm other, networks, at_k, raiseShared, surveyedNetwork, counts, available, used, touched, backups]

theorem doCounting_summary (zero : ∀ r ∈ ranges, r.count = 0 ∧ r.touched = 0 ∧ r.backups = 0) {all : SharedNetwork}
    (start : all.backups = 0) (nets : List SharedNetwork) :
    (doCounting undef v leases ranges (all :: nets)).sharedNetworks.head? = some (surveyedSum v m ranges all) := by
  rw [summary_spec undef sorted, sumRanges_spec, doCounting_ranges undef sorted counts zero]
  have sizes : (ranges.map (surveyed v m)).map (getRangeSize v) = ranges.map (getRangeSize v) := by
    rw [List.map_map]
    exact List.map_congr_left fun r _ => getRangeSize_congr v rfl rfl
  rw [sizes]
  simp [raiseShared, surveyedSum, start, counts, Function.comp_def, surveyed]

omit counts in
theorem doCounting_length (nets : List SharedNetwork) :
    (doCounting undef v leases ranges nets).sharedNetworks.length = nets.length := by
  obtain ⟨-, networks⟩ := countRanges_spec undef sorted ranges nets (Cursor.head leases) (Cursor.in_head leases)
  have some_ : ∀ (l : List SharedNetwork) (k : Nat), l[k]?.isSome = true ↔ k < l.length := fun l k => by simp
  have there : ∀ k, k < (countRanges undef v leases ranges nets (Cursor.head leases)).2.length ↔ k < nets.length := by
    intro k
    rw [← some_, ← some_, networks, Option.isSome_map]
  have last := there nets.length
  have first := there (countRanges undef v leases ranges nets (Cursor.head leases)).2.length
  rw [doCounting, List.length_modify]
  omega

end

/-- From a table with one entry for an address, `prepare_data` and `do_counting` compute the inventory. -/
theorem doCounting_surveyed (undef : ℚ → ℕ) (hash : Uthash) (qsort : Qsort) {v : DhcpVersion} {leases : List Lease}
    {ranges : List Range} {nets : List SharedNetwork} (distinct : Distinct (ipKey v) leases) (untouched : Untouched ranges nets) :
    Surveyed undef v (tableMap v leases) ranges nets
      (doCounting undef v (prepareData hash qsort v leases ranges).1 (prepareData hash qsort v leases ranges).2 nets) := by
  have sorted := hashSort_distinct hash distinct
  have ordered := qsort.permutes (rangecomp v) ranges
  have counts : ∀ t, naive v (hashSort hash v leases) t = held v (tableMap v leases) t :=
    fun t => funext (naive_hashSort hash distinct t)
  have zero : ∀ r ∈ qsort.sort (rangecomp v) ranges, r.count = 0 ∧ r.touched = 0 ∧ r.backups = 0 :=
    fun r member => untouched.ranges r (ordered.mem_iff.mp member)
  constructor
  · rw [prepareData, doCounting_ranges undef sorted counts zero]
    exact ordered.map _
  · intro k n other at_k
    have fresh := untouched.networks n (List.mem_of_getElem? at_k)
    have behind : n ∈ nets.tail := by
      obtain ⟨j, rfl⟩ := Nat.exists_eq_succ_of_ne_zero other
      exact List.mem_of_getElem? (by rwa [List.getElem?_tail])
    rw [prepareData, doCounting_network undef sorted counts other at_k ⟨untouched.available n behind, fresh⟩]
    simp only [surveyedNetwork, total_perm k _ ordered]
  · intro all first
    obtain ⟨rest, rfl⟩ := List.head?_eq_some_iff.mp first
    rw [prepareData, doCounting_summary undef sorted counts zero (untouched.networks all List.mem_cons_self).2.2]
    simp only [surveyedSum, total_perm 0 _ ordered, (ordered.map _).sum_eq]
  · exact doCounting_length undef sorted nets

/-- `parse_leases`, `prepare_data` and `do_counting` compute the inventory for every lease file. -/
theorem analyse_surveyed (env : Env) (qsort : Qsort) (undef : ℚ → ℕ) (v : DhcpVersion) (junk : List Char) (addr : Ipaddr)
    (file : List Char) {ranges : List Range} {nets : List SharedNetwork} (untouched : Untouched ranges nets) :
    Surveyed undef (fileVersion v file) (tableMap (fileVersion v file) (parseLeases env v junk addr file).leases) ranges nets
      (analyse env qsort undef v junk addr file ranges nets) := by
  obtain ⟨version, -, distinct⟩ := parseLeases_inv env v junk addr file
  rw [analyse, version]
  exact doCounting_surveyed undef env.hash qsort distinct untouched

end DhcpdPools.Inventory
