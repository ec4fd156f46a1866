import DhcpdPools.Counting
import DhcpdPools.RangeSize
import DhcpdPools.LeaseVersion

/-!
No range is more than full (`analyse_full`): the lease table has one entry for an
address whatever the lease file repeats, the cursor counts an entry at most once for
each range, and a range has as many addresses as its size says.
-/
namespace DhcpdPools.Occupancy
open Counting RangeSize LeaseFile LeaseVersion KeyedTable

/-- `rangecomp`. -/
def rangecomp (v : DhcpVersion) (r1 r2 : Range) : Int := ipcomp v r1.firstIp r2.firstIp

/-- The sorting function of the system: which of two equal elements comes first is unspecified. -/
structure Qsort where
  sort : (Range → Range → Int) → List Range → List Range
  permutes : ∀ compar ranges, (sort compar ranges).Perm ranges

/-- `prepare_data`: the leases and the ranges in the order of their addresses. -/
def prepareData (hash : Uthash) (qsort : Qsort) (v : DhcpVersion) (leases : List Lease) (ranges : List Range) :
    List Lease × List Range :=
  (hashSort hash v leases, qsort.sort (rangecomp v) ranges)

/-- What `main` does between reading the configuration and sorting the report:
    `parse_leases`, `prepare_data` and `do_counting`. -/
def analyse (env : Env) (qsort : Qsort) (undef : ℚ → ℕ) (v : DhcpVersion) (junk : List Char) (addr : Ipaddr)
    (file : List Char) (ranges : List Range) (nets : List SharedNetwork) : Counted :=
  let data := parseLeases env v junk addr file
  let prepared := prepareData env.hash qsort data.ipVersion data.leases ranges
  doCounting undef data.ipVersion prepared.1 prepared.2 nets

/-! ## Counting the leases of an interval -/

/-- Every lease has one of the three types. -/
theorem tally_total (leases : List Lease) :
    tally leases .ACTIVE + tally leases .FREE + tally leases .BACKUP = leases.length := by
  induction leases with
  | nil => simp [tally]
  | cons l rest ih =>
    have type : one l.type .ACTIVE + one l.type .FREE + one l.type .BACKUP = 1 := by
      cases l.type <;> simp [one]
    rw [tally_cons, tally_cons, tally_cons, List.length_cons, Nat.cast_succ, ← ih, ← type]
    ring

/-- Distinct numbers in an interval are at most as many as the interval has. -/
theorem interval_length {numbers : List Nat} {first last : Nat} (distinct : numbers.Nodup)
    (inside : ∀ n ∈ numbers, first ≤ n ∧ n ≤ last) : numbers.length ≤ last + 1 - first := by
  rw [← List.toFinset_card_of_nodup distinct, ← Nat.card_Icc]
  refine Finset.card_le_card ?_
  intro n member
  exact Finset.mem_Icc.mpr (inside n (List.mem_toFinset.mp member))

/-- The leases within a range are at most as many as its addresses. -/
theorem within_length {v : DhcpVersion} {leases : List Lease} (sorted : Sorted v leases) (r : Range) :
    (leases.filter (fun l => decide (Within v r l))).length ≤ key v r.lastIp + 1 - key v r.firstIp := by
  rw [← List.length_map (f := ipKey v)]
  apply interval_length
  · refine List.pairwise_map.mpr ((sorted.filter _).imp ?_)
    intro a b less
    exact Nat.ne_of_lt less
  · intro n member
    obtain ⟨l, filtered, rfl⟩ := List.mem_map.mp member
    have within : Within v r l := by simpa using (List.mem_filter.mp filtered).2
    rw [Within, ipcomp_nonpos, ipcomp_nonpos] at within
    exact within

/-- The three counts of a range together are at most its size. -/
theorem naive_total {v : DhcpVersion} (known : v ≠ .IPvUNKNOWN) {leases : List Lease} (sorted : Sorted v leases)
    {r : Range} (ordered : key v r.firstIp ≤ key v r.lastIp) (part : ¬Whole v r) :
    naive v leases .ACTIVE r + naive v leases .FREE r + naive v leases .BACKUP r ≤ getRangeSize v r := by
  have total := tally_total (leases.filter (fun l => decide (Within v r l)))
  have bound := within_length sorted r
  have size : getRangeSize v r = ((key v r.lastIp + 1 - key v r.firstIp : ℕ) : ℚ) := by
    rw [getRangeSize_eq known ordered part, Nat.cast_sub (by omega)]
    push_cast
    ring
  calc naive v leases .ACTIVE r + naive v leases .FREE r + naive v leases .BACKUP r
      = ((leases.filter (fun l => decide (Within v r l))).length : ℚ) := total
    _ ≤ ((key v r.lastIp + 1 - key v r.firstIp : ℕ) : ℚ) := by exact_mod_cast bound
    _ = getRangeSize v r := size.symm

/-! ## The whole run -/

/-- The figures of the reports for a range: no more leases than addresses, a free
    figure that is not negative and percentages of at most 100. -/
structure NotOverfull (v : DhcpVersion) (r : Range) : Prop where
  leases : r.count + r.touched + r.backups ≤ getRangeSize v r
  free : 0 ≤ getRangeSize v r - r.count
  percent : 100 * r.count / getRangeSize v r ≤ 100
  touchedPercent : 100 * (r.touched + r.count) / getRangeSize v r ≤ 100

theorem notOverfull_of_total {v : DhcpVersion} {r : Range} (counts : 0 ≤ r.count ∧ 0 ≤ r.touched ∧ 0 ≤ r.backups)
    (leases : r.count + r.touched + r.backups ≤ getRangeSize v r) : NotOverfull v r := by
  obtain ⟨count, touched, backups⟩ := counts
  have size : 0 ≤ getRangeSize v r := by linarith
  refine ⟨leases, by linarith, ?_, ?_⟩
  · exact div_le_of_le_mul₀ size (by norm_num) (by linarith)
  · exact div_le_of_le_mul₀ size (by norm_num) (by linarith)

/-- Whatever the lease file says and however the ranges overlap, no range is more than
    full after `do_counting`. `fileVersion v file` is the version when the leases are counted. -/
theorem analyse_full (env : Env) (qsort : Qsort) (undef : ℚ → ℕ) (v : DhcpVersion) (junk : List Char) (addr : Ipaddr)
    (file : List Char) (ranges : List Range) (nets : List SharedNetwork)
    (zero : ∀ r ∈ ranges, r.count = 0 ∧ r.touched = 0 ∧ r.backups = 0)
    (ordered : ∀ r ∈ ranges, key (fileVersion v file) r.firstIp ≤ key (fileVersion v file) r.lastIp)
    (part : ∀ r ∈ ranges, ¬Whole (fileVersion v file) r) :
    ∀ r ∈ (analyse env qsort undef v junk addr file ranges nets).ranges, NotOverfull (fileVersion v file) r := by
  intro r member
  obtain ⟨version, -, distinct⟩ := parseLeases_inv env v junk addr file
  have known := fileVersion_known v file
  rw [analyse, prepareData, version] at member
  generalize fileVersion v file = w at *
  have sorted : Sorted w (hashSort env.hash w (parseLeases env v junk addr file).leases) := by
    apply hashSort_sorted
    refine (List.pairwise_map.mp distinct).imp ?_
    intro a b differ same
    exact differ ((ipcomp_zero w a.ip b.ip).mp same)
  obtain ⟨counted, -⟩ := countRanges_spec undef sorted (qsort.sort (rangecomp w) ranges) nets _ (Cursor.in_head _)
  simp only [doCounting, counted] at member
  obtain ⟨start, inside, rfl⟩ := List.mem_map.mp member
  have old := (qsort.permutes (rangecomp w) ranges).mem_iff.mp inside
  obtain ⟨count, touched, backups⟩ := zero start old
  have total := naive_total known sorted (ordered start old) (part start old)
  apply notOverfull_of_total
  · simp [raise, count, touched, backups, naive_nonneg]
  · rw [getRangeSize_raise]
    simpa [raise, count, touched, backups] using total

/-- Insertion sort. -/
def insertionQsort : Qsort where
  sort compar ranges := ranges.insertionSort (fun a b => compar a b ≤ 0)
  permutes _ ranges := List.perm_insertionSort _ ranges

/-- Two ranges that overlap. -/
def sampleRanges : List Range :=
  [⟨some 0, .ofV4 0x0a000005, .ofV4 0x0a000005, 0, 0, 0⟩, ⟨some 0, .ofV4 0x0a000001, .ofV4 0x0a000014, 0, 0, 0⟩]

/-- The ranges, one lease of a file in both. -/
def sampleAnalysis : List Range :=
  (analyse sampleEnv insertionQsort (fun _ => 0) .IPv4 [] ⟨Vector.replicate 16 0⟩ sampleFile sampleRanges sampleNetworks).ranges

theorem analyse_full_sample :
    sampleAnalysis.map Range.touched = [1, 1] ∧ ∀ r ∈ sampleAnalysis, NotOverfull .IPv4 r :=
  ⟨by decide +kernel, analyse_full sampleEnv insertionQsort (fun _ => 0) .IPv4 [] ⟨Vector.replicate 16 0⟩ sampleFile sampleRanges
    sampleNetworks (by decide +kernel) (by decide +kernel) (by decide +kernel)⟩

end DhcpdPools.Occupancy
