import DhcpdPools.ConfigRecords
import DhcpdPools.Program

/-!
The tables of a report on any configuration, whatever its layout and the files that it
includes: names that can be printed in quotes (`main_names`), ranges that point into the
table of networks and are not more than full, and a summary that is the sum of the networks
and of what is outside of them (`main_totals`).
-/
namespace DhcpdPools.Totals
open Machine CommandLine ConfigReader ConfigAppends ConfigRoom ConfigRecords Program Counting Inventory LeaseVersion
open Capacity Occupancy RangeSize
open ConfigReader (Globals)

/-! ## Sums over the networks -/

/-- A sum over ranges that belong to the first `m` networks is one over these. -/
theorem sum_total {m : Nat} (f : Range → ℚ) {ranges : List Range} (owned : ∀ r ∈ ranges, ∃ k < m, r.sharedNet = some k) :
    (ranges.map f).sum = ∑ k ∈ Finset.range m, total k f ranges := by
  induction ranges with
  | nil => simp [total]
  | cons r rest ih =>
    obtain ⟨k, inside, owner⟩ := owned r List.mem_cons_self
    have here : ∑ j ∈ Finset.range m, (if r.sharedNet = some j then f r else 0) = f r := by
      simp [owner, inside]
    simp only [total_cons, Finset.sum_add_distrib, here]
    rw [List.map_cons, List.sum_cons, ih fun r' member => owned r' (List.mem_cons_of_mem _ member)]

/-- The entries behind the first one, in a table that is known by its places. -/
theorem sum_tail {nets : List SharedNetwork} {m : Nat} (length : nets.length = m + 1) (f : SharedNetwork → ℚ) {F : Nat → ℚ}
    (rows : ∀ k, k ≠ 0 → ∀ n, nets[k]? = some n → f n = F k) : (nets.tail.map f).sum = ∑ k ∈ Finset.range m, F (k + 1) := by
  have values : nets.tail.map f = (List.range m).map fun k => F (k + 1) := by
    refine List.ext_getElem (by simp [length]) ?_
    intro k first second
    have inside : k + 1 < nets.length := by simpa [length] using second
    simp only [List.getElem_map, List.getElem_range, List.getElem_tail]
    exact rows (k + 1) (Nat.succ_ne_zero k) _ (List.getElem?_eq_getElem inside)
  rw [values]
  rfl

/-- The first entry is the sum of the others and of the ranges outside; the backups of these
    count twice. -/
structure Adds (v : DhcpVersion) (ranges : List Range) (nets : List SharedNetwork) (all : SharedNetwork) : Prop where
  available : (∀ r ∈ ranges, Fits v r) → all.available = (nets.map (·.available)).sum + total 0 (getRangeSize v) ranges
  used : all.used = (nets.map (·.used)).sum + total 0 (·.count) ranges
  touched : all.touched = (nets.map (·.touched)).sum + total 0 (·.touched) ranges
  backups : all.backups = (nets.map (·.backups)).sum + 2 * total 0 (·.backups) ranges

section
variable {undef : ℚ → ℕ} {v : DhcpVersion} {m : Holdings} {ranges : List Range} {nets : List SharedNetwork} {out : Counted}

theorem total_surveyed (k : Nat) (f : Range → ℚ) (ranges : List Range) :
    total k f (ranges.map (surveyed v m)) = total k (fun r => f (surveyed v m r)) ranges := by
  rw [total, List.filter_map, List.map_map]
  rfl

theorem total_blocks (known : v ≠ .IPvUNKNOWN) (fits : ∀ r ∈ ranges, Fits v r) (k : Nat) :
    total k (blockSize undef v) ranges = total k (getRangeSize v) ranges := by
  unfold total
  congr 1
  refine List.map_congr_left fun r member => ?_
  exact blockSize_eq undef known ((converts_iff known r).mpr (fits r (List.mem_of_mem_filter member)))

/-- The inventory of ranges that belong to the networks of the table adds up. -/
theorem surveyed_adds (known : v ≠ .IPvUNKNOWN) (right : Surveyed undef v m ranges nets out)
    (owned : ∀ r ∈ ranges, ∃ k < nets.length, r.sharedNet = some k) {all : SharedNetwork}
    (first : out.sharedNetworks.head? = some all) : Adds v out.ranges out.sharedNetworks.tail all := by
  obtain ⟨others, split⟩ := List.head?_eq_some_iff.mp first
  have filled : nets ≠ [] := by
    rintro rfl
    simpa [split] using right.length
  obtain ⟨start, rest, rfl⟩ := List.exists_cons_of_ne_nil filled
  have summary := right.summary start rfl
  rw [first] at summary
  obtain rfl : all = surveyedSum v m ranges start := Option.some.inj summary
  have rows : ∀ k, k ≠ 0 → ∀ n, out.sharedNetworks[k]? = some n → ∃ n', n = surveyedNetwork undef v m ranges k n' := by
    intro k other n found
    have inside : k < (start :: rest).length := by
      rw [← right.length]
      exact (List.getElem?_eq_some_iff.mp found).1
    have counted := right.networks k _ other (List.getElem?_eq_getElem inside)
    exact ⟨_, Option.some.inj (found.symm.trans counted)⟩
  have tails : ∀ (f : SharedNetwork → ℚ) (F : Nat → ℚ), (∀ k n', f (surveyedNetwork undef v m ranges k n') = F k) →
      (out.sharedNetworks.tail.map f).sum = ∑ k ∈ Finset.range rest.length, F (k + 1) := by
    intro f F field
    refine sum_tail (by rw [right.length, List.length_cons]) f fun k other n found => ?_
    obtain ⟨n', rfl⟩ := rows k other n found
    exact field k n'
  have sums : ∀ f : Range → ℚ, (ranges.map f).sum = ∑ k ∈ Finset.range rest.length, total (k + 1) f ranges + total 0 f ranges := by
    intro f
    rw [sum_total f owned, List.length_cons, Finset.sum_range_succ']
  have outside : ∀ f : Range → ℚ, total 0 f out.ranges = total 0 (fun r => f (surveyed v m r)) ranges := by
    intro f
    rw [total_perm 0 f right.ranges, total_surveyed]
  constructor
  · intro fits
    have fits' : ∀ r ∈ ranges, Fits v r := fun r member =>
      fits (surveyed v m r) (right.ranges.mem_iff.mpr (List.mem_map_of_mem member))
    rw [tails _ (fun k => total k (blockSize undef v) ranges) fun _ _ => rfl, outside]
    simp only [total_blocks known fits']
    exact sums (getRangeSize v)
  · rw [tails _ (fun k => total k (held v m .ACTIVE) ranges) fun _ _ => rfl, outside]
    exact sums (held v m .ACTIVE)
  · rw [tails _ (fun k => total k (held v m .FREE) ranges) fun _ _ => rfl, outside]
    exact sums (held v m .FREE)
  · rw [tails _ (fun k => total k (held v m .BACKUP) ranges) fun _ _ => rfl, outside]
    have all := sums (held v m .BACKUP)
    simp only [surveyedSum, surveyed]
    linarith

end

/-! ## Reports on any configuration -/

section
variable (w : World)

theorem prepare_sized : Sized (prepareMemory w) := by
  refine ⟨?_, ?_, ?_⟩ <;> simp [prepareMemory, SHARED_NETWORKS]

/-- What `prepare_memory` sets of the first network. -/
theorem prepare_networks : Networks (prepareMemory w) := by
  intro k inside
  obtain rfl : k = 0 := Nat.le_zero.mp inside
  have nameable : Nameable "All networks".toList := ⟨⟨by decide, by decide, by decide⟩, by decide⟩
  exact ⟨nameable, ⟨rfl, rfl, rfl⟩, fun other => absurd rfl other⟩

theorem prepare_entries : Entries (prepareMemory w) := ⟨fun some => absurd rfl some, fun _ none => absurd none (Nat.not_lt_zero _)⟩

/-- In the configuration and all that it includes each entry of `ranges` is made of addresses
    that parsed, the first of them recorded for this entry. -/
def Proper (s : Settings) : Prop :=
  Throughout (configEnv w s) (fun statement t c _ => Addressed (configEnv w s) statement.first t c) w.depth (cstr s.dhcpdconfFile) 0
    (prepareMemory w)

instance (s : Settings) : Decidable (Proper w s) := inferInstanceAs (Decidable (Throughout _ _ _ _ _ _))

end

section
variable {w : World} {os : List Opt} {s : Settings} {function : OutputFunction} {macs : Bool} {g : Globals} {file : List Char}

theorem reads_networks (reads : Reads w os s function macs g file) : Networks g :=
  (parseConfig_names _ _ _ _ _ _ (prepare_sized w) (prepare_networks w) (Nat.zero_le _) reads.config).1

theorem reads_entries (reads : Reads w os s function macs g file) (proper : Proper w s) : Entries g :=
  (parseConfig_entries _ _ _ _ _ _ proper (prepare_sized w) (prepare_networks w) (prepare_entries w) (Nat.zero_le _)
    reads.config).1

theorem mem_recorded {r : Range} (member : r ∈ recorded g) : ∃ i < g.numRanges, g.ranges i = r := by
  obtain ⟨i, inside, rfl⟩ := List.mem_map.mp member
  exact ⟨i, List.mem_range.mp inside, rfl⟩

theorem mem_networksOf {n : SharedNetwork} (member : n ∈ networksOf g) : ∃ k ≤ g.numSharedNetworks, g.sharedNetworks k = n := by
  obtain ⟨k, inside, rfl⟩ := List.mem_map.mp member
  exact ⟨k, Nat.le_of_lt_succ (List.mem_range.mp inside), rfl⟩

/-- Nothing has been counted behind the configuration. -/
theorem reads_untouched (networks : Networks g) (entries : Entries g) : Untouched (recorded g) (networksOf g) := by
  refine ⟨⟨?_, ?_, by simp [networksOf]⟩, ?_⟩
  · intro r member
    obtain ⟨i, inside, rfl⟩ := mem_recorded member
    exact (entries.ranges i inside).counters
  · intro n member
    obtain ⟨k, inside, rfl⟩ := mem_networksOf member
    exact (networks k inside).counters
  · intro n member
    rw [networksOf, List.range_succ_eq_map, List.map_cons, List.tail_cons, List.map_map] at member
    obtain ⟨k, inside, rfl⟩ := List.mem_map.mp member
    exact (networks _ (Nat.succ_le_of_lt (List.mem_range.mp inside))).available (Nat.succ_ne_zero k)

theorem recorded_owned (entries : Entries g) : ∀ r ∈ recorded g, ∃ k < (networksOf g).length, r.sharedNet = some k := by
  intro r member
  obtain ⟨i, inside, rfl⟩ := mem_recorded member
  obtain ⟨k, upto, owner⟩ := (entries.ranges i inside).owner
  exact ⟨k, by simpa [networksOf] using Nat.lt_succ_of_le upto, owner⟩

/-- The tables of the report are the inventory of what was recorded. -/
theorem tables_surveyed (w : World) (s : Settings) (macs : Bool) (file : List Char) (networks : Networks g)
    (entries : Entries g) : Surveyed w.undef (fileVersion g.ipVersion file) (holdings w macs g file) (recorded g) (networksOf g)
      ⟨(tables w s macs g file).ranges, (tables w s macs g file).sharedNetworks⟩ :=
  (analyse_surveyed (leaseEnv w macs) w.qsort w.undef g.ipVersion w.leaseLine w.leaseAddr file
    (reads_untouched networks entries)).arranged (ordered_perm s (fileVersion g.ipVersion file)
      (networkAt g (counted w macs g file).sharedNetworks) (counted w macs g file).ranges)

/-- A range with addresses in order is not more than full. -/
theorem surveyed_full (w : World) (macs : Bool) (g : Globals) (file : List Char) {r : Range}
    (ordered : key (fileVersion g.ipVersion file) r.firstIp ≤ key (fileVersion g.ipVersion file) r.lastIp)
    (part : ¬Whole (fileVersion g.ipVersion file) r) :
    NotOverfull (fileVersion g.ipVersion file) (surveyed (fileVersion g.ipVersion file) (holdings w macs g file) r) := by
  obtain ⟨-, -, distinct⟩ := parseLeases_inv (leaseEnv w macs) g.ipVersion w.leaseLine w.leaseAddr file
  have full := naive_total (fileVersion_known g.ipVersion file) (hashSort_distinct w.hash distinct) ordered part
  simp only [naive_hashSort w.hash distinct] at full
  have counts : ∀ t, 0 ≤ held (fileVersion g.ipVersion file) (holdings w macs g file) t r := fun t => Nat.cast_nonneg _
  refine notOverfull_of_total ⟨counts _, counts _, counts _⟩ ?_
  exact full.trans_eq (getRangeSize_congr _ rfl rfl)

/-- Counting does not change the names. -/
theorem counted_names (w : World) (macs : Bool) (g : Globals) (file : List Char) :
    (counted w macs g file).sharedNetworks.map (·.name) = (networksOf g).map (·.name) := by
  obtain ⟨version, -, distinct⟩ := parseLeases_inv (leaseEnv w macs) g.ipVersion w.leaseLine w.leaseAddr file
  obtain ⟨-, networks⟩ := countRanges_spec w.undef (hashSort_distinct (leaseEnv w macs).hash distinct)
    (w.qsort.sort (rangecomp (fileVersion g.ipVersion file)) (recorded g)) (networksOf g) _ (Cursor.in_head _)
  rw [counted, analyse, version]
  refine List.ext_getElem? fun k => ?_
  simp only [doCounting, prepareData, List.getElem?_map, List.getElem?_modify, networks k]
  cases (networksOf g)[k]? with
  | none => rfl
  | some n => by_cases first : 0 = k <;> simp [first, sumRanges_spec, raiseShared]

/-- Whatever bytes the configuration has, each network in the report has a name that was in the
    word buffer: a string of less than `MAXLEN` characters without a quote or a comment sign. -/
theorem main_names (reads : Reads w os s function macs g file) (few : g.numRanges < 2 ^ 31) :
    ∃ a : Analysis, main w os = (outputAnalysis w s macs g function a).elim (.error .outside) .ok ∧
      ∀ n ∈ a.sharedNetworks, Nameable n.name := by
  refine ⟨tables w s macs g file, main_tables reads few, ?_⟩
  intro n member
  have named : n.name ∈ (networksOf g).map (·.name) := by
    rw [← counted_names w macs g file]
    exact List.mem_map_of_mem member
  obtain ⟨n', declared, same⟩ := List.mem_map.mp named
  obtain ⟨k, inside, rfl⟩ := mem_networksOf declared
  exact same ▸ (reads_networks reads k inside).name

end

theorem main_names_sample : ∃ g a, main sampleWorld sampleArgs =
      (outputAnalysis sampleWorld sampleSettings true g .json a).elim (.error .outside) .ok ∧
    ∀ n ∈ a.sharedNetworks, Nameable n.name := by
  obtain ⟨g, reads, count⟩ := sample_reads
  obtain ⟨a, ran, named⟩ := main_names reads (by rw [count]; decide)
  exact ⟨g, a, ran, named⟩

section
variable {w : World} {os : List Opt} {s : Settings} {function : OutputFunction} {macs : Bool} {g : Globals} {file : List Char}

/-- The tables of a report are the inventory of the ranges that the configuration declares. Each
    range belongs to a network of the table and is not more than full, unless it is all of IPv4;
    and the summary is the sum of the networks and of what is outside of them. -/
theorem main_totals (reads : Reads w os s function macs g file) (few : g.numRanges < 2 ^ 31) (proper : Proper w s) :
    ∃ a : Analysis, main w os = (outputAnalysis w s macs g function a).elim (.error .outside) .ok ∧
      Surveyed w.undef a.ipVersion (holdings w macs g file) (recorded g) (networksOf g) ⟨a.ranges, a.sharedNetworks⟩ ∧
      (∀ r ∈ a.ranges, (∃ k < a.sharedNetworks.length, r.sharedNet = some k) ∧
        (¬Whole a.ipVersion r → NotOverfull a.ipVersion r)) ∧
      ∃ all, a.sharedNetworks.head? = some all ∧ Adds a.ipVersion a.ranges a.sharedNetworks.tail all := by
  have networks := reads_networks reads
  have entries := reads_entries reads proper
  have right := tables_surveyed w s macs file networks entries
  have owned := recorded_owned entries
  refine ⟨tables w s macs g file, main_tables reads few, right, ?_, ?_⟩
  · intro r member
    obtain ⟨r, declared, rfl⟩ := List.mem_map.mp (right.ranges.mem_iff.mp member)
    obtain ⟨k, inside, owner⟩ := owned r declared
    refine ⟨⟨k, right.length ▸ inside, owner⟩, fun part => surveyed_full w macs g file ?_ part⟩
    obtain ⟨i, inside, rfl⟩ := mem_recorded declared
    have known := entries.known (Nat.ne_of_gt (Nat.zero_lt_of_lt inside))
    rw [fileVersion_fixed known]
    exact (entries.ranges i inside).ordered
  · have first : (networksOf g).head? = some (g.sharedNetworks 0) := by
      rw [networksOf, List.range_succ_eq_map]
      rfl
    have summary := right.summary _ first
    exact ⟨_, summary, surveyed_adds (fileVersion_known g.ipVersion file) right owned summary⟩

end

theorem main_totals_sample : ∃ g a all, main sampleWorld sampleArgs =
      (outputAnalysis sampleWorld sampleSettings true g .json a).elim (.error .outside) .ok ∧
    a.sharedNetworks.head? = some all ∧ Adds a.ipVersion a.ranges a.sharedNetworks.tail all := by
  obtain ⟨g, reads, count⟩ := sample_reads
  obtain ⟨a, ran, -, -, all, first, adds⟩ := main_totals reads (by rw [count]; decide) (by decide +kernel)
  exact ⟨g, a, all, ran, first, adds⟩

end DhcpdPools.Totals
