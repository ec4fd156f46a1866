import DhcpdPools.Inventory

/-!
What the sums say of the leases and of the ranges. A lease counts in a sum once for each
of its ranges that hold it, so where ranges overlap a sum is more than the number of leases
(`analyse_coverage`). Into how many ranges a block of addresses is cut does not matter
(`analyse_cut`).
-/
namespace DhcpdPools.Coverage
open Capacity Census Counting Inventory KeyedTable LeaseFile LeaseVersion Occupancy RangeSize

/-! ## Leases in several ranges -/

section
variable (v : DhcpVersion)

/-- In how many of the ranges a lease is. -/
def holders (ranges : List Range) (l : Lease) : Nat := ranges.countP fun r => decide (Within v r l)

/-- The leases of a type, each as often as ranges hold it. -/
def covered (leases : List Lease) (ranges : List Range) (t : Ltype) : ℚ :=
  (((leases.filter fun l => decide (l.type = t)).map (holders v ranges)).sum : ℕ)

/-- The number of leases of a type that are in some range. -/
def inside (leases : List Lease) (ranges : List Range) (t : Ltype) : ℚ :=
  (leases.countP fun l => decide (l.type = t ∧ ∃ r ∈ ranges, Within v r l) : ℕ)

/-- The ranges of a shared network. -/
def rangesOf (k : Nat) (ranges : List Range) : List Range := ranges.filter fun r => decide (r.sharedNet = some k)

/-- No address is in both ranges; a range that is written backwards has none. -/
def Apart (a b : Range) : Prop :=
  key v a.lastIp < key v b.firstIp ∨ key v b.lastIp < key v a.firstIp ∨
    key v a.lastIp < key v a.firstIp ∨ key v b.lastIp < key v b.firstIp

instance (a b : Range) : Decidable (Apart v a b) := inferInstanceAs (Decidable (_ ∨ _))

end

section
variable {v : DhcpVersion} {leases : List Lease} {ranges : List Range}

theorem held_covered (distinct : Distinct (ipKey v) leases) (t : Ltype) :
    (ranges.map (held v (tableMap v leases) t)).sum = covered v leases ranges t := by
  have each : ranges.map (held v (tableMap v leases) t) = (ranges.map fun r =>
      (leases.filter fun l => decide (Within v r l)).countP fun l => decide (l.type = t)).map (fun n : ℕ => (n : ℚ)) := by
    rw [List.map_map]
    refine List.map_congr_left ?_
    intro r _
    exact (naive_held distinct t r).symm
  rw [each, ← Nat.cast_list_sum, sum_countP (fun r l => decide (Within v r l))]
  rfl

/-- Among ranges without common addresses at most one holds a lease. -/
theorem holders_apart (apart : ranges.Pairwise (Apart v)) (l : Lease) : holders v ranges l ≤ 1 := by
  rw [holders, List.countP_eq_length_filter]
  have both := (apart.filter fun r => decide (Within v r l))
  cases found : ranges.filter fun r => decide (Within v r l) with
  | nil => exact Nat.zero_le 1
  | cons a rest =>
    cases rest with
    | nil => exact Nat.le_refl 1
    | cons b rest =>
      rw [found] at both
      have all : ∀ r ∈ a :: b :: rest, Within v r l := by
        intro r member
        rw [← found] at member
        exact of_decide_eq_true (List.mem_filter.mp member).2
      have first := all a List.mem_cons_self
      have second := all b (List.mem_cons_of_mem _ List.mem_cons_self)
      simp only [Within, ipcomp_nonpos] at first second
      rcases (List.pairwise_cons.mp both).1 b List.mem_cons_self with low | high | backwards | backwards <;> omega

/-- Then each lease counts once. -/
theorem covered_apart (apart : ranges.Pairwise (Apart v)) (t : Ltype) :
    covered v leases ranges t = inside v leases ranges t := by
  have each : ∀ l, holders v ranges l = if decide (∃ r ∈ ranges, Within v r l) then 1 else 0 := by
    intro l
    have bound := holders_apart apart l
    by_cases inside : ∃ r ∈ ranges, Within v r l
    · have positive : 0 < holders v ranges l := List.countP_pos_iff.mpr (by simpa using inside)
      rw [if_pos (by simpa using inside)]
      omega
    · have none : holders v ranges l = 0 := List.countP_eq_zero.mpr (by simpa using inside)
      rw [none, if_neg (by simpa using inside)]
  rw [covered, List.map_congr_left fun l _ => each l, sum_ones, List.countP_filter, inside]
  refine congrArg Nat.cast (List.countP_congr ?_)
  intro l _
  simp [and_comm]

end

/-- The sums as counts of leases. -/
structure Covered (v : DhcpVersion) (leases : List Lease) (ranges : List Range) (nets : List SharedNetwork) (out : Counted) :
    Prop where
  networks : ∀ k n, k ≠ 0 → nets[k]? = some n → ∃ n', out.sharedNetworks[k]? = some n' ∧
    n'.used = covered v leases (rangesOf k ranges) .ACTIVE ∧ n'.touched = covered v leases (rangesOf k ranges) .FREE ∧
    n'.backups = covered v leases (rangesOf k ranges) .BACKUP
  summary : ∀ all, nets.head? = some all → ∃ all', out.sharedNetworks.head? = some all' ∧
    all'.used = covered v leases ranges .ACTIVE ∧ all'.touched = covered v leases ranges .FREE

/-- In every sum a lease counts once for each range that holds it. The sums are numbers of
    leases when the ranges have no common addresses. -/
theorem analyse_coverage (env : Env) (qsort : Qsort) (undef : ℚ → ℕ) (v : DhcpVersion) (junk : List Char) (addr : Ipaddr)
    (file : List Char) {ranges : List Range} {nets : List SharedNetwork} (untouched : Untouched ranges nets) :
    Covered (fileVersion v file) (parseLeases env v junk addr file).leases ranges nets
        (analyse env qsort undef v junk addr file ranges nets) ∧
      (ranges.Pairwise (Apart (fileVersion v file)) → ∀ ranges', ranges'.Sublist ranges → ∀ t,
        covered (fileVersion v file) (parseLeases env v junk addr file).leases ranges' t =
          inside (fileVersion v file) (parseLeases env v junk addr file).leases ranges' t) := by
  have surveyed := analyse_surveyed env qsort undef v junk addr file untouched
  obtain ⟨-, -, distinct⟩ := parseLeases_inv env v junk addr file
  refine ⟨⟨?_, ?_⟩, ?_⟩
  · intro k n other found
    refine ⟨_, surveyed.networks k n other found, ?_⟩
    exact ⟨held_covered distinct .ACTIVE, held_covered distinct .FREE, held_covered distinct .BACKUP⟩
  · intro all first
    exact ⟨_, surveyed.summary all first, held_covered distinct .ACTIVE, held_covered distinct .FREE⟩
  · exact fun apart ranges' part t => covered_apart (apart.sublist part) t

/-- One lease of the file is in both ranges. -/
theorem analyse_coverage_sample :
    Covered .IPv4 (parseLeases sampleEnv .IPv4 [] ⟨Vector.replicate 16 0⟩ sampleFile).leases Occupancy.sampleRanges
      sampleNetworks (analyse sampleEnv insertionQsort (fun _ => 0) .IPv4 [] ⟨Vector.replicate 16 0⟩ sampleFile
        Occupancy.sampleRanges sampleNetworks) :=
  (analyse_coverage sampleEnv insertionQsort (fun _ => 0) .IPv4 [] ⟨Vector.replicate 16 0⟩ sampleFile
    ⟨⟨by decide +kernel, by decide +kernel, by decide +kernel⟩, by decide +kernel⟩).1

/-! ## Ranges that are cut -/

/-- The ranges `a` and `b` are the lower and the upper part of `r`. -/
structure Cut (v : DhcpVersion) (r a b : Range) : Prop where
  first : a.firstIp = r.firstIp
  last : b.lastIp = r.lastIp
  low : key v r.firstIp ≤ key v a.lastIp
  next : key v b.firstIp = key v a.lastIp + 1
  high : key v b.firstIp ≤ key v r.lastIp
  sharedNet : a.sharedNet = r.sharedNet ∧ b.sharedNet = r.sharedNet
  part : ¬Whole v r
  fits : Fits v r

/-- The same addresses in the same networks, in any order and cut in any way. -/
inductive Recut (v : DhcpVersion) : List Range → List Range → Prop where
  | cut {r a b : Range} (parts : Cut v r a b) (rest : List Range) : Recut v (r :: rest) (a :: b :: rest)
  | perm {ranges ranges' : List Range} (same : ranges.Perm ranges') : Recut v ranges ranges'
  | symm {ranges ranges' : List Range} (other : Recut v ranges' ranges) : Recut v ranges ranges'
  | trans {ranges ranges' ranges'' : List Range} (first : Recut v ranges ranges') (second : Recut v ranges' ranges'') :
    Recut v ranges ranges''

section
variable {v : DhcpVersion} {r a b : Range}

theorem held_cut (parts : Cut v r a b) (m : Holdings) (t : Ltype) : held v m t r = held v m t a + held v m t b := by
  have high : key v a.lastIp ≤ key v r.lastIp := by
    have := parts.next
    have := parts.high
    omega
  rw [held, held, held, parts.first, parts.last, parts.next, census_split (Nat.le_succ_of_le parts.low) high]
  push_cast
  rfl

theorem getRangeSize_cut (known : v ≠ .IPvUNKNOWN) (parts : Cut v r a b) :
    getRangeSize v r = getRangeSize v a + getRangeSize v b := by
  obtain ⟨first, last, low, next, high, -, part, -⟩ := parts
  have lower : ¬Whole v a := by
    rintro ⟨rfl, -, top⟩
    have bound := b.firstIp.v4.isLt
    change b.firstIp.v4.toNat = _ at next
    omega
  have upper : ¬Whole v b := by
    rintro ⟨-, zero, -⟩
    omega
  rw [getRangeSize_eq known (by omega) part, getRangeSize_eq known (by rw [first]; exact low) lower,
    getRangeSize_eq known (by rw [last]; exact high) upper, first, last, next]
  push_cast
  ring

theorem Cut.fits_parts (parts : Cut v r a b) : Fits v a ∧ Fits v b := by
  obtain ⟨first, last, low, next, high, -, -, fits⟩ := parts
  rcases fits with v4 | ⟨-, small⟩
  · exact ⟨Or.inl v4, Or.inl v4⟩
  · constructor
    · rw [Fits, first]
      omega
    · rw [Fits, last]
      omega

theorem blockSize_cut (undef : ℚ → ℕ) (known : v ≠ .IPvUNKNOWN) (parts : Cut v r a b) :
    blockSize undef v r = blockSize undef v a + blockSize undef v b := by
  have size : ∀ s, Fits v s → blockSize undef v s = getRangeSize v s :=
    fun s fits => blockSize_eq undef known ((converts_iff known s).mpr fits)
  rw [size r parts.fits, size a parts.fits_parts.1, size b parts.fits_parts.2, getRangeSize_cut known parts]

end

section
variable {v : DhcpVersion} {ranges ranges' : List Range}

/-- A figure of which a range has as much as its two parts have. -/
theorem Recut.sums (recut : Recut v ranges ranges') {f : Range → ℚ} (adds : ∀ r a b, Cut v r a b → f r = f a + f b) :
    (∀ k, total k f ranges = total k f ranges') ∧ (ranges.map f).sum = (ranges'.map f).sum := by
  induction recut with
  | cut parts rest =>
    constructor
    · intro k
      simp only [total_cons, parts.sharedNet.1, parts.sharedNet.2, adds _ _ _ parts]
      split_ifs <;> ring
    · simp only [List.map_cons, List.sum_cons, adds _ _ _ parts]
      ring
  | perm same => exact ⟨fun k => (total_perm k f same.symm).symm, (same.map f).sum_eq⟩
  | symm other ih => exact ⟨fun k => (ih.1 k).symm, ih.2.symm⟩
  | trans first second ih ih' => exact ⟨fun k => (ih.1 k).trans (ih'.1 k), ih.2.trans ih'.2⟩

/-- The sums determine the networks. -/
theorem surveyed_recut {undef : ℚ → ℕ} (known : v ≠ .IPvUNKNOWN) {m : Holdings} {nets : List SharedNetwork} {out out' : Counted}
    (recut : Recut v ranges ranges') (right : Surveyed undef v m ranges nets out) (right' : Surveyed undef v m ranges' nets out') :
    out.sharedNetworks = out'.sharedNetworks := by
  have leases := fun t => recut.sums fun r a b parts => held_cut parts m t
  have sizes := recut.sums fun r a b parts => getRangeSize_cut known parts
  have blocks := recut.sums fun r a b parts => blockSize_cut undef known parts
  have same : ∀ k n, surveyedNetwork undef v m ranges k n = surveyedNetwork undef v m ranges' k n := by
    intro k n
    simp only [surveyedNetwork, (leases _).1, blocks.1]
  have sums : ∀ all, surveyedSum v m ranges all = surveyedSum v m ranges' all := by
    intro all
    simp only [surveyedSum, (leases _).1, (leases _).2, sizes.2]
  refine List.ext_getElem? ?_
  intro k
  cases found : nets[k]? with
  | none =>
    have outside := List.getElem?_eq_none_iff.mp found
    rw [List.getElem?_eq_none (by rw [right.length]; exact outside), List.getElem?_eq_none (by rw [right'.length]; exact outside)]
  | some n =>
    cases k with
    | zero =>
      rw [← List.head?_eq_getElem?] at found
      rw [← List.head?_eq_getElem?, ← List.head?_eq_getElem?, right.summary n found, right'.summary n found, sums]
    | succ k => rw [right.networks _ n (Nat.succ_ne_zero k) found, right'.networks _ n (Nat.succ_ne_zero k) found, same]

end

/-- Into which ranges the configuration cuts the addresses of a network, and in which order
    it names them, changes no figure of any shared network and none of the summary. -/
theorem analyse_recut (env : Env) (qsort : Qsort) (undef : ℚ → ℕ) (v : DhcpVersion) (junk : List Char) (addr : Ipaddr)
    (file : List Char) {ranges ranges' : List Range} {nets : List SharedNetwork}
    (recut : Recut (fileVersion v file) ranges ranges') (untouched : Untouched ranges nets) (untouched' : Untouched ranges' nets) :
    (analyse env qsort undef v junk addr file ranges nets).sharedNetworks =
      (analyse env qsort undef v junk addr file ranges' nets).sharedNetworks :=
  surveyed_recut (fileVersion_known v file) recut (analyse_surveyed env qsort undef v junk addr file untouched)
    (analyse_surveyed env qsort undef v junk addr file untouched')

def samplePart (first last : BitVec 32) : Range := ⟨some 0, .ofV4 first, .ofV4 last, 0, 0, 0⟩

/-- `Occupancy.sampleRanges` with the wide range in two parts. -/
def sampleParts : List Range :=
  [samplePart 0x0a000001 0x0a000007, samplePart 0x0a000008 0x0a000014, samplePart 0x0a000005 0x0a000005]

theorem analyse_recut_sample :
    (analyse sampleEnv insertionQsort (fun _ => 0) .IPv4 [] ⟨Vector.replicate 16 0⟩ sampleFile Occupancy.sampleRanges
        sampleNetworks).sharedNetworks =
      (analyse sampleEnv insertionQsort (fun _ => 0) .IPv4 [] ⟨Vector.replicate 16 0⟩ sampleFile sampleParts
        sampleNetworks).sharedNetworks := by
  have parts : Cut .IPv4 (samplePart 0x0a000001 0x0a000014) (samplePart 0x0a000001 0x0a000007)
      (samplePart 0x0a000008 0x0a000014) :=
    ⟨rfl, rfl, by decide +kernel, by decide +kernel, by decide +kernel, ⟨rfl, rfl⟩, by decide +kernel, by decide +kernel⟩
  have recut : Recut .IPv4 Occupancy.sampleRanges sampleParts :=
    (Recut.perm (List.Perm.swap _ _ _)).trans (Recut.cut parts [samplePart 0x0a000005 0x0a000005])
  exact analyse_recut sampleEnv insertionQsort (fun _ => 0) .IPv4 [] ⟨Vector.replicate 16 0⟩ sampleFile recut
    ⟨⟨by decide +kernel, by decide +kernel, by decide +kernel⟩, by decide +kernel⟩
    ⟨⟨by decide +kernel, by decide +kernel, by decide +kernel⟩, by decide +kernel⟩

end DhcpdPools.Coverage
