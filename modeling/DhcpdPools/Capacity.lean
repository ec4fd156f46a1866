import DhcpdPools.Counting
import DhcpdPools.RangeSize

/-!
The capacities that `do_counting` leaves. Counting leases moves no range and changes
no `available` (`countRange_frame`), so the first loop adds the converted sizes of the
ranges to their networks and the second the sizes themselves. Both are the same number
exactly when every size is in the range of the conversion (`capacities_iff`).
-/
namespace DhcpdPools.Capacity
open Counting RangeSize

/-! ## Counting leases changes no capacity -/

/-- The bounds and the network of a range are those of another one. -/
structure SamePlace (r s : Range) : Prop where
  sharedNet : r.sharedNet = s.sharedNet
  firstIp : r.firstIp = s.firstIp
  lastIp : r.lastIp = s.lastIp

theorem countLease_frame (st : Range × List SharedNetwork) (l : Lease) :
    SamePlace (countLease st l).1 st.1 ∧
      (countLease st l).2.map (·.available) = st.2.map (·.available) := by
  obtain ⟨r, nets⟩ := st
  refine ⟨?_, ?_⟩
  · cases type : l.type <;> exact ⟨by simp [countLease, bumpRange, type], by simp [countLease, bumpRange, type],
      by simp [countLease, bumpRange, type]⟩
  · cases pointer : r.sharedNet with
    | none => simp [countLease, pointer]
    | some k =>
      have same : ∀ n, (bumpShared l.type n).available = n.available := by
        intro n
        cases l.type <;> rfl
      apply List.ext_getElem?
      intro i
      simp only [countLease, pointer, List.getElem?_map, List.getElem?_modify]
      cases nets[i]? with
      | none => rfl
      | some n =>
        by_cases here : k = i <;> simp [here, same]

theorem SamePlace.trans {r s t : Range} (first : SamePlace r s) (second : SamePlace s t) : SamePlace r t :=
  ⟨first.1.trans second.1, first.2.trans second.2, first.3.trans second.3⟩

theorem foldl_frame (body : Range × List SharedNetwork → Lease → Range × List SharedNetwork)
    (step : ∀ st l, body st l = st ∨ body st l = countLease st l) (leases : List Lease)
    (st : Range × List SharedNetwork) :
    SamePlace (leases.foldl body st).1 st.1 ∧
      (leases.foldl body st).2.map (·.available) = st.2.map (·.available) := by
  induction leases generalizing st with
  | nil => exact ⟨⟨rfl, rfl, rfl⟩, rfl⟩
  | cons l rest ih =>
    obtain ⟨place, available⟩ := ih (body st l)
    rw [List.foldl_cons]
    rcases step st l with stays | counts
    · rw [stays] at place available ⊢
      exact ⟨place, available⟩
    · obtain ⟨place', available'⟩ := countLease_frame st l
      rw [counts] at place available ⊢
      exact ⟨place.trans place', available.trans available'⟩

/-- Whatever the leases are and wherever the cursor stands. -/
theorem countRange_frame (v : DhcpVersion) (leases : List Lease) (r : Range) (nets : List SharedNetwork)
    (l : Option (Cursor Lease)) :
    SamePlace (countRange v leases r nets l).1.1 r ∧
      (countRange v leases r nets l).1.2.map (·.available) = nets.map (·.available) := by
  obtain ⟨start, loop⟩ : ∃ start, countRange v leases r nets l = Cursor.scan (fun x => decide (ipcomp v x.ip r.lastIp ≤ 0))
      (fun st x => if ipcomp v x.ip r.firstIp < 0 then st else countLease st x) (r, nets) start := ⟨_, rfl⟩
  rw [loop]
  cases start with
  | none => exact ⟨⟨rfl, rfl, rfl⟩, rfl⟩
  | some c =>
    rw [Cursor.scan_acc]
    refine foldl_frame _ ?_ _ (r, nets)
    intro st x
    by_cases low : ipcomp v x.ip r.firstIp < 0
    · exact Or.inl (if_pos low)
    · exact Or.inr (if_neg low)

/-! ## Both loops -/

theorem blockSize_place (undef : ℚ → ℕ) (v : DhcpVersion) {r s : Range} (place : SamePlace r s) :
    blockSize undef v r = blockSize undef v s := by
  rw [blockSize, blockSize, getRangeSize_congr v place.firstIp place.lastIp]

/-- The capacity of a network, if there is one with that index. -/
def availableAt (nets : List SharedNetwork) (k : Nat) : Option ℚ := nets[k]?.map (·.available)

theorem availableAt_addBlock (undef : ℚ → ℕ) (v : DhcpVersion) (r : Range) (nets : List SharedNetwork) (k : Nat) :
    availableAt (addBlock undef v r nets) k =
      (availableAt nets k).map (· + if r.sharedNet = some k then blockSize undef v r else 0) := by
  rw [addBlock_raise, availableAt, getElem?_raiseAt, availableAt, Option.map_map, Option.map_map]
  rfl

/-- The first loop adds the converted sizes to the networks of the ranges. -/
theorem countRanges_available (undef : ℚ → ℕ) (v : DhcpVersion) (leases : List Lease) (ranges : List Range)
    (nets : List SharedNetwork) (l : Option (Cursor Lease)) :
    (countRanges undef v leases ranges nets l).1.map (getRangeSize v) = ranges.map (getRangeSize v) ∧
      ∀ k, availableAt (countRanges undef v leases ranges nets l).2 k =
        (availableAt nets k).map (· + total k (blockSize undef v) ranges) := by
  induction ranges generalizing nets l with
  | nil => simp [countRanges, total]
  | cons r rest ih =>
    obtain ⟨place, available⟩ := countRange_frame v leases r nets l
    obtain ⟨sizes, later⟩ := ih (addBlock undef v (countRange v leases r nets l).1.1
      (countRange v leases r nets l).1.2) (countRange v leases r nets l).2
    refine ⟨?_, ?_⟩
    · rw [countRanges, List.map_cons, List.map_cons, sizes, getRangeSize_congr v place.firstIp place.lastIp]
    · intro k
      have before : availableAt (countRange v leases r nets l).1.2 k = availableAt nets k := by
        simpa [availableAt] using congrArg (fun column => column[k]?) available
      simp only [countRanges, later, availableAt_addBlock, before, place.sharedNet, blockSize_place undef v place,
        Option.map_map, total_cons]
      congr 1
      funext x
      simp [add_assoc]

/-- What `do_counting` leaves in `available`. -/
theorem doCounting_available (undef : ℚ → ℕ) (v : DhcpVersion) (leases : List Lease) (ranges : List Range)
    (all : SharedNetwork) (nets : List SharedNetwork) :
    availableAt (doCounting undef v leases ranges (all :: nets)).sharedNetworks 0 =
        some (ranges.map (getRangeSize v)).sum ∧
      ∀ k, availableAt (doCounting undef v leases ranges (all :: nets)).sharedNetworks (k + 1) =
        (availableAt nets k).map (· + total (k + 1) (blockSize undef v) ranges) := by
  obtain ⟨sizes, networks⟩ := countRanges_available undef v leases ranges (all :: nets) (Cursor.head leases)
  refine ⟨?_, ?_⟩
  · obtain ⟨n, found, -⟩ := Option.map_eq_some_iff.mp (networks 0)
    simp [doCounting, availableAt, found, sumRanges_spec, raiseShared, sizes]
  · intro k
    have other : availableAt (doCounting undef v leases ranges (all :: nets)).sharedNetworks (k + 1) =
        availableAt (countRanges undef v leases ranges (all :: nets) (Cursor.head leases)).2 (k + 1) := by
      simp [doCounting, availableAt]
    rw [other, networks]
    rfl

/-! ## The conversion -/

/-- The numbers for which the conversion to `unsigned long` is defined. -/
def Converts (x : ℚ) : Prop := -1 < x ∧ x < 2 ^ 64

instance (x : ℚ) : Decidable (Converts x) := inferInstanceAs (Decidable (_ ∧ _))

/-- The range is not reversed by more than one address and has fewer than 2^64
    addresses; in IPv4 mode every size is a 32-bit number. -/
def Fits (v : DhcpVersion) (r : Range) : Prop :=
  v = .IPv4 ∨ key v r.firstIp ≤ key v r.lastIp + 1 ∧ key v r.lastIp + 1 < key v r.firstIp + 2 ^ 64

instance (v : DhcpVersion) (r : Range) : Decidable (Fits v r) := inferInstanceAs (Decidable (_ ∨ _))

/-- Every size is an integer. -/
theorem getRangeSize_int {v : DhcpVersion} (known : v ≠ .IPvUNKNOWN) (r : Range) :
    ∃ size : ℤ, getRangeSize v r = size ∧ ((-1 < size ∧ size < 2 ^ 64) ↔ Fits v r) := by
  cases v with
  | IPvUNKNOWN => exact absurd rfl known
  | IPv4 =>
    refine ⟨(r.lastIp.v4 - r.firstIp.v4 + 1).toNat, rfl, ?_⟩
    have small := (r.lastIp.v4 - r.firstIp.v4 + 1).isLt
    constructor
    · exact fun _ => Or.inl rfl
    · intro _
      omega
  | IPv6 =>
    refine ⟨key .IPv6 r.lastIp - key .IPv6 r.firstIp + 1, ?_, ?_⟩
    · rw [getRangeSize_v6]
      push_cast
      rfl
    · simp only [Fits, reduceCtorEq, false_or]
      omega

theorem converts_iff {v : DhcpVersion} (known : v ≠ .IPvUNKNOWN) (r : Range) :
    Converts (getRangeSize v r) ↔ Fits v r := by
  obtain ⟨size, same, bounds⟩ := getRangeSize_int known r
  rw [← bounds, same, Converts]
  norm_cast

/-- A size in the range of the conversion is added as it is. -/
theorem blockSize_eq (undef : ℚ → ℕ) {v : DhcpVersion} (known : v ≠ .IPvUNKNOWN) {r : Range}
    (fits : Converts (getRangeSize v r)) : blockSize undef v r = getRangeSize v r := by
  have converted : toUnsignedLong undef (getRangeSize v r) = ⌊getRangeSize v r⌋.toNat := if_pos fits
  rw [blockSize, converted]
  obtain ⟨size, same, -⟩ := getRangeSize_int known r
  have positive : 0 ≤ size := by
    have low : ((-1 : ℤ) : ℚ) < size := by simpa [same] using fits.1
    have := Int.cast_lt.mp low
    omega
  rw [same, Int.floor_intCast]
  exact_mod_cast Int.toNat_of_nonneg positive

/-! ## Summing the networks -/

theorem total_congr (k : Nat) {f g : Range → ℚ} {ranges : List Range} (same : ∀ r ∈ ranges, f r = g r) :
    total k f ranges = total k g ranges := by
  rw [total, total, List.map_congr_left]
  intro r member
  exact same r (List.mem_of_mem_filter member)

/-- Ranges that all belong to one of some networks are summed network by network. -/
theorem sum_total (f : Range → ℚ) (n : Nat) (ranges : List Range)
    (owned : ∀ r ∈ ranges, ∃ k < n, r.sharedNet = some (k + 1)) :
    ∑ k ∈ Finset.range n, total (k + 1) f ranges = (ranges.map f).sum := by
  induction ranges with
  | nil => simp [total]
  | cons r rest ih =>
    obtain ⟨k, inside, pointer⟩ := owned r List.mem_cons_self
    have later := ih (fun s member => owned s (List.mem_cons_of_mem r member))
    have first : ∑ i ∈ Finset.range n, (if r.sharedNet = some (i + 1) then f r else 0) = f r := by
      simp [pointer, inside]
    simp only [total_cons, Finset.sum_add_distrib, first, later, List.map_cons, List.sum_cons]

theorem sum_available (nets : List SharedNetwork) (g : Nat → ℚ)
    (each : ∀ k < nets.length, availableAt nets k = some (g k)) :
    (nets.map (·.available)).sum = ∑ k ∈ Finset.range nets.length, g k := by
  rw [Finset.sum_range, ← Fin.sum_univ_getElem]
  refine Finset.sum_equiv (finCongr (by simp)) (by simp) ?_
  intro i _
  have inside : i.val < nets.length := by simpa using i.isLt
  have here := each i.val inside
  simp only [availableAt, List.getElem?_eq_getElem inside, Option.map_some, Option.some.injEq] at here
  simp [here]

/-! ## Capacities -/

/-- The capacities are the sums of the sizes, and come from defined conversions; the
    networks sum up to the entry 0 when every range belongs to one of them. -/
structure Capacities (undef : ℚ → ℕ) (v : DhcpVersion) (leases : List Lease) (ranges : List Range)
    (nets : List SharedNetwork) : Prop where
  networks : ∀ k n, k ≠ 0 → (doCounting undef v leases ranges nets).sharedNetworks[k]? = some n →
    n.available = total k (getRangeSize v) ranges
  conversions : ∀ r ∈ ranges, Converts (getRangeSize v r)
  summary : (∀ r ∈ ranges, ∃ k, k ≠ 0 ∧ k < nets.length ∧ r.sharedNet = some k) →
    ((doCounting undef v leases ranges nets).sharedNetworks.tail.map (·.available)).sum =
      ((doCounting undef v leases ranges nets).sharedNetworks.head?.map (·.available)).getD 0

theorem availableAt_isSome (nets : List SharedNetwork) (k : Nat) :
    (availableAt nets k).isSome ↔ k < nets.length := by
  simp [availableAt]

/-- Networks that hold the sums of their ranges sum up to all ranges. -/
theorem sum_networks {f : Range → ℚ} {ranges : List Range} {rest nets : List SharedNetwork}
    (each : ∀ k, availableAt rest k = nets[k]?.map (fun _ => total (k + 1) f ranges))
    (owned : ∀ r ∈ ranges, ∃ k < nets.length, r.sharedNet = some (k + 1)) :
    (rest.map (·.available)).sum = (ranges.map f).sum := by
  have inside : ∀ k, k < rest.length ↔ k < nets.length := by
    intro k
    rw [← availableAt_isSome, each]
    simp
  have held : ∀ k < rest.length, availableAt rest k = some (total (k + 1) f ranges) := by
    intro k here
    rw [each, List.getElem?_eq_getElem ((inside k).mp here), Option.map_some]
  rw [sum_available rest (fun k => total (k + 1) f ranges) held]
  refine sum_total f rest.length ranges ?_
  intro r member
  obtain ⟨k, here, pointer⟩ := owned r member
  exact ⟨k, (inside k).mpr here, pointer⟩

/-- Where every size can be converted, each network gets the sizes of its ranges. -/
theorem network_available (undef : ℚ → ℕ) {v : DhcpVersion} (known : v ≠ .IPvUNKNOWN) (leases : List Lease)
    {ranges : List Range} (all : SharedNetwork) {nets : List SharedNetwork} (zero : ∀ n ∈ nets, n.available = 0)
    (conversions : ∀ r ∈ ranges, Converts (getRangeSize v r)) (k : Nat) :
    availableAt (doCounting undef v leases ranges (all :: nets)).sharedNetworks (k + 1) =
      nets[k]?.map (fun _ => total (k + 1) (getRangeSize v) ranges) := by
  rw [(doCounting_available undef v leases ranges all nets).2,
    total_congr (k + 1) (fun r member => blockSize_eq undef known (conversions r member)), availableAt, Option.map_map]
  refine Option.map_congr ?_
  intro n found
  simp [zero n (List.mem_of_getElem? found)]

/-- The capacities are right exactly when the size of every range can be converted. -/
theorem capacities_iff (undef : ℚ → ℕ) {v : DhcpVersion} (known : v ≠ .IPvUNKNOWN) (leases : List Lease)
    (ranges : List Range) (all : SharedNetwork) (nets : List SharedNetwork)
    (zero : ∀ n ∈ nets, n.available = 0) :
    Capacities undef v leases ranges (all :: nets) ↔ ∀ r ∈ ranges, Fits v r := by
  constructor
  · intro capacities r member
    exact (converts_iff known r).mp (capacities.conversions r member)
  · intro fit
    have conversions : ∀ r ∈ ranges, Converts (getRangeSize v r) := fun r member =>
      (converts_iff known r).mpr (fit r member)
    have each := network_available undef known leases all zero conversions
    refine ⟨?_, conversions, ?_⟩
    · intro k n other found
      obtain ⟨k, rfl⟩ := Nat.exists_eq_succ_of_ne_zero other
      have here := each k
      rw [availableAt, found, Option.map_some] at here
      obtain ⟨-, -, same⟩ := Option.map_eq_some_iff.mp here.symm
      exact same.symm
    · intro owned
      have summary := (doCounting_available undef v leases ranges all nets).1
      cases table : (doCounting undef v leases ranges (all :: nets)).sharedNetworks with
      | nil => simp [availableAt, table] at summary
      | cons first rest =>
        rw [table] at each summary
        have sums := @sum_networks (getRangeSize v) ranges rest nets each (by
          intro r member
          obtain ⟨k, other, inside, pointer⟩ := owned r member
          obtain ⟨k, rfl⟩ := Nat.exists_eq_succ_of_ne_zero other
          exact ⟨k, Nat.lt_of_succ_lt_succ inside, pointer⟩)
        rw [List.tail_cons, sums]
        simpa [availableAt] using summary.symm

/-- A range of twenty addresses in the only shared network. -/
def sampleRange : Range := ⟨some 1, .ofV4 0x0a000001, .ofV4 0x0a000014, 0, 0, 0⟩

/-- The widest range that fits: 2^64 - 1 addresses. -/
def widestRange : Range :=
  ⟨some 1, ⟨Vector.replicate 16 0⟩,
    ⟨#v[0, 0, 0, 0, 0, 0, 0, 0, 0xff, 0xff, 0xff, 0xff, 0xff, 0xff, 0xff, 0xfe]⟩, 0, 0, 0⟩

theorem capacities_iff_sample : Capacities (fun _ => 0) .IPv4 [] [sampleRange] sampleNetworks ∧
    Capacities (fun _ => 0) .IPv6 [] [widestRange] sampleNetworks := by
  have each := fun (v : DhcpVersion) (known : v ≠ .IPvUNKNOWN) (r : Range) =>
    capacities_iff (fun _ => 0) known [] [r] ⟨[], 0, 0, 0, 0, 0⟩ [⟨[], 0, 0, 0, 0, 0⟩] (by decide +kernel)
  exact ⟨(each .IPv4 (by decide) sampleRange).mpr (by decide +kernel),
    (each .IPv6 (by decide) widestRange).mpr (by decide +kernel)⟩

/-- With 2^72 addresses in it, the network has whatever the machine makes of that number. -/
theorem wide_range_loses_capacity :
    key .IPv6 wideRange.firstIp ≤ key .IPv6 wideRange.lastIp ∧
      ¬Capacities (fun _ => 0) .IPv6 [] [{ wideRange with sharedNet := some 1 }] sampleNetworks := by
  refine ⟨by decide +kernel, ?_⟩
  intro capacities
  have lost := capacities.networks 1 ⟨[], 0, 0, 0, 0, 0⟩ (by decide) (by decide +kernel)
  exact absurd lost (by decide +kernel)

end DhcpdPools.Capacity
