import DhcpdPools.Tables
import DhcpdPools.Cursor

/-!
`do_counting`: one walk over the ranges with a single cursor on the sorted
leases. Wherever the cursor is left by earlier ranges, each range counts exactly
the leases between its bounds (`countRange_spec`), so the first loop adds the
naive counts to every range and to every network (`countRanges_spec`).
-/
namespace DhcpdPools.Counting

/-- The first switch on the lease type: the counter of the range. -/
def bumpRange (t : Ltype) (r : Range) : Range :=
  match t with
  | .FREE => { r with touched := r.touched + 1 }
  | .ACTIVE => { r with count := r.count + 1 }
  | .BACKUP => { r with backups := r.backups + 1 }

/-- The second switch on the lease type: the counter of the shared network. -/
def bumpShared (t : Ltype) (n : SharedNetwork) : SharedNetwork :=
  match t with
  | .FREE => { n with touched := n.touched + 1 }
  | .ACTIVE => { n with used := n.used + 1 }
  | .BACKUP => { n with backups := n.backups + 1 }

/-- The body of the lease loop for a lease in the range. -/
def countLease (st : Range × List SharedNetwork) (l : Lease) : Range × List SharedNetwork :=
  (bumpRange l.type st.1,
    match st.1.sharedNet with
    | none => st.2
    | some k => st.2.modify k (bumpShared l.type))

/-- The rewind loop, the restart at the head and the lease loop for one range. -/
def countRange (v : DhcpVersion) (leases : List Lease) (r : Range) (nets : List SharedNetwork)
    (l : Option (Cursor Lease)) : (Range × List SharedNetwork) × Option (Cursor Lease) :=
  let l := Cursor.rewind (fun x => decide (ipcomp v r.firstIp x.ip < 0)) l
  let l := match l with
    | none => Cursor.head leases
    | some c => some c
  Cursor.scan (fun x => decide (ipcomp v x.ip r.lastIp ≤ 0))
    (fun st x => if ipcomp v x.ip r.firstIp < 0 then st else countLease st x) (r, nets) l

/-- The conversion of a `double` to `unsigned long`. Out of the range of the type
    the language leaves the result undefined: `undef` is what the machine does there. -/
def toUnsignedLong (undef : ℚ → ℕ) (x : ℚ) : ℕ :=
  if -1 < x ∧ x < 2 ^ 64 then ⌊x⌋.toNat else undef x

/-- `range_p->shared_net->available += block_size`. -/
def addBlock (undef : ℚ → ℕ) (v : DhcpVersion) (r : Range) (nets : List SharedNetwork) : List SharedNetwork :=
  let blockSize := toUnsignedLong undef (getRangeSize v r)
  match r.sharedNet with
  | none => nets
  | some k => nets.modify k (fun n => { n with available := n.available + blockSize })

/-- The walk through the ranges. -/
def countRanges (undef : ℚ → ℕ) (v : DhcpVersion) (leases : List Lease) :
    List Range → List SharedNetwork → Option (Cursor Lease) → List Range × List SharedNetwork
  | [], nets, _ => ([], nets)
  | r :: rest, nets, l =>
    let counted := countRange v leases r nets l
    let nets := addBlock undef v counted.1.1 counted.1.2
    let later := countRanges undef v leases rest nets counted.2
    (counted.1.1 :: later.1, later.2)

/-- The second walk, which makes the entry 0 the sum of all ranges. -/
def sumRanges (v : DhcpVersion) (ranges : List Range) (all : SharedNetwork) : SharedNetwork :=
  ranges.foldl
    (fun all r =>
      { all with
        available := all.available + getRangeSize v r
        used := all.used + r.count
        touched := all.touched + r.touched
        backups := all.backups + r.backups }) all

/-- The tables that `do_counting` leaves. -/
structure Counted where
  ranges : List Range
  sharedNetworks : List SharedNetwork
deriving DecidableEq

/-- `do_counting`. -/
def doCounting (undef : ℚ → ℕ) (v : DhcpVersion) (leases : List Lease) (ranges : List Range)
    (nets : List SharedNetwork) : Counted :=
  let first := countRanges undef v leases ranges nets (Cursor.head leases)
  ⟨first.1, first.2.modify 0
    (fun all => sumRanges v first.1 { all with available := 0, used := 0, touched := 0 })⟩

/-! ## What is to be counted -/

/-- The lease lies between the bounds of the range. -/
def Within (v : DhcpVersion) (r : Range) (l : Lease) : Prop :=
  ipcomp v r.firstIp l.ip ≤ 0 ∧ ipcomp v l.ip r.lastIp ≤ 0

instance (v : DhcpVersion) (r : Range) (l : Lease) : Decidable (Within v r l) :=
  inferInstanceAs (Decidable (_ ∧ _))

/-- The number of leases of a type in a range. -/
def naive (v : DhcpVersion) (leases : List Lease) (t : Ltype) (r : Range) : ℚ :=
  ((leases.filter (fun l => decide (Within v r l))).countP (fun l => l.type = t) : ℕ)

/-- A range with its counters raised. -/
def raise (count touched backups : ℚ) (r : Range) : Range :=
  { r with count := r.count + count, touched := r.touched + touched, backups := r.backups + backups }

theorem getRangeSize_raise (v : DhcpVersion) (count touched backups : ℚ) (r : Range) :
    getRangeSize v (raise count touched backups r) = getRangeSize v r :=
  getRangeSize_congr v rfl rfl

/-- A shared network with its counters raised. -/
def raiseShared (available used touched backups : ℚ) (n : SharedNetwork) : SharedNetwork :=
  { n with
    available := n.available + available
    used := n.used + used
    touched := n.touched + touched
    backups := n.backups + backups }

/-- The network that a range points to, with its counters raised. -/
def raiseAt (k : Option Nat) (available used touched backups : ℚ) (nets : List SharedNetwork) :
    List SharedNetwork :=
  match k with
  | none => nets
  | some k => nets.modify k (raiseShared available used touched backups)

theorem raiseAt_raiseAt (k : Option Nat) (a u t b a' u' t' b' : ℚ) (nets : List SharedNetwork) :
    raiseAt k a' u' t' b' (raiseAt k a u t b nets) = raiseAt k (a + a') (u + u') (t + t') (b + b') nets := by
  cases k with
  | none => rfl
  | some k =>
    simp only [raiseAt, List.modify_modify_eq]
    congr 1
    funext n
    simp [raiseShared, add_assoc]

theorem raiseAt_zero (k : Option Nat) (nets : List SharedNetwork) : raiseAt k 0 0 0 0 nets = nets := by
  cases k with
  | none => rfl
  | some k =>
    have same : raiseShared 0 0 0 0 = id := by funext n; simp [raiseShared]
    simp [raiseAt, same]

/-- One when the types agree. -/
def one (t u : Ltype) : ℚ := if t = u then 1 else 0

theorem bumpRange_raise (t : Ltype) (r : Range) :
    bumpRange t r = raise (one t .ACTIVE) (one t .FREE) (one t .BACKUP) r := by
  cases t <;> simp [bumpRange, raise, one]

theorem bumpShared_raise (t : Ltype) :
    bumpShared t = raiseShared 0 (one t .ACTIVE) (one t .FREE) (one t .BACKUP) := by
  funext n
  cases t <;> simp [bumpShared, raiseShared, one]

theorem countLease_raise (r : Range) (nets : List SharedNetwork) (l : Lease) :
    countLease (r, nets) l =
      (raise (one l.type .ACTIVE) (one l.type .FREE) (one l.type .BACKUP) r,
        raiseAt r.sharedNet 0 (one l.type .ACTIVE) (one l.type .FREE) (one l.type .BACKUP) nets) := by
  cases pointer : r.sharedNet <;> simp [countLease, raiseAt, pointer, bumpRange_raise, bumpShared_raise]

/-- How many of the leases have a type. -/
def tally (leases : List Lease) (t : Ltype) : ℚ := (leases.countP (fun l => l.type = t) : ℕ)

theorem tally_cons (l : Lease) (rest : List Lease) (t : Ltype) :
    tally (l :: rest) t = one l.type t + tally rest t := by
  by_cases same : l.type = t <;> simp [tally, one, same, add_comm]

/-- Counting a list of leases raises the counters by its tallies. -/
theorem foldl_countLease (leases : List Lease) (r : Range) (nets : List SharedNetwork) :
    leases.foldl countLease (r, nets) =
      (raise (tally leases .ACTIVE) (tally leases .FREE) (tally leases .BACKUP) r,
        raiseAt r.sharedNet 0 (tally leases .ACTIVE) (tally leases .FREE) (tally leases .BACKUP) nets) := by
  induction leases generalizing r nets with
  | nil => simp [tally, raise, raiseAt_zero]
  | cons l rest ih =>
    rw [List.foldl_cons, countLease_raise, ih]
    simp only [raise, tally_cons, raiseAt_raiseAt, add_zero]
    simp only [add_assoc]

/-- The leases are sorted and no two have one address. -/
def Sorted (v : DhcpVersion) (leases : List Lease) : Prop :=
  leases.Pairwise fun a b => key v a.ip < key v b.ip

theorem sorted_of_ascending {v : DhcpVersion} {leases : List Lease}
    (distinct : leases.Pairwise fun a b => ipcomp v a.ip b.ip ≠ 0)
    (ascending : leases.Pairwise fun a b => leasecomp v a b ≤ 0) : Sorted v leases := by
  refine (distinct.and ascending).imp ?_
  rintro a b ⟨differ, order⟩
  rw [leasecomp_ipcomp] at order
  exact (ipcomp_neg v a.ip b.ip).mp (lt_of_le_of_ne order differ)

/-- In sorted leases, whatever stands before a cursor that is not above the lower
    bound of a range lies below that bound. -/
theorem before_below {v : DhcpVersion} {c : Cursor Lease} (sorted : Sorted v c.all) {first : Ipaddr}
    (reached : ¬ ipcomp v first c.here.ip < 0) : ∀ x ∈ c.before, ipcomp v x.ip first < 0 := by
  intro x member
  have ordered := (List.pairwise_append.mp sorted).2.2 x (List.mem_reverse.mpr member) c.here (by simp)
  rw [ipcomp_neg] at reached ⊢
  omega

/-- `HASH_SORT (leases, leasecomp)`. -/
def hashSort (hash : Uthash) (v : DhcpVersion) (leases : List Lease) : List Lease := hash.sort (leasecomp v) leases

/-- Sorting a table with one entry for an address leaves what `do_counting` relies on. -/
theorem hashSort_sorted (hash : Uthash) {v : DhcpVersion} {leases : List Lease}
    (distinct : leases.Pairwise fun a b => ipcomp v a.ip b.ip ≠ 0) : Sorted v (hashSort hash v leases) := by
  apply sorted_of_ascending
  · refine (hash.permutes (leasecomp v) leases).symm.pairwise distinct ?_
    intro a b differ same
    exact differ ((ipcomp_zero v a.ip b.ip).mpr ((ipcomp_zero v b.ip a.ip).mp same).symm)
  · refine hash.sorts (leasecomp v) leases (fun a b => ?_) (fun a b c first second => ?_)
    · simp only [leasecomp_ipcomp, ipcomp_nonpos]
      omega
    · simp only [leasecomp_ipcomp, ipcomp_nonpos] at first second ⊢
      omega

/-- The lease loop of a range starts in the table, with no lease of the range before it. -/
theorem countRange_scans {v : DhcpVersion} {leases : List Lease} (sorted : Sorted v leases) (r : Range)
    (nets : List SharedNetwork) {l : Option (Cursor Lease)} (inside : Cursor.In leases l) :
    ∃ start, countRange v leases r nets l = Cursor.scan (fun x => decide (ipcomp v x.ip r.lastIp ≤ 0))
        (fun st x => if ipcomp v x.ip r.firstIp < 0 then st else countLease st x) (r, nets) start ∧
      Cursor.In leases start ∧ (start = none → leases = []) ∧
      ∀ c, start = some c → ∀ x ∈ c.before, ipcomp v x.ip r.firstIp < 0 := by
  cases rewound : Cursor.rewind (fun x => decide (ipcomp v r.firstIp x.ip < 0)) l with
  | none =>
    refine ⟨Cursor.head leases, ?_, Cursor.in_head leases, ?_, ?_⟩
    · simp only [countRange, rewound]
    · intro empty
      cases leases with
      | nil => rfl
      | cons x rest => simp [Cursor.head] at empty
    · intro c at_head x member
      cases leases with
      | nil => simp [Cursor.head] at at_head
      | cons y rest =>
        simp only [Cursor.head, Option.some.injEq] at at_head
        subst at_head
        simp at member
  | some c =>
    obtain ⟨same, stops⟩ := Cursor.rewind_spec _ inside rewound
    refine ⟨some c, ?_, ?_, fun no => (by cases no), ?_⟩
    · simp only [countRange, rewound]
    · rintro c' ⟨⟩
      exact same
    · rintro c' ⟨⟩
      exact before_below (by rw [same]; exact sorted) (by simpa using stops)

/-- Wherever the cursor stands, a range counts exactly the leases within it. -/
theorem countRange_spec {v : DhcpVersion} {leases : List Lease} (sorted : Sorted v leases) (r : Range)
    (nets : List SharedNetwork) {l : Option (Cursor Lease)} (inside : Cursor.In leases l) :
    (countRange v leases r nets l).1 =
        (raise (naive v leases .ACTIVE r) (naive v leases .FREE r) (naive v leases .BACKUP r) r,
          raiseAt r.sharedNet 0 (naive v leases .ACTIVE r) (naive v leases .FREE r)
            (naive v leases .BACKUP r) nets) ∧
      Cursor.In leases (countRange v leases r nets l).2 := by
  obtain ⟨start, loop, inTable, atEnd, before⟩ := countRange_scans sorted r nets inside
  refine ⟨?_, by rw [loop]; exact Cursor.scan_in _ _ _ inTable⟩
  rw [loop]
  cases start with
  | none =>
    obtain rfl := atEnd rfl
    simp [Cursor.scan, naive, raise, raiseAt_zero]
  | some c =>
    have same := inTable c rfl
    have inherited : c.all.Pairwise fun x y =>
        decide (ipcomp v y.ip r.lastIp ≤ 0) = true → decide (ipcomp v x.ip r.lastIp ≤ 0) = true := by
      rw [same]
      refine sorted.imp ?_
      intro x y less
      simp only [decide_eq_true_eq, ipcomp_nonpos]
      omega
    have body : (fun (st : Range × List SharedNetwork) x =>
          if ipcomp v x.ip r.firstIp < 0 then st else countLease st x) =
        fun st x => if decide (¬ ipcomp v x.ip r.firstIp < 0) = true then countLease st x else st := by
      funext st x
      by_cases low : ipcomp v x.ip r.firstIp < 0 <;> simp [low]
    have within : (fun x : Lease => decide (¬ ipcomp v x.ip r.firstIp < 0) && decide (ipcomp v x.ip r.lastIp ≤ 0)) =
        fun x => decide (Within v r x) := by
      funext x
      simp only [Within, ← Bool.decide_and, ipcomp_neg, ipcomp_nonpos, not_lt]
    rw [body, Cursor.scan_between _ _ countLease (r, nets) c inherited, within, same, foldl_countLease]
    · rfl
    · intro x member
      simpa using before c rfl x member

/-! ## The first loop -/

/-- The number that the first loop adds to `available` for a range. -/
def blockSize (undef : ℚ → ℕ) (v : DhcpVersion) (r : Range) : ℚ := toUnsignedLong undef (getRangeSize v r)

theorem addBlock_raise (undef : ℚ → ℕ) (v : DhcpVersion) (r : Range) (nets : List SharedNetwork) :
    addBlock undef v r nets = raiseAt r.sharedNet (blockSize undef v r) 0 0 0 nets := by
  cases pointer : r.sharedNet with
  | none => simp [addBlock, raiseAt, pointer]
  | some k =>
    simp only [addBlock, pointer, raiseAt, blockSize]
    congr 1
    funext n
    simp [raiseShared]

/-- The sum of a number over the ranges that point to the network `k`. -/
def total (k : Nat) (f : Range → ℚ) (ranges : List Range) : ℚ :=
  ((ranges.filter (fun r => r.sharedNet = some k)).map f).sum

theorem total_cons (k : Nat) (f : Range → ℚ) (r : Range) (rest : List Range) :
    total k f (r :: rest) = (if r.sharedNet = some k then f r else 0) + total k f rest := by
  by_cases member : r.sharedNet = some k <;> simp [total, member]

theorem getElem?_raiseAt (pointer : Option Nat) (a u t b : ℚ) (nets : List SharedNetwork) (k : Nat) :
    (raiseAt pointer a u t b nets)[k]? =
      nets[k]?.map (raiseShared (if pointer = some k then a else 0) (if pointer = some k then u else 0)
        (if pointer = some k then t else 0) (if pointer = some k then b else 0)) := by
  have zero : raiseShared 0 0 0 0 = id := by funext n; simp [raiseShared]
  cases pointer with
  | none => simp [raiseAt, zero]
  | some i =>
    simp only [raiseAt, List.getElem?_modify, Option.some.injEq]
    by_cases same : i = k <;> simp [same, zero]

theorem raiseShared_raiseShared (a u t b a' u' t' b' : ℚ) (n : SharedNetwork) :
    raiseShared a' u' t' b' (raiseShared a u t b n) = raiseShared (a + a') (u + u') (t + t') (b + b') n := by
  simp [raiseShared, add_assoc]

/-- The first loop raises the counters of every range by its naive counts, and
    those of every network by the sums over the ranges that point to it. -/
theorem countRanges_spec (undef : ℚ → ℕ) {v : DhcpVersion} {leases : List Lease} (sorted : Sorted v leases)
    (ranges : List Range) (nets : List SharedNetwork) (l : Option (Cursor Lease)) (inside : Cursor.In leases l) :
    (countRanges undef v leases ranges nets l).1 =
        ranges.map (fun r => raise (naive v leases .ACTIVE r) (naive v leases .FREE r) (naive v leases .BACKUP r) r) ∧
      ∀ k, (countRanges undef v leases ranges nets l).2[k]? =
        nets[k]?.map (raiseShared (total k (blockSize undef v) ranges) (total k (naive v leases .ACTIVE) ranges)
          (total k (naive v leases .FREE) ranges) (total k (naive v leases .BACKUP) ranges)) := by
  induction ranges generalizing nets l with
  | nil =>
    have zero : raiseShared 0 0 0 0 = id := by funext n; simp [raiseShared]
    simp [countRanges, total, zero]
  | cons r rest ih =>
    obtain ⟨counted, insideNext⟩ := countRange_spec sorted r nets inside
    have size : ∀ count touched backups,
        blockSize undef v (raise count touched backups r) = blockSize undef v r := by
      intro count touched backups
      rw [blockSize, blockSize, getRangeSize_raise]
    obtain ⟨ranges', nets'⟩ := ih (addBlock undef v (countRange v leases r nets l).1.1
      (countRange v leases r nets l).1.2) (countRange v leases r nets l).2 insideNext
    refine ⟨?_, ?_⟩
    · simp only [countRanges, List.map_cons, ranges']
      rw [counted]
    · intro k
      simp only [countRanges, nets']
      rw [counted]
      simp only [addBlock_raise, size, getElem?_raiseAt, Option.map_map, total_cons]
      congr 1
      funext n
      by_cases member : r.sharedNet = some k <;> simp [raise, member, raiseShared_raiseShared]

/-- The second loop adds the sums over all ranges to the entry it starts from. -/
theorem sumRanges_spec (v : DhcpVersion) (ranges : List Range) (all : SharedNetwork) :
    sumRanges v ranges all =
      raiseShared (ranges.map (getRangeSize v)).sum (ranges.map (·.count)).sum (ranges.map (·.touched)).sum
        (ranges.map (·.backups)).sum all := by
  induction ranges generalizing all with
  | nil => simp [sumRanges, raiseShared]
  | cons r rest ih =>
    have step : sumRanges v (r :: rest) all =
        sumRanges v rest (raiseShared (getRangeSize v r) r.count r.touched r.backups all) := rfl
    rw [step, ih, raiseShared_raiseShared]
    simp

/-- `do_counting` equals the naive count. -/
theorem doCounting_naive (undef : ℚ → ℕ) (v : DhcpVersion) (leases : List Lease) (ranges : List Range)
    (nets : List SharedNetwork) (distinct : leases.Pairwise fun a b => ipcomp v a.ip b.ip ≠ 0)
    (ascending : leases.Pairwise fun a b => leasecomp v a b ≤ 0)
    (zeroRanges : ∀ r ∈ ranges, r.count = 0 ∧ r.touched = 0 ∧ r.backups = 0)
    (zeroNets : ∀ n ∈ nets, n.used = 0 ∧ n.touched = 0 ∧ n.backups = 0) :
    (doCounting undef v leases ranges nets).ranges =
        ranges.map (fun r =>
          { r with
            count := naive v leases .ACTIVE r
            touched := naive v leases .FREE r
            backups := naive v leases .BACKUP r }) ∧
      ∀ k start, k ≠ 0 → nets[k]? = some start →
        ∃ n, (doCounting undef v leases ranges nets).sharedNetworks[k]? = some n ∧
        n.used = total k (naive v leases .ACTIVE) ranges ∧
        n.touched = total k (naive v leases .FREE) ranges ∧
        n.backups = total k (naive v leases .BACKUP) ranges := by
  obtain ⟨counted, networks⟩ := countRanges_spec undef (sorted_of_ascending distinct ascending) ranges nets
    (Cursor.head leases) (Cursor.in_head leases)
  refine ⟨?_, ?_⟩
  · simp only [doCounting, counted]
    refine List.map_congr_left ?_
    intro r member
    obtain ⟨count, touched, backups⟩ := zeroRanges r member
    simp [raise, count, touched, backups]
  · intro k start other at_k
    obtain ⟨used, touched, backups⟩ := zeroNets start (List.mem_of_getElem? at_k)
    have raised : (doCounting undef v leases ranges nets).sharedNetworks[k]? =
        some (raiseShared (total k (blockSize undef v) ranges) (total k (naive v leases .ACTIVE) ranges)
          (total k (naive v leases .FREE) ranges) (total k (naive v leases .BACKUP) ranges) start) := by
      simp [doCounting, Ne.symm other, networks, at_k]
    exact ⟨_, raised, by simp [raiseShared, used, touched, backups]⟩

/-- A lease of each type. -/
def sampleLeases : List Lease :=
  [⟨.ofV4 0x0a000005, .ACTIVE, none⟩, ⟨.ofV4 0x0a000006, .FREE, none⟩, ⟨.ofV4 0x0a000007, .BACKUP, none⟩]

/-- A range outside every shared network, and a part of it inside one. -/
def sampleRanges : List Range :=
  [⟨some 0, .ofV4 0x0a000001, .ofV4 0x0a000014, 0, 0, 0⟩, ⟨some 1, .ofV4 0x0a000006, .ofV4 0x0a000014, 0, 0, 0⟩]

/-- The summary and one shared network. -/
def sampleNetworks : List SharedNetwork := [⟨[], 0, 0, 0, 0, 0⟩, ⟨[], 0, 0, 0, 0, 0⟩]

theorem doCounting_naive_sample :
    (doCounting (fun _ => 0) .IPv4 sampleLeases sampleRanges sampleNetworks).ranges.map (·.count) = [1, 0] := by
  rw [(doCounting_naive (fun _ => 0) .IPv4 sampleLeases sampleRanges sampleNetworks (by decide +kernel)
    (by decide +kernel) (by decide +kernel) (by decide +kernel)).1]
  decide +kernel

/-! ## The summary -/

/-- The counters that `prepare_memory` and `parse_config` leave; `available` of the
    entry 0 is not initialised. -/
structure Fresh (ranges : List Range) (nets : List SharedNetwork) : Prop where
  ranges : ∀ r ∈ ranges, r.count = 0 ∧ r.touched = 0 ∧ r.backups = 0
  networks : ∀ n ∈ nets, n.used = 0 ∧ n.touched = 0 ∧ n.backups = 0
  summary : nets ≠ []

/-- The entry 0 holds the sums over all ranges. -/
def SumsUp (v : DhcpVersion) (out : Counted) : Prop :=
  out.sharedNetworks.head?.map (fun all => (all.available, all.used, all.touched, all.backups)) =
    some ((out.ranges.map (getRangeSize v)).sum, (out.ranges.map (·.count)).sum,
      (out.ranges.map (·.touched)).sum, (out.ranges.map (·.backups)).sum)

instance (v : DhcpVersion) (out : Counted) : Decidable (SumsUp v out) :=
  inferInstanceAs (Decidable (_ = _))

theorem naive_nonneg (v : DhcpVersion) (leases : List Lease) (t : Ltype) (r : Range) : 0 ≤ naive v leases t r :=
  Nat.cast_nonneg _

theorem naive_eq_zero (v : DhcpVersion) (leases : List Lease) (t : Ltype) (r : Range) :
    naive v leases t r = 0 ↔ ∀ l ∈ leases, Within v r l → l.type ≠ t := by
  simp [naive]

theorem total_nonneg (k : Nat) {f : Range → ℚ} (nonneg : ∀ r, 0 ≤ f r) (ranges : List Range) :
    0 ≤ total k f ranges := by
  apply List.sum_nonneg
  intro x member
  obtain ⟨r, -, rfl⟩ := List.mem_map.mp member
  exact nonneg r

theorem total_eq_zero (k : Nat) {f : Range → ℚ} (nonneg : ∀ r, 0 ≤ f r) (ranges : List Range) :
    total k f ranges = 0 ↔ ∀ r ∈ ranges, r.sharedNet = some k → f r = 0 := by
  induction ranges with
  | nil => simp [total]
  | cons r rest ih =>
    have first := nonneg r
    have later := total_nonneg k nonneg rest
    rw [total_cons, List.forall_mem_cons, ← ih]
    by_cases member : r.sharedNet = some k
    · simp only [member, if_true, true_implies]
      constructor
      · intro sum
        exact ⟨by linarith, by linarith⟩
      · rintro ⟨zero, rest_zero⟩
        rw [zero, rest_zero, add_zero]
    · simp [member]

/-- What the two loops leave in the entry 0: the failover backups of the ranges
    outside every shared network are not reset between them. -/
theorem summary_spec (undef : ℚ → ℕ) {v : DhcpVersion} {leases : List Lease} (sorted : Sorted v leases)
    (ranges : List Range) (all : SharedNetwork) (nets : List SharedNetwork) :
    (doCounting undef v leases ranges (all :: nets)).sharedNetworks.head? =
      some (sumRanges v (doCounting undef v leases ranges (all :: nets)).ranges
        { all with
          available := 0
          used := 0
          touched := 0
          backups := all.backups + total 0 (naive v leases .BACKUP) ranges }) := by
  obtain ⟨-, networks⟩ := countRanges_spec undef sorted ranges (all :: nets)
    (Cursor.head leases) (Cursor.in_head leases)
  simp [List.head?_eq_getElem?, doCounting, networks, raiseShared]

/-- The summary is the sum over all ranges exactly when no range outside every
    shared network has a failover backup. -/
theorem sumsUp_iff (undef : ℚ → ℕ) (v : DhcpVersion) (leases : List Lease) (ranges : List Range)
    (nets : List SharedNetwork) (distinct : leases.Pairwise fun a b => ipcomp v a.ip b.ip ≠ 0)
    (ascending : leases.Pairwise fun a b => leasecomp v a b ≤ 0) (fresh : Fresh ranges nets) :
    SumsUp v (doCounting undef v leases ranges nets) ↔
      ∀ r ∈ ranges, r.sharedNet = some 0 → ∀ l ∈ leases, Within v r l → l.type ≠ .BACKUP := by
  cases nets with
  | nil => exact absurd rfl fresh.summary
  | cons all nets =>
    have start := (fresh.networks all (by simp)).2.2
    simp only [← naive_eq_zero v leases .BACKUP, ← total_eq_zero 0 (naive_nonneg v leases .BACKUP)]
    rw [SumsUp, summary_spec undef (sorted_of_ascending distinct ascending), sumRanges_spec]
    simp [raiseShared, start]

theorem sumsUp_iff_sample :
    SumsUp .IPv4 (doCounting (fun _ => 0) .IPv4 sampleLeases sampleRanges.tail sampleNetworks) :=
  (sumsUp_iff (fun _ => 0) .IPv4 sampleLeases sampleRanges.tail sampleNetworks (by decide +kernel) (by decide +kernel)
    ⟨by decide +kernel, by decide +kernel, by decide +kernel⟩).mpr (by decide +kernel)

/-- A failover backup in a range outside every shared network is counted twice. -/
theorem summary_counts_twice :
    Fresh sampleRanges sampleNetworks ∧
      ¬ SumsUp .IPv4 (doCounting (fun _ => 0) .IPv4 sampleLeases sampleRanges sampleNetworks) :=
  ⟨⟨by decide +kernel, by decide +kernel, by decide +kernel⟩, by decide +kernel⟩

end DhcpdPools.Counting
