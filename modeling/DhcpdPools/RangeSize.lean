import DhcpdPools.Tables

/-!
The size of a range is the number of its addresses (`getRangeSize_iff`), but for the
range of all IPv4 addresses, where the 32-bit sum wraps to zero.
-/
namespace DhcpdPools.RangeSize

/-- The loop of `get_range_size_v6` is the difference of the numbers, whatever the signs
    of the byte differences. -/
theorem horner (s t : List UInt8) (same : s.length = t.length) (size : ℚ) :
    (s.zip t).foldl (fun size bytes => size * 256 + ((bytes.1.toNat : ℚ) - bytes.2.toNat)) size =
      size * 256 ^ s.length + ((bigEndian s : ℚ) - bigEndian t) := by
  induction s generalizing t size with
  | nil =>
    obtain rfl := List.eq_nil_of_length_eq_zero same.symm
    simp [bigEndian]
  | cons a s ih =>
    obtain ⟨b, t, rfl⟩ := List.exists_cons_of_length_pos (l := t) (by simp [← same])
    have lengths : s.length = t.length := by simpa using same
    rw [List.zip_cons_cons, List.foldl_cons, ih t lengths, bigEndian, bigEndian, List.length_cons, lengths]
    push_cast
    ring

/-- The range of all IPv4 addresses. -/
def Whole (v : DhcpVersion) (r : Range) : Prop :=
  v = .IPv4 ∧ key v r.firstIp = 0 ∧ key v r.lastIp = 2 ^ 32 - 1

instance (v : DhcpVersion) (r : Range) : Decidable (Whole v r) := inferInstanceAs (Decidable (_ ∧ _))

theorem getRangeSize_v6 (r : Range) :
    getRangeSize .IPv6 r = (key .IPv6 r.lastIp : ℚ) - key .IPv6 r.firstIp + 1 := by
  change getRangeSizeV6 r = _
  rw [getRangeSizeV6, horner _ _ (by simp), zero_mul, zero_add]
  rfl

theorem getRangeSize_v4 {r : Range} (ordered : key .IPv4 r.firstIp ≤ key .IPv4 r.lastIp) :
    getRangeSize .IPv4 r =
      if Whole .IPv4 r then 0 else (key .IPv4 r.lastIp : ℚ) - key .IPv4 r.firstIp + 1 := by
  have wraps : (r.lastIp.v4 - r.firstIp.v4 + 1).toNat =
      if Whole .IPv4 r then 0 else key .IPv4 r.lastIp - key .IPv4 r.firstIp + 1 := by
    have high := r.lastIp.v4.isLt
    simp only [Whole, key, true_and] at ordered ⊢
    split_ifs <;> bv_omega
  change ((r.lastIp.v4 - r.firstIp.v4 + 1).toNat : ℚ) = _
  rw [wraps]
  split_ifs
  · rfl
  · push_cast [Nat.cast_sub ordered]
    rfl

/-- The size of a range that is not all of IPv4. -/
theorem getRangeSize_eq {v : DhcpVersion} (known : v ≠ .IPvUNKNOWN) {r : Range}
    (ordered : key v r.firstIp ≤ key v r.lastIp) (part : ¬Whole v r) :
    getRangeSize v r = (key v r.lastIp : ℚ) - key v r.firstIp + 1 := by
  cases v with
  | IPvUNKNOWN => exact absurd rfl known
  | IPv4 => rw [getRangeSize_v4 ordered, if_neg part]
  | IPv6 => exact getRangeSize_v6 r

/-- `get_range_size` gives the number of addresses, and never zero, exactly for the ranges
    that are not all of IPv4. -/
theorem getRangeSize_iff {v : DhcpVersion} (known : v ≠ .IPvUNKNOWN) {r : Range}
    (ordered : key v r.firstIp ≤ key v r.lastIp) :
    (getRangeSize v r = (key v r.lastIp : ℚ) - key v r.firstIp + 1 ∧ getRangeSize v r ≠ 0) ↔ ¬Whole v r := by
  constructor
  · rintro ⟨-, positive⟩ whole
    obtain rfl := whole.1
    rw [getRangeSize_v4 ordered, if_pos whole] at positive
    exact positive rfl
  · intro part
    have size := getRangeSize_eq known ordered part
    refine ⟨size, ?_⟩
    have : (key v r.firstIp : ℚ) ≤ key v r.lastIp := by exact_mod_cast ordered
    rw [size]
    linarith

/-- The IPv6 range with 2^72 addresses. -/
def wideRange : Range :=
  ⟨some 0, ⟨#v[0xfe, 0x80, 0, 0, 0, 0, 0, 0, 0, 0, 0, 0, 0, 0, 0, 0]⟩,
    ⟨#v[0xfe, 0x80, 0, 0, 0, 0, 0, 0xff, 0xff, 0xff, 0xff, 0xff, 0xff, 0xff, 0xff, 0xff]⟩, 0, 0, 0⟩

theorem getRangeSize_iff_sample :
    (getRangeSize .IPv6 wideRange = (key .IPv6 wideRange.lastIp : ℚ) - key .IPv6 wideRange.firstIp + 1 ∧
      getRangeSize .IPv6 wideRange ≠ 0) ↔ ¬Whole .IPv6 wideRange :=
  getRangeSize_iff (by decide) (by decide +kernel)

/-- From 0.0.0.0 to 255.255.255.255. -/
def wholeRange : Range := ⟨some 0, .ofV4 0, .ofV4 0xffffffff, 0, 0, 0⟩

theorem whole_range_is_empty : key .IPv4 wholeRange.firstIp ≤ key .IPv4 wholeRange.lastIp ∧
    getRangeSize .IPv4 wholeRange = 0 ∧
    getRangeSize .IPv4 wholeRange ≠ (key .IPv4 wholeRange.lastIp : ℚ) - key .IPv4 wholeRange.firstIp + 1 := by
  decide +kernel

end DhcpdPools.RangeSize
