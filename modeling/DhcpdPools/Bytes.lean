import Mathlib

/-!
Byte strings of one length: `memcmp` orders them as the big-endian numbers that
they stand for (`memcmp_sign`).
-/
namespace DhcpdPools

/-- The number that a big-endian byte string stands for. -/
def bigEndian : List UInt8 → Nat
  | [] => 0
  | b :: rest => b.toNat * 256 ^ rest.length + bigEndian rest

theorem bigEndian_lt (s : List UInt8) : bigEndian s < 256 ^ s.length := by
  induction s with
  | nil => simp [bigEndian]
  | cons b rest ih =>
    have byte := b.toNat_lt
    have step : (b.toNat + 1) * 256 ^ rest.length ≤ 256 * 256 ^ rest.length :=
      Nat.mul_le_mul_right _ (by omega)
    simp only [bigEndian, List.length_cons, Nat.pow_succ]
    calc b.toNat * 256 ^ rest.length + bigEndian rest
        < b.toNat * 256 ^ rest.length + 256 ^ rest.length := by omega
      _ = (b.toNat + 1) * 256 ^ rest.length := by ring
      _ ≤ 256 * 256 ^ rest.length := step
      _ = 256 ^ rest.length * 256 := by ring

/-- `memcmp`: the difference of the first bytes that differ. Its callers use the sign only. -/
def memcmp : List UInt8 → List UInt8 → Int
  | a :: s, b :: t => if a = b then memcmp s t else (a.toNat : Int) - b.toNat
  | _, _ => 0

/-- The sign of `memcmp` is the order of the numbers. -/
theorem memcmp_sign (s t : List UInt8) (same : s.length = t.length) :
    (memcmp s t < 0 ↔ bigEndian s < bigEndian t) ∧ (0 < memcmp s t ↔ bigEndian t < bigEndian s) := by
  induction s generalizing t with
  | nil =>
    have : t = [] := by simpa using same.symm
    subst this
    simp [memcmp]
  | cons a s ih =>
    cases t with
    | nil => simp at same
    | cons b t =>
      have lengths : s.length = t.length := by simpa using same
      simp only [memcmp, bigEndian, lengths]
      by_cases heads : a = b
      · subst heads
        simpa using ih t lengths
      · have differ : a.toNat ≠ b.toNat := fun h => heads (UInt8.toNat_inj.mp h)
        have low := bigEndian_lt s
        have high := bigEndian_lt t
        rw [lengths] at low
        rw [if_neg heads]
        -- The first bytes that differ outweigh everything after them.
        rcases Nat.lt_or_gt_of_ne differ with less | greater
        · have gap : (a.toNat + 1) * 256 ^ t.length ≤ b.toNat * 256 ^ t.length :=
            Nat.mul_le_mul_right _ (by omega)
          rw [Nat.succ_mul] at gap
          omega
        · have gap : (b.toNat + 1) * 256 ^ t.length ≤ a.toNat * 256 ^ t.length :=
            Nat.mul_le_mul_right _ (by omega)
          rw [Nat.succ_mul] at gap
          omega

theorem memcmp_eq_zero {s t : List UInt8} (same : s.length = t.length) (equal : memcmp s t = 0) : s = t := by
  induction s generalizing t with
  | nil => exact (List.eq_nil_of_length_eq_zero same.symm).symm
  | cons a s ih =>
    obtain ⟨b, t, rfl⟩ := List.exists_cons_of_length_pos (l := t) (by simp [← same])
    rw [memcmp] at equal
    split_ifs at equal with heads
    · rw [heads, ih (by simpa using same) equal]
    · exact absurd (UInt8.toNat_inj.mp (by omega)) heads

theorem bigEndian_inj {s t : List UInt8} (same : s.length = t.length) (number : bigEndian s = bigEndian t) :
    s = t := by
  obtain ⟨less, greater⟩ := memcmp_sign s t same
  exact memcmp_eq_zero same (by omega)

end DhcpdPools
