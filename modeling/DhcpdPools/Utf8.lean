import Mathlib

/-!
Texts as bytes, in UTF-8. No encoding of a character is the beginning of another one, so
bytes stand for at most one text (`bytes_injective`), and the bytes of a text that begin
with those of another one are those of a text that begins with it (`bytes_front`).
-/
namespace DhcpdPools.Utf8

theorem alphanum_bounds {c : Char} (letter : c.isAlphanum = true) : 48 ≤ c.toNat ∧ c.toNat ≤ 122 := by
  have bounds : (65 ≤ c.toNat ∧ c.toNat ≤ 90 ∨ 97 ≤ c.toNat ∧ c.toNat ≤ 122) ∨ 48 ≤ c.toNat ∧ c.toNat ≤ 57 := by
    simpa [Char.isAlphanum, Char.isAlpha, Char.isUpper, Char.isLower, Char.isDigit, UInt32.le_iff_toNat_le] using letter
  omega

/-- The bytes of a text; a byte is the character with its number. -/
def bytes (s : List Char) : List Char := s.flatMap fun c => (String.utf8EncodeChar c).map fun b => Char.ofNat b.toNat

@[simp] theorem bytes_nil : bytes [] = [] := rfl

@[simp] theorem bytes_append (s t : List Char) : bytes (s ++ t) = bytes s ++ bytes t := List.flatMap_append

theorem bytes_cons (c : Char) (s : List Char) : bytes (c :: s) = bytes [c] ++ bytes s := bytes_append [c] s

theorem bytes_singleton (c : Char) : bytes [c] = (String.utf8EncodeChar c).map fun b => Char.ofNat b.toNat :=
  List.flatMap_singleton _ _

theorem bytes_char {c : Char} (ascii : c.toNat < 128) : bytes [c] = [c] := by
  have small : c.val.toNat ≤ 0x7f := Nat.le_of_lt_succ ascii
  have value : (UInt8.ofNat c.val.toNat).toNat = c.toNat := Nat.mod_eq_of_lt (Nat.lt_trans ascii (by decide))
  rw [bytes_singleton, String.utf8EncodeChar, if_pos small, List.map_singleton, value, Char.ofNat_toNat]

theorem bytes_ascii {s : List Char} (ascii : ∀ c ∈ s, c.toNat < 128) : bytes s = s := by
  induction s with
  | nil => rfl
  | cons c s ih =>
    rw [bytes_cons, bytes_char (ascii c List.mem_cons_self), ih fun d member => ascii d (List.mem_cons_of_mem _ member)]
    rfl

theorem byte_toNat (b : UInt8) : UInt8.ofNat (Char.ofNat b.toNat).toNat = b := by
  have small := b.toNat_lt
  have valid : b.toNat.isValidChar := Or.inl (by omega)
  rw [Char.toNat_ofNat, if_pos valid, UInt8.ofNat_toNat]

/-- The first character is known from the bytes. -/
theorem char_unique {c d : Char} {u v : List Char} (same : bytes [c] ++ u = bytes [d] ++ v) : c = d := by
  have raw : ∀ (c : Char) (u : List Char), (bytes [c] ++ u).map (fun x => UInt8.ofNat x.toNat) =
      String.utf8EncodeChar c ++ u.map fun x => UInt8.ofNat x.toNat := by
    intro c u
    rw [bytes_singleton, List.map_append, List.map_map]
    have back : ((fun x : Char => UInt8.ofNat x.toNat) ∘ fun b : UInt8 => Char.ofNat b.toNat) = id := funext byte_toNat
    rw [back, List.map_id]
  have equal := congrArg (fun s : List Char => (s.map fun x => UInt8.ofNat x.toNat).toByteArray.utf8DecodeChar? 0) same
  simp only [raw, List.toByteArray_append, ByteArray.utf8DecodeChar?_utf8EncodeChar_append] at equal
  exact Option.some.inj equal

theorem bytes_ne_nil {c : Char} {u : List Char} : bytes [c] ++ u ≠ [] := by
  rw [bytes_singleton]
  exact List.append_ne_nil_of_left_ne_nil (mt List.map_eq_nil_iff.mp String.utf8EncodeChar_ne_nil) u

/-- Bytes that begin with those of a text are read as a text that begins with it. -/
theorem bytes_front {s u r : List Char} (same : bytes s = bytes u ++ r) : ∃ rest, s = u ++ rest ∧ bytes rest = r := by
  induction u generalizing s with
  | nil => exact ⟨s, rfl, same⟩
  | cons c u ih =>
    rw [bytes_cons c, List.append_assoc] at same
    cases s with
    | nil => exact absurd same.symm bytes_ne_nil
    | cons d s =>
      rw [bytes_cons d] at same
      obtain rfl := char_unique same
      obtain ⟨rest, rfl, behind⟩ := ih (List.append_cancel_left same)
      exact ⟨rest, rfl, behind⟩

/-- Bytes stand for one text. -/
theorem bytes_injective : Function.Injective bytes := by
  intro s t same
  obtain ⟨rest, rfl, none⟩ := bytes_front (same.trans (List.append_nil _).symm)
  cases rest with
  | nil => rw [List.append_nil]
  | cons c rest =>
    rw [bytes_cons] at none
    exact absurd none bytes_ne_nil

end DhcpdPools.Utf8
