import DhcpdPools.JsonText
import DhcpdPools.Utf8

/-!
JSON texts as bytes. A text that is spelled out in bytes is a text that is spelled out
in characters, with the strings that the bytes stand for (`spaced_decode`).
-/
namespace DhcpdPools.JsonText
open Utf8

def Token.bytes : Token → Token
  | .str s => .str (Utf8.bytes s)
  | k => k

mutual

/-- The value with the bytes of its strings. -/
def Json.bytes : Json → Json
  | .str s => .str (Utf8.bytes s)
  | .num t => .num t
  | .word w => .word w
  | .arr vs => .arr (bytesElements vs)
  | .obj ms => .obj (bytesMembers ms)

def bytesElements : List Json → List Json
  | [] => []
  | v :: vs => v.bytes :: bytesElements vs

def bytesMembers : List (List Char × Json) → List (List Char × Json)
  | [] => []
  | (k, v) :: ms => (Utf8.bytes k, v.bytes) :: bytesMembers ms

end

mutual

theorem tokens_bytes : ∀ v : Json, v.bytes.tokens = v.tokens.map Token.bytes
  | .str s => by simp [Json.bytes, Json.tokens, Token.bytes]
  | .num t => by simp [Json.bytes, Json.tokens, Token.bytes]
  | .word w => by simp [Json.bytes, Json.tokens, Token.bytes]
  | .arr vs => by simp [Json.bytes, Json.tokens, Token.bytes, elements_bytes vs]
  | .obj ms => by simp [Json.bytes, Json.tokens, Token.bytes, members_bytes ms]

theorem elements_bytes : ∀ vs : List Json, elements (bytesElements vs) = (elements vs).map Token.bytes
  | [] => by simp [bytesElements, elements]
  | [v] => by simp [bytesElements, elements, tokens_bytes v]
  | v :: w :: vs => by
    have later := elements_bytes (w :: vs)
    simp only [bytesElements] at later
    simp [bytesElements, elements, tokens_bytes v, later, Token.bytes]

theorem members_bytes : ∀ ms : List (List Char × Json), members (bytesMembers ms) = (members ms).map Token.bytes
  | [] => by simp [bytesMembers, members]
  | [(k, v)] => by simp [bytesMembers, members, tokens_bytes v, Token.bytes]
  | (k, v) :: (k', v') :: ms => by
    have later := members_bytes ((k', v') :: ms)
    simp only [bytesMembers] at later
    simp [bytesMembers, members, tokens_bytes v, later, Token.bytes]

end

/-! ## Decoding -/

/-- The token may be written without escapes, once its bytes are read. -/
def Token.Readable (k : Token) : Prop := ∃ k' : Token, k'.bytes = k ∧ k'.Clean

theorem readable_str {s : List Char} :
    (Token.str s).Readable ↔ ∃ t, Utf8.bytes t = s ∧ ∀ c ∈ t, literal c = true := by
  constructor
  · rintro ⟨k, same, clean⟩
    cases k with
    | str t => exact ⟨t, Token.str.inj same, clean⟩
    | _ => cases same
  · rintro ⟨t, rfl, plain⟩
    exact ⟨.str t, rfl, plain⟩

theorem readable_mark {c : Char} (known : isMark c = true) : (Token.mark c).Readable := ⟨.mark c, rfl, known⟩

mutual

/-- A value whose tokens are readable is read as a value. -/
theorem json_decode : ∀ v : Json, v.All Token.Readable → ∃ v' : Json, v'.bytes = v ∧ v'.All Token.Clean
  | .str s, all => by
    obtain ⟨t, rfl, plain⟩ := readable_str.mp ((all_str s).mp all)
    exact ⟨.str t, by rw [Json.bytes], (all_str t).mpr plain⟩
  | .num t, all => by
    obtain ⟨k, same, clean⟩ := (all_num t).mp all
    cases k with
    | num => exact ⟨.num t, by rw [Json.bytes], (all_num t).mpr (same ▸ clean)⟩
    | _ => cases same
  | .word w, all => by
    obtain ⟨k, same, clean⟩ := all (.word w) (by simp [Json.tokens])
    cases k with
    | word => exact ⟨.word w, by rw [Json.bytes], by simpa [Json.All, Json.tokens] using same ▸ clean⟩
    | _ => cases same
  | .arr vs, all => by
    obtain ⟨vs', rfl, clean⟩ := elements_decode vs ((all_arr (fun _ => readable_mark) vs).mp all)
    exact ⟨.arr vs', by rw [Json.bytes], (all_arr (fun _ known => known) vs').mpr clean⟩
  | .obj ms, all => by
    obtain ⟨ms', rfl, clean⟩ := members_decode ms ((all_obj (fun _ => readable_mark) ms).mp all)
    exact ⟨.obj ms', by rw [Json.bytes], (all_obj (fun _ known => known) ms').mpr clean⟩

theorem elements_decode : ∀ vs : List Json, (∀ v ∈ vs, v.All Token.Readable) →
    ∃ vs', bytesElements vs' = vs ∧ ∀ v ∈ vs', v.All Token.Clean
  | [], _ => ⟨[], by rw [bytesElements], fun _ member => by cases member⟩
  | v :: vs, all => by
    obtain ⟨v', rfl, first⟩ := json_decode v (all v List.mem_cons_self)
    obtain ⟨vs', rfl, later⟩ := elements_decode vs fun w member => all w (List.mem_cons_of_mem _ member)
    exact ⟨v' :: vs', by rw [bytesElements], List.forall_mem_cons.mpr ⟨first, later⟩⟩

theorem members_decode : ∀ ms : List (List Char × Json), (∀ m ∈ ms, (Token.str m.1).Readable ∧ m.2.All Token.Readable) →
    ∃ ms', bytesMembers ms' = ms ∧ ∀ m ∈ ms', (Token.str m.1).Clean ∧ m.2.All Token.Clean
  | [], _ => ⟨[], by rw [bytesMembers], fun _ member => by cases member⟩
  | (k, v) :: ms, all => by
    obtain ⟨key, value⟩ := all (k, v) List.mem_cons_self
    obtain ⟨k', rfl, plain⟩ := readable_str.mp key
    obtain ⟨v', rfl, first⟩ := json_decode v value
    obtain ⟨ms', rfl, later⟩ := members_decode ms fun m member => all m (List.mem_cons_of_mem _ member)
    exact ⟨(k', v') :: ms', by rw [bytesMembers], List.forall_mem_cons.mpr ⟨⟨plain, first⟩, later⟩⟩

end

/-! ## Spelled out in bytes -/

/-- All but a string is written in characters that are one byte. -/
def Token.Ascii : Token → Prop
  | .mark c => c.toNat < 128
  | .num t | .word t => ∀ c ∈ t, c.toNat < 128
  | .str _ => True

theorem bytes_text {k : Token} (ascii : k.Ascii) : Utf8.bytes k.text = k.bytes.text := by
  cases k with
  | mark c => exact bytes_char ascii
  | num t => exact bytes_ascii ascii
  | word w => exact bytes_ascii ascii
  | str s =>
    have quote : Utf8.bytes ['"'] = ['"'] := bytes_char (by decide)
    rw [Token.text, bytes_append, bytes_cons, quote]
    rfl

theorem isMark_ascii {c : Char} (known : isMark c = true) : c.toNat < 128 := by
  rcases isMark_iff.mp known with rfl | rfl | rfl | rfl | rfl | rfl <;> decide

theorem inWord_ascii {c : Char} (word : inWord c = true) : c.toNat < 128 := by
  simp only [inWord, Bool.or_eq_true, decide_eq_true_eq] at word
  rcases word with ((letter | rfl) | rfl) | rfl
  · have bounds := alphanum_bounds letter
    omega
  all_goals decide

/-- A token that ends in front of the bytes of a text ends in front of the text. -/
theorem ends_of_bytes {k : Token} {s : List Char} (ends : k.bytes.Ends (Utf8.bytes s)) : k.Ends s := by
  have opens : (∀ c ∈ (Utf8.bytes s).head?, inWord c = false) → ∀ c ∈ s.head?, inWord c = false := by
    intro stop c first
    cases s with
    | nil => cases first
    | cons d s =>
      obtain rfl : d = c := Option.some.inj first
      by_contra word
      rw [Bool.not_eq_false] at word
      rw [bytes_cons, bytes_char (inWord_ascii word)] at stop
      exact absurd word (Bool.eq_false_iff.mp (stop _ rfl))
  cases k with
  | num => exact opens ends
  | word => exact opens ends
  | _ => trivial

/-- Bytes that spell out the bytes of tokens are those of a text that spells out the tokens. -/
theorem spaced_decode {t : List Char} {ts : List Token} (spaced : Spaced t ts) :
    ∀ us : List Token, us.map Token.bytes = ts → (∀ k ∈ us, k.Ascii) → ∃ s, Utf8.bytes s = t ∧ Spaced s us := by
  induction spaced with
  | nil =>
    intro us same _
    rw [List.map_eq_nil_iff.mp same]
    exact ⟨[], rfl, .nil⟩
  | blank space _ ih =>
    rename_i c _ _ _
    intro us same ascii
    obtain ⟨s, rfl, spaced⟩ := ih us same ascii
    have one : c.toNat < 128 := by
      rcases blank_iff.mp space with rfl | rfl | rfl | rfl <;> decide
    exact ⟨c :: s, by rw [bytes_cons, bytes_char one]; rfl, .blank space spaced⟩
  | token ends _ ih =>
    intro us same ascii
    cases us with
    | nil => cases same
    | cons k us =>
      obtain ⟨rfl, tail⟩ := List.cons.inj same
      obtain ⟨s, rfl, spaced⟩ := ih us tail fun j member => ascii j (List.mem_cons_of_mem _ member)
      refine ⟨k.text ++ s, ?_, .token (ends_of_bytes ends) spaced⟩
      rw [bytes_append, bytes_text (ascii k List.mem_cons_self)]

end DhcpdPools.JsonText
