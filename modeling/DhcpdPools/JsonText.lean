import Mathlib

/-!
JSON texts. A value has one sequence of tokens (`tokens_unique`), and a text is read as
the tokens in it, with blanks between them and escapes in strings. A text in which the
tokens are spelled out without escapes is read as these exactly when the strings may be
spelled out (`lexes_spaced_iff`), and then as nothing else (`lexes_unique`).
-/
namespace DhcpdPools.JsonText

inductive Json where
  | str (s : List Char)
  | num (t : List Char)
  | word (w : List Char)
  | arr (vs : List Json)
  | obj (ms : List (List Char × Json))

inductive Token where
  | mark (c : Char)
  | str (s : List Char)
  | num (t : List Char)
  | word (w : List Char)
deriving DecidableEq

mutual

/-- The tokens of a value. -/
def Json.tokens : Json → List Token
  | .str s => [.str s]
  | .num t => [.num t]
  | .word w => [.word w]
  | .arr vs => .mark '[' :: elements vs ++ [.mark ']']
  | .obj ms => .mark '\x7b' :: members ms ++ [.mark '\x7d']

/-- The elements of an array, with commas between them. -/
def elements : List Json → List Token
  | [] => []
  | [v] => v.tokens
  | v :: w :: vs => v.tokens ++ .mark ',' :: elements (w :: vs)

/-- The members of an object, with commas between them. -/
def members : List (List Char × Json) → List Token
  | [] => []
  | [(k, v)] => .str k :: .mark ':' :: v.tokens
  | (k, v) :: m :: ms => .str k :: .mark ':' :: v.tokens ++ .mark ',' :: members (m :: ms)

end

/-! ## The grammar of tokens -/

def blank (c : Char) : Bool := c = ' ' || c = '\t' || c = '\n' || c = '\r'

def isMark (c : Char) : Bool := c = '[' || c = ']' || c = '\x7b' || c = '\x7d' || c = ':' || c = ','

theorem blank_iff {c : Char} : blank c = true ↔ c = ' ' ∨ c = '\t' ∨ c = '\n' ∨ c = '\r' := by
  simp [blank, or_assoc]

theorem isMark_iff {c : Char} :
    isMark c = true ↔ c = '[' ∨ c = ']' ∨ c = '\x7b' ∨ c = '\x7d' ∨ c = ':' ∨ c = ',' := by
  simp [isMark, or_assoc]

/-- A character that a number or a word may go on with. -/
def inWord (c : Char) : Bool := c.isAlphanum || c = '.' || c = '+' || c = '-'

/-- A character that stands for itself in a string. -/
def literal (c : Char) : Bool := 0x20 ≤ c.toNat && c ≠ '"' && c ≠ '\\'

def Digits (s : List Char) : Prop := ∀ c ∈ s, c.isDigit = true

def Number (t : List Char) : Prop :=
  ∃ minus whole fraction exponent, t = minus ++ whole ++ fraction ++ exponent ∧ (minus = [] ∨ minus = ['-']) ∧
    (Digits whole ∧ whole ≠ [] ∧ (whole = ['0'] ∨ whole.head? ≠ some '0')) ∧
    (fraction = [] ∨ ∃ ds, fraction = '.' :: ds ∧ ds ≠ [] ∧ Digits ds) ∧
    (exponent = [] ∨ ∃ e sign ds, exponent = e :: sign ++ ds ∧ (e = 'e' ∨ e = 'E') ∧
      (sign = [] ∨ sign = ['+'] ∨ sign = ['-']) ∧ ds ≠ [] ∧ Digits ds)

def hexDigit (c : Char) : Bool := c.isDigit || 'a' ≤ c && c ≤ 'f' || 'A' ≤ c && c ≤ 'F'

def hexValue (s : List Char) : Nat :=
  s.foldl (fun n c => 16 * n + if c.isDigit then c.toNat - 48 else if c.isLower then c.toNat - 87 else c.toNat - 55) 0

/-- The character that a backslash and a letter or mark stand for. -/
def escaped : Char → Option Char
  | '"' => some '"'
  | '\\' => some '\\'
  | '/' => some '/'
  | 'b' => some '\x08'
  | 'f' => some '\x0c'
  | 'n' => some '\n'
  | 'r' => some '\r'
  | 't' => some '\t'
  | _ => none

/-- The notations for a character in a string. -/
inductive Notation : List Char → Char → Prop
  | literal {c : Char} : literal c = true → Notation [c] c
  | escape {e c : Char} : escaped e = some c → Notation ['\\', e] c
  | unicode {digits : List Char} {c : Char} : digits.length = 4 → (∀ d ∈ digits, hexDigit d = true) →
      hexValue digits = c.toNat → Notation ('\\' :: 'u' :: digits) c
  | pair {high low : List Char} {c : Char} : high.length = 4 → low.length = 4 → (∀ d ∈ high ++ low, hexDigit d = true) →
      0xD800 ≤ hexValue high → hexValue high < 0xDC00 → 0xDC00 ≤ hexValue low → hexValue low < 0xE000 →
      c.toNat = 0x10000 + 0x400 * (hexValue high - 0xD800) + (hexValue low - 0xDC00) →
      Notation ('\\' :: 'u' :: high ++ '\\' :: 'u' :: low) c

/-- What is between the quotes of a string. -/
inductive Chars : List Char → List Char → Prop
  | nil : Chars [] []
  | cons {x t s : List Char} {c : Char} : Notation x c → Chars t s → Chars (x ++ t) (c :: s)

/-- The piece at the front of a text, and the token that it is; a number or a word ends where none goes on. -/
inductive Item : List Char → List Char → List Token → Prop
  | blank {c : Char} {rest : List Char} : blank c = true → Item [c] rest []
  | mark {c : Char} {rest : List Char} : isMark c = true → Item [c] rest [.mark c]
  | str {t s rest : List Char} : Chars t s → Item ('"' :: t ++ ['"']) rest [.str s]
  | num {t rest : List Char} : Number t → (∀ c ∈ rest.head?, inWord c = false) → Item t rest [.num t]
  | word {w rest : List Char} : w ∈ ["true".toList, "false".toList, "null".toList] →
      (∀ c ∈ rest.head?, inWord c = false) → Item w rest [.word w]

/-- A text and its tokens. -/
inductive Lexes : List Char → List Token → Prop
  | nil : Lexes [] []
  | item {x rest : List Char} {first ts : List Token} : Item x rest first → Lexes rest ts → Lexes (x ++ rest) (first ++ ts)

/-- The text is well formed, and this is its value. -/
def Text (text : List Char) (v : Json) : Prop := Lexes text v.tokens

/-! ## Tokens spelled out -/

/-- A token without escapes. -/
def Token.text : Token → List Char
  | .mark c => [c]
  | .str s => '"' :: s ++ ['"']
  | .num t => t
  | .word w => w

/-- The token may be written so. -/
def Token.Clean : Token → Prop
  | .mark c => isMark c = true
  | .str s => ∀ c ∈ s, literal c = true
  | .num t => Number t
  | .word w => w ∈ ["true".toList, "false".toList, "null".toList]

/-- The token does not go on with the character behind it. -/
def Token.Ends : Token → List Char → Prop
  | .num _, rest | .word _, rest => ∀ c ∈ rest.head?, inWord c = false
  | _, _ => True

/-- Tokens that are spelled out, with blanks between them. -/
inductive Spaced : List Char → List Token → Prop
  | nil : Spaced [] []
  | blank {c : Char} {t : List Char} {ts : List Token} : blank c = true → Spaced t ts → Spaced (c :: t) ts
  | token {k : Token} {t : List Char} {ts : List Token} : k.Ends t → Spaced t ts → Spaced (k.text ++ t) (k :: ts)

/-- The number of characters that are no blanks. -/
def weight (s : List Char) : Nat := s.countP fun c => !blank c

@[simp] theorem weight_nil : weight [] = 0 := rfl

@[simp] theorem weight_append (s t : List Char) : weight (s ++ t) = weight s + weight t := List.countP_append

theorem weight_cons (c : Char) (s : List Char) : weight (c :: s) = weight s + if blank c then 0 else 1 := by
  rw [weight, List.countP_cons]
  cases blank c <;> rfl

/-- The weight of tokens that are spelled out. -/
def tokenWeight (ts : List Token) : Nat := (ts.map fun k => weight k.text).sum

theorem spaced_weight {t : List Char} {ts : List Token} (spaced : Spaced t ts) : weight t = tokenWeight ts := by
  induction spaced with
  | nil => rfl
  | blank space _ ih => rw [weight_cons, if_pos space, Nat.add_zero, ih]
  | token _ _ ih => rw [weight_append, ih, tokenWeight, tokenWeight, List.map_cons, List.sum_cons]

/-- Any other notation of a character is heavier. -/
theorem notation_weight {x : List Char} {c : Char} (notation_ : Notation x c) :
    weight [c] ≤ weight x ∧ (weight x ≤ weight [c] → literal c = true) := by
  have one : weight [c] ≤ 1 := by
    rw [weight_cons, weight_nil]
    split_ifs <;> omega
  cases notation_ with
  | literal plain => exact ⟨Nat.le_refl _, fun _ => plain⟩
  | escape member =>
    rename_i e
    have seen : blank e = false := by
      rw [← Bool.not_eq_true]
      intro space
      rcases blank_iff.mp space with rfl | rfl | rfl | rfl <;> cases member
    have two : weight ['\\', e] = 2 := by
      rw [weight_cons, weight_cons, seen]
      rfl
    exact ⟨by omega, fun light => by omega⟩
  | unicode =>
    rename_i digits _ _ _
    have two : weight ('\\' :: 'u' :: digits) = weight digits + 1 + 1 := by
      rw [weight_cons, weight_cons]
      rfl
    exact ⟨by omega, fun light => by omega⟩
  | pair =>
    rename_i high low _ _ _ _ _ _ _ _
    have two : weight ('\\' :: 'u' :: high ++ '\\' :: 'u' :: low) = weight (high ++ '\\' :: 'u' :: low) + 1 + 1 := by
      rw [List.cons_append, List.cons_append, weight_cons, weight_cons]
      rfl
    exact ⟨by omega, fun light => by omega⟩

theorem chars_weight {t s : List Char} (chars : Chars t s) :
    weight s ≤ weight t ∧ (weight t ≤ weight s → ∀ c ∈ s, literal c = true) := by
  induction chars with
  | nil => exact ⟨Nat.le_refl _, fun _ _ member => by cases member⟩
  | cons first _ ih =>
    rename_i x t s c _
    obtain ⟨heavy, light⟩ := notation_weight first
    obtain ⟨heavier, later⟩ := ih
    have split : weight (c :: s) = weight [c] + weight s := weight_append [c] s
    rw [weight_append, split]
    refine ⟨by omega, fun short d member => ?_⟩
    rcases List.mem_cons.mp member with rfl | rest
    · exact light (by omega)
    · exact later (by omega) d rest

theorem item_weight {x rest : List Char} {first : List Token} (item : Item x rest first) :
    tokenWeight first ≤ weight x ∧ (weight x ≤ tokenWeight first → ∀ k ∈ first, k.Clean) := by
  cases item with
  | blank => exact ⟨Nat.zero_le _, fun _ _ member => by cases member⟩
  | mark known =>
    refine ⟨Nat.le_refl _, fun _ k member => ?_⟩
    rw [List.mem_singleton.mp member]
    exact known
  | str chars =>
    rename_i t s
    obtain ⟨heavy, light⟩ := chars_weight chars
    have quoted : ∀ u, weight ('"' :: u ++ ['"']) = weight u + 2 := fun u => by
      rw [List.cons_append, weight_cons, weight_append]
      rfl
    have one : tokenWeight [.str s] = weight s + 2 := quoted s
    rw [quoted, one]
    refine ⟨by omega, fun short k member => ?_⟩
    rw [List.mem_singleton.mp member]
    exact light (by omega)
  | num number =>
    refine ⟨Nat.le_refl _, fun _ k member => ?_⟩
    rw [List.mem_singleton.mp member]
    exact number
  | word known =>
    refine ⟨Nat.le_refl _, fun _ k member => ?_⟩
    rw [List.mem_singleton.mp member]
    exact known

theorem tokenWeight_append (ts us : List Token) : tokenWeight (ts ++ us) = tokenWeight ts + tokenWeight us := by
  rw [tokenWeight, List.map_append, List.sum_append]
  rfl

theorem lexes_weight {t : List Char} {ts : List Token} (lexes : Lexes t ts) :
    tokenWeight ts ≤ weight t ∧ (weight t ≤ tokenWeight ts → ∀ k ∈ ts, k.Clean) := by
  induction lexes with
  | nil => exact ⟨Nat.le_refl _, fun _ _ member => by cases member⟩
  | item first _ ih =>
    obtain ⟨heavy, light⟩ := item_weight first
    obtain ⟨heavier, later⟩ := ih
    rw [weight_append, tokenWeight_append]
    refine ⟨by omega, fun short k member => ?_⟩
    rcases List.mem_append.mp member with here | rest
    · exact light (by omega) k here
    · exact later (by omega) k rest

theorem chars_self {s : List Char} (plain : ∀ c ∈ s, literal c = true) : Chars s s := by
  induction s with
  | nil => exact .nil
  | cons c s ih =>
    exact .cons (x := [c]) (.literal (plain c List.mem_cons_self)) (ih fun d member => plain d (List.mem_cons_of_mem _ member))

theorem lexes_of_clean {t : List Char} {ts : List Token} (spaced : Spaced t ts) (clean : ∀ k ∈ ts, k.Clean) : Lexes t ts := by
  induction spaced with
  | nil => exact .nil
  | blank space _ ih => exact .item (.blank space) (ih clean)
  | token ends _ ih =>
    rename_i k t ts _
    have later := ih fun k member => clean k (List.mem_cons_of_mem _ member)
    have this := clean k List.mem_cons_self
    cases k with
    | mark c => exact .item (.mark this) later
    | str s => exact .item (.str (chars_self this)) later
    | num n => exact .item (.num this ends) later
    | word w => exact .item (.word this ends) later

/-- Tokens that are spelled out are read as they are exactly when they may be written so. -/
theorem lexes_spaced_iff {t : List Char} {ts : List Token} (spaced : Spaced t ts) : Lexes t ts ↔ ∀ k ∈ ts, k.Clean :=
  ⟨fun lexes => (lexes_weight lexes).2 (Nat.le_of_eq (spaced_weight spaced)), lexes_of_clean spaced⟩

/-! ## Spelling out -/

/-- No number and no word goes on here. -/
def Opens (rest : List Char) : Prop := ∀ c ∈ rest.head?, inWord c = false

/-- The text spells the tokens out, whatever is behind it. -/
def Spells (t : List Char) (ts : List Token) : Prop := ∀ rest us, Spaced rest us → Spaced (t ++ rest) (ts ++ us)

theorem spells_nil : Spells [] [] := fun _ _ spaced => spaced

theorem Spells.append {t u : List Char} {ts us : List Token} (first : Spells t ts) (second : Spells u us) :
    Spells (t ++ u) (ts ++ us) := by
  intro rest vs spaced
  rw [List.append_assoc, List.append_assoc]
  exact first _ _ (second _ _ spaced)

theorem Spells.spaced {t : List Char} {ts : List Token} (spells : Spells t ts) : Spaced t ts := by
  have spaced := spells [] [] .nil
  rwa [List.append_nil, List.append_nil] at spaced

/-- The marks among blanks and marks. -/
def punctuation (g : List Char) : List Token := (g.filter isMark).map .mark

/-- A text of blanks and of these marks. -/
structure Marks (g : List Char) (ts : List Token) : Prop where
  all : ∀ c ∈ g, (blank c || isMark c) = true
  same : punctuation g = ts

theorem marks_of {g : List Char} {ts : List Token}
    (checked : (g.all (fun c => blank c || isMark c) && punctuation g = ts) = true) : Marks g ts := by
  rw [Bool.and_eq_true, List.all_eq_true, decide_eq_true_eq] at checked
  exact ⟨checked.1, checked.2⟩

theorem Marks.append {g h : List Char} {ts us : List Token} (first : Marks g ts) (second : Marks h us) :
    Marks (g ++ h) (ts ++ us) := by
  refine ⟨List.forall_mem_append.mpr ⟨first.all, second.all⟩, ?_⟩
  rw [punctuation, List.filter_append, List.map_append, ← first.same, ← second.same]
  rfl

theorem Marks.ne_nil {g : List Char} {ts : List Token} (marks : Marks g ts) (some_ : ts ≠ []) : g ≠ [] := by
  rintro rfl
  exact some_ marks.same.symm

theorem blank_not_mark {c : Char} (space : blank c = true) : isMark c = false := by
  rcases blank_iff.mp space with rfl | rfl | rfl | rfl <;> rfl

theorem Marks.spells {g : List Char} {ts : List Token} (marks : Marks g ts) : Spells g ts := by
  obtain ⟨all, rfl⟩ := marks
  intro rest ts spaced
  induction g with
  | nil => exact spaced
  | cons c g ih =>
    have later := ih fun d member => all d (List.mem_cons_of_mem _ member)
    by_cases known : isMark c = true
    · have split : punctuation (c :: g) = .mark c :: punctuation g := by rw [punctuation, List.filter_cons_of_pos known]; rfl
      rw [split]
      exact .token (k := .mark c) trivial later
    · have split : punctuation (c :: g) = punctuation g := by rw [punctuation, List.filter_cons_of_neg known]; rfl
      have space : blank c = true := by simpa [known] using all c List.mem_cons_self
      rw [split]
      exact .blank space later

theorem spells_str (s : List Char) : Spells ('"' :: s ++ ['"']) [.str s] :=
  fun _ _ spaced => .token (k := .str s) trivial spaced

theorem not_inWord {c : Char} (seen : (blank c || isMark c) = true) : inWord c = false := by
  rcases (Bool.or_eq_true _ _).mp seen with space | known
  · rcases blank_iff.mp space with rfl | rfl | rfl | rfl <;> rfl
  · rcases isMark_iff.mp known with rfl | rfl | rfl | rfl | rfl | rfl <;> rfl

/-- Behind a number comes a blank or a mark. -/
theorem spells_num (n : List Char) {g : List Char} {ts : List Token} (marks : Marks g ts) (some_ : ts ≠ []) :
    Spells (n ++ g) (.num n :: ts) := by
  intro rest us spaced
  have behind := marks.spells rest us spaced
  obtain ⟨d, g, rfl⟩ := List.exists_cons_of_ne_nil (marks.ne_nil some_)
  rw [List.append_assoc]
  refine .token (k := .num n) (fun c first => ?_) behind
  obtain rfl : d = c := Option.some.inj first
  exact not_inWord (marks.all _ List.mem_cons_self)

/-! ## Only one reading -/

theorem notation_unique {x x' u u' : List Char} {c c' : Char} (first : Notation x c) (second : Notation x' c')
    (same : x ++ u = x' ++ u') : x = x' ∧ c = c' := by
  have value : ∀ {a b : Char} {n : Nat}, n = a.toNat → n = b.toNat → a = b := fun left right =>
    Char.toNat_inj.mp (left.symm.trans right)
  -- The number of a character is no half of a surrogate pair.
  have valid : ∀ {a : Char} {n : Nat}, n = a.toNat → ¬(0xD800 ≤ n ∧ n < 0xDC00) := by
    rintro a n rfl ⟨low, high⟩
    have whole : a.toNat < 0xD800 ∨ 0xDFFF < a.toNat ∧ a.toNat < 0x110000 := a.valid
    omega
  have four : ∀ {d d' t t' : List Char}, d.length = 4 → d'.length = 4 → d ++ t = d' ++ t' → d = d' ∧ t = t' :=
    fun length length' equal => List.append_inj equal (length.trans length'.symm)
  have mark : ∀ {d : Char}, JsonText.literal d = true → d ≠ '\\' := by
    rintro d plain rfl
    exact absurd plain (by decide)
  cases first with
  | literal plain =>
    cases second with
    | literal =>
      obtain ⟨rfl, -⟩ := List.cons.inj same
      exact ⟨rfl, rfl⟩
    | _ => exact absurd (List.cons.inj same).1 (mark plain)
  | escape known =>
    cases second with
    | literal plain => exact absurd (List.cons.inj same).1.symm (mark plain)
    | escape known' =>
      obtain ⟨rfl, -⟩ := List.cons.inj (List.cons.inj same).2
      exact ⟨rfl, Option.some.inj (known.symm.trans known')⟩
    | _ =>
      obtain ⟨rfl, -⟩ := List.cons.inj (List.cons.inj same).2
      cases known
  | unicode length hex code =>
    cases second with
    | literal plain => exact absurd (List.cons.inj same).1.symm (mark plain)
    | escape known =>
      obtain ⟨rfl, -⟩ := List.cons.inj (List.cons.inj same).2
      cases known
    | unicode length' hex' code' =>
      obtain ⟨rfl, -⟩ := four length length' (List.cons.inj (List.cons.inj same).2).2
      exact ⟨rfl, value code code'⟩
    | pair length' _ _ least most =>
      rename_i digits high low _ _ _ _ _
      have equal : digits ++ u = high ++ ('\\' :: 'u' :: low ++ u') := by simpa using same
      obtain ⟨rfl, -⟩ := four length length' equal
      exact absurd ⟨least, most⟩ (valid code)
  | pair length lengthLow _ least most _ _ code =>
    rename_i high low _ _ _
    cases second with
    | literal plain => exact absurd (List.cons.inj same).1.symm (mark plain)
    | escape known =>
      obtain ⟨rfl, -⟩ := List.cons.inj (List.cons.inj same).2
      cases known
    | unicode length' _ code' =>
      rename_i digits _
      have equal : high ++ ('\\' :: 'u' :: low ++ u) = digits ++ u' := by simpa using same
      obtain ⟨rfl, -⟩ := four length length' equal
      exact absurd ⟨least, most⟩ (valid code')
    | pair length' lengthLow' _ _ _ _ _ code' =>
      rename_i high' low' _ _ _ _ _
      have equal : high ++ ('\\' :: 'u' :: low ++ u) = high' ++ ('\\' :: 'u' :: low' ++ u') := by simpa using same
      obtain ⟨rfl, rest⟩ := four length length' equal
      obtain ⟨rfl, -⟩ := four lengthLow lengthLow' (List.cons.inj (List.cons.inj rest).2).2
      exact ⟨rfl, value code.symm code'.symm⟩

theorem notation_ne_quote {x : List Char} {c : Char} (first : Notation x c) : ∃ d t, x = d :: t ∧ d ≠ '"' := by
  cases first with
  | literal plain =>
    refine ⟨_, _, rfl, ?_⟩
    rintro rfl
    exact absurd plain (by decide)
  | _ => exact ⟨_, _, rfl, by decide⟩

/-- A string ends at the first quote that is not escaped. -/
theorem chars_unique {t t' s s' r r' : List Char} (first : Chars t s) (second : Chars t' s')
    (same : t ++ '"' :: r = t' ++ '"' :: r') : t = t' ∧ s = s' := by
  induction first generalizing t' s' with
  | nil =>
    cases second with
    | nil => exact ⟨rfl, rfl⟩
    | cons front =>
      obtain ⟨d, u, rfl, mark⟩ := notation_ne_quote front
      exact absurd (List.cons.inj same).1.symm mark
  | cons front _ ih =>
    cases second with
    | nil =>
      obtain ⟨d, u, rfl, mark⟩ := notation_ne_quote front
      exact absurd (List.cons.inj same).1 mark
    | cons front' rest' =>
      rw [List.append_assoc, List.append_assoc] at same
      obtain ⟨rfl, rfl⟩ := notation_unique front front' same
      obtain ⟨rfl, rfl⟩ := ih rest' (List.append_cancel_left same)
      exact ⟨rfl, rfl⟩

theorem number_inWord {t : List Char} (number : Number t) : ∀ c ∈ t, inWord c = true := by
  obtain ⟨minus, whole, fraction, exponent, rfl, sign, ⟨digits, -, -⟩, behind, tail⟩ := number
  have digit : ∀ {s : List Char}, Digits s → ∀ c ∈ s, inWord c = true := fun all c member => by
    simp [inWord, Char.isAlphanum, all c member]
  simp only [List.mem_append]
  rintro c (((first | second) | third) | fourth)
  · rcases sign with rfl | rfl
    · cases first
    · rw [List.mem_singleton.mp first]
      rfl
  · exact digit digits c second
  · rcases behind with rfl | ⟨ds, rfl, -, all⟩
    · cases third
    · rcases List.mem_cons.mp third with rfl | later
      · rfl
      · exact digit all c later
  · rcases tail with rfl | ⟨e, sign, ds, rfl, letter, plus, -, all⟩
    · cases fourth
    · rcases List.mem_append.mp fourth with front | later
      · rcases List.mem_cons.mp front with rfl | mark
        · rcases letter with rfl | rfl <;> rfl
        · rcases plus with rfl | rfl | rfl
          · cases mark
          · rw [List.mem_singleton.mp mark]
            rfl
          · rw [List.mem_singleton.mp mark]
            rfl
      · exact digit all c later

theorem number_head {t : List Char} (number : Number t) : ∃ c ∈ t.head?, c = '-' ∨ c.isDigit = true := by
  obtain ⟨minus, whole, fraction, exponent, rfl, sign, ⟨digits, filled, -⟩, -, -⟩ := number
  rcases sign with rfl | rfl
  · obtain ⟨c, rest, rfl⟩ := List.exists_cons_of_ne_nil filled
    exact ⟨c, rfl, Or.inr (digits c List.mem_cons_self)⟩
  · exact ⟨'-', rfl, Or.inl rfl⟩

theorem known_word {w : List Char} (known : w ∈ ["true".toList, "false".toList, "null".toList]) :
    (∃ c ∈ w.head?, c = 't' ∨ c = 'f' ∨ c = 'n') ∧ ∀ c ∈ w, inWord c = true := by
  simp only [List.mem_cons, List.not_mem_nil, or_false] at known
  rcases known with rfl | rfl | rfl
  · exact ⟨⟨'t', rfl, Or.inl rfl⟩, List.all_eq_true.mp rfl⟩
  · exact ⟨⟨'f', rfl, Or.inr (Or.inl rfl)⟩, List.all_eq_true.mp rfl⟩
  · exact ⟨⟨'n', rfl, Or.inr (Or.inr rfl)⟩, List.all_eq_true.mp rfl⟩

/-- The kinds of pieces, by their first character. -/
def kind (c : Char) : Nat :=
  if blank c then 0 else if isMark c then 1 else if c = '"' then 2 else if c = '-' ∨ c.isDigit then 3 else 4

def Token.kind : Token → Nat
  | .mark _ => 1
  | .str _ => 2
  | .num _ => 3
  | .word _ => 4

theorem kind_digit {c : Char} (digit : c.isDigit = true) : kind c = 3 := by
  have space : ¬blank c = true := by
    intro space
    rcases blank_iff.mp space with rfl | rfl | rfl | rfl <;> cases digit
  have known : ¬isMark c = true := by
    intro known
    rcases isMark_iff.mp known with rfl | rfl | rfl | rfl | rfl | rfl <;> cases digit
  have quote : c ≠ '"' := by
    rintro rfl
    cases digit
  rw [kind, if_neg space, if_neg known, if_neg quote, if_pos (Or.inr digit)]

theorem item_head {x rest : List Char} {first : List Token} (item : Item x rest first) :
    ∃ c t, x = c :: t ∧ kind c = (first.head?.map Token.kind).getD 0 := by
  cases item with
  | blank space => exact ⟨_, [], rfl, if_pos space⟩
  | mark known =>
    have seen : ¬blank _ = true := fun space => Bool.false_ne_true ((blank_not_mark space).symm.trans known)
    exact ⟨_, [], rfl, (if_neg seen).trans (if_pos known)⟩
  | str => exact ⟨'"', _, rfl, rfl⟩
  | num number =>
    obtain ⟨c, front, sign⟩ := number_head number
    cases x with
    | nil => cases front
    | cons d t =>
      obtain rfl : d = c := Option.some.inj front
      refine ⟨_, t, rfl, ?_⟩
      rcases sign with rfl | digit
      · rfl
      · exact kind_digit digit
  | word known =>
    obtain ⟨⟨c, front, letter⟩, -⟩ := known_word known
    cases x with
    | nil => cases front
    | cons d t =>
      obtain rfl : d = c := Option.some.inj front
      exact ⟨_, t, rfl, by rcases letter with rfl | rfl | rfl <;> rfl⟩

/-- Two words that end where no word goes on are equal. -/
theorem word_unique {t t' rest rest' : List Char} (all : ∀ c ∈ t, inWord c = true) (all' : ∀ c ∈ t', inWord c = true)
    (ends : Opens rest) (ends' : Opens rest') (same : t ++ rest = t' ++ rest') : t = t' := by
  have stop : ∀ {t rest : List Char}, (∀ c ∈ t, inWord c = true) → Opens rest → (t ++ rest).takeWhile inWord = t := by
    intro t rest all ends
    rw [List.takeWhile_append_of_pos all]
    cases rest with
    | nil => simp
    | cons c rest => simp [ends c rfl]
  have equal := congrArg (List.takeWhile inWord) same
  rwa [stop all ends, stop all' ends'] at equal

theorem item_unique {x x' rest rest' : List Char} {first first' : List Token} (item : Item x rest first)
    (item' : Item x' rest' first') (same : x ++ rest = x' ++ rest') : x = x' ∧ first = first' := by
  have kinds : (first.head?.map Token.kind).getD 0 = (first'.head?.map Token.kind).getD 0 := by
    obtain ⟨c, t, rfl, known⟩ := item_head item
    obtain ⟨c', t', rfl, known'⟩ := item_head item'
    obtain ⟨rfl, -⟩ := List.cons.inj same
    rw [← known, ← known']
  cases item with
  | blank =>
    cases item' with
    | blank =>
      obtain ⟨rfl, -⟩ := List.cons.inj same
      exact ⟨rfl, rfl⟩
    | _ => simp [Token.kind] at kinds
  | mark =>
    cases item' with
    | mark =>
      obtain ⟨rfl, -⟩ := List.cons.inj same
      exact ⟨rfl, rfl⟩
    | _ => simp [Token.kind] at kinds
  | str chars =>
    rename_i t s
    cases item' with
    | str chars' =>
      rename_i t' s'
      have inside : t ++ '"' :: rest = t' ++ '"' :: rest' := by simpa using same
      obtain ⟨rfl, rfl⟩ := chars_unique chars chars' inside
      exact ⟨rfl, rfl⟩
    | _ => simp [Token.kind] at kinds
  | num number ends =>
    cases item' with
    | num number' ends' =>
      obtain rfl := word_unique (number_inWord number) (number_inWord number') ends ends' same
      exact ⟨rfl, rfl⟩
    | _ => simp [Token.kind] at kinds
  | word known ends =>
    cases item' with
    | word known' ends' =>
      obtain rfl := word_unique (known_word known).2 (known_word known').2 ends ends' same
      exact ⟨rfl, rfl⟩
    | _ => simp [Token.kind] at kinds

/-- A text has one sequence of tokens. -/
theorem lexes_unique {t : List Char} {ts us : List Token} (lexes : Lexes t ts) (lexes' : Lexes t us) : ts = us := by
  induction lexes generalizing us with
  | nil =>
    generalize text : ([] : List Char) = t at lexes'
    cases lexes' with
    | nil => rfl
    | item first =>
      obtain ⟨c, t, rfl, -⟩ := item_head first
      exact absurd text.symm (List.cons_ne_nil _ _)
  | item first _ ih =>
    rename_i x rest _ _ _
    generalize text : x ++ rest = t at lexes'
    cases lexes' with
    | nil =>
      obtain ⟨c, t, rfl, -⟩ := item_head first
      exact absurd text (List.cons_ne_nil _ _)
    | item first' later' =>
      obtain ⟨rfl, rfl⟩ := item_unique first first' text
      obtain rfl := List.append_cancel_left text
      rw [ih later']

theorem tokens_head (v : Json) : ∃ k ts, v.tokens = k :: ts ∧ ∀ c, k = .mark c → c = '[' ∨ c = '\x7b' := by
  cases v with
  | arr => exact ⟨_, _, by rw [Json.tokens, List.cons_append], fun c same => Or.inl (Token.mark.inj same).symm⟩
  | obj => exact ⟨_, _, by rw [Json.tokens, List.cons_append], fun c same => Or.inr (Token.mark.inj same).symm⟩
  | _ => exact ⟨_, _, by rw [Json.tokens], fun c same => by cases same⟩

theorem tokens_ne_mark (v : Json) {c : Char} {ts us : List Token} (closing : c ≠ '[' ∧ c ≠ '\x7b') :
    v.tokens ++ ts ≠ .mark c :: us := by
  obtain ⟨k, rest, split, opening⟩ := tokens_head v
  rw [split]
  intro same
  rcases opening c (List.cons.inj same).1 with rfl | rfl
  · exact closing.1 rfl
  · exact closing.2 rfl

/-- What is behind an element: nothing, or a comma and the others. -/
theorem elements_cons (v : Json) (vs : List Json) :
    elements (v :: vs) = v.tokens ++ if vs = [] then [] else .mark ',' :: elements vs := by
  cases vs with
  | nil => simp [elements]
  | cons w vs => rw [elements, if_neg (List.cons_ne_nil _ _)]

theorem elements_flatMap (v : Json) (vs : List Json) :
    elements (v :: vs) = v.tokens ++ vs.flatMap fun w => .mark ',' :: w.tokens := by
  induction vs generalizing v with
  | nil => simp [elements]
  | cons w vs ih => rw [elements, ih, List.flatMap_cons, List.cons_append]

theorem members_cons (k : List Char) (v : Json) (ms : List (List Char × Json)) :
    members ((k, v) :: ms) = .str k :: .mark ':' :: (v.tokens ++ if ms = [] then [] else .mark ',' :: members ms) := by
  cases ms with
  | nil => simp [members]
  | cons m ms => rw [members, if_neg (List.cons_ne_nil _ _)]; rfl

/-- Every token of the value has the property. -/
def Json.All (P : Token → Prop) (v : Json) : Prop := ∀ k ∈ v.tokens, P k

section
variable {P : Token → Prop}

@[simp] theorem all_str (s : List Char) : (Json.str s).All P ↔ P (.str s) := by
  simp [Json.All, Json.tokens]

@[simp] theorem all_num (t : List Char) : (Json.num t).All P ↔ P (.num t) := by
  simp [Json.All, Json.tokens]

variable (mark : ∀ c, isMark c = true → P (.mark c))
include mark

theorem all_arr (vs : List Json) : (Json.arr vs).All P ↔ ∀ v ∈ vs, v.All P := by
  have inside : (∀ k ∈ elements vs, P k) ↔ ∀ v ∈ vs, v.All P := by
    induction vs with
    | nil => simp [elements]
    | cons v vs ih =>
      rw [elements_cons, List.forall_mem_append, List.forall_mem_cons, ← ih]
      split_ifs with empty
      · simp [empty, elements, Json.All]
      · simp [Json.All, mark ',' rfl]
  rw [Json.All, Json.tokens, ← inside, List.cons_append, List.forall_mem_cons, List.forall_mem_append,
    List.forall_mem_singleton]
  exact ⟨fun all => all.2.1, fun all => ⟨mark _ rfl, all, mark _ rfl⟩⟩

theorem all_obj (ms : List (List Char × Json)) : (Json.obj ms).All P ↔ ∀ m ∈ ms, P (.str m.1) ∧ m.2.All P := by
  have inside : (∀ k ∈ members ms, P k) ↔ ∀ m ∈ ms, P (.str m.1) ∧ m.2.All P := by
    induction ms with
    | nil => simp [members]
    | cons m ms ih =>
      obtain ⟨k, v⟩ := m
      rw [members_cons, List.forall_mem_cons, List.forall_mem_cons, List.forall_mem_append, List.forall_mem_cons, ← ih]
      split_ifs with empty
      · simp [empty, members, Json.All, mark ':' rfl]
      · simp [Json.All, mark ':' rfl, mark ',' rfl, and_assoc]
  rw [Json.All, Json.tokens, ← inside, List.cons_append, List.forall_mem_cons, List.forall_mem_append,
    List.forall_mem_singleton]
  exact ⟨fun all => all.2.1, fun all => ⟨mark _ rfl, all, mark _ rfl⟩⟩

end

theorem members_append (ms : List (List Char × Json)) (k : List Char) (v : Json) : members (ms ++ [(k, v)]) =
    members ms ++ (if ms = [] then [] else [.mark ',']) ++ .str k :: .mark ':' :: v.tokens := by
  induction ms with
  | nil => simp [members]
  | cons m ms ih =>
    obtain ⟨k', v'⟩ := m
    rw [List.cons_append, members_cons, ih, members_cons, if_neg (by simp), if_neg (List.cons_ne_nil _ _)]
    split_ifs with empty
    · simp [empty, members]
    · simp

mutual

theorem tokens_unique : ∀ (v v' : Json) {r r' : List Token}, v.tokens ++ r = v'.tokens ++ r' → v = v' ∧ r = r'
  | .str s, v', r, r', same => by
    cases v' <;> simp [Json.tokens] at same ⊢
    exact same
  | .num t, v', r, r', same => by
    cases v' <;> simp [Json.tokens] at same ⊢
    exact same
  | .word w, v', r, r', same => by
    cases v' <;> simp [Json.tokens] at same ⊢
    exact same
  | .arr vs, v', r, r', same => by
    cases v' with
    | arr vs' =>
      simp only [Json.tokens, List.cons_append, List.append_assoc, List.nil_append] at same
      obtain ⟨rfl, rest⟩ := elements_unique vs vs' (List.cons.inj same).2
      exact ⟨rfl, rest⟩
    | _ => simp [Json.tokens] at same
  | .obj ms, v', r, r', same => by
    cases v' with
    | obj ms' =>
      simp only [Json.tokens, List.cons_append, List.append_assoc, List.nil_append] at same
      obtain ⟨rfl, rest⟩ := members_unique ms ms' (List.cons.inj same).2
      exact ⟨rfl, rest⟩
    | _ => simp [Json.tokens] at same

theorem elements_unique : ∀ (vs vs' : List Json) {r r' : List Token},
    elements vs ++ .mark ']' :: r = elements vs' ++ .mark ']' :: r' → vs = vs' ∧ r = r'
  | [], [], r, r', same => ⟨rfl, (List.cons.inj same).2⟩
  | [], v' :: vs', r, r', same => by
    rw [elements_cons, List.append_assoc] at same
    exact absurd same.symm (tokens_ne_mark v' (by decide))
  | v :: vs, [], r, r', same => by
    rw [elements_cons, List.append_assoc] at same
    exact absurd same (tokens_ne_mark v (by decide))
  | [v], v' :: vs', r, r', same => by
    rw [elements_cons v, elements_cons v', List.append_assoc, List.append_assoc] at same
    obtain ⟨rfl, rest⟩ := tokens_unique v v' same
    cases vs' with
    | nil => exact ⟨rfl, (List.cons.inj rest).2⟩
    | cons => exact absurd (Token.mark.inj (List.cons.inj rest).1) (by decide)
  | v :: w :: vs, v' :: vs', r, r', same => by
    rw [elements_cons v, elements_cons v', List.append_assoc, List.append_assoc] at same
    obtain ⟨rfl, rest⟩ := tokens_unique v v' same
    cases vs' with
    | nil => exact absurd (Token.mark.inj (List.cons.inj rest).1) (by decide)
    | cons w' vs' =>
      obtain ⟨tail, end_⟩ := elements_unique (w :: vs) (w' :: vs') (List.cons.inj rest).2
      exact ⟨by rw [tail], end_⟩

theorem members_unique : ∀ (ms ms' : List (List Char × Json)) {r r' : List Token},
    members ms ++ .mark '\x7d' :: r = members ms' ++ .mark '\x7d' :: r' → ms = ms' ∧ r = r'
  | [], [], r, r', same => ⟨rfl, (List.cons.inj same).2⟩
  | [], (k', v') :: ms', r, r', same => by
    rw [members_cons] at same
    cases (List.cons.inj same).1
  | (k, v) :: ms, [], r, r', same => by
    rw [members_cons] at same
    cases (List.cons.inj same).1
  | [(k, v)], (k', v') :: ms', r, r', same => by
    rw [members_cons k, members_cons k'] at same
    obtain ⟨key, value⟩ := List.cons.inj same
    obtain rfl := Token.str.inj key
    obtain ⟨rfl, behind⟩ := tokens_unique v v' (by simpa using (List.cons.inj value).2)
    cases ms' with
    | nil => exact ⟨rfl, (List.cons.inj behind).2⟩
    | cons => exact absurd (Token.mark.inj (List.cons.inj behind).1) (by decide)
  | (k, v) :: m :: ms, (k', v') :: ms', r, r', same => by
    rw [members_cons k, members_cons k'] at same
    obtain ⟨key, value⟩ := List.cons.inj same
    obtain rfl := Token.str.inj key
    obtain ⟨rfl, behind⟩ := tokens_unique v v' (by simpa using (List.cons.inj value).2)
    cases ms' with
    | nil => exact absurd (Token.mark.inj (List.cons.inj behind).1) (by decide)
    | cons m' ms' =>
      obtain ⟨tail, end_⟩ := members_unique (m :: ms) (m' :: ms') (List.cons.inj behind).2
      exact ⟨by rw [tail], end_⟩

end

/-- A text has one value. -/
theorem text_unique {text : List Char} {v v' : Json} (reads : Text text v) (reads' : Text text v') : v = v' := by
  have same : v.tokens ++ [] = v'.tokens ++ [] := by rw [lexes_unique reads reads']
  exact (tokens_unique v v' same).1

end DhcpdPools.JsonText
