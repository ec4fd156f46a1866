import Mathlib

/-!
XML documents as a reader reports them: tags and characters, where references and CDATA
sections stand for characters, and comments and processing instructions for nothing.
A text that spells out tags and characters is read as these exactly when the characters
may stand for themselves (`lexes_plain_iff`), and then as nothing else (`lexes_unique`).
-/
namespace DhcpdPools.XmlText

/-- What is reported, in the order of the text. -/
inductive Event where
  | opening (name : List Char) (attributes : List (List Char × List Char))
  | closing (name : List Char)
  | empty (name : List Char) (attributes : List (List Char × List Char))
  | char (c : Char)
deriving DecidableEq

/-! ## Characters and names -/

def blank (c : Char) : Bool := c = ' ' || c = '\t' || c = '\n' || c = '\r'

def Blanks (s : List Char) : Prop := ∀ c ∈ s, blank c = true

/-- A character that may be in a document, in any notation. -/
def legal (c : Char) : Bool := (0x20 ≤ c.toNat || blank c) && c.toNat ≠ 0xFFFE && c.toNat ≠ 0xFFFF

def between (c : Char) (ranges : List (Nat × Nat)) : Bool := ranges.any fun r => r.1 ≤ c.toNat && c.toNat ≤ r.2

def nameStart (c : Char) : Bool :=
  c.isAlpha || c = ':' || c = '_' || between c [(0xC0, 0xD6), (0xD8, 0xF6), (0xF8, 0x2FF), (0x370, 0x37D),
    (0x37F, 0x1FFF), (0x200C, 0x200D), (0x2070, 0x218F), (0x2C00, 0x2FEF), (0x3001, 0xD7FF), (0xF900, 0xFDCF),
    (0xFDF0, 0xFFFD), (0x10000, 0xEFFFF)]

def nameChar (c : Char) : Bool :=
  nameStart c || c.isDigit || c = '-' || c = '.' || between c [(0xB7, 0xB7), (0x300, 0x36F), (0x203F, 0x2040)]

def IsName (s : List Char) : Prop := (∃ c ∈ s.head?, nameStart c = true) ∧ ∀ c ∈ s, nameChar c = true

theorem isName_of {s : List Char} (checked : (s.head?.any nameStart && s.all nameChar) = true) : IsName s := by
  rw [Bool.and_eq_true, List.all_eq_true] at checked
  exact ⟨(Option.any_eq_true _ _).mp checked.1, checked.2⟩

/-! ## The grammar -/

def hexValue (c : Char) : Nat :=
  if c.isDigit then c.toNat - 48 else if c.isLower then c.toNat - 87 else c.toNat - 55

def hexDigit (c : Char) : Bool := c.isDigit || 'a' ≤ c && c ≤ 'f' || 'A' ≤ c && c ≤ 'F'

/-- References to characters and to the entities that need no declaration. -/
inductive Reference : List Char → Char → Prop
  | entity {name : List Char} {c : Char} : (name, c) ∈ [("lt".toList, '<'), ("gt".toList, '>'), ("amp".toList, '&'),
      ("apos".toList, '\''), ("quot".toList, '"')] → Reference ('&' :: name ++ [';']) c
  | decimal {digits : List Char} {c : Char} : digits ≠ [] → (∀ d ∈ digits, d.isDigit = true) →
      Nat.ofDigitChars 10 digits 0 = c.toNat → legal c = true → Reference ('&' :: '#' :: digits ++ [';']) c
  | hexadecimal {digits : List Char} {c : Char} : digits ≠ [] → (∀ d ∈ digits, hexDigit d = true) →
      digits.foldl (fun n d => 16 * n + hexValue d) 0 = c.toNat → legal c = true →
      Reference ('&' :: '#' :: 'x' :: digits ++ [';']) c

/-- The value of an attribute in quotes. -/
inductive AttributeValue (quote : Char) : List Char → List Char → Prop
  | nil : AttributeValue quote [] []
  | char {c : Char} {t v : List Char} : legal c = true → c ≠ '<' → c ≠ '&' → c ≠ quote → AttributeValue quote t v →
      AttributeValue quote (c :: t) ((if blank c then ' ' else c) :: v)
  | reference {r : List Char} {c : Char} {t v : List Char} : Reference r c → AttributeValue quote t v →
      AttributeValue quote (r ++ t) (c :: v)

/-- What is behind the name in a tag. -/
inductive Attributes : List Char → List (List Char × List Char) → Prop
  | done {blanks : List Char} : Blanks blanks → Attributes blanks []
  | more {blanks name before after text value rest : List Char} {quote : Char} {l : List (List Char × List Char)} :
      Blanks blanks → blanks ≠ [] → IsName name → Blanks before → Blanks after → (quote = '"' ∨ quote = '\'') →
      AttributeValue quote text value → Attributes rest l → (∀ a ∈ l, a.1 ≠ name) →
      Attributes (blanks ++ name ++ before ++ '=' :: after ++ quote :: text ++ quote :: rest) ((name, value) :: l)

/-- The piece at the front of a text, and what it stands for; the text behind it decides whether a
    bracket may stand for itself. -/
inductive Item : List Char → List Char → List Event → Prop
  | char {c : Char} {rest : List Char} : legal c = true → c ≠ '<' → c ≠ '&' → ¬"]]>".toList <+: c :: rest →
      Item [c] rest [.char c]
  | reference {r rest : List Char} {c : Char} : Reference r c → Item r rest [.char c]
  | section_ {body rest : List Char} : (∀ c ∈ body, legal c = true) → ¬"]]>".toList <:+: body →
      Item ("<![CDATA[".toList ++ body ++ "]]>".toList) rest (body.map .char)
  | comment {body rest : List Char} : (∀ c ∈ body, legal c = true) → ¬"--".toList <:+: body ++ ['-'] →
      Item ("<!--".toList ++ body ++ "-->".toList) rest []
  | instruction {target body rest : List Char} : IsName target → target.map Char.toLower ≠ "xml".toList →
      (∀ c ∈ body.head?, blank c = true) → (∀ c ∈ body, legal c = true) → ¬"?>".toList <:+: body →
      Item ("<?".toList ++ target ++ body ++ "?>".toList) rest []
  | opening {name text rest : List Char} {l : List (List Char × List Char)} : IsName name → Attributes text l →
      Item ('<' :: name ++ text ++ ['>']) rest [.opening name l]
  | empty {name text rest : List Char} {l : List (List Char × List Char)} : IsName name → Attributes text l →
      Item ('<' :: name ++ text ++ ['/', '>']) rest [.empty name l]
  | closing {name blanks rest : List Char} : IsName name → Blanks blanks →
      Item ('<' :: '/' :: name ++ blanks ++ ['>']) rest [.closing name]

/-- A text and the events that it stands for. -/
inductive Lexes : List Char → List Event → Prop
  | nil : Lexes [] []
  | item {x rest : List Char} {first es : List Event} : Item x rest first → Lexes rest es → Lexes (x ++ rest) (first ++ es)

/-- What is between two tags of one element: characters and elements. -/
inductive Content : List Event → Prop
  | nil : Content []
  | char {c : Char} {es : List Event} : Content es → Content (.char c :: es)
  | empty {name : List Char} {l : List (List Char × List Char)} {es : List Event} : Content es → Content (.empty name l :: es)
  | element {name : List Char} {l : List (List Char × List Char)} {body es : List Event} : Content body → Content es →
      Content (.opening name l :: body ++ .closing name :: es)

/-- Every end of a line is read as a line feed. -/
def lineEnds : List Char → List Char
  | [] => []
  | '\r' :: '\n' :: t => '\n' :: lineEnds t
  | '\r' :: t => '\n' :: lineEnds t
  | c :: t => c :: lineEnds t

/-- One element, with everything in it. -/
inductive Element : List Event → Prop
  | empty {name : List Char} {l : List (List Char × List Char)} : Element [.empty name l]
  | tags {name : List Char} {l : List (List Char × List Char)} {body : List Event} : Content body →
      Element (.opening name l :: body ++ [.closing name])

/-- A well-formed document: one element, with nothing but blanks around it. -/
structure Document (text : List Char) (es : List Event) : Prop where
  lexes : Lexes (lineEnds text) es
  root : ∃ before element after, es = before ++ element ++ after ∧ Element element ∧
    ∀ e ∈ before ++ after, ∃ c, e = .char c ∧ blank c = true

/-! ## Texts without other notations -/

/-- A tag without attributes, or a character that stands for itself. -/
def Event.text : Event → List Char
  | .opening name _ => '<' :: name ++ ['>']
  | .closing name => '<' :: '/' :: name ++ ['>']
  | .empty name _ => '<' :: name ++ ['/', '>']
  | .char c => [c]

/-- Events spelled out. -/
def plain (es : List Event) : List Char := es.flatMap Event.text

@[simp] theorem plain_nil : plain [] = [] := rfl

@[simp] theorem plain_cons (e : Event) (es : List Event) : plain (e :: es) = e.text ++ plain es := List.flatMap_cons

@[simp] theorem plain_append (es es' : List Event) : plain (es ++ es') = plain es ++ plain es' := List.flatMap_append

@[simp] theorem plain_chars (s : List Char) : plain (s.map .char) = s := by
  induction s with
  | nil => rfl
  | cons c s ih => rw [List.map_cons, plain_cons, ih]; rfl

/-- The characters may stand for themselves, and the tags have names and no attributes. -/
def Clean : List Event → Prop
  | [] => True
  | .opening name l :: es => IsName name ∧ l = [] ∧ Clean es
  | .closing name :: es => IsName name ∧ Clean es
  | .empty name l :: es => IsName name ∧ l = [] ∧ Clean es
  | .char c :: es => (legal c = true ∧ c ≠ '<' ∧ c ≠ '&' ∧ ¬"]]>".toList <+: c :: plain es) ∧ Clean es

theorem reference_length {r : List Char} {c : Char} (reference : Reference r c) : 4 ≤ r.length := by
  cases reference with
  | entity member =>
    rename_i name
    have long : 2 ≤ name.length := by
      simp only [List.mem_cons, Prod.mk.injEq, List.not_mem_nil, or_false] at member
      rcases member with ⟨rfl, -⟩ | ⟨rfl, -⟩ | ⟨rfl, -⟩ | ⟨rfl, -⟩ | ⟨rfl, -⟩ <;> decide
    simp only [List.length_append, List.length_cons, List.length_nil]
    omega
  | decimal some_ =>
    have long := List.length_pos_iff.mpr some_
    simp only [List.length_append, List.length_cons, List.length_nil]
    omega
  | hexadecimal some_ =>
    have long := List.length_pos_iff.mpr some_
    simp only [List.length_append, List.length_cons, List.length_nil]
    omega

theorem attributes_nil {l : List (List Char × List Char)} (attributes : Attributes [] l) : l = [] := by
  generalize text : ([] : List Char) = t at attributes
  cases attributes with
  | done => rfl
  | more =>
    have length := congrArg List.length text
    simp at length

/-- Any other notation is longer than tags and characters spelled out. -/
theorem item_tight {x rest : List Char} {first : List Event} (item : Item x rest first) :
    (plain first).length ≤ x.length ∧ (x.length ≤ (plain first).length → x = plain first ∧
      ∀ es, rest = plain es → Clean es → Clean (first ++ es)) := by
  cases item with
  | char isLegal less amp bracket =>
    exact ⟨Nat.le_refl _, fun _ => ⟨rfl, fun es same clean => ⟨⟨isLegal, less, amp, same ▸ bracket⟩, clean⟩⟩⟩
  | reference r =>
    have long := reference_length r
    have one : ∀ c, (plain [.char c]).length = 1 := fun _ => rfl
    rw [one]
    exact ⟨by omega, fun short => by omega⟩
  | section_ =>
    rw [plain_chars]
    simp only [List.length_append]
    have nine : "<![CDATA[".toList.length = 9 := rfl
    exact ⟨by omega, fun short => by omega⟩
  | comment =>
    simp only [plain_nil, List.length_append, List.length_nil]
    have four : "<!--".toList.length = 4 := rfl
    exact ⟨by omega, fun short => by omega⟩
  | instruction =>
    simp only [plain_nil, List.length_append, List.length_nil]
    have two : "<?".toList.length = 2 := rfl
    exact ⟨by omega, fun short => by omega⟩
  | opening named attributes =>
    rename_i name text l
    simp only [plain_cons, plain_nil, Event.text, List.append_nil, List.length_append, List.length_cons, List.length_nil]
    refine ⟨by omega, fun short => ?_⟩
    obtain rfl : text = [] := List.eq_nil_of_length_eq_zero (by omega)
    exact ⟨by rw [List.append_nil], fun es _ clean => ⟨named, attributes_nil attributes, clean⟩⟩
  | empty named attributes =>
    rename_i name text l
    simp only [plain_cons, plain_nil, Event.text, List.append_nil, List.length_append, List.length_cons, List.length_nil]
    refine ⟨by omega, fun short => ?_⟩
    obtain rfl : text = [] := List.eq_nil_of_length_eq_zero (by omega)
    exact ⟨by rw [List.append_nil], fun es _ clean => ⟨named, attributes_nil attributes, clean⟩⟩
  | closing named =>
    rename_i name blanks _
    simp only [plain_cons, plain_nil, Event.text, List.append_nil, List.length_append, List.length_cons, List.length_nil]
    refine ⟨by omega, fun short => ?_⟩
    obtain rfl : blanks = [] := List.eq_nil_of_length_eq_zero (by omega)
    exact ⟨by rw [List.append_nil], fun es _ clean => ⟨named, clean⟩⟩

theorem lexes_tight {text : List Char} {es : List Event} (lexes : Lexes text es) :
    (plain es).length ≤ text.length ∧ (text.length ≤ (plain es).length → text = plain es ∧ Clean es) := by
  induction lexes with
  | nil => exact ⟨Nat.le_refl _, fun _ => ⟨rfl, trivial⟩⟩
  | item first _ ih =>
    obtain ⟨long, tight⟩ := item_tight first
    obtain ⟨longer, later⟩ := ih
    simp only [plain_append, List.length_append]
    refine ⟨by omega, fun short => ?_⟩
    obtain ⟨same, clean⟩ := tight (by omega)
    obtain ⟨same', clean'⟩ := later (by omega)
    exact ⟨by rw [same, same'], clean _ same' clean'⟩

theorem lexes_of_clean {es : List Event} (clean : Clean es) : Lexes (plain es) es := by
  induction es with
  | nil => exact .nil
  | cons e es ih =>
    rw [plain_cons]
    cases e with
    | opening name l =>
      obtain ⟨named, rfl, clean⟩ := clean
      have item := @Item.opening name [] (plain es) [] named (.done fun _ member => by cases member)
      rw [List.append_nil] at item
      exact .item item (ih clean)
    | closing name =>
      obtain ⟨named, clean⟩ := clean
      have item := @Item.closing name [] (plain es) named fun _ member => by cases member
      rw [List.append_nil] at item
      exact .item item (ih clean)
    | empty name l =>
      obtain ⟨named, rfl, clean⟩ := clean
      have item := @Item.empty name [] (plain es) [] named (.done fun _ member => by cases member)
      rw [List.append_nil] at item
      exact .item item (ih clean)
    | char c =>
      obtain ⟨⟨isLegal, less, amp, bracket⟩, clean⟩ := clean
      exact .item (.char isLegal less amp bracket) (ih clean)

/-! ## Characters in front of a tag -/

/-- A text that may stand for itself. -/
def Literal (s : List Char) : Prop :=
  (∀ c ∈ s, legal c = true ∧ c ≠ '<' ∧ c ≠ '&') ∧ ¬"]]>".toList <:+: s

theorem prefix_stop {p s t : List Char} {c : Char} (absent : c ∉ p) (front : p <+: s ++ c :: t) : p <+: s := by
  induction p generalizing s with
  | nil => exact List.nil_prefix
  | cons d p ih =>
    simp only [List.mem_cons, not_or] at absent
    cases s with
    | nil => exact absurd (List.cons_prefix_cons.mp front).1.symm absent.1
    | cons e s =>
      obtain ⟨rfl, later⟩ := List.cons_prefix_cons.mp front
      exact List.cons_prefix_cons.mpr ⟨rfl, ih absent.2 later⟩

theorem literal_cons {c : Char} {s : List Char} : Literal (c :: s) ↔
    (legal c = true ∧ c ≠ '<' ∧ c ≠ '&' ∧ ¬"]]>".toList <+: c :: s) ∧ Literal s := by
  unfold Literal
  rw [List.infix_cons_iff, List.forall_mem_cons]
  tauto

theorem clean_chars {s t : List Char} {es : List Event} (tag : plain es = '<' :: t) :
    Clean (s.map .char ++ es) ↔ Literal s ∧ Clean es := by
  induction s with
  | nil =>
    rw [List.map_nil, List.nil_append, iff_and_self]
    exact fun _ => ⟨(fun _ member => by cases member), by decide⟩
  | cons c s ih =>
    have front : "]]>".toList <+: c :: plain (s.map .char ++ es) ↔ "]]>".toList <+: c :: s := by
      rw [plain_append, plain_chars, tag]
      exact ⟨prefix_stop (s := c :: s) (by decide), fun front => front.trans (List.prefix_append (c :: s) ('<' :: t))⟩
    rw [List.map_cons, List.cons_append, Clean, ih, front, literal_cons, ← and_assoc]

/-! ## Ends of lines -/

theorem lineEnds_length (text : List Char) : (lineEnds text).length ≤ text.length := by
  fun_induction lineEnds text with
  | case1 => exact Nat.le_refl _
  | case2 t ih =>
    simp only [List.length_cons]
    omega
  | case3 t _ ih => exact Nat.succ_le_succ ih
  | case4 c t _ _ ih => exact Nat.succ_le_succ ih

theorem return_notMem_lineEnds (text : List Char) : '\r' ∉ lineEnds text := by
  fun_induction lineEnds text with
  | case1 => exact List.not_mem_nil
  | case2 t ih => simpa using ih
  | case3 t _ ih => simpa using ih
  | case4 c t _ other ih => simpa using ⟨fun same => other same.symm, ih⟩

theorem lineEnds_self {text : List Char} (none : '\r' ∉ text) : lineEnds text = text := by
  fun_induction lineEnds text with
  | case1 => rfl
  | case2 t ih => exact absurd List.mem_cons_self none
  | case3 t _ ih => exact absurd List.mem_cons_self none
  | case4 c t _ _ ih => rw [ih fun member => none (List.mem_cons_of_mem _ member)]

/-- Spelled out events are read as they are exactly when they are clean and no line ends with a carriage return. -/
theorem lexes_plain_iff (es : List Event) : Lexes (lineEnds (plain es)) es ↔ Clean es ∧ '\r' ∉ plain es := by
  constructor
  · intro lexes
    have short := lineEnds_length (plain es)
    obtain ⟨-, tight⟩ := lexes_tight lexes
    obtain ⟨same, clean⟩ := tight short
    exact ⟨clean, same ▸ return_notMem_lineEnds _⟩
  · rintro ⟨clean, none⟩
    rw [lineEnds_self none]
    exact lexes_of_clean clean

/-! ## Only one reading -/

theorem nameChar_special : ∀ c : Char, nameChar c = true → c ≠ '>' ∧ c ≠ '/' ∧ blank c = false := by
  intro c name
  refine ⟨?_, ?_, ?_⟩
  · rintro rfl
    exact absurd name (by decide)
  · rintro rfl
    exact absurd name (by decide)
  · rw [← Bool.not_eq_true]
    intro space
    simp only [blank, Bool.or_eq_true, decide_eq_true_eq] at space
    rcases space with ((rfl | rfl) | rfl) | rfl <;> exact absurd name (by decide)

theorem nameStart_special : ∀ c : Char, nameStart c = true → c ≠ '/' ∧ c ≠ '!' ∧ c ≠ '?' := by
  intro c name
  refine ⟨?_, ?_, ?_⟩ <;> (rintro rfl; exact absurd name (by decide))

/-- A name begins with no mark of a section. -/
theorem nameStart_mark {c : Char} (start : nameStart c = true) : ¬(c = '!' ∨ c = '?') :=
  not_or.mpr (nameStart_special c start).2

/-- Two names that end where no name goes on are equal. -/
theorem name_unique {n m : List Char} {rest rest' : List Char} (named : IsName n) (named' : IsName m)
    (ends : ∀ c ∈ rest.head?, nameChar c = false) (ends' : ∀ c ∈ rest'.head?, nameChar c = false)
    (same : n ++ rest = m ++ rest') : n = m ∧ rest = rest' := by
  have stop : ∀ {n rest : List Char}, IsName n → (∀ c ∈ rest.head?, nameChar c = false) →
      (n ++ rest).takeWhile nameChar = n := by
    intro n rest named ends
    rw [List.takeWhile_append_of_pos named.2]
    cases rest with
    | nil => simp
    | cons c rest => simp [ends c rfl]
  have equal := congrArg (List.takeWhile nameChar) same
  rw [stop named ends, stop named' ends'] at equal
  subst equal
  exact ⟨rfl, List.append_cancel_left same⟩

theorem attributes_head {text : List Char} {l : List (List Char × List Char)} (attributes : Attributes text l) :
    ∀ c ∈ text.head?, blank c = true := by
  cases attributes with
  | done blanks =>
    intro c first
    exact blanks c (List.mem_of_mem_head? first)
  | more blanks filled =>
    intro c first
    obtain ⟨d, front, rfl⟩ := List.exists_cons_of_ne_nil filled
    obtain rfl : d = c := Option.some.inj first
    exact blanks _ List.mem_cons_self

/-- A tag that has nothing behind its name but its own end is read as this tag. -/
theorem tag_unique {name name' text tail tail' : List Char} {d d' : Char} (named : IsName name) (named' : IsName name')
    (behind : ∀ c ∈ text.head?, blank c = true) (close : d = '>' ∨ d = '/') (close' : d' = '>' ∨ d' = '/')
    (same : name' ++ (text ++ d' :: tail') = name ++ d :: tail) : name' = name ∧ text = [] ∧ d' = d ∧ tail' = tail := by
  have marks : ∀ c, c = '>' ∨ c = '/' → nameChar c = false := by
    rintro c (rfl | rfl) <;> decide
  have spaces : ∀ c, blank c = true → nameChar c = false := fun c space => by
    rw [← Bool.not_eq_true]
    exact fun word => Bool.false_ne_true ((nameChar_special c word).2.2.symm.trans space)
  have stops : ∀ c ∈ (text ++ d' :: tail').head?, nameChar c = false := by
    intro c first
    cases text with
    | nil =>
      obtain rfl : d' = c := Option.some.inj first
      exact marks _ close'
    | cons e text => exact spaces c (behind c first)
  have stop : ∀ c ∈ (d :: tail).head?, nameChar c = false := by
    intro c first
    obtain rfl : d = c := Option.some.inj first
    exact marks _ close
  obtain ⟨rfl, rest⟩ := name_unique named' named stops stop same
  cases text with
  | nil => exact ⟨rfl, rfl, (List.cons.inj rest).1, (List.cons.inj rest).2⟩
  | cons e text =>
    obtain ⟨rfl, -⟩ := List.cons.inj rest
    have space := behind e rfl
    rcases close with rfl | rfl <;> exact absurd space (by decide)

theorem name_head {name : List Char} (named : IsName name) : ∃ c rest, name = c :: rest ∧ nameStart c = true := by
  obtain ⟨⟨c, first, start⟩, -⟩ := named
  cases name with
  | nil => cases first
  | cons d rest =>
    obtain rfl := Option.some.inj first
    exact ⟨_, _, rfl, start⟩

/-- The pieces that start with `<`: sections without a name, and the three kinds of tags. -/
inductive Tag (x rest : List Char) (first : List Event) : List Char → Prop
  | section_ {c : Char} {u : List Char} : c = '!' ∨ c = '?' → Tag x rest first (c :: u)
  | opening {name text : List Char} {l : List (List Char × List Char)} : IsName name → Attributes text l →
      x = '<' :: name ++ text ++ ['>'] → first = [.opening name l] → Tag x rest first (name ++ (text ++ '>' :: rest))
  | empty {name text : List Char} {l : List (List Char × List Char)} : IsName name → Attributes text l →
      x = '<' :: name ++ text ++ ['/', '>'] → first = [.empty name l] → Tag x rest first (name ++ (text ++ '/' :: '>' :: rest))
  | closing {name blanks : List Char} : IsName name → Blanks blanks → x = '<' :: '/' :: name ++ blanks ++ ['>'] →
      first = [.closing name] → Tag x rest first ('/' :: name ++ (blanks ++ '>' :: rest))

theorem item_tag {x rest u : List Char} {first : List Event} (item : Item x rest first) (same : x ++ rest = '<' :: u) :
    Tag x rest first u := by
  cases item with
  | char _ less => exact absurd (List.cons.inj same).1 less
  | reference r => cases r <;> exact absurd (List.cons.inj same).1 (by decide)
  | section_ =>
    obtain rfl := (List.cons.inj same).2
    exact .section_ (Or.inl rfl)
  | comment =>
    obtain rfl := (List.cons.inj same).2
    exact .section_ (Or.inl rfl)
  | instruction =>
    obtain rfl := (List.cons.inj same).2
    exact .section_ (Or.inr rfl)
  | opening named attributes =>
    rename_i name text _
    have split : name ++ (text ++ '>' :: rest) = u := by simpa using same
    exact split ▸ .opening named attributes rfl rfl
  | empty named attributes =>
    rename_i name text _
    have split : name ++ (text ++ '/' :: '>' :: rest) = u := by simpa using same
    exact split ▸ .empty named attributes rfl rfl
  | closing named blanks =>
    rename_i name space
    have split : '/' :: name ++ (space ++ '>' :: rest) = u := by simpa using same
    exact split ▸ .closing named blanks rfl rfl

/-- A tag without attributes, or a character that starts no other piece. -/
def Fixed : Event → Prop
  | .opening name l | .empty name l => IsName name ∧ l = []
  | .closing name => IsName name
  | .char c => c ≠ '<' ∧ c ≠ '&'

/-- The piece at the front of an event that is spelled out is this event. -/
theorem item_unique {e : Event} {first : List Event} {x rest tail : List Char} (fixed : Fixed e)
    (item : Item x rest first) (same : x ++ rest = e.text ++ tail) : x = e.text ∧ first = [e] := by
  cases e with
  | char c =>
    obtain ⟨less, amp⟩ := fixed
    cases item with
    | char =>
      obtain ⟨rfl, -⟩ := List.cons.inj same
      exact ⟨rfl, rfl⟩
    | reference r => cases r <;> exact absurd (List.cons.inj same).1.symm amp
    | _ => exact absurd (List.cons.inj same).1.symm less
  | opening name l =>
    obtain ⟨named, rfl⟩ := fixed
    have text : x ++ rest = '<' :: (name ++ '>' :: tail) := by rw [same]; simp [Event.text]
    obtain ⟨c, n, rfl, start⟩ := name_head named
    generalize u : c :: n ++ '>' :: tail = t at text
    cases item_tag item text with
    | section_ mark =>
      obtain rfl := (List.cons.inj u).1
      exact absurd mark (nameStart_mark start)
    | opening named' attributes piece events =>
      obtain ⟨rfl, rfl, -⟩ := tag_unique named named' (attributes_head attributes) (Or.inl rfl)
        (Or.inl rfl) u.symm
      rw [attributes_nil attributes] at events
      exact ⟨by rw [piece, List.append_nil]; rfl, events⟩
    | empty named' attributes =>
      obtain ⟨-, -, wrong, -⟩ := tag_unique named named' (attributes_head attributes) (Or.inl rfl)
        (Or.inr rfl) u.symm
      exact absurd wrong (by decide)
    | closing =>
      obtain rfl := (List.cons.inj u).1
      exact absurd rfl (nameStart_special _ start).1
  | closing name =>
    have named : IsName name := fixed
    have text : x ++ rest = '<' :: ('/' :: (name ++ '>' :: tail)) := by rw [same]; simp [Event.text]
    generalize u : '/' :: (name ++ '>' :: tail) = t at text
    cases item_tag item text with
    | section_ mark =>
      obtain rfl := (List.cons.inj u).1
      exact absurd mark (by decide)
    | opening named' =>
      obtain ⟨c, n, rfl, start⟩ := name_head named'
      exact absurd (List.cons.inj u).1.symm (nameStart_special _ start).1
    | empty named' =>
      obtain ⟨c, n, rfl, start⟩ := name_head named'
      exact absurd (List.cons.inj u).1.symm (nameStart_special _ start).1
    | closing named' blanks piece events =>
      obtain ⟨rfl, rfl, -⟩ := tag_unique named named' (fun c first => blanks c (List.mem_of_mem_head? first)) (Or.inl rfl)
        (Or.inl rfl) (List.cons.inj u).2.symm
      exact ⟨by rw [piece, List.append_nil]; rfl, events⟩
  | empty name l =>
    obtain ⟨named, rfl⟩ := fixed
    have text : x ++ rest = '<' :: (name ++ '/' :: '>' :: tail) := by rw [same]; simp [Event.text]
    obtain ⟨c, n, rfl, start⟩ := name_head named
    generalize u : c :: n ++ '/' :: '>' :: tail = t at text
    cases item_tag item text with
    | section_ mark =>
      obtain rfl := (List.cons.inj u).1
      exact absurd mark (nameStart_mark start)
    | opening named' attributes =>
      obtain ⟨-, -, wrong, -⟩ := tag_unique named named' (attributes_head attributes) (Or.inr rfl)
        (Or.inl rfl) u.symm
      exact absurd wrong (by decide)
    | empty named' attributes piece events =>
      obtain ⟨rfl, rfl, -⟩ := tag_unique named named' (attributes_head attributes) (Or.inr rfl)
        (Or.inr rfl) u.symm
      rw [attributes_nil attributes] at events
      exact ⟨by rw [piece, List.append_nil]; rfl, events⟩
    | closing =>
      obtain rfl := (List.cons.inj u).1
      exact absurd rfl (nameStart_special _ start).1

theorem item_ne_nil {x rest : List Char} {first : List Event} (item : Item x rest first) : x ≠ [] := by
  cases item with
  | reference r => cases r <;> exact List.cons_ne_nil _ _
  | _ => exact List.cons_ne_nil _ _

theorem Clean.fixed {es : List Event} (clean : Clean es) : ∀ e ∈ es, Fixed e := by
  induction es with
  | nil => exact fun _ member => by cases member
  | cons e es ih =>
    rw [List.forall_mem_cons]
    cases e with
    | opening name l =>
      obtain ⟨named, none, later⟩ := clean
      exact ⟨⟨named, none⟩, ih later⟩
    | closing name =>
      obtain ⟨named, later⟩ := clean
      exact ⟨named, ih later⟩
    | empty name l =>
      obtain ⟨named, none, later⟩ := clean
      exact ⟨⟨named, none⟩, ih later⟩
    | char c =>
      obtain ⟨⟨-, less, amp, -⟩, later⟩ := clean
      exact ⟨⟨less, amp⟩, ih later⟩

/-- Events that are spelled out at the front of a text are read first. -/
theorem lexes_front {es us : List Event} {rest : List Char} (fixed : ∀ e ∈ es, Fixed e) (lexes : Lexes (plain es ++ rest) us) :
    ∃ later, us = es ++ later ∧ Lexes rest later := by
  induction es generalizing us with
  | nil => exact ⟨us, rfl, lexes⟩
  | cons e es ih =>
    generalize text : plain (e :: es) ++ rest = t at lexes
    cases lexes with
    | nil => cases e <;> exact absurd text (by simp [Event.text])
    | item first later =>
      rw [plain_cons, List.append_assoc] at text
      obtain ⟨rfl, rfl⟩ := item_unique (fixed e List.mem_cons_self) first text.symm
      rw [← List.append_cancel_left text] at later
      obtain ⟨behind, rfl, reads⟩ := ih (fun d member => fixed d (List.mem_cons_of_mem _ member)) later
      exact ⟨behind, rfl, reads⟩

/-- An ampersand starts a reference, which has a letter of an entity or a number sign behind it. -/
theorem lexes_ampersand {d : Char} {rest : List Char} {es : List Event} (lexes : Lexes ('&' :: d :: rest) es) :
    d ∈ ['l', 'g', 'a', 'q', '#'] := by
  generalize text : '&' :: d :: rest = t at lexes
  cases lexes with
  | nil => cases text
  | item first =>
    have wrong : ∀ {u v : List Char}, '&' :: d :: rest ≠ '<' :: u ++ v := fun same => absurd (List.cons.inj same).1 (by decide)
    cases first with
    | char _ _ amp => exact absurd (List.cons.inj text).1.symm amp
    | reference reference =>
      cases reference with
      | entity member =>
        have behind := (List.cons.inj text).2
        simp only [List.mem_cons, Prod.mk.injEq, List.not_mem_nil, or_false] at member
        rcases member with ⟨rfl, -⟩ | ⟨rfl, -⟩ | ⟨rfl, -⟩ | ⟨rfl, -⟩ | ⟨rfl, -⟩ <;>
          (obtain rfl := (List.cons.inj behind).1; decide)
      | decimal =>
        obtain rfl := (List.cons.inj (List.cons.inj text).2).1
        decide
      | hexadecimal =>
        obtain rfl := (List.cons.inj (List.cons.inj text).2).1
        decide
    | section_ | comment | instruction | opening | empty | closing => exact absurd (List.cons.inj text).1 (by decide)

theorem lexes_nil {es : List Event} (lexes : Lexes [] es) : es = [] := by
  generalize text : ([] : List Char) = t at lexes
  cases lexes with
  | nil => rfl
  | item first => exact absurd (List.append_eq_nil_iff.mp text.symm).1 (item_ne_nil first)

/-- A clean text has only one reading. -/
theorem lexes_unique {es es' : List Event} (clean : Clean es) (lexes : Lexes (plain es) es') : es' = es := by
  rw [← List.append_nil (plain es)] at lexes
  obtain ⟨later, rfl, behind⟩ := lexes_front clean.fixed lexes
  rw [lexes_nil behind, List.append_nil]

end DhcpdPools.XmlText
