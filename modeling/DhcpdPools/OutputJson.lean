import DhcpdPools.JsonText
import DhcpdPools.OutputRecords

/-!
The JSON report. `output_json` writes the tokens of an object with the records of the
report, each in the array of its section (`outputJson_spells`). Commas come from three
places: from an index that tells the first lease, from a comparison with the number of
rows, and from a counter of the sections; each is that of `elements` or `members`.
-/
namespace DhcpdPools.Output
open Printf JsonText

/-! ## The value -/

def cellJson : Cell → Json
  | .name s | .address s => .str s
  | .number q => .num (formatG q)

def fieldJson (f : String × Cell) : List Char × Json := (f.1.toList, cellJson f.2)

def entryJson (e : Entry) : Json := .obj (e.fields.map fieldJson)

section
variable (ntop : Ntop) (p : Report)

/-- The sections that a report has under its limits. -/
def Report.sections : List (List Char × Json) :=
  (if p.printMacAddreses then [("active_leases".toList, .arr ((leaseEntries ntop p).map entryJson))] else []) ++
    (if rBit p.numberLimit then [("subnets".toList, .arr ((p.ranges.map (rangeEntry ntop p)).map entryJson))] else []) ++
    (if sBit p.numberLimit then
      [("shared-networks".toList, .arr ((p.networks.map (networkEntry "shared-network")).map entryJson))] else []) ++
    if aBit p.headerLimit then [("summary".toList, entryJson (networkEntry "summary" (p.sharedNetworks 0)))] else []

def jsonValue : Json := .obj (p.sections ntop)

end

/-! ## Fields -/

/-- A field as it is written, a string in quotes. -/
def cellText : Cell → List Char
  | .name s | .address s => jsonString s
  | .number q => formatG q

def fieldsText (sep : List Char) : List (String × Cell) → List Char
  | [] => []
  | [f] => jsonMember f.1 (cellText f.2)
  | f :: fs => jsonMember f.1 (cellText f.2) ++ sep ++ fieldsText sep fs

/-- The texts between the fields of a report, and the marks in them. -/
def separators : List (String × List Token) :=
  [("\x7b\n", [.mark '\x7b']), ("   ", []), (" [", [.mark '[']), (" [\n", [.mark '[']), ("\n         \x7b ", [.mark '\x7b']),
    ("         ", []), ("\x7b ", [.mark '\x7b']), (" \x7b\n", [.mark '\x7b']), (":", [.mark ':']), (",", [.mark ',']),
    (", ", [.mark ',']), (",\n", [.mark ',']), (" ", []), (" \x7d", [.mark '\x7d']), ("\x7d\n", [.mark '\x7d']),
    ("\x7d,\n", [.mark '\x7d', .mark ',']), ("\n", []), ("\n   ]", [.mark ']']), ("   ]", [.mark ']']),
    ("   \x7d", [.mark '\x7d']), ("\n\x7d\n", [.mark '\x7d'])]

theorem marks_separator {g : String} {ts : List Token} (known : (g, ts) ∈ separators) : Marks g.toList ts := by
  have all : (separators.all fun g => g.1.toList.all (fun c => blank c || isMark c) && punctuation g.1.toList = g.2) = true := by
    decide +kernel
  exact marks_of (List.all_eq_true.mp all _ known)

theorem spells_key {name : String} {t : List Char} {ts : List Token} (value : Spells t ts) :
    Spells (jsonMember name t) (.str name.toList :: .mark ':' :: ts) := by
  have colon : Marks [':'] [.mark ':'] := marks_of rfl
  have split : jsonMember name t = '"' :: name.toList ++ ['"'] ++ ([':'] ++ t) := by simp [jsonMember]
  rw [split]
  exact (spells_str name.toList).append (colon.spells.append value)

theorem spells_field (f : String × Cell) {g : List Char} {ts : List Token} (marks : Marks g ts) (some_ : ts ≠ []) :
    Spells (jsonMember f.1 (cellText f.2) ++ g) (.str f.1.toList :: .mark ':' :: ((cellJson f.2).tokens ++ ts)) := by
  have value : Spells (cellText f.2 ++ g) ((cellJson f.2).tokens ++ ts) := by
    cases f.2 with
    | name s | address s => exact (spells_str s).append marks.spells
    | number q => exact spells_num (formatG q) marks some_
  have split : jsonMember f.1 (cellText f.2) ++ g = jsonMember f.1 (cellText f.2 ++ g) := by simp [jsonMember]
  rw [split]
  exact spells_key value

/-- Fields with a comma between them. -/
theorem spells_fields {sep g : List Char} {ts : List Token} (comma : Marks sep [.mark ',']) (marks : Marks g ts) (some_ : ts ≠ [])
    (fs : List (String × Cell)) : Spells (fieldsText sep fs ++ g) (members (fs.map fieldJson) ++ ts) := by
  induction fs with
  | nil => exact marks.spells
  | cons f fs ih =>
    cases fs with
    | nil => exact spells_field f marks some_
    | cons f' fs => simpa [fieldsText, members, fieldJson] using (spells_field f comma (List.cons_ne_nil _ _)).append ih

/-- A record between texts that open and close it. -/
theorem spells_entry {front sep g : List Char} {extra : List Token} (e : Entry) (opens : Marks front [.mark '\x7b'])
    (comma : Marks sep [.mark ',']) (closes : Marks g (.mark '\x7d' :: extra)) :
    Spells (front ++ (fieldsText sep e.fields ++ g)) ((entryJson e).tokens ++ extra) := by
  have whole := opens.spells.append (spells_fields comma closes (List.cons_ne_nil _ _) e.fields)
  simpa [entryJson, Json.tokens] using whole

/-- The text of an array. -/
theorem spells_array {front t back : List Char} {vs : List Json} (opens : Marks front [.mark '['])
    (inside : Spells t (elements vs)) (closes : Marks back [.mark ']']) : Spells (front ++ t ++ back) (Json.arr vs).tokens := by
  have whole := (opens.spells.append inside).append closes.spells
  simpa [Json.tokens] using whole

/-! ## Sections -/

def rowText (e : Entry) : List Char := "         ".toList ++ "\x7b ".toList ++ fieldsText ", ".toList e.fields ++ " ".toList

theorem jsonRange_eq (ntop : Ntop) (p : Report) (r : Range) : jsonRange ntop p r = rowText (rangeEntry ntop p r) := by
  unfold jsonRange rowText rangeEntry
  generalize "         ".toList = indent
  generalize ", ".toList = sep
  simp only [fieldsText, cellText, List.append_assoc]

theorem jsonNetwork_eq (tag : String) (n : SharedNetwork) : jsonNetwork n = rowText (networkEntry tag n) := by
  unfold jsonNetwork rowText networkEntry
  generalize "         ".toList = indent
  generalize ", ".toList = sep
  simp only [fieldsText, cellText, List.append_assoc]

/-- A row, with what is behind it. -/
theorem spells_row (e : Entry) {g : List Char} {extra : List Token} (closes : Marks g (.mark '\x7d' :: extra)) :
    Spells (rowText e ++ g) ((entryJson e).tokens ++ extra) := by
  have indent : Marks "         ".toList [] := marks_separator (by simp [separators])
  have brace : Marks "\x7b ".toList [.mark '\x7b'] := marks_separator (by simp [separators])
  have comma : Marks ", ".toList [.mark ','] := marks_separator (by simp [separators])
  have space : Marks " ".toList [] := marks_separator (by simp [separators])
  have row := spells_entry e (indent.append brace) comma (space.append closes)
  unfold rowText
  generalize "         ".toList ++ "\x7b ".toList = front at row ⊢
  generalize " ".toList = space at row ⊢
  generalize ", ".toList = comma at row ⊢
  rw [List.append_assoc, List.append_assoc]
  exact row

/-- The comparison with the number of rows puts a comma behind each but the last. -/
theorem spells_rows (num i : Nat) (es : List Entry) (count : i + es.length = num) :
    Spells (jsonRows num i (es.map rowText)) (elements (es.map entryJson)) := by
  induction es generalizing i with
  | nil => exact spells_nil
  | cons e es ih =>
    rw [List.length_cons] at count
    have later := ih (i + 1) (by omega)
    rw [List.map_cons, List.map_cons, jsonRows, elements_cons]
    cases es with
    | nil =>
      have last : Marks "\x7d\n".toList [.mark '\x7d'] := marks_separator (by simp [separators])
      rw [if_neg (by simp only [List.length_nil] at count; omega), if_pos List.map_nil, List.map_nil, jsonRows, List.append_nil]
      exact spells_row e last
    | cons e' es =>
      have more : Marks "\x7d,\n".toList [.mark '\x7d', .mark ','] := marks_separator (by simp [separators])
      rw [if_pos (by simp only [List.length_cons] at count; omega), if_neg (by simp)]
      have rows := (spells_row e more).append later
      rwa [List.append_assoc _ [Token.mark ',']] at rows

theorem spells_lease (ntop : Ntop) (p : Report) (l : Lease) :
    Spells (jsonLease ntop p l) (entryJson (leaseEntry ntop p l)).tokens := by
  have front : Marks "\n         \x7b ".toList [.mark '\x7b'] := marks_separator (by simp [separators])
  have comma : Marks ", ".toList [.mark ','] := marks_separator (by simp [separators])
  have back : Marks " \x7d".toList [.mark '\x7d'] := marks_separator (by simp [separators])
  have record := spells_entry (leaseEntry ntop p l) front comma back
  have split : jsonLease ntop p l =
      "\n         \x7b ".toList ++ (fieldsText ", ".toList (leaseEntry ntop p l).fields ++ " \x7d".toList) := by
    unfold jsonLease leaseEntry
    generalize "\n         \x7b ".toList = front
    generalize ", ".toList = sep
    simp only [fieldsText, cellText, List.append_assoc]
  rwa [List.append_nil, ← split] at record

/-- Once a lease was written, a comma is in front of each. -/
theorem spells_leases_behind (ntop : Ntop) (p : Report) (ls : List Lease) : Spells (jsonLeases ntop p 1 ls)
    (((ls.filter fun l => l.type = .ACTIVE).map fun l => entryJson (leaseEntry ntop p l)).flatMap
      fun v => .mark ',' :: v.tokens) := by
  have comma : Marks [','] [.mark ','] := marks_of rfl
  induction ls with
  | nil => exact spells_nil
  | cons l ls ih =>
    rw [jsonLeases]
    by_cases active : l.type = .ACTIVE
    · rw [if_pos active, if_neg (by decide), List.filter_cons_of_pos (by simpa using active), List.map_cons, List.flatMap_cons]
      exact (comma.spells.append (spells_lease ntop p l)).append ih
    · rw [if_neg active, List.filter_cons_of_neg (by simpa using active)]
      exact ih

theorem spells_leases (ntop : Ntop) (p : Report) (ls : List Lease) : Spells (jsonLeases ntop p 0 ls)
    (elements ((ls.filter fun l => l.type = .ACTIVE).map fun l => entryJson (leaseEntry ntop p l))) := by
  induction ls with
  | nil => exact spells_nil
  | cons l ls ih =>
    rw [jsonLeases]
    by_cases active : l.type = .ACTIVE
    · rw [if_pos active, if_pos rfl, List.filter_cons_of_pos (by simpa using active), List.map_cons, elements_flatMap]
      exact (spells_lease ntop p l).append (spells_leases_behind ntop p ls)
    · rw [if_neg active, List.filter_cons_of_neg (by simpa using active)]
      exact ih

theorem jsonSummary_eq (n : SharedNetwork) : jsonSummary n = "         ".toList ++
    (fieldsText (",\n".toList ++ "         ".toList) (networkEntry "summary" n).fields ++ "\n".toList) := by
  unfold jsonSummary networkEntry
  generalize "         ".toList = indent
  generalize ",\n".toList = comma
  simp only [fieldsText, cellText, List.append_assoc]

/-- The sections so far; the counter tells whether there are any. -/
def SpellsSections (text : List Char) (sep : Nat) (ms : List (List Char × Json)) : Prop :=
  (sep = 0 ↔ ms = []) ∧ Spells text (members ms)

theorem spells_section {pre value : List Char} {sep : Nat} {ms : List (List Char × Json)} {name : String} {v : Json}
    (shown : Bool) (first : SpellsSections pre sep ms) (spells : Spells value v.tokens) :
    SpellsSections (pre ++ (jsonSection sep shown ("   ".toList ++ jsonMember name value)).1)
      (jsonSection sep shown ("   ".toList ++ jsonMember name value)).2 (ms ++ if shown then [(name.toList, v)] else []) := by
  obtain ⟨none, before⟩ := first
  have indent : Marks "   ".toList [] := marks_separator (by simp [separators])
  have member := indent.spells.append (@spells_key name _ _ spells)
  cases shown with
  | false => simpa [jsonSection, SpellsSections] using ⟨none, before⟩
  | true =>
    rw [jsonSection, if_pos rfl, if_pos rfl]
    refine ⟨by simp, ?_⟩
    rw [members_append]
    by_cases zero : sep = 0
    · rw [if_neg (not_not.mpr zero), if_pos (none.mp zero), List.append_nil, List.nil_append]
      exact before.append member
    · have comma : Marks ",\n".toList [.mark ','] := marks_separator (by simp [separators])
      rw [if_pos zero, if_neg fun empty => zero (none.mpr empty), ← List.append_assoc]
      exact (before.append comma.spells).append member

theorem spells_activeLeases (ntop : Ntop) (p : Report) :
    Spells (" [".toList ++ jsonLeases ntop p 0 p.leases ++ "\n   ]".toList)
      (Json.arr ((leaseEntries ntop p).map entryJson)).tokens := by
  have front : Marks " [".toList [.mark '['] := marks_separator (by simp [separators])
  have back : Marks "\n   ]".toList [.mark ']'] := marks_separator (by simp [separators])
  have inside := spells_leases ntop p p.leases
  rw [show (fun l => entryJson (leaseEntry ntop p l)) = entryJson ∘ leaseEntry ntop p from rfl, ← List.map_map] at inside
  exact spells_array front inside back

/-- The array of a section with rows. -/
theorem spells_rowArray (es : List Entry) :
    Spells (" [\n".toList ++ jsonRows es.length 0 (es.map rowText) ++ "   ]".toList) (Json.arr (es.map entryJson)).tokens := by
  have front : Marks " [\n".toList [.mark '['] := marks_separator (by simp [separators])
  have back : Marks "   ]".toList [.mark ']'] := marks_separator (by simp [separators])
  exact spells_array front (spells_rows es.length 0 es (Nat.zero_add _)) back

theorem spells_summary (n : SharedNetwork) :
    Spells (" \x7b\n".toList ++ jsonSummary n ++ "   \x7d".toList) (entryJson (networkEntry "summary" n)).tokens := by
  have front : Marks " \x7b\n".toList [.mark '\x7b'] := marks_separator (by simp [separators])
  have indent : Marks "         ".toList [] := marks_separator (by simp [separators])
  have comma : Marks ",\n".toList [.mark ','] := marks_separator (by simp [separators])
  have newline : Marks "\n".toList [] := marks_separator (by simp [separators])
  have back : Marks "   \x7d".toList [.mark '\x7d'] := marks_separator (by simp [separators])
  have record := spells_entry (networkEntry "summary" n) (front.append indent) (comma.append indent) (newline.append back)
  rw [List.append_nil] at record
  rw [jsonSummary_eq]
  generalize " \x7b\n".toList = front at record ⊢
  generalize "         ".toList = indent at record ⊢
  generalize ",\n".toList = comma at record ⊢
  generalize "\n".toList = newline at record ⊢
  generalize "   \x7d".toList = back at record ⊢
  simpa only [List.append_assoc] using record

/-- `output_json` spells an object with the sections. -/
theorem outputJson_spells (ntop : Ntop) (p : Report) : Spells (outputJson ntop p) (jsonValue ntop p).tokens := by
  have ranges := spells_rowArray (p.ranges.map (rangeEntry ntop p))
  have networks := spells_rowArray (p.networks.map (networkEntry "shared-network"))
  have rangeRows : (p.ranges.map (rangeEntry ntop p)).map rowText = p.ranges.map (jsonRange ntop p) := by
    rw [List.map_map]
    exact List.map_congr_left fun r _ => (jsonRange_eq ntop p r).symm
  have networkRows : (p.networks.map (networkEntry "shared-network")).map rowText = p.networks.map jsonNetwork := by
    rw [List.map_map]
    exact List.map_congr_left fun n _ => (jsonNetwork_eq _ n).symm
  have count : (p.networks.map (networkEntry "shared-network")).length = p.numSharedNetworks := by
    rw [List.length_map, Report.networks, List.length_map, List.length_range]
  rw [rangeRows, List.length_map] at ranges
  rw [networkRows, count] at networks
  have none : SpellsSections [] 0 [] := ⟨by simp, spells_nil⟩
  have sections := @spells_section _ _ _ _ "summary" _ (aBit p.headerLimit)
    (@spells_section _ _ _ _ "shared-networks" _ (sBit p.numberLimit)
      (@spells_section _ _ _ _ "subnets" _ (rBit p.numberLimit)
        (@spells_section _ _ _ _ "active_leases" _ p.printMacAddreses none (spells_activeLeases ntop p)) ranges) networks)
    (spells_summary (p.sharedNetworks 0))
  have opening : Marks "\x7b\n".toList [.mark '\x7b'] := marks_separator (by simp [separators])
  have closing : Marks "\n\x7d\n".toList [.mark '\x7d'] := marks_separator (by simp [separators])
  have whole := (opening.spells.append sections.2).append closing.spells
  unfold outputJson jsonValue Report.sections
  simpa only [List.append_assoc, List.nil_append, Json.tokens, List.cons_append] using whole

/-! ## When the JSON report is well formed -/

theorem number_of_decimal {s : List Char} (decimal : Decimal s) : Number s := by
  obtain ⟨minus, whole, fraction, exponent, rfl, sign, digits, behind, tail⟩ := decimal.form
  refine ⟨minus, whole, _, exponent, rfl, sign, digits, ?_, ?_⟩
  · unfold pointed
    split_ifs with none
    · exact Or.inl rfl
    · exact Or.inr ⟨fraction, rfl, none, behind⟩
  · rcases tail with rfl | ⟨mark, ds, rfl, plus, filled, all⟩
    · exact Or.inl rfl
    · exact Or.inr ⟨'e', [mark], ds, rfl, Or.inl rfl, by rcases plus with rfl | rfl <;> simp, filled, all⟩

theorem literal_of_safe {s : List Char} (safe : ∀ c ∈ s, safeChar c = true) : ∀ c ∈ s, literal c = true := by
  intro c member
  have quote : c ≠ '"' := by
    rintro rfl
    exact notMem_of_safe safe rfl member
  have backslash : c ≠ '\\' := by
    rintro rfl
    exact notMem_of_safe safe rfl member
  simp [literal, (safe_bounds (safe c member)).1, quote, backslash]

/-- The names of the sections with the tags of their records. -/
def sectionNames : List (String × String) :=
  [("active_leases", "active_lease"), ("subnets", "subnet"), ("shared-networks", "shared-network")]

theorem section_names {name tag : String} (known : (name, tag) ∈ sectionNames) :
    (∀ c ∈ name.toList, simpleChar c = true) ∧ name.toList.dropLast = tag.toList := by
  have all : (sectionNames.all fun n => n.1.toList.all simpleChar && n.1.toList.dropLast = n.2.toList) = true := by
    decide +kernel
  have checked := List.all_eq_true.mp all _ known
  rw [Bool.and_eq_true, List.all_eq_true, decide_eq_true_eq] at checked
  exact checked

theorem simple_tag {tag : String} (known : tag ∈ "summary" :: fieldTags) : ∀ c ∈ tag.toList, simpleChar c = true := by
  have all : (("summary" :: fieldTags).all fun tag => tag.toList.all simpleChar) = true := by decide +kernel
  exact List.all_eq_true.mp (List.all_eq_true.mp all tag known)

section
variable {P : Token → Prop} (mark : ∀ c, isMark c = true → P (.mark c)) (string : ∀ s, (∀ c ∈ s, simpleChar c = true) → P (.str s))
include mark string

theorem all_entryJson {e : Entry} (known : ∀ f ∈ e.fields, f.1 ∈ fieldTags) :
    (entryJson e).All P ↔ ∀ f ∈ e.fields, (cellJson f.2).All P := by
  rw [entryJson, all_obj mark, List.forall_mem_map]
  exact forall₂_congr fun f member => and_iff_right (string _ (simple_tag (List.mem_cons_of_mem _ (known f member))))

theorem all_section {name tag : String} (known : (name, tag) ∈ sectionNames) (shown : Bool) (es : List Entry) :
    (∀ m ∈ if shown then [(name.toList, Json.arr (es.map entryJson))] else [], P (.str m.1) ∧ m.2.All P) ↔
      ∀ e ∈ if shown then es else [], (entryJson e).All P := by
  cases shown with
  | false => simp
  | true =>
    rw [if_pos rfl, if_pos rfl, List.forall_mem_singleton, and_iff_right (string _ (section_names known).1), all_arr mark,
      List.forall_mem_map]

/-- What holds of marks, numbers and the tokens of the reports holds of every token when it holds of the strings. -/
theorem forall_tokens (number : ∀ q, P (.num (formatG q))) (ntop : Ntop) (p : Report) :
    (∀ k ∈ (jsonValue ntop p).tokens, P k) ↔ ∀ s ∈ p.strings, P (.str s) := by
  have entries : (jsonValue ntop p).All P ↔ ∀ e ∈ p.entries ntop, (entryJson e).All P := by
    unfold jsonValue Report.sections Report.entries
    rw [all_obj mark]
    simp only [List.forall_mem_append]
    refine and_congr (and_congr (and_congr ?_ ?_) ?_) ?_
    · exact all_section mark string (by simp [sectionNames] : ("active_leases", "active_lease") ∈ _) _ _
    · exact all_section mark string (by simp [sectionNames] : ("subnets", "subnet") ∈ _) _ _
    · exact all_section mark string (by simp [sectionNames] : ("shared-networks", "shared-network") ∈ _) _ _
    · cases aBit p.headerLimit with
      | false => simp
      | true =>
        rw [if_pos rfl, if_pos rfl, List.forall_mem_singleton, List.forall_mem_singleton]
        exact and_iff_right (string _ (simple_tag List.mem_cons_self))
  have cells : (∀ e ∈ p.entries ntop, (entryJson e).All P) ↔ ∀ e ∈ p.entries ntop, ∀ f ∈ e.fields, (cellJson f.2).All P :=
    forall₂_congr fun e member => all_entryJson mark string (entries_tagged ntop p e member).2
  have strings := @forall_cells ntop p (fun c => (cellJson c).All P) (fun s simple => (all_str s).mpr (string s simple))
    fun q => (all_num _).mpr (number q)
  exact entries.trans (cells.trans (strings.trans (forall₂_congr fun s _ => all_str s)))

end

/-- The report is a text of this value exactly when the strings need no escapes. -/
theorem outputJson_iff (ntop : Ntop) (p : Report) :
    Text (outputJson ntop p) (jsonValue ntop p) ↔ ∀ s ∈ p.strings, ∀ c ∈ s, literal c = true :=
  (lexes_spaced_iff (outputJson_spells ntop p).spaced).trans
    (forall_tokens (fun _ known => known) (fun _ simple => literal_of_safe (safe_of_simple simple))
      (fun q => number_of_decimal (decimal_formatG q)) ntop p)

/-! ## Reading the records back -/

/-- The text of a string, a number or a word. -/
def jsonText : Json → List Char
  | .str s => s
  | .num t => t
  | .word w => w
  | _ => []

def jsonFields : Json → List (List Char × List Char)
  | .obj ms => ms.map fun m => (m.1, jsonText m.2)
  | _ => []

/-- The tag of the records in a section: an array has their plural for its name. -/
def sectionTag : List Char × Json → List Char
  | (k, .arr _) => k.dropLast
  | (k, _) => k

def sectionRecords : List Char × Json → List (List Char × List (List Char × List Char))
  | (k, .arr vs) => vs.map fun v => (sectionTag (k, .arr vs), jsonFields v)
  | (k, v) => [(k, jsonFields v)]

/-- The records in an object of sections. -/
def jsonRecords : Json → List (List Char × List (List Char × List Char))
  | .obj ms => ms.flatMap sectionRecords
  | _ => []

/-- The sections with something in them. -/
def jsonSections : Json → List (List Char)
  | .obj ms => (ms.filter fun m => !(sectionRecords m).isEmpty).map sectionTag
  | _ => []

theorem jsonFields_entryJson (e : Entry) : jsonFields (entryJson e) = e.record.2 := by
  have text : ∀ c, jsonText (cellJson c) = c.written := fun c => by
    cases c <;> rfl
  simp [entryJson, jsonFields, fieldJson, text, Entry.record]

theorem jsonRecords_section {name tag : String} (known : (name, tag) ∈ sectionNames) (shown : Bool) {es : List Entry}
    (tagged : ∀ e ∈ es, e.tag = tag) :
    (if shown then [(name.toList, Json.arr (es.map entryJson))] else []).flatMap sectionRecords =
      (if shown then es else []).map Entry.record := by
  cases shown with
  | false => rfl
  | true =>
    rw [if_pos rfl, if_pos rfl, List.flatMap_singleton, sectionRecords, List.map_map]
    refine List.map_congr_left fun e member => ?_
    rw [Function.comp, jsonFields_entryJson, sectionTag, (section_names known).2, ← tagged e member]
    rfl

theorem jsonRecords_jsonValue (ntop : Ntop) (p : Report) :
    jsonRecords (jsonValue ntop p) = (p.entries ntop).map Entry.record := by
  have leases : ∀ e ∈ leaseEntries ntop p, e.tag = "active_lease" := List.forall_mem_map.mpr fun _ _ => rfl
  have ranges : ∀ e ∈ p.ranges.map (rangeEntry ntop p), e.tag = "subnet" := List.forall_mem_map.mpr fun _ _ => rfl
  have networks : ∀ e ∈ p.networks.map (networkEntry "shared-network"), e.tag = "shared-network" :=
    List.forall_mem_map.mpr fun _ _ => rfl
  have summary : (if aBit p.headerLimit then [("summary".toList, entryJson (networkEntry "summary" (p.sharedNetworks 0)))]
      else []).flatMap sectionRecords =
      (if aBit p.headerLimit then [networkEntry "summary" (p.sharedNetworks 0)] else []).map Entry.record := by
    cases aBit p.headerLimit with
    | false => rfl
    | true => exact congrArg (fun fields => [("summary".toList, fields)]) (jsonFields_entryJson _)
  unfold jsonRecords jsonValue Report.sections Report.entries
  simp only [List.flatMap_append, List.map_append]
  rw [jsonRecords_section (by simp [sectionNames]) p.printMacAddreses leases,
    jsonRecords_section (by simp [sectionNames]) (rBit p.numberLimit) ranges,
    jsonRecords_section (by simp [sectionNames]) (sBit p.numberLimit) networks, summary]

theorem mem_jsonSections (v : Json) (tag : List Char) : tag ∈ jsonSections v ↔ tag ∈ (jsonRecords v).map Prod.fst := by
  have tags : ∀ m : List Char × Json, ∀ r ∈ sectionRecords m, r.1 = sectionTag m := by
    rintro ⟨k, v⟩ r member
    cases v with
    | arr vs =>
      obtain ⟨w, -, rfl⟩ := List.mem_map.mp member
      rfl
    | _ =>
      rw [List.mem_singleton.mp member]
      rfl
  cases v with
  | obj ms =>
    simp only [jsonSections, jsonRecords, List.mem_map, List.mem_filter, List.mem_flatMap]
    constructor
    · rintro ⟨m, ⟨member, filled⟩, rfl⟩
      cases some_ : sectionRecords m with
      | nil => simp [some_] at filled
      | cons r rs =>
        have inside : r ∈ sectionRecords m := by
          rw [some_]
          exact List.mem_cons_self
        exact ⟨r, ⟨m, member, inside⟩, tags m r inside⟩
    · rintro ⟨r, ⟨m, member, inside⟩, rfl⟩
      refine ⟨m, ⟨member, ?_⟩, (tags m r inside).symm⟩
      cases some_ : sectionRecords m with
      | nil => rw [some_] at inside; cases inside
      | cons => rfl
  | _ => simp [jsonSections, jsonRecords]

/-! ## The two reports -/

/-- The two reports are well formed and have the same records, those of the tables. -/
theorem reports_agree (ntop : Ntop) (p : Report) (simple : ∀ s ∈ p.strings, ∀ c ∈ s, simpleChar c = true) :
    (∃ v, Text (outputJson ntop p) v) ∧ (∃ es, XmlText.Document (outputXml ntop p) es) ∧
      ∀ v es, Text (outputJson ntop p) v → XmlText.Document (outputXml ntop p) es →
        (∃ ms, v = .obj ms) ∧ jsonRecords v = xmlRecords es ∧ xmlRecords es = (p.entries ntop).map Entry.record ∧
          ∀ tag, tag ∈ jsonSections v ↔ tag ∈ (xmlRecords es).map Prod.fst := by
  have text := (outputJson_iff ntop p).mpr fun s member => literal_of_safe (safe_of_simple (simple s member))
  have document := (outputXml_iff ntop p).mpr fun s member => escapeless_of_safe (safe_of_simple (simple s member))
  refine ⟨⟨_, text⟩, ⟨_, document⟩, fun v es reads reads' => ?_⟩
  obtain rfl := text_unique text reads
  rw [outputXml_eq] at document reads'
  have plainly := (document_iff (entries_named ntop p)).mp document
  obtain rfl := document_unique (entries_named ntop p) plainly reads'
  have same : jsonRecords (jsonValue ntop p) = xmlRecords (documentEvents (p.entries ntop)) := by
    rw [jsonRecords_jsonValue, xmlRecords_documentEvents]
  exact ⟨⟨_, rfl⟩, same, xmlRecords_documentEvents _, fun tag => by rw [mem_jsonSections, same]⟩

theorem reports_agree_sample : (sampleReport.strings.all fun s => s.all simpleChar) = true ∧
    (∃ v, Text (outputJson dottedQuads sampleReport) v) ∧ (∃ es, XmlText.Document (outputXml dottedQuads sampleReport) es) ∧
      ∀ v es, Text (outputJson dottedQuads sampleReport) v → XmlText.Document (outputXml dottedQuads sampleReport) es →
        (∃ ms, v = .obj ms) ∧ jsonRecords v = xmlRecords es ∧
          xmlRecords es = (sampleReport.entries dottedQuads).map Entry.record ∧
          ∀ tag, tag ∈ jsonSections v ↔ tag ∈ (xmlRecords es).map Prod.fst :=
  have simple : (sampleReport.strings.all fun s => s.all simpleChar) = true := by decide +kernel
  ⟨simple, reports_agree dottedQuads sampleReport fun s member => List.all_eq_true.mp (List.all_eq_true.mp simple s member)⟩

end DhcpdPools.Output
