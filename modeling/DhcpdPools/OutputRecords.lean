import DhcpdPools.Output
import DhcpdPools.Utf8
import DhcpdPools.XmlText

/-!
What the reports say. The records of a report are those of the tables (`Report.entries`).
`output_xml` spells out the events of these records (`outputXml_eq`); the document is well
formed exactly when the strings in it need no escapes (`document_iff`), and then the
records are read back from it (`xmlRecords_documentEvents`).
-/
namespace DhcpdPools.Output
open Printf

/-! ## Records -/

/-- A field: a string from the input files, addresses, or a number. -/
inductive Cell where
  | name (s : List Char)
  | address (s : List Char)
  | number (q : ℚ)

/-- The text of a field. -/
def Cell.written : Cell → List Char
  | .name s | .address s => s
  | .number q => formatG q

structure Entry where
  tag : String
  fields : List (String × Cell)

/-- A record as its texts. -/
def Entry.record (e : Entry) : List Char × List (List Char × List Char) :=
  (e.tag.toList, e.fields.map fun f => (f.1.toList, f.2.written))

section
variable (ntop : Ntop) (p : Report)

def leaseEntry (l : Lease) : Entry :=
  ⟨"active_lease", [("ip", .address (p.ntopIpaddr ntop l.ip)), ("macaddress", .name (l.ethernet.getD []))]⟩

def rangeEntry (r : Range) : Entry :=
  ⟨"subnet", [("location", .name (p.location r)), ("range", .address (p.addresses ntop r)),
    ("defined", .number (p.rangeSize r)), ("used", .number r.count), ("touched", .number r.touched),
    ("free", .number (p.rangeSize r - r.count))]⟩

def networkEntry (tag : String) (n : SharedNetwork) : Entry :=
  ⟨tag, [("location", .name n.name), ("defined", .number n.available), ("used", .number n.used),
    ("touched", .number n.touched), ("free", .number (n.available - n.used))]⟩

def leaseEntries : List Entry := (p.leases.filter fun l => l.type = .ACTIVE).map (leaseEntry ntop p)

/-- The records that a report has under its limits. -/
def Report.entries : List Entry :=
  (if p.printMacAddreses then leaseEntries ntop p else []) ++
    (if rBit p.numberLimit then p.ranges.map (rangeEntry ntop p) else []) ++
    (if sBit p.numberLimit then p.networks.map (networkEntry "shared-network") else []) ++
    if aBit p.headerLimit then [networkEntry "summary" (p.sharedNetworks 0)] else []

/-- The strings from the input files in these records. -/
def Report.strings : List (List Char) :=
  (if p.printMacAddreses then (p.leases.filter fun l => l.type = .ACTIVE).map fun l => l.ethernet.getD [] else []) ++
    (if rBit p.numberLimit then p.ranges.map p.location else []) ++
    (if sBit p.numberLimit then p.networks.map SharedNetwork.name else []) ++
    if aBit p.headerLimit then [(p.sharedNetworks 0).name] else []

theorem forall_section {α β γ : Type} {P : β → Prop} {Q : γ → Prop} (shown : Bool) (xs : List α) {g : α → β} {h : α → γ}
    (one : ∀ x ∈ xs, P (g x) ↔ Q (h x)) :
    (∀ y ∈ if shown then xs.map g else [], P y) ↔ ∀ z ∈ if shown then xs.map h else [], Q z := by
  cases shown with
  | false => simp
  | true =>
    simp only [if_true, List.forall_mem_map]
    exact forall₂_congr one

/-- The tags of the records, and those of their fields. -/
def entryTags : List String := ["active_lease", "subnet", "shared-network", "summary"]

def fieldTags : List String := ["ip", "macaddress", "location", "range", "defined", "used", "touched", "free"]

def Tagged (e : Entry) : Prop := e.tag ∈ entryTags ∧ ∀ f ∈ e.fields, f.1 ∈ fieldTags

theorem entries_tagged : ∀ e ∈ p.entries ntop, Tagged e := by
  have lease : ∀ l, Tagged (leaseEntry ntop p l) := fun l => by
    simp [Tagged, leaseEntry, entryTags, fieldTags]
  have range : ∀ r, Tagged (rangeEntry ntop p r) := fun r => by
    simp [Tagged, rangeEntry, entryTags, fieldTags]
  have network : ∀ tag ∈ entryTags, ∀ n, Tagged (networkEntry tag n) := fun tag known n =>
    ⟨known, by simp [networkEntry, fieldTags]⟩
  intro e member
  unfold Report.entries leaseEntries at member
  simp only [List.mem_append, or_assoc, List.mem_ite_nil_right, List.mem_map, List.mem_singleton] at member
  rcases member with ⟨-, l, -, rfl⟩ | ⟨-, r, -, rfl⟩ | ⟨-, n, -, rfl⟩ | ⟨-, rfl⟩
  · exact lease l
  · exact range r
  · exact network _ (by decide) n
  · exact network _ (by decide) _

theorem simple_ntopIpaddr (ip : Ipaddr) : ∀ c ∈ p.ntopIpaddr ntop ip, simpleChar c = true := by
  unfold Report.ntopIpaddr
  cases p.ipVersion with
  | IPvUNKNOWN => exact fun _ member => by cases member
  | IPv4 => exact ntop.chars4 ip.v4
  | IPv6 => exact ntop.chars6 ip.v6

theorem simple_addresses (r : Range) : ∀ c ∈ p.addresses ntop r, simpleChar c = true := by
  have between : ∀ c ∈ " - ".toList, simpleChar c = true := List.all_eq_true.mp (by decide +kernel)
  exact List.forall_mem_append.mpr
    ⟨List.forall_mem_append.mpr ⟨simple_ntopIpaddr ntop p r.firstIp, between⟩, simple_ntopIpaddr ntop p r.lastIp⟩

/-- What holds of addresses and numbers holds of every field when it holds of the strings. -/
theorem forall_cells {P : Cell → Prop} (address : ∀ s, (∀ c ∈ s, simpleChar c = true) → P (.address s))
    (number : ∀ q, P (.number q)) :
    (∀ e ∈ p.entries ntop, ∀ f ∈ e.fields, P f.2) ↔ ∀ s ∈ p.strings, P (.name s) := by
  have lease : ∀ l, (∀ f ∈ (leaseEntry ntop p l).fields, P f.2) ↔ P (.name (l.ethernet.getD [])) := fun l => by
    simp [leaseEntry, address _ (simple_ntopIpaddr ntop p l.ip)]
  have range : ∀ r, (∀ f ∈ (rangeEntry ntop p r).fields, P f.2) ↔ P (.name (p.location r)) := fun r => by
    simp [rangeEntry, address _ (simple_addresses ntop p r), number]
  have network : ∀ tag n, (∀ f ∈ (networkEntry tag n).fields, P f.2) ↔ P (.name n.name) := fun tag n => by
    simp [networkEntry, number]
  unfold Report.entries Report.strings leaseEntries
  simp only [List.forall_mem_append]
  refine and_congr (and_congr (and_congr ?_ ?_) ?_) ?_
  · exact forall_section _ _ fun l _ => lease l
  · exact forall_section _ _ fun r _ => range r
  · exact forall_section _ _ fun n _ => network _ n
  · cases aBit p.headerLimit with
    | false => simp
    | true => simpa using network "summary" (p.sharedNetworks 0)

end

/-! ## The XML report -/

section
open XmlText

def fieldEvents (f : String × Cell) : List Event :=
  .char '\t' :: .opening f.1.toList [] :: (f.2.written.map .char ++ [.closing f.1.toList, .char '\n'])

def entryEvents (e : Entry) : List Event :=
  .opening e.tag.toList [] :: .char '\n' :: (e.fields.flatMap fieldEvents ++ [.closing e.tag.toList, .char '\n'])

/-- The events of a document with these records. -/
def documentEvents (es : List Entry) : List Event :=
  .opening "dhcpstatus".toList [] :: .char '\n' ::
    (es.flatMap entryEvents ++ [.closing "dhcpstatus".toList, .char '\n'])

/-- The tag of a record and those of its fields are names. -/
def Named (e : Entry) : Prop := IsName e.tag.toList ∧ ∀ f ∈ e.fields, IsName f.1.toList

theorem named_of_tagged {e : Entry} (tagged : Tagged e) : Named e := by
  have names : ((entryTags ++ fieldTags).all fun tag => tag.toList.head?.any nameStart && tag.toList.all nameChar) = true := by
    decide +kernel
  have known : ∀ tag ∈ entryTags ++ fieldTags, IsName tag.toList := fun tag member =>
    isName_of (List.all_eq_true.mp names tag member)
  exact ⟨known _ (List.mem_append_left _ tagged.1), fun f inside => known _ (List.mem_append_right _ (tagged.2 f inside))⟩

theorem entries_named (ntop : Ntop) (p : Report) : ∀ e ∈ p.entries ntop, Named e := fun e member =>
  named_of_tagged (entries_tagged ntop p e member)

theorem plain_fieldEvents (f : String × Cell) : plain (fieldEvents f) = element f.1 f.2.written := by
  simp [fieldEvents, Event.text, element, startTag, endTag]

theorem plain_flatMap {α : Type} (g : α → List Event) (xs : List α) : plain (xs.flatMap g) = xs.flatMap fun x => plain (g x) := by
  induction xs with
  | nil => rfl
  | cons x xs ih => rw [List.flatMap_cons, plain_append, ih, List.flatMap_cons]

theorem plain_entryEvents (e : Entry) : plain (entryEvents e) = startTag e.tag ++ ['\n'] ++
    (e.fields.flatMap fun f => element f.1 f.2.written) ++ endTag e.tag ++ ['\n'] := by
  simp [entryEvents, Event.text, startTag, endTag, plain_flatMap, plain_fieldEvents]

theorem xmlRange_eq (ntop : Ntop) (p : Report) (r : Range) :
    xmlRange ntop p r = plain (entryEvents (rangeEntry ntop p r)) := by
  simp [plain_entryEvents, xmlRange, rangeEntry, Cell.written]

theorem xmlNetwork_eq (tag : String) (n : SharedNetwork) :
    xmlNetwork tag n = plain (entryEvents (networkEntry tag n)) := by
  simp [plain_entryEvents, xmlNetwork, networkEntry, Cell.written]

/-- Only the active leases are written. -/
theorem xmlLeases_eq (ntop : Ntop) (p : Report) :
    p.leases.flatMap (xmlLease ntop p) = plain ((leaseEntries ntop p).flatMap entryEvents) := by
  unfold leaseEntries
  induction p.leases with
  | nil => rfl
  | cons l rest ih =>
    rw [List.flatMap_cons, ih]
    by_cases active : l.type = .ACTIVE
    · have one : xmlLease ntop p l = plain (entryEvents (leaseEntry ntop p l)) := by
        simp [plain_entryEvents, xmlLease, active, leaseEntry, Cell.written]
      rw [List.filter_cons_of_pos (by simpa using active), List.map_cons, List.flatMap_cons, plain_append, one]
    · rw [List.filter_cons_of_neg (by simpa using active), xmlLease, if_neg active, List.nil_append]

/-- `output_xml` writes the records, each in its element. -/
theorem outputXml_eq (ntop : Ntop) (p : Report) : outputXml ntop p = plain (documentEvents (p.entries ntop)) := by
  have shown : ∀ (c : Bool) (es : List Entry), plain ((if c = true then es else []).flatMap entryEvents) =
      if c = true then plain (es.flatMap entryEvents) else [] := fun c es => by
    cases c <;> rfl
  have ranges : p.ranges.flatMap (xmlRange ntop p) = plain ((p.ranges.map (rangeEntry ntop p)).flatMap entryEvents) := by
    rw [plain_flatMap, List.flatMap_map]
    exact congrArg (fun g => List.flatMap g p.ranges) (funext fun r => xmlRange_eq ntop p r)
  have networks : p.networks.flatMap (xmlNetwork "shared-network") =
      plain ((p.networks.map (networkEntry "shared-network")).flatMap entryEvents) := by
    rw [plain_flatMap, List.flatMap_map]
    exact congrArg (fun g => List.flatMap g p.networks) (funext fun n => xmlNetwork_eq _ n)
  have summary : xmlNetwork "summary" (p.sharedNetworks 0) =
      plain ([networkEntry "summary" (p.sharedNetworks 0)].flatMap entryEvents) := by
    rw [xmlNetwork_eq, List.flatMap_singleton]
  unfold outputXml
  rw [xmlLeases_eq, ranges, networks, summary, ← shown, ← shown, ← shown, ← shown]
  simp [documentEvents, Report.entries, Event.text, startTag, endTag]

/-! ## When the XML report is well formed -/

/-- A string that may be written between two tags, and is read back. -/
def Escapeless (s : List Char) : Prop := Literal s ∧ '\r' ∉ s

/-- The characters of addresses and numbers. -/
def safeChar (c : Char) : Bool := simpleChar c || c = '+'

theorem safe_bounds {c : Char} (safe : safeChar c = true) : 0x20 ≤ c.toNat ∧ c.toNat < 0x7F := by
  simp only [safeChar, simpleChar, Bool.or_eq_true, decide_eq_true_eq] at safe
  rcases safe with (((((letter | rfl) | rfl) | rfl) | rfl) | rfl) | rfl
  · have bounds := Utf8.alphanum_bounds letter
    omega
  all_goals decide

theorem safe_of_numeric {c : Char} (number : numeric c = true) : safeChar c = true := by
  simp only [numeric, Bool.or_eq_true, decide_eq_true_eq] at number
  rcases number with (((digit | rfl) | rfl) | rfl) | rfl
  · simp [safeChar, simpleChar, Char.isAlphanum, digit]
  all_goals rfl

theorem safe_number (q : ℚ) : ∀ c ∈ formatG q, safeChar c = true := fun c member =>
  safe_of_numeric (numeric_of_decimal (decimal_formatG q) c member)

theorem safe_of_simple {s : List Char} (simple : ∀ c ∈ s, simpleChar c = true) : ∀ c ∈ s, safeChar c = true :=
  fun c member => by rw [safeChar, simple c member, Bool.true_or]

theorem notMem_of_safe {s : List Char} (safe : ∀ c ∈ s, safeChar c = true) {d : Char} (other : safeChar d = false) : d ∉ s :=
  fun member => Bool.false_ne_true (other.symm.trans (safe d member))

theorem escapeless_of_safe {s : List Char} (safe : ∀ c ∈ s, safeChar c = true) : Escapeless s := by
  refine ⟨⟨fun c member => ⟨?_, ?_, ?_⟩, fun bracket => ?_⟩, notMem_of_safe safe rfl⟩
  · obtain ⟨low, high⟩ := safe_bounds (safe c member)
    have below : c.toNat ≠ 0xFFFE ∧ c.toNat ≠ 0xFFFF := by omega
    simp [legal, low, below]
  · rintro rfl
    exact notMem_of_safe safe rfl member
  · rintro rfl
    exact notMem_of_safe safe rfl member
  · exact @notMem_of_safe s safe ']' rfl (bracket.subset (by decide))

theorem clean_blank {c : Char} {es : List Event} (space : c = '\t' ∨ c = '\n') : Clean (.char c :: es) ↔ Clean es := by
  have front : ¬"]]>".toList <+: c :: plain es := fun prefix_ => by
    obtain ⟨same, -⟩ := List.cons_prefix_cons.mp prefix_
    rcases space with rfl | rfl <;> exact absurd same (by decide)
  have plainly : legal c = true ∧ c ≠ '<' ∧ c ≠ '&' := by
    rcases space with rfl | rfl <;> decide
  rw [Clean]
  exact and_iff_right ⟨plainly.1, plainly.2.1, plainly.2.2, front⟩

theorem clean_fieldEvents {f : String × Cell} {es : List Event} (named : IsName f.1.toList) :
    Clean (fieldEvents f ++ es) ↔ Literal f.2.written ∧ Clean es := by
  have text : plain (.closing f.1.toList :: .char '\n' :: es) =
      '<' :: ('/' :: f.1.toList ++ ['>'] ++ plain (.char '\n' :: es)) := by
    simp [Event.text]
  have split : fieldEvents f ++ es = .char '\t' :: .opening f.1.toList [] ::
      (f.2.written.map .char ++ .closing f.1.toList :: .char '\n' :: es) := by
    simp [fieldEvents]
  rw [split, clean_blank (Or.inl rfl), Clean, clean_chars text, Clean, clean_blank (Or.inr rfl)]
  tauto

theorem clean_entryEvents {e : Entry} {es : List Event} (named : Named e) :
    Clean (entryEvents e ++ es) ↔ (∀ f ∈ e.fields, Literal f.2.written) ∧ Clean es := by
  obtain ⟨tag, fields⟩ := named
  have inside : ∀ fs : List (String × Cell), (∀ f ∈ fs, IsName f.1.toList) → ∀ us,
      Clean (fs.flatMap fieldEvents ++ us) ↔ (∀ f ∈ fs, Literal f.2.written) ∧ Clean us := by
    intro fs all us
    induction fs with
    | nil => simp
    | cons f fs ih =>
      rw [List.flatMap_cons, List.append_assoc, clean_fieldEvents (all f List.mem_cons_self),
        ih fun g member => all g (List.mem_cons_of_mem _ member), List.forall_mem_cons, and_assoc]
  have split : entryEvents e ++ es = .opening e.tag.toList [] :: .char '\n' ::
      (e.fields.flatMap fieldEvents ++ .closing e.tag.toList :: .char '\n' :: es) := by
    simp [entryEvents]
  rw [split, Clean, clean_blank (Or.inr rfl), inside e.fields fields, Clean, clean_blank (Or.inr rfl)]
  tauto

theorem clean_documentEvents {es : List Entry} (named : ∀ e ∈ es, Named e) :
    Clean (documentEvents es) ↔ ∀ e ∈ es, ∀ f ∈ e.fields, Literal f.2.written := by
  have inside : ∀ es : List Entry, (∀ e ∈ es, Named e) → ∀ us,
      Clean (es.flatMap entryEvents ++ us) ↔ (∀ e ∈ es, ∀ f ∈ e.fields, Literal f.2.written) ∧ Clean us := by
    intro es all us
    induction es with
    | nil => simp
    | cons e es ih =>
      rw [List.flatMap_cons, List.append_assoc, clean_entryEvents (all e List.mem_cons_self),
        ih fun g member => all g (List.mem_cons_of_mem _ member), List.forall_mem_cons, and_assoc]
  have root : IsName "dhcpstatus".toList := isName_of (by decide +kernel)
  unfold documentEvents
  generalize "dhcpstatus".toList = status at root
  rw [Clean, clean_blank (Or.inr rfl), inside es named, Clean, clean_blank (Or.inr rfl), Clean]
  tauto

theorem return_notMem_name {s : List Char} (named : IsName s) : '\r' ∉ s := fun member =>
  absurd (named.2 _ member) (by decide)

theorem return_notMem_documentEvents {es : List Entry} (named : ∀ e ∈ es, Named e) :
    '\r' ∉ plain (documentEvents es) ↔ ∀ e ∈ es, ∀ f ∈ e.fields, '\r' ∉ f.2.written := by
  have root : '\r' ∉ "dhcpstatus".toList := return_notMem_name (isName_of (by decide +kernel))
  have field : ∀ f : String × Cell, IsName f.1.toList →
      ('\r' ∈ element f.1 f.2.written ↔ '\r' ∈ f.2.written) := by
    intro f name
    have absent := return_notMem_name name
    simp [element, startTag, endTag, absent]
  have entry : ∀ e ∈ es, ('\r' ∈ plain (entryEvents e) ↔ ∃ f ∈ e.fields, '\r' ∈ f.2.written) := by
    intro e member
    have absent := return_notMem_name (named e member).1
    rw [plain_entryEvents]
    simp only [startTag, endTag, List.mem_append, List.mem_cons, List.mem_flatMap, List.not_mem_nil, absent, or_false,
      false_or, Char.reduceEq]
    exact exists_congr fun f => and_congr_right fun inside => field f ((named e member).2 f inside)
  unfold documentEvents
  generalize "dhcpstatus".toList = status at root
  have split : '\r' ∈ plain (.opening status [] :: .char '\n' ::
      (es.flatMap entryEvents ++ [.closing status, .char '\n'])) ↔ ∃ e ∈ es, '\r' ∈ plain (entryEvents e) := by
    simp [Event.text, plain_flatMap, root]
  rw [split, ← not_iff_not, not_not]
  have some_ : (∃ e ∈ es, '\r' ∈ plain (entryEvents e)) ↔ ∃ e ∈ es, ∃ f ∈ e.fields, '\r' ∈ f.2.written :=
    exists_congr fun e => and_congr_right fun inside => entry e inside
  rw [some_]
  push Not
  rfl

theorem content_chars {s : List Char} {es : List Event} (content : Content es) : Content (s.map .char ++ es) := by
  induction s with
  | nil => exact content
  | cons c s ih => exact .char ih

theorem content_entries (es : List Entry) : Content (es.flatMap entryEvents) := by
  have fields : ∀ fs : List (String × Cell), Content (fs.flatMap fieldEvents) := by
    intro fs
    induction fs with
    | nil => exact .nil
    | cons f fs ih =>
      have text := content_chars (s := f.2.written) Content.nil
      rw [List.append_nil] at text
      have one := Content.char (c := '\t') (@Content.element f.1.toList [] _ _ text (.char (c := '\n') ih))
      simpa [fieldEvents] using one
  induction es with
  | nil => exact .nil
  | cons e es ih =>
    have one := @Content.element e.tag.toList [] _ _ (.char (c := '\n') (fields e.fields)) (.char (c := '\n') ih)
    simpa [entryEvents] using one

/-- The document with records is well formed and means these exactly when their texts need no escapes. -/
theorem document_iff {es : List Entry} (named : ∀ e ∈ es, Named e) :
    Document (plain (documentEvents es)) (documentEvents es) ↔ ∀ e ∈ es, ∀ f ∈ e.fields, Escapeless f.2.written := by
  have lexes : Lexes (lineEnds (plain (documentEvents es))) (documentEvents es) ↔
      ∀ e ∈ es, ∀ f ∈ e.fields, Escapeless f.2.written := by
    rw [lexes_plain_iff, clean_documentEvents named, return_notMem_documentEvents named]
    exact ⟨fun both e member f inside => ⟨both.1 e member f inside, both.2 e member f inside⟩,
      fun all => ⟨fun e member f inside => (all e member f inside).1, fun e member f inside => (all e member f inside).2⟩⟩
  rw [← lexes]
  refine ⟨Document.lexes, fun reads => ⟨reads, [], .opening "dhcpstatus".toList [] :: (.char '\n' :: es.flatMap entryEvents) ++
    [.closing "dhcpstatus".toList], [.char '\n'], ?_, .tags (.char (content_entries es)), ?_⟩⟩
  · simp [documentEvents]
  · intro e member
    exact ⟨'\n', by simpa using member, rfl⟩

/-- Then it means nothing else. -/
theorem document_unique {es : List Entry} {us : List Event} (named : ∀ e ∈ es, Named e)
    (plainly : ∀ e ∈ es, ∀ f ∈ e.fields, Escapeless f.2.written) (reads : Document (plain (documentEvents es)) us) :
    us = documentEvents es := by
  have clean := (clean_documentEvents named).mpr fun e member f inside => (plainly e member f inside).1
  have none := (return_notMem_documentEvents named).mpr fun e member f inside => (plainly e member f inside).2
  have lexes := reads.lexes
  rw [lineEnds_self none] at lexes
  exact lexes_unique clean lexes

/-! ## Reading the records back -/

/-- Where a reader of events is. -/
inductive Place where
  | outside
  | root
  | record (tag : List Char) (fields : List (List Char × List Char))
  | field (tag : List Char) (fields : List (List Char × List Char)) (name text : List Char)

/-- A reader with the records that it has read: the elements in the root, each with the texts of its elements. -/
structure Reader where
  place : Place
  records : List (List Char × List (List Char × List Char))

def Reader.read (r : Reader) (e : Event) : Reader :=
  match r.place, e with
  | .outside, .opening _ _ => { r with place := .root }
  | .root, .opening tag _ => { r with place := .record tag [] }
  | .root, .empty tag _ => { r with records := r.records ++ [(tag, [])] }
  | .root, .closing _ => { r with place := .outside }
  | .record tag fields, .opening name _ => { r with place := .field tag fields name [] }
  | .record tag fields, .empty name _ => { r with place := .record tag (fields ++ [(name, [])]) }
  | .record tag fields, .closing _ => { place := .root, records := r.records ++ [(tag, fields)] }
  | .field tag fields name text, .char c => { r with place := .field tag fields name (text ++ [c]) }
  | .field tag fields name text, .closing _ => { r with place := .record tag (fields ++ [(name, text)]) }
  | _, _ => r

/-- The records in a document. -/
def xmlRecords (es : List Event) : List (List Char × List (List Char × List Char)) :=
  (es.foldl Reader.read ⟨.outside, []⟩).records

section
variable {rs : List (List Char × List (List Char × List Char))} {tag : List Char} {fields : List (List Char × List Char)}

theorem read_chars (name text s : List Char) :
    (s.map .char).foldl Reader.read ⟨.field tag fields name text, rs⟩ = ⟨.field tag fields name (text ++ s), rs⟩ := by
  induction s generalizing text with
  | nil => simp
  | cons c s ih =>
    have next : Reader.read ⟨.field tag fields name text, rs⟩ (.char c) = ⟨.field tag fields name (text ++ [c]), rs⟩ := rfl
    rw [List.map_cons, List.foldl_cons, next, ih, List.append_assoc]
    rfl

theorem read_field (f : String × Cell) : (fieldEvents f).foldl Reader.read ⟨.record tag fields, rs⟩ =
    ⟨.record tag (fields ++ [(f.1.toList, f.2.written)]), rs⟩ := by
  simp [fieldEvents, Reader.read, read_chars]

theorem read_fields (fs : List (String × Cell)) : (fs.flatMap fieldEvents).foldl Reader.read ⟨.record tag fields, rs⟩ =
    ⟨.record tag (fields ++ fs.map fun f => (f.1.toList, f.2.written)), rs⟩ := by
  induction fs generalizing fields with
  | nil => simp
  | cons f fs ih => rw [List.flatMap_cons, List.foldl_append, read_field, ih, List.append_assoc, List.map_cons]; rfl

theorem read_entry (e : Entry) : (entryEvents e).foldl Reader.read ⟨.root, rs⟩ = ⟨.root, rs ++ [e.record]⟩ := by
  simp [entryEvents, Reader.read, read_fields, Entry.record]

theorem read_entries (es : List Entry) :
    (es.flatMap entryEvents).foldl Reader.read ⟨.root, rs⟩ = ⟨.root, rs ++ es.map Entry.record⟩ := by
  induction es generalizing rs with
  | nil => simp
  | cons e es ih => rw [List.flatMap_cons, List.foldl_append, read_entry, ih, List.append_assoc, List.map_cons]; rfl

end

theorem xmlRecords_documentEvents (es : List Entry) : xmlRecords (documentEvents es) = es.map Entry.record := by
  simp [xmlRecords, documentEvents, Reader.read, read_entries]

/-- The report is a document with its records exactly when the strings need no escapes. -/
theorem outputXml_iff (ntop : Ntop) (p : Report) :
    Document (outputXml ntop p) (documentEvents (p.entries ntop)) ↔ ∀ s ∈ p.strings, Escapeless s := by
  rw [outputXml_eq, document_iff (entries_named ntop p)]
  exact @forall_cells ntop p (fun c => Escapeless c.written) (fun s simple => escapeless_of_safe (safe_of_simple simple))
    fun q => escapeless_of_safe (safe_number q)

end

end DhcpdPools.Output
