import DhcpdPools.ConfigReader
import DhcpdPools.JsonUtf8
import DhcpdPools.OutputJson

/-!
Names in the reports for programs. Both printers copy the strings of the input files as
they are, so a report is well formed and gives the strings back exactly when every one
of them may stand for itself in both formats (`names_kept_iff`). The characters of the
tables are bytes here, and a document is read from its bytes as UTF-8.
-/
namespace DhcpdPools.Output
open Printf ConfigReader

/-! ## Records in bytes -/

def Cell.bytes : Cell → Cell
  | .name s => .name (Utf8.bytes s)
  | .address s => .address (Utf8.bytes s)
  | .number q => .number q

/-- The record with the bytes of its texts. -/
def Entry.bytes (e : Entry) : Entry := ⟨e.tag, e.fields.map fun f => (f.1, f.2.bytes)⟩

theorem ascii_of_safe {s : List Char} (safe : ∀ c ∈ s, safeChar c = true) : ∀ c ∈ s, c.toNat < 128 := fun c member =>
  Nat.lt_trans (safe_bounds (safe c member)).2 (by decide)

theorem written_bytes (c : Cell) : c.bytes.written = Utf8.bytes c.written := by
  cases c with
  | number q => exact (Utf8.bytes_ascii (ascii_of_safe (safe_number q))).symm
  | _ => rfl

theorem tag_ascii {tag : String} (known : tag ∈ "dhcpstatus" :: (entryTags ++ fieldTags)) : ∀ c ∈ tag.toList, c.toNat < 128 := by
  have all : (("dhcpstatus" :: (entryTags ++ fieldTags)).all fun tag => tag.toList.all fun c => c.toNat < 128) = true := by
    decide +kernel
  intro c member
  exact of_decide_eq_true (List.all_eq_true.mp (List.all_eq_true.mp all tag known) c member)

theorem bytes_startTag {tag : String} (known : tag ∈ "dhcpstatus" :: (entryTags ++ fieldTags)) :
    Utf8.bytes (startTag tag) = startTag tag ∧ Utf8.bytes (endTag tag) = endTag tag := by
  have ascii := tag_ascii known
  constructor <;> refine Utf8.bytes_ascii ?_
  · simp only [startTag, List.forall_mem_append, List.forall_mem_cons]
    exact ⟨⟨by decide, ascii⟩, by decide, fun _ member => by cases member⟩
  · simp only [endTag, List.forall_mem_append, List.forall_mem_cons]
    exact ⟨⟨by decide, by decide, ascii⟩, by decide, fun _ member => by cases member⟩

theorem bytes_flatMap {α : Type} {g : α → List Char} {xs : List α} {h : α → List Char}
    (one : ∀ x ∈ xs, Utf8.bytes (g x) = h x) : Utf8.bytes (xs.flatMap g) = xs.flatMap h := by
  induction xs with
  | nil => rfl
  | cons x xs ih =>
    rw [List.flatMap_cons, List.flatMap_cons, Utf8.bytes_append, one x List.mem_cons_self,
      ih fun y member => one y (List.mem_cons_of_mem _ member)]

theorem bytes_element {f : String × Cell} (known : f.1 ∈ fieldTags) :
    Utf8.bytes (element f.1 f.2.written) = element f.1 f.2.bytes.written := by
  obtain ⟨front, back⟩ := bytes_startTag (List.mem_cons_of_mem _ (List.mem_append_right _ known))
  have tab : Utf8.bytes ['\t'] = ['\t'] := Utf8.bytes_char (by decide)
  have newline : Utf8.bytes ['\n'] = ['\n'] := Utf8.bytes_char (by decide)
  rw [element, List.cons_append, List.cons_append, List.cons_append, Utf8.bytes_cons, tab]
  simp only [Utf8.bytes_append, front, back, newline, written_bytes]
  rfl

theorem bytes_entry {e : Entry} (tagged : Tagged e) :
    Utf8.bytes (XmlText.plain (entryEvents e)) = XmlText.plain (entryEvents e.bytes) := by
  obtain ⟨front, back⟩ := bytes_startTag (List.mem_cons_of_mem _ (List.mem_append_left _ tagged.1))
  have newline : Utf8.bytes ['\n'] = ['\n'] := Utf8.bytes_char (by decide)
  have fields := @bytes_flatMap _ _ e.fields _ fun f inside => bytes_element (tagged.2 f inside)
  rw [plain_entryEvents, plain_entryEvents]
  simp only [Utf8.bytes_append, front, back, newline, fields, Entry.bytes, List.flatMap_map]

/-- The bytes of a document with records are those of a document with their bytes. -/
theorem bytes_document {es : List Entry} (tagged : ∀ e ∈ es, Tagged e) :
    Utf8.bytes (XmlText.plain (documentEvents es)) = XmlText.plain (documentEvents (es.map Entry.bytes)) := by
  obtain ⟨front, back⟩ := @bytes_startTag "dhcpstatus" List.mem_cons_self
  have newline : Utf8.bytes ['\n'] = ['\n'] := Utf8.bytes_char (by decide)
  have split : ∀ es, XmlText.plain (documentEvents es) = startTag "dhcpstatus" ++ ['\n'] ++
      es.flatMap (fun e => XmlText.plain (entryEvents e)) ++ endTag "dhcpstatus" ++ ['\n'] := fun es => by
    simp [documentEvents, XmlText.Event.text, startTag, endTag, plain_flatMap]
  have records := @bytes_flatMap _ _ es _ fun e member => bytes_entry (tagged e member)
  rw [split, split]
  simp only [Utf8.bytes_append, front, back, newline, records, List.flatMap_map]

/-! ## Reading from bytes -/

/-- The XML report is a well-formed document with the records of the tables. -/
def XmlKeeps (ntop : Ntop) (p : Report) : Prop := ∃ text es, Utf8.bytes text = outputXml ntop p ∧
  XmlText.Document text (documentEvents es) ∧ es.map Entry.bytes = p.entries ntop

/-- The JSON report is a well-formed text with the value of the tables. -/
def JsonKeeps (ntop : Ntop) (p : Report) : Prop := ∃ text v, Utf8.bytes text = outputJson ntop p ∧
  JsonText.Text text v ∧ v.bytes = jsonValue ntop p

/-- A field whose bytes stand for a text with the property. -/
def Decodes (P : List Char → Prop) (c : Cell) : Prop := ∃ c₀ : Cell, c₀.bytes = c ∧ P c₀.written

theorem decodes_of_safe {P : List Char → Prop} (c : Cell) (ascii : ∀ x ∈ c.written, x.toNat < 128) (holds : P c.written) :
    Decodes P c := by
  refine ⟨c, ?_, holds⟩
  cases c with
  | number q => rfl
  | name s => exact congrArg Cell.name (Utf8.bytes_ascii ascii)
  | address s => exact congrArg Cell.address (Utf8.bytes_ascii ascii)

theorem decodes_name {P : List Char → Prop} {s : List Char} : Decodes P (.name s) ↔ ∃ t, Utf8.bytes t = s ∧ P t := by
  constructor
  · rintro ⟨c, same, holds⟩
    cases c with
    | name t => exact ⟨t, Cell.name.inj same, holds⟩
    | _ => cases same
  · rintro ⟨t, rfl, holds⟩
    exact ⟨.name t, rfl, holds⟩

/-- Records whose fields are read one by one. -/
theorem entries_decode {P : List Char → Prop} {es : List Entry} (cells : ∀ e ∈ es, ∀ f ∈ e.fields, Decodes P f.2) :
    ∃ us : List Entry, us.map Entry.bytes = es ∧ ∀ e ∈ us, ∀ f ∈ e.fields, P f.2.written := by
  have fields : ∀ fs : List (String × Cell), (∀ f ∈ fs, Decodes P f.2) →
      ∃ us : List (String × Cell), (us.map fun f => (f.1, f.2.bytes)) = fs ∧ ∀ f ∈ us, P f.2.written := by
    intro fs all
    induction fs with
    | nil => exact ⟨[], rfl, fun _ member => by cases member⟩
    | cons f fs ih =>
      obtain ⟨c, same, holds⟩ := all f List.mem_cons_self
      obtain ⟨us, rfl, later⟩ := ih fun g member => all g (List.mem_cons_of_mem _ member)
      exact ⟨(f.1, c) :: us, by rw [List.map_cons, same], List.forall_mem_cons.mpr ⟨holds, later⟩⟩
  induction es with
  | nil => exact ⟨[], rfl, fun _ member => by cases member⟩
  | cons e es ih =>
    obtain ⟨us, rest, later⟩ := ih fun d member => cells d (List.mem_cons_of_mem _ member)
    obtain ⟨fs, same, holds⟩ := fields e.fields (cells e List.mem_cons_self)
    exact ⟨⟨e.tag, fs⟩ :: us, by rw [List.map_cons, rest, Entry.bytes, same], List.forall_mem_cons.mpr ⟨holds, later⟩⟩

theorem tagged_of_bytes {e : Entry} (tagged : Tagged e.bytes) : Tagged e :=
  ⟨tagged.1, fun f member => tagged.2 (f.1, f.2.bytes) (List.mem_map_of_mem member)⟩

theorem xmlKeeps_iff (ntop : Ntop) (p : Report) :
    XmlKeeps ntop p ↔ ∀ s ∈ p.strings, ∃ t, Utf8.bytes t = s ∧ Escapeless t := by
  have tagged : ∀ {us : List Entry}, us.map Entry.bytes = p.entries ntop → ∀ e ∈ us, Tagged e := fun same e member =>
    tagged_of_bytes (entries_tagged ntop p _ (same ▸ List.mem_map_of_mem member))
  have cells : (∀ e ∈ p.entries ntop, ∀ f ∈ e.fields, Decodes Escapeless f.2) ↔
      ∀ s ∈ p.strings, ∃ t, Utf8.bytes t = s ∧ Escapeless t := by
    refine (forall_cells ntop p (fun s simple => ?_) fun q => ?_).trans (forall₂_congr fun s _ => decodes_name)
    · have safe := safe_of_simple simple
      exact decodes_of_safe _ (ascii_of_safe safe) (escapeless_of_safe safe)
    · exact decodes_of_safe _ (ascii_of_safe (safe_number q)) (escapeless_of_safe (safe_number q))
  rw [← cells]
  constructor
  · rintro ⟨text, us, bytes, document, same⟩
    have whole : text = XmlText.plain (documentEvents us) := by
      apply Utf8.bytes_injective
      rw [bytes, outputXml_eq, bytes_document (tagged same), same]
    rw [whole, document_iff fun e member => named_of_tagged (tagged same e member)] at document
    rw [← same]
    intro e member f inside
    obtain ⟨e, known, rfl⟩ := List.mem_map.mp member
    obtain ⟨f, field, rfl⟩ := List.mem_map.mp inside
    exact ⟨f.2, rfl, document e known f field⟩
  · intro all
    obtain ⟨us, same, escapeless⟩ := entries_decode all
    refine ⟨_, us, ?_, (document_iff fun e member => named_of_tagged (tagged same e member)).mpr escapeless, same⟩
    rw [outputXml_eq, bytes_document (tagged same), same]

theorem jsonKeeps_iff (ntop : Ntop) (p : Report) :
    JsonKeeps ntop p ↔ ∀ s ∈ p.strings, ∃ t, Utf8.bytes t = s ∧ ∀ c ∈ t, JsonText.literal c = true := by
  have number := fun q => number_of_decimal (decimal_formatG q)
  have tokens : (∀ k ∈ (jsonValue ntop p).tokens, k.Readable) ↔
      ∀ s ∈ p.strings, ∃ t, Utf8.bytes t = s ∧ ∀ c ∈ t, JsonText.literal c = true := by
    refine (forall_tokens (fun _ => JsonText.readable_mark) (fun s simple => ?_) (fun q => ⟨.num _, rfl, number q⟩) ntop p).trans
      (forall₂_congr fun s _ => JsonText.readable_str)
    have safe := safe_of_simple simple
    exact JsonText.readable_str.mpr ⟨s, Utf8.bytes_ascii (ascii_of_safe safe), literal_of_safe safe⟩
  have ascii : ∀ k ∈ (jsonValue ntop p).tokens, k.Ascii := by
    refine (forall_tokens (fun c known => ?_) (fun _ _ => trivial) (fun q => ascii_of_safe (safe_number q)) ntop p).mpr
      fun _ _ => trivial
    exact JsonText.isMark_ascii known
  have decode : ∀ v : JsonText.Json, v.bytes = jsonValue ntop p →
      ∃ text, Utf8.bytes text = outputJson ntop p ∧ JsonText.Spaced text v.tokens := by
    intro v same
    refine JsonText.spaced_decode (outputJson_spells ntop p).spaced v.tokens (by rw [← JsonText.tokens_bytes, same]) ?_
    intro k member
    have image : k.bytes ∈ (jsonValue ntop p).tokens := by
      rw [← same, JsonText.tokens_bytes]
      exact List.mem_map_of_mem member
    have known := ascii _ image
    cases k with
    | str => trivial
    | _ => exact known
  rw [← tokens]
  constructor
  · rintro ⟨text, v, bytes, reads, same⟩
    obtain ⟨text', bytes', spaced⟩ := decode v same
    obtain rfl := Utf8.bytes_injective (bytes'.trans bytes.symm)
    have clean := (JsonText.lexes_spaced_iff spaced).mp reads
    rw [← same, JsonText.tokens_bytes]
    intro k member
    obtain ⟨k, known, rfl⟩ := List.mem_map.mp member
    exact ⟨k, rfl, clean k known⟩
  · intro all
    obtain ⟨v, same, clean⟩ := JsonText.json_decode _ all
    obtain ⟨text, bytes, spaced⟩ := decode v same
    exact ⟨text, v, bytes, (JsonText.lexes_spaced_iff spaced).mpr clean, same⟩

/-! ## Names that survive -/

/-- A character that stands for itself in both formats. -/
def plainChar (c : Char) : Bool :=
  0x20 ≤ c.toNat && c ≠ '"' && c ≠ '\\' && c ≠ '<' && c ≠ '&' && c.toNat ≠ 0xFFFE && c.toNat ≠ 0xFFFF

/-- The bytes are those of a text without a character, and without an end of a section, that needs an escape. -/
def Printable (s : List Char) : Prop :=
  ∃ t, Utf8.bytes t = s ∧ (∀ c ∈ t, plainChar c = true) ∧ ¬"]]>".toList <:+: t

theorem plain_iff (t : List Char) : ((∀ c ∈ t, plainChar c = true) ∧ ¬"]]>".toList <:+: t) ↔
    Escapeless t ∧ ∀ c ∈ t, JsonText.literal c = true := by
  constructor
  · rintro ⟨plain, bracket⟩
    have known : ∀ c ∈ t, (0x20 ≤ c.toNat ∧ c ≠ '"' ∧ c ≠ '\\' ∧ c ≠ '<' ∧ c ≠ '&') ∧
        c.toNat ≠ 0xFFFE ∧ c.toNat ≠ 0xFFFF := fun c member => by
      simpa [plainChar, and_assoc] using plain c member
    refine ⟨⟨⟨fun c member => ?_, bracket⟩, fun return_ => absurd (known _ return_).1.1 (by decide)⟩, fun c member => ?_⟩
    · obtain ⟨⟨low, -, -, less, amp⟩, other⟩ := known c member
      exact ⟨by simp [XmlText.legal, low, other], less, amp⟩
    · obtain ⟨⟨low, quote, backslash, -⟩, -⟩ := known c member
      simp [JsonText.literal, low, quote, backslash]
  · rintro ⟨⟨⟨plain, bracket⟩, -⟩, literal⟩
    refine ⟨fun c member => ?_, bracket⟩
    obtain ⟨legal, less, amp⟩ := plain c member
    have inside : (0x20 ≤ c.toNat ∧ c ≠ '"') ∧ c ≠ '\\' := by simpa [JsonText.literal] using literal c member
    have other : c.toNat ≠ 0xFFFE ∧ c.toNat ≠ 0xFFFF := by
      simp only [XmlText.legal, Bool.and_eq_true, decide_eq_true_eq] at legal
      exact ⟨legal.1.2, legal.2⟩
    simp [plainChar, inside, less, amp, other]

/-- Both reports are well formed and keep the names exactly when these need no escapes. -/
theorem names_kept_iff (ntop : Ntop) (p : Report) :
    XmlKeeps ntop p ∧ JsonKeeps ntop p ↔ ∀ s ∈ p.strings, Printable s := by
  rw [xmlKeeps_iff, jsonKeeps_iff, ← forall₂_and]
  refine forall₂_congr fun s _ => ?_
  constructor
  · rintro ⟨⟨t, rfl, escapeless⟩, t', same, literal⟩
    obtain rfl := Utf8.bytes_injective same
    exact ⟨_, rfl, (plain_iff _).mpr ⟨escapeless, literal⟩⟩
  · rintro ⟨t, rfl, plain⟩
    obtain ⟨escapeless, literal⟩ := (plain_iff t).mp plain
    exact ⟨⟨t, rfl, escapeless⟩, t, rfl, literal⟩

/-- A configuration file with a network of this name. -/
def namedFile (name : String) (_ : List Char) : Option (List Char) :=
  some ("shared-network \"".toList ++ name.toList ++ "\" \x7b\n\x7d\n".toList)

/-- A report about one network of ten addresses. -/
def namedReport (name : String) : Report where
  ipVersion := .IPv4
  headerLimit := 0
  numberLimit := 2
  backupsFound := false
  printMacAddreses := false
  leases := []
  ranges := []
  sharedNetworks _ := ⟨name.toList, 10, 0, 0, 0, -2⟩
  numSharedNetworks := 1

/-- Two names that the parser records: with an ampersand there is no document, and a backslash is not read back. -/
theorem markup_not_kept :
    (parseConfig (sampleEnv (namedFile "R&D")) 1 [] 0 (emptyGlobals .IPv4)).map (fun g => (g.sharedNetworks 1).name) =
        .ok "R&D".toList ∧
      (parseConfig (sampleEnv (namedFile "R\\D")) 1 [] 0 (emptyGlobals .IPv4)).map (fun g => (g.sharedNetworks 1).name) =
        .ok "R\\D".toList ∧
      (¬∃ text es, Utf8.bytes text = outputXml dottedQuads (namedReport "R&D") ∧ XmlText.Document text es) ∧
      ¬JsonKeeps dottedQuads (namedReport "R\\D") := by
  refine ⟨rfl, rfl, ?_, ?_⟩
  · rintro ⟨text, es, bytes, document⟩
    have checked : ((outputXml dottedQuads (namedReport "R&D")).all fun c => c.toNat < 128 ∧ c ≠ '\r') = true := by
      decide +kernel
    have chars : ∀ c ∈ outputXml dottedQuads (namedReport "R&D"), c.toNat < 128 ∧ c ≠ '\r' := fun c member =>
      of_decide_eq_true (List.all_eq_true.mp checked c member)
    obtain rfl := Utf8.bytes_injective (bytes.trans (Utf8.bytes_ascii fun c member => (chars c member).1).symm)
    have lexes := document.lexes
    rw [XmlText.lineEnds_self fun member => (chars _ member).2 rfl] at lexes
    have split : outputXml dottedQuads (namedReport "R&D") = XmlText.plain [.opening "dhcpstatus".toList [], .char '\n',
        .opening "shared-network".toList [], .char '\n', .char '\t', .opening "location".toList [], .char 'R'] ++
        '&' :: 'D' :: (outputXml dottedQuads (namedReport "R&D")).drop 44 := by
      decide +kernel
    rw [split] at lexes
    obtain ⟨later, -, ampersand⟩ := XmlText.lexes_front (by
      simp only [List.forall_mem_cons, XmlText.Fixed, and_true]
      exact ⟨XmlText.isName_of (by decide +kernel), by decide, XmlText.isName_of (by decide +kernel), by decide, by decide,
        XmlText.isName_of (by decide +kernel), by decide, fun _ member => by cases member⟩) lexes
    exact absurd (XmlText.lexes_ampersand ampersand) (by decide)
  · intro keeps
    have printed : ['R', '\\', 'D'] ∈ (namedReport "R\\D").strings := by decide +kernel
    obtain ⟨t, same, plain⟩ := (jsonKeeps_iff _ _).mp keeps _ printed
    have ascii : ∀ c ∈ ['R', '\\', 'D'], c.toNat < 128 := by simp
    obtain rfl := Utf8.bytes_injective (same.trans (Utf8.bytes_ascii ascii).symm)
    exact absurd (plain '\\' (by decide)) (by decide)

end DhcpdPools.Output
