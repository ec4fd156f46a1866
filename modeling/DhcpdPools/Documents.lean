import DhcpdPools.OutputNames
import DhcpdPools.Totals

/-!
The XML and JSON documents as a function of the two files that are read. What is printed is
well formed, and the records that are read back from it are those of the inventory
(`main_documents`).
-/
namespace DhcpdPools.Documents
open CommandLine ConfigReader ConfigRecords Program Totals Counting Inventory LeaseVersion LeaseFile KeyedTable Output
open OutputTables (outputTxt outputHtml)
open ConfigReader (Globals)

/-- A table that is a rearrangement of values has a rearrangement of what they are values of. -/
theorem perm_map {α β : Type} {f : α → β} {values : List β} {inputs : List α} (same : values.Perm (inputs.map f)) :
    ∃ inputs' : List α, inputs'.Perm inputs ∧ values = inputs'.map f := by
  have each : List.Forall₂ (fun b a => b = f a) (inputs.map f) inputs :=
    List.forall₂_map_left_iff.mpr (List.forall₂_same.mpr fun _ _ => rfl)
  obtain ⟨inputs', pairs, arranged⟩ := List.perm_comp_forall₂ same each
  refine ⟨inputs', arranged, ?_⟩
  have mapped : List.Forall₂ (· = ·) values (inputs'.map f) := List.forall₂_map_right_iff.mpr pairs
  rwa [List.forall₂_eq_eq_eq] at mapped

/-! ## The report of the inventory -/

/-- What a printer writes; that of `output_alarming` goes by the status. -/
def written (w : World) (s : Settings) (p : Report) : OutputFunction → List Char
  | .txt => outputTxt w.ntop p
  | .alarming => []
  | .html => outputHtml w.ntop p (page w s)
  | .xml => outputXml w.ntop p
  | .json => outputJson w.ntop p
  | .csv => outputCsv w.ntop p

/-- What there is to report, with the leases and the ranges in some order. Behind the networks in
    use the table is as `parse_config` leaves it. -/
def inventory (w : World) (s : Settings) (macs : Bool) (g : Globals) (file : List Char) (leases : List Lease)
    (ranges : List Range) : Report where
  ipVersion := fileVersion g.ipVersion file
  headerLimit := s.alarms.headerLimit
  numberLimit := s.alarms.numberLimit
  backupsFound := (parseLeases (leaseEnv w macs) g.ipVersion w.leaseLine w.leaseAddr file).backupsFound
  printMacAddreses := macs
  leases := leases
  ranges := ranges.map (surveyed (fileVersion g.ipVersion file) (holdings w macs g file))
  sharedNetworks k :=
    if k = 0 then surveyedSum (fileVersion g.ipVersion file) (holdings w macs g file) ranges (g.sharedNetworks 0)
    else if k ≤ g.numSharedNetworks then
      surveyedNetwork w.undef (fileVersion g.ipVersion file) (holdings w macs g file) ranges k (g.sharedNetworks k)
    else g.sharedNetworks k
  numSharedNetworks := g.numSharedNetworks

section
variable {w : World} {os : List Opt} {s : Settings} {function : OutputFunction} {macs : Bool} {g : Globals} {file : List Char}

theorem inventory_name (leases : List Lease) (ranges : List Range) (k : Nat) :
    ((inventory w s macs g file leases ranges).sharedNetworks k).name = (g.sharedNetworks k).name := by
  unfold inventory
  dsimp only
  split_ifs with first
  · rw [first]
    rfl
  · rfl
  · rfl

/-- The networks behind the counting are those of the inventory. -/
theorem inventory_networks (networks : Networks g) (entries : Entries g) (leases : List Lease) {ranges : List Range}
    (same : ranges.Perm (recorded g)) : networkAt g (tables w s macs g file).sharedNetworks =
      (inventory w s macs g file leases ranges).sharedNetworks := by
  have right := tables_surveyed w s macs file networks entries
  have row : ∀ k ≤ g.numSharedNetworks, (networksOf g)[k]? = some (g.sharedNetworks k) := by
    intro k inside
    rw [networksOf, List.getElem?_map, List.getElem?_range (Nat.lt_succ_of_le inside)]
    rfl
  funext k
  by_cases first : k = 0
  · subst first
    have summary := right.summary (g.sharedNetworks 0) (by rw [List.head?_eq_getElem?, row 0 (Nat.zero_le _)])
    rw [List.head?_eq_getElem?] at summary
    rw [networkAt, summary, Option.getD_some]
    simp only [inventory, if_true, surveyedSum, total_perm 0 _ same, (same.map _).sum_eq]
  · by_cases inside : k ≤ g.numSharedNetworks
    · rw [networkAt, right.networks k _ first (row k inside), Option.getD_some]
      simp only [inventory, if_neg first, if_pos inside, surveyedNetwork, total_perm k _ same]
    · have behind : (tables w s macs g file).sharedNetworks[k]? = none := by
        rw [List.getElem?_eq_none_iff, right.length, networksOf, List.length_map, List.length_range]
        omega
      rw [networkAt, behind, Option.getD_none]
      simp only [inventory, if_neg first, if_neg inside]

/-- What is printed is the inventory. -/
theorem tables_report (networks : Networks g) (entries : Entries g) :
    ∃ leases ranges, Sorted (fileVersion g.ipVersion file) leases ∧
      tableMap (fileVersion g.ipVersion file) leases = holdings w macs g file ∧ ranges.Perm (recorded g) ∧
      (tables w s macs g file).report s macs g = inventory w s macs g file leases ranges := by
  obtain ⟨-, -, distinct⟩ := parseLeases_inv (leaseEnv w macs) g.ipVersion w.leaseLine w.leaseAddr file
  obtain ⟨ranges, arranged, mapped⟩ := perm_map (tables_surveyed w s macs file networks entries).ranges
  refine ⟨(tables w s macs g file).leases, ranges, hashSort_distinct w.hash distinct, tableMap_hashSort w.hash distinct, arranged, ?_⟩
  rw [Analysis.report, inventory_networks networks entries (tables w s macs g file).leases arranged, inventory, ← mapped]
  rfl

/-- Whatever the configuration and the lease file say, what is written is the report of the
    inventory: the leases in the order of their addresses, one for each address that the file
    leaves in a state, the ranges that were recorded, each once, and the sums. -/
theorem main_written (reads : Reads w os s function macs g file) (few : g.numRanges < 2 ^ 31) (proper : Proper w s)
    (other : function ≠ .alarming) :
    ∃ leases ranges, Sorted (fileVersion g.ipVersion file) leases ∧
      tableMap (fileVersion g.ipVersion file) leases = holdings w macs g file ∧ ranges.Perm (recorded g) ∧
      main w os = .ok (written w s (inventory w s macs g file leases ranges) function, 0) := by
  obtain ⟨leases, ranges, sorted, table, arranged, same⟩ :=
    @tables_report w s macs g file (reads_networks reads) (reads_entries reads proper)
  refine ⟨leases, ranges, sorted, table, arranged, ?_⟩
  rw [main_tables reads few, ← same]
  cases function with
  | alarming => exact absurd rfl other
  | _ => rfl

end

theorem main_written_sample : ∃ g leases ranges, main sampleWorld sampleArgs =
    .ok (outputJson sampleWorld.ntop (inventory sampleWorld sampleSettings true g sampleLeases leases ranges), 0) := by
  obtain ⟨g, reads, count⟩ := sample_reads
  obtain ⟨leases, ranges, -, -, -, ran⟩ := main_written reads (by rw [count]; decide) (by decide +kernel) (by decide)
  exact ⟨g, leases, ranges, ran⟩

/-! ## What a document needs -/

section
variable {w : World} {os : List Opt} {s : Settings} {function : OutputFunction} {macs : Bool} {g : Globals} {file : List Char}

/-- A string that stands for itself in both formats. -/
def Plain (t : List Char) : Prop := (∀ c ∈ t, plainChar c = true) ∧ ¬"]]>".toList <:+: t

theorem plain_of_simple {t : List Char} (simple : ∀ c ∈ t, simpleChar c = true) : Plain t :=
  (plain_iff t).mpr ⟨escapeless_of_safe (safe_of_simple simple), literal_of_safe (safe_of_simple simple)⟩

/-- The limits let the name of the network be printed: with its ranges, on its own, or in the sum. -/
def NamePrinted (s : Settings) (g : Globals) (k : Nat) : Prop :=
  rBit s.alarms.numberLimit = true ∧ (∃ r ∈ recorded g, r.sharedNet = some k) ∨
    sBit s.alarms.numberLimit = true ∧ k ≠ 0 ∨ aBit s.alarms.headerLimit = true ∧ k = 0

/-- The names and the hardware addresses that are printed need no escapes. -/
structure Clear (w : World) (s : Settings) (macs : Bool) (g : Globals) (file : List Char) : Prop where
  names : ∀ k ≤ g.numSharedNetworks, NamePrinted s g k → Plain (g.sharedNetworks k).name
  hardware : macs = true → ∀ k mac, holdings w macs g file k = some (.ACTIVE, some mac) → Plain mac

theorem inventory_clear (clear : Clear w s macs g file) {leases : List Lease} {ranges : List Range}
    (distinct : Distinct (ipKey (fileVersion g.ipVersion file)) leases)
    (table : tableMap (fileVersion g.ipVersion file) leases = holdings w macs g file)
    (arranged : ranges.Perm (recorded g)) (owned : ∀ r ∈ ranges, ∃ k ≤ g.numSharedNetworks, r.sharedNet = some k) :
    ∀ t ∈ (inventory w s macs g file leases ranges).strings, Plain t := by
  have empty : Plain [] := plain_of_simple (List.forall_mem_nil _)
  have network : ∀ k ≤ g.numSharedNetworks, NamePrinted s g k →
      Plain ((inventory w s macs g file leases ranges).sharedNetworks k).name := by
    intro k inside printed
    rw [inventory_name]
    exact clear.names k inside printed
  intro t member
  simp only [Report.strings, List.mem_append, or_assoc, List.mem_ite_nil_right, List.mem_map, List.mem_singleton] at member
  rcases member with ⟨shown, l, filtered, rfl⟩ | ⟨limit, r, inside, rfl⟩ | ⟨limit, n, inside, rfl⟩ | ⟨limit, rfl⟩
  · obtain ⟨inside, active⟩ := List.mem_filter.mp filtered
    cases mac : l.ethernet with
    | none => exact empty
    | some mac =>
      have entry : tableMap (fileVersion g.ipVersion file) leases (ipKey (fileVersion g.ipVersion file) l) =
          some (l.type, l.ethernet) := by
        rw [tableMap, get_of_mem distinct inside]
        rfl
      rw [table, of_decide_eq_true active, mac] at entry
      exact clear.hardware shown _ _ entry
  · obtain ⟨r, declared, rfl⟩ := List.mem_map.mp inside
    obtain ⟨k, below, owner⟩ := owned r declared
    have location : (inventory w s macs g file leases ranges).location
        (surveyed (fileVersion g.ipVersion file) (holdings w macs g file) r) =
          ((inventory w s macs g file leases ranges).sharedNetworks k).name := by
      rw [Report.location, surveyed, owner]
      rfl
    exact location ▸ network k below (Or.inl ⟨limit, r, arranged.mem_iff.mp declared, owner⟩)
  · obtain ⟨i, below, rfl⟩ := List.mem_map.mp inside
    exact network (i + 1) (List.mem_range.mp below) (Or.inr (Or.inl ⟨limit, Nat.succ_ne_zero i⟩))
  · exact network 0 (Nat.zero_le _) (Or.inr (Or.inr ⟨limit, rfl⟩))

section
variable (ntop : Ntop) {p : Report} (plain : ∀ t ∈ p.strings, Plain t)
include plain

theorem json_text : JsonText.Text (outputJson ntop p) (jsonValue ntop p) :=
  (outputJson_iff ntop p).mpr fun t member => ((plain_iff t).mp (plain t member)).2

theorem xml_document : XmlText.Document (outputXml ntop p) (documentEvents (p.entries ntop)) :=
  (outputXml_iff ntop p).mpr fun t member => ((plain_iff t).mp (plain t member)).1

/-- Whoever reads the document finds these records. -/
theorem xml_records {es : List XmlText.Event} (read : XmlText.Document (outputXml ntop p) es) :
    xmlRecords es = (p.entries ntop).map Entry.record := by
  have document := xml_document ntop plain
  rw [outputXml_eq] at document read
  rw [document_unique (entries_named ntop p) ((document_iff (entries_named ntop p)).mp document) read,
    xmlRecords_documentEvents]

end

/-- Whatever the configuration and the lease file say, the JSON report is a JSON text and the XML
    report a document, when no name and no hardware address in them needs an escape. The records
    that any reader finds are those of the inventory: the active leases in the order of their
    addresses, the ranges that were recorded, each once, the networks and the summary. -/
theorem main_documents (reads : Reads w os s function macs g file) (few : g.numRanges < 2 ^ 31) (proper : Proper w s)
    (clear : Clear w s macs g file) :
    ∃ leases ranges, Sorted (fileVersion g.ipVersion file) leases ∧
      tableMap (fileVersion g.ipVersion file) leases = holdings w macs g file ∧ ranges.Perm (recorded g) ∧
      (function = .json → ∃ text, main w os = .ok (text, 0) ∧ (∃ v, JsonText.Text text v) ∧
        ∀ v, JsonText.Text text v →
          jsonRecords v = ((inventory w s macs g file leases ranges).entries w.ntop).map Entry.record) ∧
      (function = .xml → ∃ text, main w os = .ok (text, 0) ∧ (∃ es, XmlText.Document text es) ∧
        ∀ es, XmlText.Document text es →
          xmlRecords es = ((inventory w s macs g file leases ranges).entries w.ntop).map Entry.record) := by
  have entries := reads_entries reads proper
  obtain ⟨leases, ranges, sorted, table, arranged, same⟩ := @tables_report w s macs g file (reads_networks reads) entries
  have owned : ∀ r ∈ ranges, ∃ k ≤ g.numSharedNetworks, r.sharedNet = some k := by
    intro r inside
    obtain ⟨k, below, owner⟩ := recorded_owned entries r (arranged.mem_iff.mp inside)
    exact ⟨k, Nat.le_of_lt_succ (by simpa [networksOf] using below), owner⟩
  have plain := inventory_clear (s := s) clear (sorted_distinct sorted) table arranged owned
  have ran := main_tables reads few
  refine ⟨leases, ranges, sorted, table, arranged, ?_, ?_⟩
  · rintro rfl
    rw [outputAnalysis, same] at ran
    refine ⟨_, ran, ⟨_, json_text _ plain⟩, fun v read => ?_⟩
    rw [← jsonRecords_jsonValue, JsonText.text_unique read (json_text _ plain)]
  · rintro rfl
    rw [outputAnalysis, same] at ran
    exact ⟨_, ran, ⟨_, xml_document _ plain⟩, fun es read => xml_records _ plain read⟩

end

theorem main_documents_sample : ∃ g text leases ranges, main sampleWorld sampleArgs = .ok (text, 0) ∧
    ∃ v, JsonText.Text text v ∧ jsonRecords v =
      ((inventory sampleWorld sampleSettings true g sampleLeases leases ranges).entries sampleWorld.ntop).map Entry.record := by
  obtain ⟨g, reads, version, fills⟩ := sample_fills
  have few : g.numRanges < 2 ^ 31 := by
    rw [show g.numRanges = 2 from fills.numRanges]
    decide
  have clear : Clear sampleWorld sampleSettings true g sampleLeases := by
    have names : ((networksOf g).all fun n => n.name.all simpleChar) = true := by
      rw [networksOf_fills fills]
      decide +kernel
    have silent : ∀ l ∈ (parseLeases (leaseEnv sampleWorld true) .IPv4 sampleWorld.leaseLine sampleWorld.leaseAddr
        sampleLeases).leases, l.ethernet = none := by
      decide +kernel
    refine ⟨fun k inside _ => plain_of_simple (List.all_eq_true.mp (List.all_eq_true.mp names _ ?_)), ?_⟩
    · exact List.mem_map_of_mem (List.mem_range.mpr (Nat.lt_succ_of_le inside))
    · intro _ k mac entry
      rw [holdings, version, tableMap, Option.map_eq_some_iff] at entry
      obtain ⟨l, found, same⟩ := entry
      have none := silent l (get_mem found).1
      rw [(Prod.mk.inj same).2] at none
      cases none
  obtain ⟨leases, ranges, -, -, -, json, -⟩ := main_documents reads few (by decide +kernel) clear
  obtain ⟨text, ran, ⟨v, read⟩, records⟩ := json rfl
  exact ⟨g, text, leases, ranges, ran, v, read, records v read⟩

end DhcpdPools.Documents
