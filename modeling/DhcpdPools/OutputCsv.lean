import DhcpdPools.OutputRecords

/-!
Rows and columns of the CSV report. Every line that `output_csv` writes is a sequence of
quoted fields and every row has the columns of its header, but for the sum when a
failover pair was seen: its two numbers are in the format of the text report
(`columns_match_iff`). A line is the record that one group of calls of `fprintf` writes; a
network name with a newline in it does not end the line.
-/
namespace DhcpdPools.Output
open Printf

/-- The line has these fields, each in quotes, with commas between them. -/
structure CsvLine (line : List Char) (fields : List (List Char)) : Prop where
  text : line = [','].intercalate (fields.map fun f => '"' :: f ++ ['"'])
  quotes : ∀ f ∈ fields, '"' ∉ f

/-- A section: its title, its header, and its rows with the fields about backups that each should end in. -/
structure CsvSection where
  shownHeader : Bool
  shownNumbers : Bool
  title : List Char
  header : List Char
  rows : List (List Char × List (List Char))
  blank : Bool

def CsvSection.lines (s : CsvSection) : List (List Char) :=
  (if s.shownHeader then [s.title, s.header] else []) ++
    if s.shownNumbers then s.rows.map Prod.fst ++ (if s.blank then [[]] else []) else []

section
variable (ntop : Ntop) (p : Report)

def rangeBackups (r : Range) : List (List Char) :=
  [formatG r.backups, (divide (100 * r.backups) (p.rangeSize r)).text]

def networkBackups (n : SharedNetwork) : List (List Char) := [formatG n.backups, (ofAvailable n n.backups).text]

def rangeSection : CsvSection where
  shownHeader := rBit p.headerLimit
  shownNumbers := rBit p.numberLimit
  title := csvTitle "Ranges:"
  header := csvHeader p rangeColumns
  rows := p.ranges.map fun r => (csvRange ntop p r, rangeBackups p r)
  blank := true

def networkSection : CsvSection where
  shownHeader := sBit p.headerLimit
  shownNumbers := sBit p.numberLimit
  title := csvTitle "Shared networks:"
  header := csvHeader p networkColumns
  rows := p.networks.map fun n => (csvNetwork p n, networkBackups n)
  blank := true

def sumSection : CsvSection where
  shownHeader := aBit p.headerLimit
  shownNumbers := aBit p.numberLimit
  title := csvTitle "Sum of all ranges:"
  header := csvHeader p networkColumns
  rows := [(csvSum p (p.sharedNetworks 0), networkBackups (p.sharedNetworks 0))]
  blank := false

def csvSections : List CsvSection := [rangeSection ntop p, networkSection p, sumSection p]

/-- The names in the rows. -/
def Report.csvNames : List (List Char) :=
  p.ranges.map p.locationOrNone ++ p.networks.map SharedNetwork.name ++ [(p.sharedNetworks 0).name]

end

/-- The lines have fields, and a row has as many as the header and ends in those about backups when there are any. -/
def CsvSection.Matches (s : CsvSection) (backupsFound : Bool) : Prop :=
  (∀ line ∈ s.lines, ∃ fields, CsvLine line fields) ∧ ∃ columns, CsvLine s.header columns ∧
    (backupsFound = true → ["bu".toList, "bu perc".toList] <:+ columns) ∧
    ∀ row ∈ s.rows, ∃ fields, CsvLine row.1 fields ∧ fields.length = columns.length ∧
      (backupsFound = true → row.2 <:+ fields)

/-- Every section that has a header and numbers matches its header. -/
def ColumnsMatch (ntop : Ntop) (p : Report) : Prop :=
  ∀ s ∈ csvSections ntop p, s.shownHeader = true → s.shownNumbers = true → s.Matches p.backupsFound

theorem outputCsv_eq (ntop : Ntop) (p : Report) : outputCsv ntop p = lines ((csvSections ntop p).flatMap CsvSection.lines) := by
  have shown : ∀ (b : Bool) (ls : List (List Char)), lines (if b then ls else []) = if b then lines ls else [] := fun b ls => by
    cases b <;> rfl
  have joined : ∀ ls ms, lines (ls ++ ms) = lines ls ++ lines ms := fun ls ms => List.flatMap_append
  simp only [outputCsv, csvSections, CsvSection.lines, rangeSection, networkSection, sumSection, shown, joined, List.flatMap_cons,
    List.flatMap_nil, List.map_map, Function.comp_def, List.map_cons, List.map_nil, Bool.false_eq_true, if_true, if_false,
    List.append_nil, List.append_assoc]
  rfl

/-! ## Lines -/

theorem csvFields_eq (fs : List (List Char)) : csvFields fs = [','].intercalate (fs.map fun f => '"' :: f ++ ['"']) := by
  induction fs with
  | nil => rfl
  | cons f fs ih =>
    cases fs with
    | nil => simp [csvFields]
    | cons g fs => simp_all [csvFields, List.intercalate]

theorem csvFields_append {fs gs : List (List Char)} (first : fs ≠ []) (second : gs ≠ []) :
    csvFields (fs ++ gs) = csvFields fs ++ ',' :: csvFields gs := by
  induction fs with
  | nil => exact absurd rfl first
  | cons f fs ih =>
    cases fs with
    | nil =>
      obtain ⟨g, gs, rfl⟩ := List.exists_cons_of_ne_nil second
      simp [csvFields]
    | cons f' fs =>
      have later := ih (List.cons_ne_nil _ _)
      simp only [List.cons_append] at later
      simp [csvFields, later]

theorem csvLine_fields {fs : List (List Char)} (quotes : ∀ f ∈ fs, '"' ∉ f) : CsvLine (csvFields fs) fs :=
  ⟨csvFields_eq fs, quotes⟩

/-- A line with fields, and with two more when there are backups. -/
theorem csvLine_backups (backupsFound : Bool) {fs bu : List (List Char)} (first : fs ≠ []) (second : bu ≠ [])
    (quotes : ∀ f ∈ fs, '"' ∉ f) (quotes' : ∀ f ∈ bu, '"' ∉ f) :
    CsvLine (csvFields fs ++ if backupsFound then ',' :: csvFields bu else []) (fs ++ if backupsFound then bu else []) := by
  cases backupsFound with
  | false => simpa using csvLine_fields quotes
  | true =>
    rw [if_pos rfl, if_pos rfl, ← csvFields_append first second]
    exact csvLine_fields (List.forall_mem_append.mpr ⟨quotes, quotes'⟩)

/-- A line with fields ends in a quote. -/
theorem quote_mem_of_csvLine {front back : List Char} {fields : List (List Char)} (line : CsvLine (front ++ back) fields)
    (some_ : back ≠ []) : '"' ∈ back := by
  have text := line.text
  rw [← csvFields_eq] at text
  have ends : ∀ fs : List (List Char), fs ≠ [] → ∃ t, csvFields fs = t ++ ['"'] := by
    intro fs filled
    induction fs with
    | nil => exact absurd rfl filled
    | cons f fs ih =>
      cases fs with
      | nil => exact ⟨'"' :: f, rfl⟩
      | cons g fs =>
        obtain ⟨t, same⟩ := ih (List.cons_ne_nil _ _)
        exact ⟨'"' :: f ++ '"' :: ',' :: t, by simp [csvFields, same]⟩
  cases fields with
  | nil => exact absurd (List.append_eq_nil_iff.mp text).2 some_
  | cons f fs =>
    obtain ⟨t, same⟩ := ends (f :: fs) (List.cons_ne_nil _ _)
    have last := congrArg List.getLast? (text.trans same)
    rw [List.getLast?_append_of_ne_nil _ some_, List.getLast?_concat] at last
    exact List.mem_of_getLast? last

/-! ## No quotes in fields -/

theorem quote_notMem_number (q : ℚ) : '"' ∉ formatG q := notMem_of_safe (safe_number q) rfl

theorem quote_notMem_formatF3 (q : ℚ) : '"' ∉ formatF3 q := by
  have digits : ∀ n, '"' ∉ Nat.toDigits 10 n := fun n member => absurd (digits_toDigits n _ member) (by decide)
  simp only [formatF3, List.leftpad, List.mem_append, List.mem_cons, List.mem_replicate, not_or]
  refine ⟨⟨?_, digits _⟩, by decide, fun zero => absurd zero.2 (by decide), digits _⟩
  split_ifs <;> simp

theorem quote_notMem_quotient (q : Quotient) : '"' ∉ q.text := by
  cases q with
  | nan => decide
  | inf negative => cases negative <;> decide
  | value q => exact quote_notMem_formatF3 q

theorem quote_notMem_ntopIpaddr (ntop : Ntop) (p : Report) (ip : Ipaddr) : '"' ∉ p.ntopIpaddr ntop ip :=
  notMem_of_safe (safe_of_simple (simple_ntopIpaddr ntop p ip)) rfl

theorem quote_notMem_networkFields {n : SharedNetwork} (name : '"' ∉ n.name) : ∀ f ∈ networkFields n, '"' ∉ f := by
  simp only [networkFields, List.forall_mem_cons]
  exact ⟨name, quote_notMem_number _, quote_notMem_number _, quote_notMem_quotient _, quote_notMem_number _,
    quote_notMem_number _, quote_notMem_quotient _, fun _ member => by cases member⟩

theorem quote_notMem_networkBackups (n : SharedNetwork) : ∀ f ∈ networkBackups n, '"' ∉ f := by
  simp only [networkBackups, List.forall_mem_cons]
  exact ⟨quote_notMem_number _, quote_notMem_quotient _, fun _ member => by cases member⟩

theorem quote_notMem_rangeFields (ntop : Ntop) {p : Report} {r : Range} (name : '"' ∉ p.locationOrNone r) :
    ∀ f ∈ rangeFields ntop p r, '"' ∉ f := by
  simp only [rangeFields, List.forall_mem_cons]
  exact ⟨name, quote_notMem_ntopIpaddr _ _ _, quote_notMem_ntopIpaddr _ _ _, quote_notMem_number _, quote_notMem_number _,
    quote_notMem_quotient _, quote_notMem_number _, quote_notMem_number _, quote_notMem_quotient _,
    fun _ member => by cases member⟩

theorem quote_notMem_rangeBackups (p : Report) (r : Range) : ∀ f ∈ rangeBackups p r, '"' ∉ f := by
  simp only [rangeBackups, List.forall_mem_cons]
  exact ⟨quote_notMem_number _, quote_notMem_quotient _, fun _ member => by cases member⟩

/-- Titles and columns. -/
def captions : List String :=
  ["Ranges:", "Shared networks:", "Sum of all ranges:", "bu", "bu perc"] ++ rangeColumns ++ networkColumns

theorem quote_notMem_caption {name : String} (known : name ∈ captions) : '"' ∉ name.toList := by
  have all : (captions.all fun name => !name.toList.contains '"') = true := by decide +kernel
  have absent := List.all_eq_true.mp all name known
  simpa using absent

/-! ## Sections -/

theorem csvLine_header (p : Report) {columns : List String} (known : ∀ name ∈ columns, name ∈ captions) (some_ : columns ≠ []) :
    CsvLine (csvHeader p columns)
      (columns.map String.toList ++ if p.backupsFound then ["bu".toList, "bu perc".toList] else []) := by
  refine csvLine_backups p.backupsFound (mt List.map_eq_nil_iff.mp some_) (List.cons_ne_nil _ _) ?_ ?_
  · exact List.forall_mem_map.mpr fun name member => quote_notMem_caption (known name member)
  · simp only [List.forall_mem_cons]
    exact ⟨quote_notMem_caption (by simp [captions]), quote_notMem_caption (by simp [captions]), fun _ member => by cases member⟩

/-- A section matches when its header and its rows have their fields, with those about backups behind them. -/
theorem section_matches {s : CsvSection} {b : Bool} {title : List Char} {columns : List (List Char)}
    (caption : CsvLine s.title [title]) (header : CsvLine s.header (columns ++ if b then ["bu".toList, "bu perc".toList] else []))
    (rows : ∀ row ∈ s.rows, ∃ fields, CsvLine row.1 (fields ++ if b then row.2 else []) ∧ fields.length = columns.length ∧
      row.2.length = 2) : s.Matches b := by
  refine ⟨?_, _, header, fun found => ?_, fun row member => ?_⟩
  · unfold CsvSection.lines
    intro line member
    simp only [List.mem_append, List.mem_ite_nil_right, List.mem_cons, List.not_mem_nil, or_false, List.mem_map] at member
    rcases member with ⟨-, rfl | rfl⟩ | ⟨-, ⟨row, inside, rfl⟩ | ⟨-, rfl⟩⟩
    · exact ⟨_, caption⟩
    · exact ⟨_, header⟩
    · obtain ⟨fields, line, -⟩ := rows row inside
      exact ⟨_, line⟩
    · exact ⟨[], rfl, fun _ member => by cases member⟩
  · rw [if_pos found]
    exact List.suffix_append _ _
  · obtain ⟨fields, line, length, two⟩ := rows row member
    refine ⟨_, line, ?_, fun found => ?_⟩
    · cases b with
      | false => simpa using length
      | true => simp [length, two]
    · rw [if_pos found]
      exact List.suffix_append _ _

theorem csvLine_title {name : String} (known : name ∈ captions) : CsvLine (csvTitle name) [name.toList] :=
  csvLine_fields (List.forall_mem_singleton.mpr (quote_notMem_caption known))

theorem rangeSection_matches (ntop : Ntop) {p : Report} (quotes : ∀ r ∈ p.ranges, '"' ∉ p.locationOrNone r) :
    (rangeSection ntop p).Matches p.backupsFound := by
  have known : ∀ name ∈ rangeColumns, name ∈ captions := fun name member =>
    List.mem_append_left _ (List.mem_append_right _ member)
  refine section_matches (csvLine_title (by simp [captions])) (csvLine_header p known (List.cons_ne_nil _ _)) ?_
  refine List.forall_mem_map.mpr fun r member => ⟨rangeFields ntop p r, ?_, rfl, rfl⟩
  exact csvLine_backups p.backupsFound (List.cons_ne_nil _ _) (List.cons_ne_nil _ _)
    (quote_notMem_rangeFields ntop (quotes r member)) (quote_notMem_rangeBackups p r)

theorem networkColumns_captions : ∀ name ∈ networkColumns, name ∈ captions := fun _ member => List.mem_append_right _ member

theorem networkSection_matches {p : Report} (quotes : ∀ n ∈ p.networks, '"' ∉ n.name) :
    (networkSection p).Matches p.backupsFound := by
  refine section_matches (csvLine_title (by simp [captions]))
    (csvLine_header p networkColumns_captions (List.cons_ne_nil _ _)) ?_
  refine List.forall_mem_map.mpr fun n member => ⟨networkFields n, ?_, rfl, rfl⟩
  exact csvLine_backups p.backupsFound (List.cons_ne_nil _ _) (List.cons_ne_nil _ _)
    (quote_notMem_networkFields (quotes n member)) (quote_notMem_networkBackups n)

/-- The sum matches its header exactly when no backup was seen. -/
theorem sumSection_matches_iff {p : Report} (quotes : '"' ∉ (p.sharedNetworks 0).name) :
    (sumSection p).Matches p.backupsFound ↔ p.backupsFound = false := by
  constructor
  · rintro ⟨-, columns, -, -, rows⟩
    obtain ⟨fields, line, -⟩ := rows _ List.mem_cons_self
    by_contra found
    rw [Bool.not_eq_false] at found
    have text : csvSum p (p.sharedNetworks 0) = csvFields (networkFields (p.sharedNetworks 0)) ++
        ((formatG (p.sharedNetworks 0).backups).leftpad 7 ' ' ++
          ' ' :: (ofAvailable (p.sharedNetworks 0) (p.sharedNetworks 0).backups).text.leftpad 8 ' ') := by
      rw [csvSum, if_pos found]
    have member := quote_mem_of_csvLine (text ▸ line) (by simp)
    simp only [List.leftpad, List.mem_append, List.mem_cons, List.mem_replicate] at member
    rcases member with (space | number) | space | space | quotient
    · exact absurd space.2 (by decide)
    · exact quote_notMem_number _ number
    · exact absurd space (by decide)
    · exact absurd space.2 (by decide)
    · exact quote_notMem_quotient _ quotient
  · intro none
    refine section_matches (csvLine_title (by simp [captions]))
      (csvLine_header p networkColumns_captions (List.cons_ne_nil _ _)) ?_
    refine List.forall_mem_singleton.mpr ⟨networkFields (p.sharedNetworks 0), ?_, rfl, rfl⟩
    rw [none, csvSum, none]
    simpa using csvLine_fields (quote_notMem_networkFields quotes)

/-- Rows have the columns of their headers exactly when no sum stands below its header after a backup was seen. -/
theorem columns_match_iff (ntop : Ntop) (p : Report) (quotes : ∀ s ∈ p.csvNames, '"' ∉ s) :
    outputCsv ntop p = lines ((csvSections ntop p).flatMap CsvSection.lines) ∧
      (ColumnsMatch ntop p ↔
        ¬(aBit p.headerLimit = true ∧ aBit p.numberLimit = true ∧ p.backupsFound = true)) := by
  simp only [Report.csvNames, List.forall_mem_append, List.forall_mem_map, List.forall_mem_singleton] at quotes
  obtain ⟨⟨ranges, networks⟩, total⟩ := quotes
  refine ⟨outputCsv_eq ntop p, ?_⟩
  simp only [ColumnsMatch, csvSections, List.forall_mem_cons]
  constructor
  · rintro ⟨-, -, sum, -⟩ ⟨header, numbers, found⟩
    have none := (sumSection_matches_iff total).mp (sum header numbers)
    exact Bool.false_ne_true (none.symm.trans found)
  · intro apart
    refine ⟨fun _ _ => rangeSection_matches ntop ranges, fun _ _ => networkSection_matches networks, fun header numbers => ?_,
      fun _ member => by cases member⟩
    rw [sumSection_matches_iff total, ← Bool.not_eq_true]
    exact fun found => apart ⟨header, numbers, found⟩

theorem columns_match_iff_sample : (∀ s ∈ sampleReport.csvNames, '"' ∉ s) ∧
    outputCsv dottedQuads sampleReport = lines ((csvSections dottedQuads sampleReport).flatMap CsvSection.lines) ∧
      (ColumnsMatch dottedQuads sampleReport ↔ ¬(aBit sampleReport.headerLimit = true ∧ aBit sampleReport.numberLimit = true ∧
        sampleReport.backupsFound = true)) :=
  have quotes : ∀ s ∈ sampleReport.csvNames, '"' ∉ s := by decide +kernel
  ⟨quotes, columns_match_iff dottedQuads sampleReport quotes⟩

/-- With a backup the header of the sum has nine columns, but its row ends without quotes behind seven. -/
theorem sum_without_columns :
    csvSum sampleReport (sampleReport.sharedNetworks 0) =
        "\"All networks\",\"11\",\"1\",\"9.091\",\"1\",\"2\",\"18.182\"      1    9.091".toList ∧
      ¬ColumnsMatch dottedQuads sampleReport := by
  refine ⟨by decide +kernel, fun columns => ?_⟩
  have total : '"' ∉ (sampleReport.sharedNetworks 0).name := by decide +kernel
  have sum := columns (sumSection sampleReport) (List.mem_cons_of_mem _ (List.mem_cons_of_mem _ List.mem_cons_self)) rfl rfl
  exact absurd ((sumSection_matches_iff total).mp sum) (by decide)

end DhcpdPools.Output
