import DhcpdPools.OutputJson

/-!
Numbers in the reports for programs. Every counter is written with `%g`, so it is read
back as the number rounded to six significant digits; the reports keep the numbers of
the tables exactly when none of those that they print has more (`numbers_kept_iff`).
-/
namespace DhcpdPools.Output
open Printf

/-- The number in a field of a record of the XML and JSON reports. -/
def fieldNumber (e : Entry) (name : String) : Option ℚ := (e.fields.lookup name).bind fun c => readDecimal c.written

/-- The number in a column of a row of the CSV report. -/
def columnNumber (columns : List String) (fields : List (List Char)) (name : String) : Option ℚ :=
  ((columns.zip fields).lookup name).bind readDecimal

def expectedFields (defined used touched : ℚ) : List (String × ℚ) :=
  [("defined", defined), ("used", used), ("touched", touched), ("free", defined - used)]

def expectedColumns (max cur touch : ℚ) : List (String × ℚ) :=
  [("max", max), ("cur", cur), ("touch", touch), ("t+c", touch + cur)]

/-- What is read is what is expected. -/
def Kept (read : String → Option ℚ) (expected : List (String × ℚ)) : Prop := ∀ x ∈ expected, read x.1 = some x.2

/-- What is free is what is defined and not used. -/
def Balanced (read : String → Option ℚ) : Prop :=
  ∀ defined used free, read "defined" = some defined → read "used" = some used → read "free" = some free → free = defined - used

/-- A record has the numbers of the tables. -/
def FieldsKept (e : Entry) (defined used touched : ℚ) : Prop :=
  Kept (fieldNumber e) (expectedFields defined used touched) ∧ Balanced (fieldNumber e)

/-- A row has the numbers of the tables. -/
def ColumnsKept (columns : List String) (fields : List (List Char)) (max cur touch : ℚ) : Prop :=
  Kept (columnNumber columns fields) (expectedColumns max cur touch)

/-- Every record and every row that is written has the numbers of the tables. -/
def NumbersKept (ntop : Ntop) (p : Report) : Prop :=
  (rBit p.numberLimit = true → ∀ r ∈ p.ranges,
    FieldsKept (rangeEntry ntop p r) (p.rangeSize r) r.count r.touched ∧
      ColumnsKept rangeColumns (rangeFields ntop p r) (p.rangeSize r) r.count r.touched) ∧
  (sBit p.numberLimit = true → ∀ n ∈ p.networks,
    FieldsKept (networkEntry "shared-network" n) n.available n.used n.touched ∧
      ColumnsKept networkColumns (networkFields n) n.available n.used n.touched) ∧
  (aBit p.headerLimit = true → FieldsKept (networkEntry "summary" (p.sharedNetworks 0)) (p.sharedNetworks 0).available
    (p.sharedNetworks 0).used (p.sharedNetworks 0).touched) ∧
  (aBit p.numberLimit = true → ColumnsKept networkColumns (networkFields (p.sharedNetworks 0))
    (p.sharedNetworks 0).available (p.sharedNetworks 0).used (p.sharedNetworks 0).touched)

/-- The numbers have at most six significant digits. -/
def Short (expected : List (String × ℚ)) : Prop := ∀ x ∈ expected, FewDigits x.2

/-- The numbers that are written have at most six significant digits. -/
def NumbersShort (p : Report) : Prop :=
  (rBit p.numberLimit = true → ∀ r ∈ p.ranges, Short (expectedFields (p.rangeSize r) r.count r.touched) ∧
    Short (expectedColumns (p.rangeSize r) r.count r.touched)) ∧
  (sBit p.numberLimit = true → ∀ n ∈ p.networks, Short (expectedFields n.available n.used n.touched) ∧
    Short (expectedColumns n.available n.used n.touched)) ∧
  (aBit p.headerLimit = true → Short (expectedFields (p.sharedNetworks 0).available (p.sharedNetworks 0).used
    (p.sharedNetworks 0).touched)) ∧
  (aBit p.numberLimit = true → Short (expectedColumns (p.sharedNetworks 0).available (p.sharedNetworks 0).used
    (p.sharedNetworks 0).touched))

/-- Written numbers are read back exactly when they are short. -/
theorem kept_iff {read : String → Option ℚ} {expected : List (String × ℚ)}
    (written : ∀ x ∈ expected, read x.1 = readDecimal (formatG x.2)) : Kept read expected ↔ Short expected := by
  refine forall₂_congr fun x member => ?_
  rw [written x member, readDecimal_formatG, Option.some.injEq, rounded_eq_iff]

theorem fieldsKept_iff {e : Entry} {defined used touched : ℚ}
    (written : ∀ x ∈ expectedFields defined used touched, fieldNumber e x.1 = readDecimal (formatG x.2)) :
    FieldsKept e defined used touched ↔ Short (expectedFields defined used touched) := by
  rw [FieldsKept, kept_iff written, and_iff_left_iff_imp, ← kept_iff written]
  intro kept d u f hasDefined hasUsed hasFree
  simp only [Kept, expectedFields, List.forall_mem_cons] at kept
  obtain ⟨knownDefined, knownUsed, -, knownFree, -⟩ := kept
  obtain rfl := Option.some.inj (knownDefined.symm.trans hasDefined)
  obtain rfl := Option.some.inj (knownUsed.symm.trans hasUsed)
  exact (Option.some.inj (knownFree.symm.trans hasFree)).symm

theorem range_written (ntop : Ntop) (p : Report) (r : Range) :
    (∀ x ∈ expectedFields (p.rangeSize r) r.count r.touched,
      fieldNumber (rangeEntry ntop p r) x.1 = readDecimal (formatG x.2)) ∧
    ∀ x ∈ expectedColumns (p.rangeSize r) r.count r.touched,
      columnNumber rangeColumns (rangeFields ntop p r) x.1 = readDecimal (formatG x.2) := by
  constructor
  · simp [expectedFields, fieldNumber, rangeEntry, List.lookup, Cell.written]
  · simp only [expectedColumns, columnNumber, rangeColumns, rangeFields, List.zip_cons_cons, List.forall_mem_cons]
    simp [List.lookup]

theorem network_written (tag : String) (n : SharedNetwork) :
    (∀ x ∈ expectedFields n.available n.used n.touched, fieldNumber (networkEntry tag n) x.1 = readDecimal (formatG x.2)) ∧
    ∀ x ∈ expectedColumns n.available n.used n.touched,
      columnNumber networkColumns (networkFields n) x.1 = readDecimal (formatG x.2) := by
  constructor
  · simp [expectedFields, fieldNumber, networkEntry, List.lookup, Cell.written]
  · simp only [expectedColumns, columnNumber, networkColumns, networkFields, List.zip_cons_cons, List.forall_mem_cons]
    simp [List.lookup]

/-- The reports write these records and rows, and keep the numbers of the tables exactly when those that they print
    have at most six significant digits. -/
theorem numbers_kept_iff (ntop : Ntop) (p : Report) :
    outputXml ntop p = XmlText.plain (documentEvents (p.entries ntop)) ∧
      JsonText.Spells (outputJson ntop p) (jsonValue ntop p).tokens ∧ (NumbersKept ntop p ↔ NumbersShort p) := by
  refine ⟨outputXml_eq ntop p, outputJson_spells ntop p, and_congr ?_ (and_congr ?_ (and_congr ?_ ?_))⟩
  · refine imp_congr_right fun _ => forall₂_congr fun r _ => ?_
    obtain ⟨fields, columns⟩ := range_written ntop p r
    exact and_congr (fieldsKept_iff fields) (kept_iff columns)
  · refine imp_congr_right fun _ => forall₂_congr fun n _ => ?_
    obtain ⟨fields, columns⟩ := network_written "shared-network" n
    exact and_congr (fieldsKept_iff fields) (kept_iff columns)
  · exact imp_congr_right fun _ => fieldsKept_iff (network_written "summary" _).1
  · exact imp_congr_right fun _ => kept_iff (network_written "summary" _).2

def millionRange : Range := ⟨none, .ofV4 0x0A000000, .ofV4 0x0A0FFFFF, 1, 0, 0⟩

/-- A report about the addresses from 10.0.0.0 to 10.15.255.255, of which one is in use. -/
def millionReport : Report where
  ipVersion := .IPv4
  headerLimit := 0
  numberLimit := 1
  backupsFound := false
  printMacAddreses := false
  leases := []
  ranges := [millionRange]
  sharedNetworks _ := ⟨"All networks".toList, 0, 0, 0, 0, 0⟩
  numSharedNetworks := 0

/-- Of 1048576 addresses the reports make 1048580, and as many free ones. -/
theorem million_not_kept :
    millionReport.rangeSize millionRange = 1048576 ∧
      formatG (millionReport.rangeSize millionRange) = "1.04858e+06".toList ∧
      fieldNumber (rangeEntry dottedQuads millionReport millionRange) "defined" = some 1048580 ∧
      fieldNumber (rangeEntry dottedQuads millionReport millionRange) "used" = some 1 ∧
      fieldNumber (rangeEntry dottedQuads millionReport millionRange) "free" = some 1048580 ∧
      columnNumber rangeColumns (rangeFields dottedQuads millionReport millionRange) "max" = some 1048580 ∧
      ¬NumbersKept dottedQuads millionReport := by
  have size : millionReport.rangeSize millionRange = 1048576 := by decide +kernel
  have defined : fieldNumber (rangeEntry dottedQuads millionReport millionRange) "defined" = some 1048580 := by decide +kernel
  refine ⟨size, by decide +kernel, defined, by decide +kernel, by decide +kernel, by decide +kernel, fun kept => ?_⟩
  have read := (kept.1 rfl millionRange List.mem_cons_self).1.1 _ List.mem_cons_self
  rw [defined, size] at read
  exact absurd (Option.some.inj read) (by norm_num)

end DhcpdPools.Output
