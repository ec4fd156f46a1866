import DhcpdPools.Capacity
import DhcpdPools.Output

/-!
The reports for people, `output_txt` and `output_html`, beside `output_csv`. Each of the
three computes the cells of its rows anew, so the rows stand apart from the texts around
them, and a division in a row is kept as a division. The reports show one table exactly when no
size by which one of them divides without looking at it is 0 (`same_table_iff`).
-/
namespace DhcpdPools.OutputTables
open Output Printf Capacity
open Counting (doCounting total blockSize)

/-! ## Rows -/

/-- What a cell computes: the macro `NAN`, a number, or a division. -/
inductive Figure where
  | nan
  | number (q : ℚ)
  | quotient (a b : ℚ)
deriving DecidableEq

def Figure.value : Figure → Quotient
  | .nan => .nan
  | .number q => .value q
  | .quotient a b => divide a b

/-- The cells of a row behind its names; `bu` and `bu perc` are there when backups were found. -/
structure Row where
  max : Figure
  cur : Figure
  percent : Figure
  touch : Figure
  touchCur : Figure
  touchCurPerc : Figure
  backups : Option (Figure × Figure)

namespace Row
variable (row : Row)

def figures : List Figure :=
  [row.max, row.cur, row.percent, row.touch, row.touchCur, row.touchCurPerc] ++
    row.backups.elim [] fun bu => [bu.1, bu.2]

/-- The cells that are no percentages. -/
def counts : List Figure :=
  [row.max, row.cur, row.touch, row.touchCur] ++ row.backups.elim [] fun bu => [bu.1]

def percentages : List Figure :=
  [row.percent, row.touchCurPerc] ++ row.backups.elim [] fun bu => [bu.2]

def values : List Quotient := row.figures.map Figure.value

end Row

/-- `(float)(100 * x) / available`. -/
def perc (available x : ℚ) : Figure := .quotient (100 * x) available

/-- `available == 0 ? NAN : (float)(100 * x) / available`. -/
def percOrNan (available x : ℚ) : Figure := if available = 0 then .nan else perc available x

/-- The cells of an entry, with the percentages as the printer computes them. -/
def rowOf (percent : ℚ → Figure) (available used touched : ℚ) (backups : Option (Figure × Figure)) : Row where
  max := .number available
  cur := .number used
  percent := percent used
  touch := .number touched
  touchCur := .number (touched + used)
  touchCurPerc := percent (touched + used)
  backups := backups

section
variable (p : Report)

/-- `if (config.backups_found == 1)`. -/
def found (bu buPerc : Figure) : Option (Figure × Figure) := if p.backupsFound then some (bu, buPerc) else none

/-- The backups that a table is to show. -/
def foundBackups (backups : ℚ) : Option ℚ := if p.backupsFound then some backups else none

/-! The ranges: no printer looks at the size before it divides. -/

def txtRangeRow (r : Range) : Row :=
  rowOf (perc (p.rangeSize r)) (p.rangeSize r) r.count r.touched
    (found p (.number r.backups) (perc (p.rangeSize r) r.backups))

def htmlRangeRow (r : Range) : Row :=
  rowOf (perc (p.rangeSize r)) (p.rangeSize r) r.count r.touched
    (found p (.number r.backups) (perc (p.rangeSize r) r.backups))

def csvRangeRow (r : Range) : Row :=
  rowOf (perc (p.rangeSize r)) (p.rangeSize r) r.count r.touched
    (found p (.number r.backups) (perc (p.rangeSize r) r.backups))

/-! The shared networks: `output_txt` divides the backups without a look at `available`. -/

def txtNetworkRow (n : SharedNetwork) : Row :=
  rowOf (percOrNan n.available) n.available n.used n.touched
    (found p (.number n.backups) (perc n.available n.backups))

def htmlNetworkRow (n : SharedNetwork) : Row :=
  rowOf (percOrNan n.available) n.available n.used n.touched
    (found p (.number n.backups) (percOrNan n.available n.backups))

def csvNetworkRow (n : SharedNetwork) : Row :=
  rowOf (percOrNan n.available) n.available n.used n.touched
    (found p (.number n.backups) (percOrNan n.available n.backups))

/-! The summary: in `output_txt` the test of `available` stands before the backups and not before the division. -/

def txtSumRow (n : SharedNetwork) : Row :=
  rowOf (percOrNan n.available) n.available n.used n.touched
    (found p (if n.available = 0 then .nan else .number n.backups) (perc n.available n.backups))

def htmlSumRow (n : SharedNetwork) : Row :=
  rowOf (percOrNan n.available) n.available n.used n.touched
    (found p (.number n.backups) (percOrNan n.available n.backups))

def csvSumRow (n : SharedNetwork) : Row :=
  rowOf (percOrNan n.available) n.available n.used n.touched
    (found p (.number n.backups) (percOrNan n.available n.backups))

end

/-! ## `output_txt` -/

/-- `%g`. -/
def general : Quotient → List Char
  | .nan => "nan".toList
  | .inf negative => if negative then "-inf".toList else "inf".toList
  | .value q => formatG q

/-- `%g` with a width. -/
def wideG (width : Nat) (f : Figure) : List Char := (general f.value).leftpad width ' '

/-- `%.3f` with a width. -/
def wideF3 (width : Nat) (f : Figure) : List Char := f.value.text.leftpad width ' '

def txtBackups (row : Row) : List Char := row.backups.elim [] fun bu => wideG 7 bu.1 ++ ' ' :: wideF3 8 bu.2

section
variable (ntop : Ntop) (p : Report)

def maxIpaddrLength : Nat := if p.ipVersion = .IPv6 then 39 else 16

def txtBackupsHeader : List Char := if p.backupsFound then "     bu  bu perc".toList else []

def txtRangeHeader : List Char :=
  "Ranges:\n".toList ++ "shared net name".toList.rightpad 20 ' ' ++
    "first ip".toList.rightpad (maxIpaddrLength p) ' ' ++ "   ".toList ++
    "last ip".toList.rightpad (maxIpaddrLength p) ' ' ++ ' ' :: "max".toList.leftpad 5 ' ' ++
    ' ' :: "cur".toList.leftpad 5 ' ' ++ ' ' :: "percent".toList.leftpad 10 ' ' ++
    "  ".toList ++ "touch".toList.leftpad 5 ' ' ++ ' ' :: "t+c".toList.leftpad 5 ' ' ++
    ' ' :: "t+c perc".toList.leftpad 9 ' ' ++ txtBackupsHeader p ++ ['\n']

def txtRange (r : Range) : List Char :=
  let row := txtRangeRow p r
  (r.sharedNet.elim "not_defined         ".toList fun i => (p.sharedNetworks i).name.rightpad 20 ' ') ++
    (p.ntopIpaddr ntop r.firstIp).rightpad (maxIpaddrLength p) ' ' ++ " - ".toList ++
    (p.ntopIpaddr ntop r.lastIp).rightpad (maxIpaddrLength p) ' ' ++ ' ' :: wideG 5 row.max ++
    ' ' :: wideG 5 row.cur ++ ' ' :: wideF3 10 row.percent ++ "  ".toList ++ wideG 5 row.touch ++
    ' ' :: wideG 5 row.touchCur ++ ' ' :: wideF3 9 row.touchCurPerc ++ txtBackups row ++ ['\n']

/-- The title of a table of networks and the names of its columns. -/
def txtNetworkHeader (title : String) : List Char :=
  title.toList ++ ['\n'] ++ "name                   max   cur     percent  touch    t+c  t+c perc".toList ++
    txtBackupsHeader p ++ ['\n']

/-- A line of a shared network, or of the summary. -/
def txtNetwork (name : List Char) (row : Row) : List Char :=
  name.rightpad 20 ' ' ++ ' ' :: wideG 5 row.max ++ ' ' :: wideG 5 row.cur ++ ' ' :: wideF3 10 row.percent ++
    ' ' :: wideG 7 row.touch ++ ' ' :: wideG 6 row.touchCur ++ ' ' :: wideF3 9 row.touchCurPerc ++
    txtBackups row ++ ['\n']

/-- `output_txt`. -/
def outputTxt : List Char :=
  (if rBit p.headerLimit then txtRangeHeader p else []) ++
  (if rBit p.numberLimit then p.ranges.flatMap (txtRange ntop p) else []) ++
  (if rBit p.numberLimit && sBit p.headerLimit then ['\n'] else []) ++
  (if sBit p.headerLimit then txtNetworkHeader p "Shared networks:" else []) ++
  (if sBit p.numberLimit then p.networks.flatMap fun n => txtNetwork n.name (txtNetworkRow p n) else []) ++
  (if sBit p.numberLimit && aBit p.headerLimit then ['\n'] else []) ++
  (if aBit p.headerLimit then txtNetworkHeader p "Sum of all ranges:" else []) ++
  (if aBit p.numberLimit then txtNetwork (p.sharedNetworks 0).name (txtSumRow p (p.sharedNetworks 0)) else [])

end

/-! ## `output_html` -/

/-- `start_tag`, with the end of the line. -/
def htmlStart (tag : String) : List Char := startTag tag ++ ['\n']

/-- `end_tag`, with the end of the line. -/
def htmlEnd (tag : String) : List Char := endTag tag ++ ['\n']

def outputLine (type : String) (text : List Char) : List Char := startTag type ++ text ++ endTag type ++ ['\n']

def outputDouble (type : String) (f : Figure) : List Char := outputLine type (general f.value)

def outputFloat (type : String) (f : Figure) : List Char := outputLine type f.value.text

def tableStart (id summary : String) : List Char :=
  "<table id=\"".toList ++ id.toList ++
    "\" class=\"dhcpd-pools order-column table table-striped table-hover\" summary=\"".toList ++ summary.toList ++
    "\">\n".toList

def tableEnd : List Char := "</table>\n".toList

def newsection (title : String) : List Char := outputLine "h3" title.toList

/-- What the first and the last lines of the page mention. -/
structure Page where
  dhcpdleaseFile : List Char
  lastModified : List Char
  packageString : List Char
  packageUrl : List Char

def htmlHeader (page : Page) : List Char :=
  lines ["<!DOCTYPE html>".toList, "<html>".toList, "<head>".toList,
    "<title>ISC dhcpd dhcpd-pools output</title>".toList, "<meta charset=\"utf-8\">".toList,
    "<meta http-equiv=\"X-UA-Compatible\" content=\"IE=edge\">".toList,
    "<meta name=\"viewport\" content=\"width=device-width, initial-scale=1\">".toList,
    "<link rel=\"stylesheet\" href=\"https://maxcdn.bootstrapcdn.com/bootstrap/3.3.4/css/bootstrap.min.css\" type=\"text/css\">".toList,
    -- There is no end of the line behind the second style sheet.
    "<link rel=\"stylesheet\" href=\"https://cdn.datatables.net/1.10.10/css/jquery.dataTables.min.css\" type=\"text/css\">".toList ++
      "<style type=\"text/css\">".toList,
    "table.dhcpd-pools th \x7b text-transform: capitalize \x7d".toList, "</style>".toList, "</head>".toList,
    "<body>".toList, "<div class=\"container\">".toList, "<h2>ISC DHCPD status</h2>".toList,
    "<small>File ".toList ++ page.dhcpdleaseFile ++ " was last modified at ".toList ++ page.lastModified ++
      "</small><hr />".toList]

def htmlFooter (page : Page) : List Char :=
  lines ["<br /><div class=\"well well-lg\">".toList,
    "<small>Generated using ".toList ++ page.packageString ++ "<br />".toList,
    "More info at <a href=\"".toList ++ page.packageUrl ++ "\">".toList ++ page.packageUrl ++ "</a>".toList,
    "</small></div></div>".toList,
    "<script src=\"https://code.jquery.com/jquery-2.1.4.min.js\" type=\"text/javascript\"></script>".toList,
    "<script src=\"https://maxcdn.bootstrapcdn.com/bootstrap/3.3.4/js/bootstrap.min.js\" type=\"text/javascript\"></script>".toList,
    "<script src=\"https://cdn.datatables.net/1.10.10/js/jquery.dataTables.min.js\" type=\"text/javascript\"></script>".toList,
    "<script type=\"text/javascript\" class=\"init\">$(document).ready(function() \x7b $(\x27#s\x27).DataTable(); \x7d );</script>".toList,
    "<script type=\"text/javascript\" class=\"init\">$(document).ready(function() \x7b $(\x27#r\x27).DataTable(); \x7d );</script>".toList,
    "</body></html>".toList]

section
variable (ntop : Ntop) (p : Report)

def htmlHead (columns : List String) : List Char :=
  htmlStart "thead" ++ htmlStart "tr" ++ (columns.flatMap fun name => outputLine "th" name.toList) ++
    (if p.backupsFound then outputLine "th" "bu".toList ++ outputLine "th" "bu perc".toList else []) ++
    htmlEnd "tr" ++ htmlEnd "thead"

/-- A row of a table: its names, and its cells. -/
def htmlRow (names : List (List Char)) (row : Row) : List Char :=
  htmlStart "tr" ++ names.flatMap (outputLine "td") ++ outputDouble "td" row.max ++ outputDouble "td" row.cur ++
    outputFloat "td" row.percent ++ outputDouble "td" row.touch ++ outputDouble "td" row.touchCur ++
    outputFloat "td" row.touchCurPerc ++
    (row.backups.elim [] fun bu => outputDouble "td" bu.1 ++ outputFloat "td" bu.2) ++ htmlEnd "tr"

def htmlRange (r : Range) : List Char :=
  htmlRow [p.locationOrNone r, p.ntopIpaddr ntop r.firstIp, p.ntopIpaddr ntop r.lastIp] (htmlRangeRow p r)

def htmlBody (rows : List Char) : List Char := htmlStart "tbody" ++ rows ++ htmlEnd "tbody"

/-- `output_html`, with the decimal point of the C locale. -/
def outputHtml (page : Page) : List Char :=
  htmlHeader page ++ newsection "Sum of all" ++ tableStart "a" "all" ++
  (if aBit p.headerLimit then htmlHead p networkColumns else []) ++
  (if aBit p.numberLimit then
    htmlBody (htmlRow [(p.sharedNetworks 0).name] (htmlSumRow p (p.sharedNetworks 0))) else []) ++
  tableEnd ++ newsection "Shared networks" ++ tableStart "s" "snet" ++
  (if sBit p.headerLimit then htmlHead p networkColumns else []) ++
  (if sBit p.numberLimit then htmlBody (p.networks.flatMap fun n => htmlRow [n.name] (htmlNetworkRow p n)) else []) ++
  tableEnd ++ newsection "Ranges" ++ tableStart "r" "ranges" ++
  (if rBit p.headerLimit then htmlHead p rangeColumns else []) ++
  (if rBit p.numberLimit then htmlBody (p.ranges.flatMap (htmlRange ntop p)) else []) ++
  tableEnd ++ htmlFooter page

end

/-! ## The texts of the cells -/

/-- The cells that every row has, as they are written without a width. -/
def cellTexts (row : Row) : List (List Char) :=
  [general row.max.value, general row.cur.value, row.percent.value.text, general row.touch.value,
    general row.touchCur.value, row.touchCurPerc.value.text]

def backupTexts (row : Row) : List (List Char) :=
  row.backups.elim [] fun bu => [general bu.1.value, bu.2.value.text]

theorem htmlRow_texts (names : List (List Char)) (row : Row) :
    htmlRow names row =
      htmlStart "tr" ++ (names ++ cellTexts row ++ backupTexts row).flatMap (outputLine "td") ++ htmlEnd "tr" := by
  unfold htmlRow backupTexts
  cases row.backups <;>
    simp only [cellTexts, outputDouble, outputFloat, Option.elim_none, Option.elim_some, List.flatMap_append,
      List.flatMap_cons, List.flatMap_nil, List.append_assoc, List.append_nil]

theorem percOrNan_ofAvailable (n : SharedNetwork) (x : ℚ) : (percOrNan n.available x).value = ofAvailable n x := by
  unfold percOrNan ofAvailable
  split <;> rfl

theorem csvRange_row (ntop : Ntop) (p : Report) (r : Range) :
    csvRange ntop p r =
      csvFields ([p.locationOrNone r, p.ntopIpaddr ntop r.firstIp, p.ntopIpaddr ntop r.lastIp] ++ cellTexts (csvRangeRow p r)) ++
        if p.backupsFound then ',' :: csvFields (backupTexts (csvRangeRow p r)) else [] := by
  unfold csvRange csvRangeRow found
  cases p.backupsFound <;> rfl

theorem csvNetwork_row (p : Report) (n : SharedNetwork) :
    csvNetwork p n = csvFields (n.name :: cellTexts (csvNetworkRow p n)) ++
      if p.backupsFound then ',' :: csvFields (backupTexts (csvNetworkRow p n)) else [] := by
  unfold csvNetwork csvNetworkRow found networkFields cellTexts backupTexts
  simp only [rowOf, percOrNan_ofAvailable]
  cases p.backupsFound
  · rfl
  · simp only [if_true, Option.elim_some, percOrNan_ofAvailable]
    rfl

theorem csvSum_row (p : Report) (n : SharedNetwork) :
    csvSum p n = csvFields (n.name :: cellTexts (csvSumRow p n)) ++ txtBackups (csvSumRow p n) := by
  unfold csvSum csvSumRow found networkFields cellTexts txtBackups
  simp only [rowOf, percOrNan_ofAvailable]
  cases p.backupsFound
  · rfl
  · simp only [if_true, Option.elim_some, wideG, wideF3, percOrNan_ofAvailable]
    rfl

/-! ## What a table says -/

/-- A percentage, if there is something to take it of. -/
def percentage (available x : ℚ) : Quotient := if available = 0 then .nan else .value (100 * x / available)

/-- The row of an entry in any table. -/
def tableRow (available used touched : ℚ) (backups : Option ℚ) : List Quotient :=
  [.value available, .value used, percentage available used, .value touched, .value (touched + used),
    percentage available (touched + used)] ++ backups.elim [] fun bu => [.value bu, percentage available bu]

/-- A division by 0. -/
def Figure.ByZero (f : Figure) : Prop := ∃ a, f = .quotient a 0

@[simp] theorem value_number (q : ℚ) : (Figure.number q).value = .value q := rfl

@[simp] theorem number_not_byZero (q : ℚ) : ¬ (Figure.number q).ByZero := fun ⟨_, same⟩ => nomatch same

/-- A row says what a table says, and divides by nothing that is 0. -/
structure Row.Shows (row : Row) (available used touched : ℚ) (backups : Option ℚ) : Prop where
  values : row.values = tableRow available used touched backups
  guarded : ∀ f ∈ row.figures, ¬ f.ByZero

/-- The formats with these tables. -/
inductive Format where
  | txt
  | html
  | csv

/-- The rows of an entry have the same cells: numbers, but for the percentages of nothing, which are `nan` and not
    the result of a division. -/
structure Agree (available : ℚ) (rows : Format → Row) : Prop where
  equal : ∀ f g, (rows f).values = (rows g).values
  counts : ∀ f, ∀ c ∈ (rows f).counts, ∃ q, c.value = .value q
  percentages : ∀ f, ∀ c ∈ (rows f).percentages, if available = 0 then c.value = .nan else ∃ q, c.value = .value q
  guarded : ∀ f, ∀ c ∈ (rows f).figures, ¬ c.ByZero

theorem percentage_cases (available x : ℚ) :
    if available = 0 then percentage available x = .nan else ∃ q, percentage available x = .value q := by
  unfold percentage
  split
  · rfl
  · exact ⟨_, rfl⟩

/-- The cells of a row that says what a table says. -/
theorem shows_cells {row : Row} {available used touched : ℚ} {backups : Option ℚ}
    (shows : row.Shows available used touched backups) :
    (∀ c ∈ row.counts, ∃ q, c.value = .value q) ∧ ∀ c ∈ row.percentages, ∃ x, c.value = percentage available x := by
  obtain ⟨max, cur, percent, touch, touchCur, touchCurPerc, bu⟩ := row
  have values := shows.values
  simp only [Row.values, Row.figures, tableRow, List.cons_append, List.nil_append, List.map_cons, List.cons.injEq] at values
  obtain ⟨isMax, isCur, isPercent, isTouch, isTouchCur, isTouchCurPerc, last⟩ := values
  cases bu with
  | none =>
    simp only [Row.counts, Row.percentages, Option.elim_none, List.append_nil, List.forall_mem_cons]
    exact ⟨⟨⟨_, isMax⟩, ⟨_, isCur⟩, ⟨_, isTouch⟩, ⟨_, isTouchCur⟩, by simp⟩, ⟨_, isPercent⟩, ⟨_, isTouchCurPerc⟩, by simp⟩
  | some bu =>
    cases backups with
    | none => cases last
    | some x =>
      simp only [Option.elim_some, List.map_cons, List.cons.injEq] at last
      obtain ⟨isBu, isBuPerc, -⟩ := last
      simp only [Row.counts, Row.percentages, Option.elim_some, List.cons_append, List.nil_append, List.forall_mem_cons]
      exact ⟨⟨⟨_, isMax⟩, ⟨_, isCur⟩, ⟨_, isTouch⟩, ⟨_, isTouchCur⟩, ⟨_, isBu⟩, by simp⟩,
        ⟨_, isPercent⟩, ⟨_, isTouchCurPerc⟩, ⟨_, isBuPerc⟩, by simp⟩

theorem agree_of_shows {available used touched : ℚ} {backups : Option ℚ} {rows : Format → Row}
    (shows : ∀ f, (rows f).Shows available used touched backups) : Agree available rows where
  equal f g := (shows f).values.trans (shows g).values.symm
  counts f := (shows_cells (shows f)).1
  percentages f c member := by
    obtain ⟨x, same⟩ := (shows_cells (shows f)).2 c member
    rw [same]
    exact percentage_cases available x
  guarded f := (shows f).guarded

/-! ## When the rows agree -/

/-- A cell computes a percentage without a division by 0. -/
def Computes (available x : ℚ) (f : Figure) : Prop := f.value = percentage available x ∧ ¬ f.ByZero

theorem perc_computes {available : ℚ} (filled : available ≠ 0) (x : ℚ) : Computes available x (perc available x) := by
  refine ⟨?_, ?_⟩
  · rw [perc, Figure.value, divide, if_neg filled, percentage, if_neg filled]
  · rintro ⟨a, same⟩
    exact filled (Figure.quotient.inj same).2

theorem percOrNan_computes (available x : ℚ) : Computes available x (percOrNan available x) := by
  by_cases empty : available = 0
  · rw [percOrNan, if_pos empty]
    exact ⟨(if_pos empty).symm, fun ⟨_, same⟩ => nomatch same⟩
  · rw [percOrNan, if_neg empty]
    exact perc_computes empty x

/-- A row whose percentages are computed without a division by 0 says what a table says. -/
theorem rowOf_shows {p : Report} {percent : ℚ → Figure} {bu buPerc : Figure} {available backups : ℚ}
    (each : ∀ x, Computes available x (percent x)) (last : p.backupsFound = true → Computes available backups buPerc)
    (count : p.backupsFound = true → bu = .number backups) (used touched : ℚ) :
    (rowOf percent available used touched (found p bu buPerc)).Shows available used touched (foundBackups p backups) := by
  cases on : p.backupsFound with
  | false =>
    constructor
    · simp [rowOf, found, foundBackups, on, Row.values, Row.figures, tableRow, (each _).1]
    · simp [rowOf, found, on, Row.figures, (each _).2]
  | true =>
    constructor
    · simp [rowOf, found, foundBackups, on, Row.values, Row.figures, tableRow, count on, (each _).1, (last on).1]
    · simp [rowOf, found, on, Row.figures, count on, (each _).2, (last on).2]

section
variable (p : Report)

def rangeRows (r : Range) : Format → Row
  | .txt => txtRangeRow p r
  | .html => htmlRangeRow p r
  | .csv => csvRangeRow p r

def networkRows (n : SharedNetwork) : Format → Row
  | .txt => txtNetworkRow p n
  | .html => htmlNetworkRow p n
  | .csv => csvNetworkRow p n

def sumRows (n : SharedNetwork) : Format → Row
  | .txt => txtSumRow p n
  | .html => htmlSumRow p n
  | .csv => csvSumRow p n

theorem range_shows {r : Range} (filled : p.rangeSize r ≠ 0) (f : Format) :
    (rangeRows p r f).Shows (p.rangeSize r) r.count r.touched (foundBackups p r.backups) := by
  have each := perc_computes filled
  cases f <;> exact rowOf_shows each (fun _ => each r.backups) (fun _ => rfl) r.count r.touched

theorem network_shows {n : SharedNetwork} (filled : p.backupsFound = true → n.available ≠ 0) (f : Format) :
    (networkRows p n f).Shows n.available n.used n.touched (foundBackups p n.backups) := by
  have each := percOrNan_computes n.available
  cases f with
  | txt => exact rowOf_shows each (fun on => perc_computes (filled on) n.backups) (fun _ => rfl) n.used n.touched
  | html => exact rowOf_shows each (fun _ => each n.backups) (fun _ => rfl) n.used n.touched
  | csv => exact rowOf_shows each (fun _ => each n.backups) (fun _ => rfl) n.used n.touched

theorem sum_shows {n : SharedNetwork} (filled : p.backupsFound = true → n.available ≠ 0) (f : Format) :
    (sumRows p n f).Shows n.available n.used n.touched (foundBackups p n.backups) := by
  have each := percOrNan_computes n.available
  cases f with
  | txt =>
    exact rowOf_shows each (fun on => perc_computes (filled on) n.backups) (fun on => if_neg (filled on)) n.used n.touched
  | html => exact network_shows p filled .html
  | csv => exact network_shows p filled .csv

theorem range_agree_iff (r : Range) : Agree (p.rangeSize r) (rangeRows p r) ↔ p.rangeSize r ≠ 0 := by
  constructor
  · intro agree empty
    refine agree.guarded .txt (perc (p.rangeSize r) r.count) ?_ ⟨100 * r.count, by rw [perc, empty]⟩
    simp [rangeRows, txtRangeRow, rowOf, Row.figures]
  · exact fun filled => agree_of_shows (range_shows p filled)

/-- The backups in the text are divided also when there is nothing to divide them by. -/
theorem filled_of_agree {available : ℚ} {rows : Format → Row} (agree : Agree available rows) {bu : Figure} {x : ℚ}
    (text : (rows .txt).backups = found p bu (perc available x)) (on : p.backupsFound = true) : available ≠ 0 := by
  intro empty
  refine agree.guarded .txt (perc available x) ?_ ⟨100 * x, by rw [perc, empty]⟩
  simp [Row.figures, text, found, on]

theorem network_agree_iff (n : SharedNetwork) :
    Agree n.available (networkRows p n) ↔ (p.backupsFound = true → n.available ≠ 0) :=
  ⟨fun agree => filled_of_agree p agree rfl, fun filled => agree_of_shows (network_shows p filled)⟩

theorem sum_agree_iff (n : SharedNetwork) :
    Agree n.available (sumRows p n) ↔ (p.backupsFound = true → n.available ≠ 0) :=
  ⟨fun agree => filled_of_agree p agree rfl, fun filled => agree_of_shows (sum_shows p filled)⟩

theorem range_equal (r : Range) (f g : Format) : rangeRows p r f = rangeRows p r g := by
  cases f <;> cases g <;> rfl

/-- Rows with the same cells are written alike. -/
theorem texts_of_values {row row' : Row} (same : row.values = row'.values) :
    cellTexts row = cellTexts row' ∧ backupTexts row = backupTexts row' := by
  obtain ⟨max, cur, percent, touch, touchCur, touchCurPerc, bu⟩ := row
  obtain ⟨max', cur', percent', touch', touchCur', touchCurPerc', bu'⟩ := row'
  simp only [Row.values, Row.figures, List.cons_append, List.nil_append, List.map_cons, List.cons.injEq] at same
  obtain ⟨isMax, isCur, isPercent, isTouch, isTouchCur, isTouchCurPerc, last⟩ := same
  refine ⟨by simp only [cellTexts, isMax, isCur, isPercent, isTouch, isTouchCur, isTouchCurPerc], ?_⟩
  cases bu with
  | none =>
    cases bu' with
    | none => rfl
    | some _ => cases last
  | some _ =>
    cases bu' with
    | none => cases last
    | some _ =>
      simp only [Option.elim_some, List.map_cons, List.cons.injEq] at last
      simp only [backupTexts, Option.elim_some, last.1, last.2.1]

/-- The values in the rows of a network differ exactly when it is empty and has backups. -/
theorem network_equal_iff (n : SharedNetwork) :
    (∀ f g, (networkRows p n f).values = (networkRows p n g).values) ↔
      (p.backupsFound = true → n.available = 0 → n.backups = 0) := by
  constructor
  · intro equal on empty
    have same := equal .txt .html
    by_contra some
    simp [networkRows, txtNetworkRow, htmlNetworkRow, rowOf, found, on, Row.values, Row.figures, percOrNan, perc,
      Figure.value, divide, empty, some] at same
  · intro none f g
    by_cases filled : p.backupsFound = true → n.available ≠ 0
    · exact (agree_of_shows (network_shows p filled)).equal f g
    · obtain ⟨on, empty⟩ : p.backupsFound = true ∧ n.available = 0 := by simpa using filled
      -- Without the guard 0 / 0 is no number either.
      have nothing : divide (100 * n.backups) 0 = .nan := by simp [divide, none on empty]
      cases f <;> cases g <;>
        simp [networkRows, txtNetworkRow, htmlNetworkRow, csvNetworkRow, rowOf, found, on, Row.values, Row.figures,
          percOrNan, perc, Figure.value, empty, nothing]

/-- The values in the rows of the summary differ whenever it is empty. -/
theorem sum_equal_iff (n : SharedNetwork) :
    (∀ f g, (sumRows p n f).values = (sumRows p n g).values) ↔ (p.backupsFound = true → n.available ≠ 0) := by
  constructor
  · intro equal on empty
    have same := equal .txt .html
    simp [sumRows, txtSumRow, htmlSumRow, rowOf, found, on, Row.values, Row.figures, Figure.value, empty] at same
  · intro filled f g
    exact (agree_of_shows (sum_shows p filled)).equal f g

/-- The three formats have the same table. -/
structure SameTable : Prop where
  ranges : rBit p.numberLimit = true → ∀ r ∈ p.ranges, Agree (p.rangeSize r) (rangeRows p r)
  networks : sBit p.numberLimit = true → ∀ n ∈ p.networks, Agree n.available (networkRows p n)
  summary : aBit p.numberLimit = true → Agree (p.sharedNetworks 0).available (sumRows p (p.sharedNetworks 0))

/-- No size by which the text report divides without looking at it is 0. -/
structure Filled : Prop where
  ranges : rBit p.numberLimit = true → ∀ r ∈ p.ranges, p.rangeSize r ≠ 0
  networks : sBit p.numberLimit = true → p.backupsFound = true → ∀ n ∈ p.networks, n.available ≠ 0
  summary : aBit p.numberLimit = true → p.backupsFound = true → (p.sharedNetworks 0).available ≠ 0

theorem same_table_iff : SameTable p ↔ Filled p := by
  constructor
  · rintro ⟨ranges, networks, summary⟩
    refine ⟨fun shown r member => ?_, fun shown on n member => ?_, fun shown on => ?_⟩
    · exact (range_agree_iff p r).mp (ranges shown r member)
    · exact (network_agree_iff p n).mp (networks shown n member) on
    · exact (sum_agree_iff p _).mp (summary shown) on
  · rintro ⟨ranges, networks, summary⟩
    refine ⟨fun shown r member => ?_, fun shown n member => ?_, fun shown => ?_⟩
    · exact (range_agree_iff p r).mpr (ranges shown r member)
    · exact (network_agree_iff p n).mpr fun on => networks shown on n member
    · exact (sum_agree_iff p _).mpr fun on => summary shown on

/-- Where the table is the same, its cells are the same texts. -/
theorem same_table_texts (same : SameTable p) (f g : Format) :
    (rBit p.numberLimit = true → ∀ r ∈ p.ranges, cellTexts (rangeRows p r f) = cellTexts (rangeRows p r g) ∧
      backupTexts (rangeRows p r f) = backupTexts (rangeRows p r g)) ∧
    (sBit p.numberLimit = true → ∀ n ∈ p.networks, cellTexts (networkRows p n f) = cellTexts (networkRows p n g) ∧
      backupTexts (networkRows p n f) = backupTexts (networkRows p n g)) ∧
    (aBit p.numberLimit = true →
      cellTexts (sumRows p (p.sharedNetworks 0) f) = cellTexts (sumRows p (p.sharedNetworks 0) g) ∧
      backupTexts (sumRows p (p.sharedNetworks 0) f) = backupTexts (sumRows p (p.sharedNetworks 0) g)) :=
  ⟨fun shown r member => texts_of_values ((same.ranges shown r member).equal f g),
    fun shown n member => texts_of_values ((same.networks shown n member).equal f g),
    fun shown => texts_of_values ((same.summary shown).equal f g)⟩

end

/-! ## After `do_counting` -/

/-- The state of the program when `do_counting` has run on it. -/
def afterCounting (undef : ℚ → ℕ) (p : Report) : Report :=
  let counted := doCounting undef p.ipVersion p.leases p.ranges (p.sharedNetworks 0 :: p.networks)
  { p with
    ranges := counted.ranges
    sharedNetworks := fun i => counted.sharedNetworks.getD i (p.sharedNetworks i) }

section
variable (undef : ℚ → ℕ) (p : Report)

theorem afterCounting_sizes : (afterCounting undef p).ranges.map p.rangeSize = p.ranges.map p.rangeSize :=
  (countRanges_available undef p.ipVersion p.leases p.ranges _ _).1

/-- What `do_counting` leaves in `available`. -/
theorem afterCounting_available :
    ((afterCounting undef p).sharedNetworks 0).available = (p.ranges.map p.rangeSize).sum ∧
      ∀ k < p.numSharedNetworks, ((afterCounting undef p).sharedNetworks (k + 1)).available =
        (p.sharedNetworks (k + 1)).available + total (k + 1) (blockSize undef p.ipVersion) p.ranges := by
  obtain ⟨summary, networks⟩ :=
    doCounting_available undef p.ipVersion p.leases p.ranges (p.sharedNetworks 0) p.networks
  refine ⟨?_, fun k inside => ?_⟩
  · obtain ⟨n, entry, same⟩ := Option.map_eq_some_iff.mp summary
    simp only [afterCounting, List.getD_eq_getElem?_getD, entry, Option.getD_some, same]
    rfl
  · have here : availableAt p.networks k = some (p.sharedNetworks (k + 1)).available := by
      simp [availableAt, Report.networks, inside]
    have held := networks k
    rw [here] at held
    obtain ⟨n, entry, same⟩ := Option.map_eq_some_iff.mp held
    simp only [afterCounting, List.getD_eq_getElem?_getD, entry, Option.getD_some, same]

/-- No size by which the text report is to divide without looking at it comes to 0. -/
structure HasAddresses : Prop where
  ranges : rBit p.numberLimit = true → ∀ r ∈ p.ranges, p.rangeSize r ≠ 0
  networks : sBit p.numberLimit = true → p.backupsFound = true → ∀ k < p.numSharedNetworks,
    (p.sharedNetworks (k + 1)).available + total (k + 1) (blockSize undef p.ipVersion) p.ranges ≠ 0
  summary : aBit p.numberLimit = true → p.backupsFound = true → (p.ranges.map p.rangeSize).sum ≠ 0

instance : Decidable (HasAddresses undef p) :=
  decidable_of_iff (_ ∧ _ ∧ _) ⟨fun ⟨ranges, networks, summary⟩ => ⟨ranges, networks, summary⟩,
    fun ⟨ranges, networks, summary⟩ => ⟨ranges, networks, summary⟩⟩

theorem filled_afterCounting_iff : Filled (afterCounting undef p) ↔ HasAddresses undef p := by
  obtain ⟨sum, networks⟩ := afterCounting_available undef p
  have sizes : (∀ r ∈ (afterCounting undef p).ranges, p.rangeSize r ≠ 0) ↔ ∀ r ∈ p.ranges, p.rangeSize r ≠ 0 := by
    rw [← List.forall_mem_map (P := (· ≠ 0)), afterCounting_sizes, List.forall_mem_map]
  have members : (∀ n ∈ (afterCounting undef p).networks, n.available ≠ 0) ↔ ∀ k < p.numSharedNetworks,
      (p.sharedNetworks (k + 1)).available + total (k + 1) (blockSize undef p.ipVersion) p.ranges ≠ 0 := by
    rw [Report.networks, List.forall_mem_map]
    simp only [List.mem_range]
    exact forall₂_congr fun k inside => by rw [networks k inside]
  constructor
  · rintro ⟨ranges, shared, summary⟩
    exact ⟨fun shown => sizes.mp (ranges shown), fun shown on => members.mp (shared shown on),
      fun shown on => sum ▸ summary shown on⟩
  · rintro ⟨ranges, shared, summary⟩
    exact ⟨fun shown => sizes.mpr (ranges shown), fun shown on => members.mpr (shared shown on),
      fun shown on => sum.symm ▸ summary shown on⟩

/-- After `do_counting` the text, HTML and CSV reports show the same table exactly when no range that is shown has the
    size 0 and, with backups, neither a network that is shown nor the summary is empty. -/
theorem reports_same_table_iff : SameTable (afterCounting undef p) ↔ HasAddresses undef p :=
  (same_table_iff _).trans (filled_afterCounting_iff undef p)

end

example : HasAddresses (fun _ => 0) sampleReport := by decide +kernel

/-- A backup lease, a network without a range, and no range at all. -/
def rangelessReport : Report where
  ipVersion := .IPv4
  headerLimit := 7
  numberLimit := 7
  backupsFound := true
  printMacAddreses := false
  leases := [⟨.ofV4 0x0A000005, .BACKUP, none⟩]
  ranges := []
  sharedNetworks i := ⟨if i = 0 then "All networks".toList else "ground floor".toList, 0, 0, 0, 0, -2⟩
  numSharedNetworks := 1

def rangelessCounted : Report := afterCounting (fun _ => 0) rangelessReport

/-- The text report has no number of backups where the HTML report has one. -/
theorem rangeless_tables_differ :
    (sumRows rangelessCounted (rangelessCounted.sharedNetworks 0) .txt).values ≠
        (sumRows rangelessCounted (rangelessCounted.sharedNetworks 0) .html).values ∧
      ¬ SameTable rangelessCounted := by
  have empty : (rangelessCounted.sharedNetworks 0).available = 0 := (afterCounting_available _ rangelessReport).1
  have differ : (sumRows rangelessCounted (rangelessCounted.sharedNetworks 0) .txt).values ≠
      (sumRows rangelessCounted (rangelessCounted.sharedNetworks 0) .html).values := by
    have on : rangelessCounted.backupsFound = true := rfl
    simp [sumRows, txtSumRow, htmlSumRow, rowOf, found, on, Row.values, Row.figures, Figure.value, empty]
  exact ⟨differ, fun same => differ ((same.summary rfl).equal .txt .html)⟩

end DhcpdPools.OutputTables
