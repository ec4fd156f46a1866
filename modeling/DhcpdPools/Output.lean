import DhcpdPools.Printf
import DhcpdPools.Tables

/-!
The reports for programs: the texts that `output_xml`, `output_json` and `output_csv`
write. A text is a list of characters; `%s` copies a string, `%g` and `%.3f` are those of
`Printf`. Where two calls of `fprintf` differ only in a tag, a name or a value, they are
one function of these.
-/
namespace DhcpdPools.Output
open Printf

/-- A letter, a digit, or one of the characters between them in an address or a name. -/
def simpleChar (c : Char) : Bool := c.isAlphanum || c = '.' || c = ':' || c = '-' || c = '_' || c = ' '

/-- `inet_ntop`, of an address in host order. -/
structure Ntop where
  inetNtop4 : BitVec 32 → List Char
  inetNtop6 : Vector UInt8 16 → List Char
  chars4 : ∀ a, ∀ c ∈ inetNtop4 a, simpleChar c = true
  chars6 : ∀ a, ∀ c ∈ inetNtop6 a, simpleChar c = true

/-- An address as four numbers; there are no others. -/
def dottedQuads : Ntop where
  inetNtop4 a := Nat.toDigits 10 (a.toNat / 2 ^ 24) ++ '.' :: Nat.toDigits 10 (a.toNat / 2 ^ 16 % 2 ^ 8) ++
    '.' :: Nat.toDigits 10 (a.toNat / 2 ^ 8 % 2 ^ 8) ++ '.' :: Nat.toDigits 10 (a.toNat % 2 ^ 8)
  inetNtop6 _ := []
  chars4 a := by
    have digits : ∀ n, ∀ c ∈ Nat.toDigits 10 n, simpleChar c = true := fun n c member => by
      simp [simpleChar, Char.isAlphanum, Nat.isDigit_of_mem_toDigits (by decide) (by decide) member]
    have point : simpleChar '.' = true := rfl
    simp only [List.forall_mem_append, List.forall_mem_cons]
    exact ⟨⟨⟨digits _, point, digits _⟩, point, digits _⟩, point, digits _⟩
  chars6 _ := fun _ member => by cases member

/-- What the printers read; `sharedNetworks 0` is the grand total. -/
structure Report where
  ipVersion : DhcpVersion
  headerLimit : BitVec 3
  numberLimit : BitVec 3
  backupsFound : Bool
  printMacAddreses : Bool
  leases : List Lease
  ranges : List Range
  sharedNetworks : Nat → SharedNetwork
  numSharedNetworks : Nat

namespace Report
variable (ntop : Ntop) (p : Report)

/-- `ntop_ipaddr` in the version in force. -/
def ntopIpaddr (ip : Ipaddr) : List Char :=
  match p.ipVersion with
  | .IPvUNKNOWN => []
  | .IPv4 => ntop.inetNtop4 ip.v4
  | .IPv6 => ntop.inetNtop6 ip.v6

/-- The networks that the loops over `shared_p` go through. -/
def networks : List SharedNetwork := (List.range p.numSharedNetworks).map fun i => p.sharedNetworks (i + 1)

/-- `range_p->shared_net->name`, nothing for a null pointer. -/
def location (r : Range) : List Char := r.sharedNet.elim [] fun i => (p.sharedNetworks i).name

/-- `%s - %s` of the first and the last address. -/
def addresses (r : Range) : List Char := p.ntopIpaddr ntop r.firstIp ++ " - ".toList ++ p.ntopIpaddr ntop r.lastIp

def rangeSize (r : Range) : ℚ := getRangeSize p.ipVersion r

end Report

/-- A range in a network, another one in none, and two leases. -/
def sampleReport : Report where
  ipVersion := .IPv4
  headerLimit := 7
  numberLimit := 7
  backupsFound := true
  printMacAddreses := true
  leases := [⟨.ofV4 0x0A000005, .ACTIVE, some "00:0a:95:9d:68:16".toList⟩, ⟨.ofV4 0x0A000006, .FREE, none⟩]
  ranges := [⟨some 1, .ofV4 0x0A000001, .ofV4 0x0A00000A, 1, 0, 0⟩,
    ⟨none, .ofV4 0x0A000101, .ofV4 0x0A000101, 0, 1, 1⟩]
  sharedNetworks i := if i = 0 then ⟨"All networks".toList, 11, 1, 1, 1, -2⟩ else ⟨"ground floor".toList, 10, 1, 0, 0, -2⟩
  numSharedNetworks := 1

/-! ## `output_xml` -/

def startTag (tag : String) : List Char := '<' :: tag.toList ++ ['>']

def endTag (tag : String) : List Char := '<' :: '/' :: tag.toList ++ ['>']

/-- A line with one element. -/
def element (tag : String) (text : List Char) : List Char := '\t' :: startTag tag ++ text ++ endTag tag ++ ['\n']

section
variable (ntop : Ntop) (p : Report)

def xmlLease (l : Lease) : List Char :=
  if l.type = .ACTIVE then
    startTag "active_lease" ++ ['\n'] ++ element "ip" (p.ntopIpaddr ntop l.ip) ++
      element "macaddress" (l.ethernet.getD []) ++ endTag "active_lease" ++ ['\n']
  else []

def xmlRange (r : Range) : List Char :=
  startTag "subnet" ++ ['\n'] ++ element "location" (p.location r) ++ element "range" (p.addresses ntop r) ++
    element "defined" (formatG (p.rangeSize r)) ++ element "used" (formatG r.count) ++
    element "touched" (formatG r.touched) ++ element "free" (formatG (p.rangeSize r - r.count)) ++
    endTag "subnet" ++ ['\n']

/-- A shared network, or the summary. -/
def xmlNetwork (tag : String) (n : SharedNetwork) : List Char :=
  startTag tag ++ ['\n'] ++ element "location" n.name ++ element "defined" (formatG n.available) ++
    element "used" (formatG n.used) ++ element "touched" (formatG n.touched) ++
    element "free" (formatG (n.available - n.used)) ++ endTag tag ++ ['\n']

/-- `output_xml`. -/
def outputXml : List Char :=
  startTag "dhcpstatus" ++ ['\n'] ++
    (if p.printMacAddreses then p.leases.flatMap (xmlLease ntop p) else []) ++
    (if rBit p.numberLimit then p.ranges.flatMap (xmlRange ntop p) else []) ++
    (if sBit p.numberLimit then p.networks.flatMap (xmlNetwork "shared-network") else []) ++
    (if aBit p.headerLimit then xmlNetwork "summary" (p.sharedNetworks 0) else []) ++
    endTag "dhcpstatus" ++ ['\n']

/-! ## `output_json` -/

/-- `"name":` and a value. -/
def jsonMember (name : String) (value : List Char) : List Char := '"' :: name.toList ++ '"' :: ':' :: value

def jsonString (s : List Char) : List Char := '"' :: s ++ ['"']

def jsonLease (l : Lease) : List Char :=
  "\n         \x7b ".toList ++ jsonMember "ip" (jsonString (p.ntopIpaddr ntop l.ip)) ++ ", ".toList ++
    jsonMember "macaddress" (jsonString (l.ethernet.getD [])) ++ " \x7d".toList

/-- The loop over the leases; `i` is 0 until one was written. -/
def jsonLeases : Nat → List Lease → List Char
  | _, [] => []
  | i, l :: rest =>
    if l.type = .ACTIVE then
      if i = 0 then jsonLease ntop p l ++ jsonLeases 1 rest else ',' :: jsonLease ntop p l ++ jsonLeases i rest
    else jsonLeases i rest

def jsonRange (r : Range) : List Char :=
  "         ".toList ++ "\x7b ".toList ++ jsonMember "location" (jsonString (p.location r)) ++ ", ".toList ++
    jsonMember "range" (jsonString (p.addresses ntop r)) ++ ", ".toList ++
    jsonMember "defined" (formatG (p.rangeSize r)) ++ ", ".toList ++ jsonMember "used" (formatG r.count) ++ ", ".toList ++
    jsonMember "touched" (formatG r.touched) ++ ", ".toList ++
    jsonMember "free" (formatG (p.rangeSize r - r.count)) ++ " ".toList

def jsonNetwork (n : SharedNetwork) : List Char :=
  "         ".toList ++ "\x7b ".toList ++ jsonMember "location" (jsonString n.name) ++ ", ".toList ++
    jsonMember "defined" (formatG n.available) ++ ", ".toList ++ jsonMember "used" (formatG n.used) ++ ", ".toList ++
    jsonMember "touched" (formatG n.touched) ++ ", ".toList ++
    jsonMember "free" (formatG (n.available - n.used)) ++ " ".toList

/-- The loop over `num` ranges or networks from `i` on, with a comma behind each but the last. -/
def jsonRows (num : Nat) : Nat → List (List Char) → List Char
  | _, [] => []
  | i, row :: rest => row ++ (if i + 1 < num then "\x7d,\n".toList else "\x7d\n".toList) ++ jsonRows num (i + 1) rest

def jsonSummary (n : SharedNetwork) : List Char :=
  "         ".toList ++ jsonMember "location" (jsonString n.name) ++ ",\n".toList ++
    "         ".toList ++ jsonMember "defined" (formatG n.available) ++ ",\n".toList ++
    "         ".toList ++ jsonMember "used" (formatG n.used) ++ ",\n".toList ++
    "         ".toList ++ jsonMember "touched" (formatG n.touched) ++ ",\n".toList ++
    "         ".toList ++ jsonMember "free" (formatG (n.available - n.used)) ++ "\n".toList

/-- A section: a comma when one was written before, and its text. -/
def jsonSection (sep : Nat) (shown : Bool) (text : List Char) : List Char × Nat :=
  if shown then ((if sep ≠ 0 then ",\n".toList else []) ++ text, sep + 1) else ([], sep)

/-- `output_json`. -/
def outputJson : List Char :=
  let leases := jsonSection 0 p.printMacAddreses ("   ".toList ++ jsonMember "active_leases" (" [".toList ++
    jsonLeases ntop p 0 p.leases ++ "\n   ]".toList))
  let subnets := jsonSection leases.2 (rBit p.numberLimit) ("   ".toList ++ jsonMember "subnets" (" [\n".toList ++
    jsonRows p.ranges.length 0 (p.ranges.map (jsonRange ntop p)) ++ "   ]".toList))
  let networks := jsonSection subnets.2 (sBit p.numberLimit) ("   ".toList ++ jsonMember "shared-networks" (" [\n".toList ++
    jsonRows p.numSharedNetworks 0 (p.networks.map jsonNetwork) ++ "   ]".toList))
  let summary := jsonSection networks.2 (aBit p.headerLimit) ("   ".toList ++ jsonMember "summary" (" \x7b\n".toList ++
    jsonSummary (p.sharedNetworks 0) ++ "   \x7d".toList))
  "\x7b\n".toList ++ leases.1 ++ subnets.1 ++ networks.1 ++ summary.1 ++ "\n\x7d\n".toList

end

/-! ## `output_csv` -/

/-- A quotient of two numbers as a `double`. The sign of what is no number is left out. -/
inductive Quotient where
  | nan
  | inf (negative : Bool)
  | value (q : ℚ)
deriving DecidableEq

def divide (a b : ℚ) : Quotient :=
  if b = 0 then if a = 0 then .nan else .inf (a < 0) else .value (a / b)

/-- `%.3f`. -/
def Quotient.text : Quotient → List Char
  | .nan => "nan".toList
  | .inf negative => if negative then "-inf".toList else "inf".toList
  | .value q => formatF3 q

/-- `range_p->shared_net->name`, with a word for a null pointer. -/
def Report.locationOrNone (p : Report) (r : Range) : List Char :=
  r.sharedNet.elim "not_defined".toList fun i => (p.sharedNetworks i).name

/-- A percentage of a network, which may be empty. -/
def ofAvailable (n : SharedNetwork) (x : ℚ) : Quotient :=
  if n.available = 0 then .nan else divide (100 * x) n.available

/-- Fields in quotes with commas between them. -/
def csvFields : List (List Char) → List Char
  | [] => []
  | [s] => '"' :: s ++ ['"']
  | s :: rest => '"' :: s ++ '"' :: ',' :: csvFields rest

section
variable (ntop : Ntop) (p : Report)

/-- A title and the names of the columns. -/
def csvTitle (title : String) : List Char := csvFields [title.toList]

def csvHeader (columns : List String) : List Char :=
  csvFields (columns.map String.toList) ++
    if p.backupsFound then ',' :: csvFields ["bu".toList, "bu perc".toList] else []

/-- The fields of a range that every row of it has. -/
def rangeFields (r : Range) : List (List Char) :=
  [p.locationOrNone r, p.ntopIpaddr ntop r.firstIp, p.ntopIpaddr ntop r.lastIp, formatG (p.rangeSize r), formatG r.count,
    (divide (100 * r.count) (p.rangeSize r)).text, formatG r.touched, formatG (r.touched + r.count),
    (divide (100 * (r.touched + r.count)) (p.rangeSize r)).text]

def csvRange (r : Range) : List Char :=
  csvFields (rangeFields ntop p r) ++
    if p.backupsFound then
      ',' :: csvFields [formatG r.backups, (divide (100 * r.backups) (p.rangeSize r)).text]
    else []

/-- The fields of a network that every row of it has. -/
def networkFields (n : SharedNetwork) : List (List Char) :=
  [n.name, formatG n.available, formatG n.used, (ofAvailable n n.used).text, formatG n.touched,
    formatG (n.touched + n.used), (ofAvailable n (n.touched + n.used)).text]

def csvNetwork (n : SharedNetwork) : List Char :=
  csvFields (networkFields n) ++
    if p.backupsFound then ',' :: csvFields [formatG n.backups, (ofAvailable n n.backups).text] else []

/-- The sum has the backups in the format of the text report. -/
def csvSum (n : SharedNetwork) : List Char :=
  csvFields (networkFields n) ++
    if p.backupsFound then
      (formatG n.backups).leftpad 7 ' ' ++ ' ' :: (ofAvailable n n.backups).text.leftpad 8 ' '
    else []

def rangeColumns : List String :=
  ["shared net name", "first ip", "last ip", "max", "cur", "percent", "touch", "t+c", "t+c perc"]

def networkColumns : List String := ["name", "max", "cur", "percent", "touch", "t+c", "t+c perc"]

/-- Lines, each with its end. -/
def lines (ls : List (List Char)) : List Char := ls.flatMap fun l => l ++ ['\n']

/-- `output_csv`. -/
def outputCsv : List Char :=
  (if rBit p.headerLimit then lines [csvTitle "Ranges:", csvHeader p rangeColumns] else []) ++
  (if rBit p.numberLimit then lines (p.ranges.map (csvRange ntop p)) ++ ['\n'] else []) ++
  (if sBit p.headerLimit then lines [csvTitle "Shared networks:", csvHeader p networkColumns] else []) ++
  (if sBit p.numberLimit then lines (p.networks.map (csvNetwork p)) ++ ['\n'] else []) ++
  (if aBit p.headerLimit then lines [csvTitle "Sum of all ranges:", csvHeader p networkColumns] else []) ++
  (if aBit p.numberLimit then lines [csvSum p (p.sharedNetworks 0)] else [])

end

end DhcpdPools.Output
