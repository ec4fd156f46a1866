import DhcpdPools.Alarm

/-!
The perfdata of `output_alarming`. Its two loops walk back from where the
classification loops left their pointers; both are one walk over a table
(`walkBack`), which stays inside exactly when it starts at the end
(`walkBack_end`, `walkBack_under`).
-/
namespace DhcpdPools.Alarm

/-! ## Walking back over a table -/

/-- Print the entries at `p`, `p - 1`, … of a table. -/
def walkBack {α β : Type} (print : α → List β) (table : List α) : Nat → Int → Option (List β)
  | 0, _ => some []
  | n + 1, p => do
    let x ← entry table p
    let later ← walkBack print table n (p - 1)
    return print x ++ later

theorem entry_inside {α : Type} {table : List α} {i : Nat} (inside : i < table.length) :
    entry table (i : Int) = some table[i] := by
  rw [entry, if_pos (Int.natCast_nonneg i), Int.toNat_natCast, List.getElem?_eq_getElem inside]

theorem entry_negative {α : Type} (table : List α) {i : Int} (negative : i < 0) : entry table i = none := by
  rw [entry, if_neg (by omega)]

/-- From the end of a part of the table, as many steps as it has entries print all of them from the back. -/
theorem walkBack_end {α β : Type} (print : α → List β) (front part after : List α) :
    walkBack print (front ++ part ++ after) part.length (front.length + part.length - 1) =
      some (part.reverse.flatMap print) := by
  induction part using List.reverseRecOn generalizing after with
  | nil => rfl
  | append_singleton part x ih =>
    have here : entry (front ++ part ++ ([x] ++ after)) ((front.length : Int) + part.length) = some x := by
      rw [← Nat.cast_add, entry_inside (by simp)]
      simp
    have split : front ++ (part ++ [x]) ++ after = front ++ part ++ ([x] ++ after) := by simp
    rw [split, List.length_append, List.length_singleton, walkBack, Nat.cast_succ, ← Int.add_assoc, Int.add_sub_cancel,
      here, ih ([x] ++ after)]
    simp

/-- A walk of more steps than there are entries up to its start leaves the table. -/
theorem walkBack_under {α β : Type} (print : α → List β) (table : List α) {n p : Nat} (under : p < n) :
    walkBack print table n (p - 1) = none := by
  induction n generalizing p with
  | zero => omega
  | succ n ih =>
    cases p with
    | zero => rw [walkBack, entry_negative table (by decide), Option.bind_eq_bind, Option.bind_none]
    | succ p =>
      rw [walkBack, Nat.cast_succ, Int.add_sub_cancel, ih (by omega)]
      cases entry table (p : Int) <;> rfl

theorem rangePerfdata_walk (cfg : Configuration) (v : DhcpVersion) (table : List Range) (n : Nat) (p : Int) :
    rangePerfdata cfg v table n p = walkBack (rangePerf cfg v) table n (p - 1) := by
  induction n generalizing p with
  | zero => rfl
  | succ n ih => simp only [rangePerfdata, walkBack, ih]

theorem snetPerfdata_walk (cfg : Configuration) (nets : List SharedNetwork) (n : Nat) (p : Int) :
    snetPerfdata cfg nets n p = walkBack (snetPerf cfg) nets n p := by
  induction n generalizing p with
  | zero => rfl
  | succ n ih => simp only [snetPerfdata, walkBack, ih]

/-! ## When a report is printed -/

/-- The class that the shared network loop counts a network under. -/
def snetCounted (cfg : Configuration) (n : SharedNetwork) : Verdict :=
  if cfg.minsize < n.available then
    if cfg.critical < snetPercent n ∧ n.used < cfg.critCount then .critical
    else if cfg.warning < snetPercent n ∧ n.used < cfg.warnCount then .warning
    else .ok
  else .ignored

/-- A class that raises an alarm. -/
def Alarming (d : Verdict) : Prop := d = .critical ∨ d = .warning

/-- A report is asked for, or an alarm is raised by a range or a shared network that is looked at. -/
def Reported (cfg : Configuration) (v : DhcpVersion) (ranges : List Range) (nets : List SharedNetwork) : Prop :=
  aBit cfg.numberLimit = true ∨
    (rBit cfg.numberLimit = true ∧ ∃ r ∈ classified cfg ranges, Alarming (rangeVerdict cfg v r)) ∨
    (sBit cfg.numberLimit = true ∧ ∃ n ∈ nets.tail, Alarming (snetCounted cfg n))

theorem classify_ranges (cfg : Configuration) (v : DhcpVersion) (ranges : List Range) (past : Range)
    (nets : List SharedNetwork) (asked : rBit cfg.numberLimit = true) :
    (classify cfg v ranges past nets).ranges.rangeP = (classified cfg ranges).length ∧
      (classify cfg v ranges past nets).ranges.count = tally cfg v (classified cfg ranges) := by
  simp only [classify, asked, if_true]
  rw [rangeLoop_spec cfg v ranges past ranges.length 0 _ (by simp)]
  simp [Counters.plus]

/-- An alarm is counted exactly when an entry raises it. -/
theorem foldl_add_alarm {α : Type} (verdict : α → Verdict) (entries : List α) (c : Counters) :
    0 < (entries.foldl (fun c x => c.add (verdict x)) c).crit ∨ 0 < (entries.foldl (fun c x => c.add (verdict x)) c).warn ↔
      (0 < c.crit ∨ 0 < c.warn) ∨ ∃ x ∈ entries, Alarming (verdict x) := by
  induction entries generalizing c with
  | nil => simp
  | cons x rest ih =>
    rw [List.foldl_cons, ih, List.exists_mem_cons_iff]
    cases verdict x <;> simp [Counters.add, Alarming]

theorem tally_alarm (cfg : Configuration) (v : DhcpVersion) (ranges : List Range) :
    0 < (tally cfg v ranges).crit ∨ 0 < (tally cfg v ranges).warn ↔
      ∃ r ∈ ranges, Alarming (rangeVerdict cfg v r) := by
  simp only [tally, List.countP_pos_iff, decide_eq_true_eq, Alarming, and_or_left, exists_or]

theorem classify_nets_alarm (cfg : Configuration) (v : DhcpVersion) (ranges : List Range) (past : Range)
    (nets : List SharedNetwork) (asked : sBit cfg.numberLimit = true) :
    0 < (classify cfg v ranges past nets).nets.crit ∨ 0 < (classify cfg v ranges past nets).nets.warn ↔
      ∃ n ∈ nets.tail, Alarming (snetCounted cfg n) := by
  have steps : snetStep cfg = fun c n => c.add (snetCounted cfg n) := by
    funext c n
    exact snetStep_spec cfg c n
  simp only [classify, asked, if_true, steps, foldl_add_alarm]
  simp

/-- Nothing is printed exactly when nothing is to be reported. -/
theorem headline_none_iff (cfg : Configuration) (v : DhcpVersion) (programName : List Char) (ranges : List Range)
    (past : Range) (nets : List SharedNetwork) :
    headline cfg programName (classify cfg v ranges past nets) = none ↔ ¬Reported cfg v ranges nets := by
  have ranged : (rBit cfg.numberLimit = true ∧ ∃ r ∈ classified cfg ranges, Alarming (rangeVerdict cfg v r)) ↔
      rBit cfg.numberLimit = true ∧ (0 < (classify cfg v ranges past nets).ranges.count.crit ∨
        0 < (classify cfg v ranges past nets).ranges.count.warn) :=
    and_congr_right fun asked => by rw [(classify_ranges cfg v ranges past nets asked).2, tally_alarm]
  have shared : (sBit cfg.numberLimit = true ∧ ∃ n ∈ nets.tail, Alarming (snetCounted cfg n)) ↔
      sBit cfg.numberLimit = true ∧ (0 < (classify cfg v ranges past nets).nets.crit ∨
        0 < (classify cfg v ranges past nets).nets.warn) :=
    and_congr_right fun asked => (classify_nets_alarm cfg v ranges past nets asked).symm
  rw [headline, Reported, ranged, shared]
  generalize classify cfg v ranges past nets = c
  by_cases crit : (0 < c.ranges.count.crit ∧ rBit cfg.numberLimit) ∨ (0 < c.nets.crit ∧ sBit cfg.numberLimit)
  · rw [if_pos crit]
    rcases crit with ⟨counted, asked⟩ | ⟨counted, asked⟩
    · simp [asked, counted]
    · simp [asked, counted]
  · rw [if_neg crit]
    by_cases warn : (0 < c.ranges.count.warn ∧ rBit cfg.numberLimit) ∨ (0 < c.nets.warn ∧ sBit cfg.numberLimit)
    · rw [if_pos warn]
      rcases warn with ⟨counted, asked⟩ | ⟨counted, asked⟩
      · simp [asked, counted]
      · simp [asked, counted]
    · rw [if_neg warn]
      simp only [not_or, not_and'] at crit warn
      by_cases all : aBit cfg.numberLimit = true
      · simp [all]
      · rw [if_neg all, not_or, not_or]
        refine ⟨fun _ => ⟨all, ?_, ?_⟩, fun _ => rfl⟩
        · rintro ⟨asked, counted | counted⟩
          · exact crit.1 asked counted
          · exact warn.1 asked counted
        · rintro ⟨asked, counted | counted⟩
          · exact crit.2 asked counted
          · exact warn.2 asked counted

/-! ## The entries of a report -/

def addressOf : Piece → Option Ipaddr
  | .address a => some a
  | _ => none

def nameOf : Piece → Option (List Char)
  | .name s => some s
  | _ => none

/-- The perfdata entry at the head of a text: whose it is, its value and its maximum. -/
def readEntry {κ : Type} (key : Piece → Option κ) (label : String) : List Piece → Option (κ × ℚ × ℚ)
  | k :: .text l :: .number value :: _ :: _ :: _ :: _ :: _ :: .number size :: _ =>
    if l = label then (key k).map (fun k => (k, value, size)) else none
  | _ => none

/-- All perfdata entries of a text. -/
def entries {κ : Type} (key : Piece → Option κ) (label : String) : List Piece → List (κ × ℚ × ℚ)
  | [] => []
  | p :: rest => (readEntry key label (p :: rest)).toList ++ entries key label rest

/-- The entry that a range should have, if it is larger than `minsize`. -/
def rangeEntries (cfg : Configuration) (v : DhcpVersion) (ranges : List Range) : List (Ipaddr × ℚ × ℚ) :=
  (ranges.filter (fun r => cfg.minsize < getRangeSize v r)).map (fun r => (r.firstIp, r.count, getRangeSize v r))

/-- The entry that a shared network should have. -/
def snetEntries (cfg : Configuration) (nets : List SharedNetwork) : List (List Char × ℚ × ℚ) :=
  (nets.filter (fun n => cfg.minsize < n.available)).map (fun n => (n.name, n.used, n.available))

section
variable {κ : Type} {key : Piece → Option κ} {label : String}

theorem entries_cons {p : Piece} (other : key p = none) (rest : List Piece) :
    entries key label (p :: rest) = entries key label rest := by
  have head : readEntry key label (p :: rest) = none := by
    rw [readEntry.eq_def]
    split
    · rename_i same
      obtain ⟨rfl, -⟩ := List.cons.inj same
      simp [other]
    · rfl
  rw [entries, head, Option.toList_none, List.nil_append]

theorem entries_append {front : List Piece} (other : ∀ p ∈ front, key p = none) (rest : List Piece) :
    entries key label (front ++ rest) = entries key label rest := by
  induction front with
  | nil => rfl
  | cons p front ih =>
    rw [List.cons_append, entries_cons (other p List.mem_cons_self), ih fun q member => other q (List.mem_cons_of_mem _ member)]

/-- A key under another label opens no entry. -/
theorem entries_label (p : Piece) {l : String} (differ : l ≠ label) (rest : List Piece) :
    entries key label (p :: .text l :: rest) = entries key label (.text l :: rest) := by
  have head : readEntry key label (p :: .text l :: rest) = none := by
    rw [readEntry.eq_def]
    split
    · rename_i same
      obtain ⟨-, same⟩ := List.cons.inj same
      obtain ⟨same, -⟩ := List.cons.inj same
      cases same
      rw [if_neg differ]
    · rfl
  rw [entries, head, Option.toList_none, List.nil_append]

end

@[simp] theorem entries_address_text (label s : String) (rest : List Piece) :
    entries addressOf label (.text s :: rest) = entries addressOf label rest := entries_cons rfl rest

@[simp] theorem entries_address_number (label : String) (x : ℚ) (rest : List Piece) :
    entries addressOf label (.number x :: rest) = entries addressOf label rest := entries_cons rfl rest

@[simp] theorem entries_name_text (label s : String) (rest : List Piece) :
    entries nameOf label (.text s :: rest) = entries nameOf label rest := entries_cons rfl rest

@[simp] theorem entries_name_number (label : String) (x : ℚ) (rest : List Piece) :
    entries nameOf label (.number x :: rest) = entries nameOf label rest := entries_cons rfl rest

theorem entries_rangePerf (cfg : Configuration) (v : DhcpVersion) (r : Range) (rest : List Piece) :
    entries addressOf "_r=" (rangePerf cfg v r ++ rest) = rangeEntries cfg v [r] ++ entries addressOf "_r=" rest := by
  by_cases large : cfg.minsize < getRangeSize v r
  · have backups : ∀ b : Bool, entries addressOf "_r="
        (shown b [.text " ", .address r.firstIp, .text "_rbu=", .number r.backups] ++ rest) =
          entries addressOf "_r=" rest := by
      intro b
      cases b
      · rfl
      · simp [shown, entries_label]
    simp only [rangePerf, large, if_true, List.append_eq, List.cons_append, List.nil_append]
    rw [entries_cons rfl, entries]
    simp [readEntry, entries_label, addressOf, backups, rangeEntries, large]
  · simp [rangePerf, rangeEntries, large]

theorem entries_snetPerf (cfg : Configuration) (n : SharedNetwork) (rest : List Piece) :
    entries nameOf "_s'=" (snetPerf cfg n ++ rest) = snetEntries cfg [n] ++ entries nameOf "_s'=" rest := by
  by_cases large : cfg.minsize < n.available
  · have backups : ∀ b : Bool, entries nameOf "_s'="
        (shown b [.text " '", .name n.name, .text "_sbu'=", .number n.backups] ++ rest) =
          entries nameOf "_s'=" rest := by
      intro b
      cases b
      · rfl
      · simp [shown, entries_label]
    simp only [snetPerf, large, if_true, List.append_eq, List.cons_append, List.nil_append]
    rw [entries_cons rfl, entries]
    simp [readEntry, entries_label, nameOf, backups, snetEntries, large]
  · simp [snetPerf, snetEntries, large]

/-- The entries of a perfdata loop are those of the table entries that it prints. -/
theorem entries_flatMap {κ α : Type} {key : Piece → Option κ} {label : String} {print : α → List Piece}
    {own : List α → List (κ × ℚ × ℚ)} (none : own [] = []) (more : ∀ x l, own (x :: l) = own [x] ++ own l)
    (one : ∀ x rest, entries key label (print x ++ rest) = own [x] ++ entries key label rest) (l : List α)
    (rest : List Piece) : entries key label (l.flatMap print ++ rest) = own l ++ entries key label rest := by
  induction l with
  | nil => rw [List.flatMap_nil, none, List.nil_append, List.nil_append]
  | cons x l ih => rw [List.flatMap_cons, List.append_assoc, one, ih, more x l, List.append_assoc]

theorem rangeEntries_cons (cfg : Configuration) (v : DhcpVersion) (r : Range) (l : List Range) :
    rangeEntries cfg v (r :: l) = rangeEntries cfg v [r] ++ rangeEntries cfg v l := by
  simp only [rangeEntries, ← List.map_append, ← List.filter_append, List.cons_append, List.nil_append]

theorem snetEntries_cons (cfg : Configuration) (n : SharedNetwork) (l : List SharedNetwork) :
    snetEntries cfg (n :: l) = snetEntries cfg [n] ++ snetEntries cfg l := by
  simp only [snetEntries, ← List.map_append, ← List.filter_append, List.cons_append, List.nil_append]

/-! ## The two sections -/

/-- The section of the ranges, when a report is printed. -/
def rangeSection (cfg : Configuration) (v : DhcpVersion) (ranges : List Range) (past : Range) (c : Classified) :
    Option (List Piece) :=
  if rBit cfg.headerLimit then do
    let perf ← if cfg.perfdata && rBit cfg.numberLimit
      then rangePerfdata cfg v (ranges ++ [past]) ranges.length c.ranges.rangeP else some []
    some (counterText " Ranges" "range" c.ranges.count ++ perf ++ [.text "\n"])
  else some [.text " "]

/-- The section of the shared networks, when a report is printed. -/
def snetSection (cfg : Configuration) (nets : List SharedNetwork) (c : Classified) : Option (List Piece) :=
  if sBit cfg.headerLimit then do
    let perf ← if cfg.perfdata && rBit cfg.headerLimit
      then (snetPerfdata cfg nets (nets.length - 1) c.sharedP).map (· ++ [.text "\n"]) else some []
    some (counterText "Shared nets" "snet" c.nets ++ perf)
  else some []

theorem outputAlarming_silent {cfg : Configuration} {v : DhcpVersion} {programName : List Char} {ranges : List Range}
    {past : Range} {nets : List SharedNetwork}
    (silent : headline cfg programName (classify cfg v ranges past nets) = none) :
    outputAlarming cfg v programName ranges past nets = some ([], returnValue (classify cfg v ranges past nets)) := by
  simp only [outputAlarming, silent]
  rfl

theorem outputAlarming_report {cfg : Configuration} {v : DhcpVersion} {programName : List Char} {ranges : List Range}
    {past : Range} {nets : List SharedNetwork} {opening : List Piece}
    (printed : headline cfg programName (classify cfg v ranges past nets) = some opening) :
    outputAlarming cfg v programName ranges past nets = (do
      let rangePart ← rangeSection cfg v ranges past (classify cfg v ranges past nets)
      let snetPart ← snetSection cfg nets (classify cfg v ranges past nets)
      return (opening ++ rangePart ++ snetPart ++ [.text "\n"], returnValue (classify cfg v ranges past nets))) := by
  simp only [outputAlarming, printed, rangeSection, snetSection]
  cases rBit cfg.headerLimit <;> cases sBit cfg.headerLimit <;> cases cfg.perfdata && rBit cfg.numberLimit <;>
    cases cfg.perfdata <;> simp [Option.bind_assoc]

/-- Without perfdata nothing is read outside the tables. -/
theorem outputAlarming_plain (cfg : Configuration) (v : DhcpVersion) (programName : List Char) (ranges : List Range)
    (past : Range) (nets : List SharedNetwork) (off : cfg.perfdata = false) :
    ∃ out, outputAlarming cfg v programName ranges past nets = some out := by
  cases opens : headline cfg programName (classify cfg v ranges past nets) with
  | none => exact ⟨_, outputAlarming_silent opens⟩
  | some opening =>
    rw [outputAlarming_report opens]
    simp only [rangeSection, snetSection, off, Bool.false_and]
    cases rBit cfg.headerLimit <;> cases sBit cfg.headerLimit <;> exact ⟨_, rfl⟩

theorem counterText_plain {κ : Type} {key : Piece → Option κ} (text : ∀ s, key (.text s) = none)
    (int : ∀ n, key (.int n) = none) (title label : String) (c : Counters) :
    ∀ p ∈ counterText title label c, key p = none := by
  cases some_ : c.ignored != 0 <;> simp [counterText, shown, some_, text, int]

/-- What the walks print belongs to the entries. -/
theorem walkBack_plain {α β : Type} {print : α → List β} {key : β → Prop} (plain : ∀ x, ∀ p ∈ print x, key p)
    {table : List α} {n : Nat} {p : Int} {text : List β} (printed : walkBack print table n p = some text) :
    ∀ q ∈ text, key q := by
  induction n generalizing p text with
  | zero => simp [← Option.some.inj printed]
  | succ n ih =>
    simp only [walkBack, Option.bind_eq_bind, Option.bind_eq_some_iff, Option.pure_def, Option.some.injEq] at printed
    obtain ⟨x, -, later, rest, rfl⟩ := printed
    intro q member
    rcases List.mem_append.mp member with first | second
    · exact plain x q first
    · exact ih rest q second

theorem rangePerf_nameless (cfg : Configuration) (v : DhcpVersion) (r : Range) : ∀ p ∈ rangePerf cfg v r, nameOf p = none := by
  by_cases large : cfg.minsize < getRangeSize v r
  · cases backups : cfg.backupsFound <;> simp [rangePerf, large, shown, backups, nameOf]
  · simp [rangePerf, large]

theorem snetPerf_addressless (cfg : Configuration) (n : SharedNetwork) : ∀ p ∈ snetPerf cfg n, addressOf p = none := by
  by_cases large : cfg.minsize < n.available
  · cases backups : cfg.backupsFound <;> simp [snetPerf, large, shown, backups, addressOf]
  · simp [snetPerf, large]

theorem rangeSection_nameless {cfg : Configuration} {v : DhcpVersion} {ranges : List Range} {past : Range}
    {c : Classified} {text : List Piece} (printed : rangeSection cfg v ranges past c = some text) :
    ∀ p ∈ text, nameOf p = none := by
  have counters : ∀ p ∈ counterText " Ranges" "range" c.ranges.count, nameOf p = none :=
    counterText_plain (fun _ => rfl) (fun _ => rfl) _ _ _
  rw [rangeSection] at printed
  split_ifs at printed
  · rw [rangePerfdata_walk, Option.bind_eq_bind, Option.bind_eq_some_iff] at printed
    obtain ⟨perf, walked, same⟩ := printed
    obtain rfl := Option.some.inj same
    have entries_ := walkBack_plain (rangePerf_nameless cfg v) walked
    simp only [List.mem_append, List.mem_singleton]
    rintro p ((first | second) | rfl)
    · exact counters p first
    · exact entries_ p second
    · rfl
  · simp only [Option.bind_eq_bind, Option.bind_some, List.append_nil, Option.some.injEq] at printed
    rw [← printed]
    simp only [List.mem_append, List.mem_singleton]
    rintro p (first | rfl)
    · exact counters p first
    · rfl
  · rw [← Option.some.inj printed]
    simp [nameOf]

theorem snetSection_addressless {cfg : Configuration} {nets : List SharedNetwork} {c : Classified}
    {text : List Piece} (printed : snetSection cfg nets c = some text) : ∀ p ∈ text, addressOf p = none := by
  have counters : ∀ p ∈ counterText "Shared nets" "snet" c.nets, addressOf p = none :=
    counterText_plain (fun _ => rfl) (fun _ => rfl) _ _ _
  rw [snetSection] at printed
  split_ifs at printed
  · rw [snetPerfdata_walk, Option.bind_eq_bind, Option.bind_eq_some_iff] at printed
    obtain ⟨perf, walked, same⟩ := printed
    obtain rfl := Option.some.inj same
    obtain ⟨walk, stepped, rfl⟩ := Option.map_eq_some_iff.mp walked
    have entries_ := walkBack_plain (snetPerf_addressless cfg) stepped
    simp only [List.mem_append, List.mem_singleton]
    rintro p (first | second | rfl)
    · exact counters p first
    · exact entries_ p second
    · rfl
  · simp only [Option.bind_eq_bind, Option.bind_some, List.append_nil, Option.some.injEq] at printed
    rw [← printed]
    exact counters
  · rw [← Option.some.inj printed]
    simp

/-! ## Where the walks start -/

theorem classified_length_iff (cfg : Configuration) (ranges : List Range) :
    (classified cfg ranges).length = ranges.length ↔ ∀ r ∈ ranges, Considered cfg r := by
  constructor
  · intro same r member
    have whole : classified cfg ranges = ranges := (List.takeWhile_prefix _).eq_of_length same
    rw [← whole] at member
    simpa using List.mem_takeWhile_imp member
  · intro considered
    rw [classified, List.takeWhile_eq_self_iff.mpr fun r member => by simpa using considered r member]

/-- The range section with perfdata: all ranges from the back, or a read in front of the table. -/
theorem rangeSection_perfdata {cfg : Configuration} (v : DhcpVersion) (ranges : List Range) (past : Range)
    (nets : List SharedNetwork) (on : cfg.perfdata = true) (header : rBit cfg.headerLimit = true)
    (number : rBit cfg.numberLimit = true) :
    rangeSection cfg v ranges past (classify cfg v ranges past nets) =
      if ∀ r ∈ ranges, Considered cfg r then
        some (counterText " Ranges" "range" (classify cfg v ranges past nets).ranges.count ++
          ranges.reverse.flatMap (rangePerf cfg v) ++ [.text "\n"])
      else none := by
  have start := (classify_ranges cfg v ranges past nets number).1
  simp only [rangeSection, header, on, number, Bool.and_self, if_true, rangePerfdata_walk]
  rw [start]
  by_cases considered : ∀ r ∈ ranges, Considered cfg r
  · have whole := walkBack_end (rangePerf cfg v) [] ranges [past]
    rw [List.nil_append, List.length_nil, Nat.cast_zero, Int.zero_add] at whole
    rw [if_pos considered, (classified_length_iff cfg ranges).mpr considered, whole]
    rfl
  · have less : (classified cfg ranges).length < ranges.length :=
      lt_of_le_of_ne (List.takeWhile_prefix _).length_le (fun same => considered ((classified_length_iff cfg ranges).mp same))
    rw [if_neg considered, walkBack_under _ _ less]
    rfl

/-- The shared network section with perfdata: all networks from the back when they were counted,
    else `shared_networks[0]` and what stands before it. -/
theorem snetSection_perfdata {cfg : Configuration} (v : DhcpVersion) (ranges : List Range) (past : Range)
    (nets : List SharedNetwork) (on : cfg.perfdata = true) (ranged : rBit cfg.headerLimit = true)
    (header : sBit cfg.headerLimit = true) :
    snetSection cfg nets (classify cfg v ranges past nets) =
      (if sBit cfg.numberLimit = true ∨ nets.length ≤ 1 then some (nets.tail.reverse.flatMap (snetPerf cfg))
        else if nets.length = 2 then some ((nets.take 1).flatMap (snetPerf cfg)) else none).map
        (fun perf => counterText "Shared nets" "snet" (classify cfg v ranges past nets).nets ++ (perf ++ [.text "\n"])) := by
  have start : (classify cfg v ranges past nets).sharedP = if sBit cfg.numberLimit then nets.length - 1 else 0 := rfl
  simp only [snetSection, header, on, ranged, Bool.and_self, if_true, snetPerfdata_walk, start]
  generalize (classify cfg v ranges past nets).nets = counted
  have walked : walkBack (snetPerf cfg) nets (nets.length - 1)
      ((if sBit cfg.numberLimit then nets.length - 1 else 0 : Nat) : Int) =
      if sBit cfg.numberLimit = true ∨ nets.length ≤ 1 then some (nets.tail.reverse.flatMap (snetPerf cfg))
        else if nets.length = 2 then some ((nets.take 1).flatMap (snetPerf cfg)) else none := by
    cases nets with
    | nil => simp [walkBack]
    | cons all rest =>
      by_cases counted : sBit cfg.numberLimit = true
      · have whole := walkBack_end (snetPerf cfg) [all] rest []
        simpa [counted, List.length_singleton] using whole
      · rw [if_neg counted]
        cases rest with
        | nil => simp [walkBack]
        | cons one more =>
          cases more with
          | nil => simp [walkBack, entry, counted]
          | cons two more =>
            have under := walkBack_under (snetPerf cfg) (all :: one :: two :: more)
              (show 1 < (all :: one :: two :: more).length - 1 by simp)
            simpa [counted] using under
  rw [walked]
  generalize (if sBit cfg.numberLimit = true ∨ nets.length ≤ 1 then some (nets.tail.reverse.flatMap (snetPerf cfg))
    else if nets.length = 2 then some ((nets.take 1).flatMap (snetPerf cfg)) else none) = perf
  cases perf <;> rfl

/-- The two sections without perfdata are always printed. -/
theorem rangeSection_plain {cfg : Configuration} (v : DhcpVersion) (ranges : List Range) (past : Range) (c : Classified)
    (off : ¬(rBit cfg.headerLimit = true ∧ rBit cfg.numberLimit = true)) :
    ∃ text, rangeSection cfg v ranges past c = some text := by
  rw [rangeSection]
  by_cases header : rBit cfg.headerLimit = true
  · have number : ¬(cfg.perfdata && rBit cfg.numberLimit) = true := by
      rw [Bool.and_eq_true]
      exact fun both => off ⟨header, both.2⟩
    rw [if_pos header, if_neg number]
    exact ⟨_, rfl⟩
  · rw [if_neg header]
    exact ⟨_, rfl⟩

theorem snetSection_plain {cfg : Configuration} (nets : List SharedNetwork) (c : Classified)
    (off : ¬(rBit cfg.headerLimit = true ∧ sBit cfg.headerLimit = true)) :
    ∃ text, snetSection cfg nets c = some text := by
  rw [snetSection]
  by_cases header : sBit cfg.headerLimit = true
  · have ranged : ¬(cfg.perfdata && rBit cfg.headerLimit) = true := by
      rw [Bool.and_eq_true]
      exact fun both => off ⟨both.2, header⟩
    rw [if_pos header, if_neg ranged]
    exact ⟨_, rfl⟩
  · rw [if_neg header]
    exact ⟨_, rfl⟩

/-! ## Every monitored object once -/

/-- Perfdata as documented: no read outside the tables, and where the perfdata of the ranges or of the
    shared networks is printed, one entry for each that is larger than `minsize`. -/
structure PerfdataRight (cfg : Configuration) (v : DhcpVersion) (ranges : List Range) (nets : List SharedNetwork)
    (result : Option (List Piece × Nat)) : Prop where
  inside : result ≠ none
  ranges : ∀ out ∈ result, out.1 ≠ [] → rBit cfg.headerLimit = true → rBit cfg.numberLimit = true →
    (entries addressOf "_r=" out.1).Perm (rangeEntries cfg v ranges)
  networks : ∀ out ∈ result, out.1 ≠ [] → rBit cfg.headerLimit = true → sBit cfg.headerLimit = true →
    (entries nameOf "_s'=" out.1).Perm (snetEntries cfg nets.tail)

/-- Without their classification loop, the walk over the shared networks does no harm when there is none,
    or one that has the same entry as `shared_networks[0]` (or neither has one). -/
def Harmless (cfg : Configuration) (nets : List SharedNetwork) : Prop :=
  nets.length ≤ 1 ∨ nets.length = 2 ∧ snetEntries cfg (nets.take 1) = snetEntries cfg nets.tail

/-- Both walks start at the end of their table. -/
def WalksRight (cfg : Configuration) (ranges : List Range) (nets : List SharedNetwork) : Prop :=
  (rBit cfg.headerLimit = true → rBit cfg.numberLimit = true → ∀ r ∈ ranges, Considered cfg r) ∧
    (rBit cfg.headerLimit = true → sBit cfg.headerLimit = true → sBit cfg.numberLimit = true ∨ Harmless cfg nets)

theorem rangeEntries_reverse (cfg : Configuration) (v : DhcpVersion) (ranges : List Range) :
    (rangeEntries cfg v ranges.reverse).Perm (rangeEntries cfg v ranges) := by
  simp only [rangeEntries, List.filter_reverse, List.map_reverse]
  exact List.reverse_perm _

theorem snetEntries_reverse (cfg : Configuration) (nets : List SharedNetwork) :
    (snetEntries cfg nets.reverse).Perm (snetEntries cfg nets) := by
  simp only [snetEntries, List.filter_reverse, List.map_reverse]
  exact List.reverse_perm _

/-- The range section is right exactly when its walk starts at the end of the table. -/
theorem rangeSection_right {cfg : Configuration} (v : DhcpVersion) (ranges : List Range) (past : Range)
    (nets : List SharedNetwork) (on : cfg.perfdata = true) {rest : List Piece} (plain : ∀ p ∈ rest, addressOf p = none) :
    (∃ text, rangeSection cfg v ranges past (classify cfg v ranges past nets) = some text ∧
        (rBit cfg.headerLimit = true → rBit cfg.numberLimit = true →
          (entries addressOf "_r=" (text ++ rest)).Perm (rangeEntries cfg v ranges))) ↔
      (rBit cfg.headerLimit = true → rBit cfg.numberLimit = true → ∀ r ∈ ranges, Considered cfg r) := by
  by_cases asked : rBit cfg.headerLimit = true ∧ rBit cfg.numberLimit = true
  · obtain ⟨header, number⟩ := asked
    rw [rangeSection_perfdata v ranges past nets on header number]
    simp only [header, number, true_implies]
    by_cases considered : ∀ r ∈ ranges, Considered cfg r
    · rw [if_pos considered]
      refine ⟨fun _ => considered, fun _ => ⟨_, rfl, ?_⟩⟩
      have counters : ∀ p ∈ counterText " Ranges" "range" (classify cfg v ranges past nets).ranges.count,
          addressOf p = none := counterText_plain (fun _ => rfl) (fun _ => rfl) _ _ _
      have printed := entries_flatMap rfl (rangeEntries_cons cfg v) (entries_rangePerf cfg v) ranges.reverse
        ([.text "\n"] ++ rest)
      have none : entries addressOf "_r=" ([.text "\n"] ++ rest) = [] := by
        rw [List.singleton_append, entries_address_text, ← List.append_nil rest, entries_append plain]
        rfl
      rw [List.append_assoc, List.append_assoc, entries_append counters, printed, none, List.append_nil]
      exact rangeEntries_reverse cfg v ranges
    · rw [if_neg considered]
      simp [considered]
  · obtain ⟨text, printed⟩ := rangeSection_plain v ranges past (classify cfg v ranges past nets) asked
    refine ⟨fun _ header number => absurd ⟨header, number⟩ asked, fun _ => ⟨text, printed, fun header number => ?_⟩⟩
    exact absurd ⟨header, number⟩ asked

theorem eq_of_perm_short {α : Type} {l l' : List α} (short : l.length ≤ 1) (same : l.Perm l') : l = l' := by
  rcases l with _ | ⟨x, _ | ⟨y, l⟩⟩
  · exact (List.nil_perm.mp same).symm
  · exact (List.singleton_perm.mp same).symm ▸ rfl
  · simp at short

/-- The shared network section is right exactly when its walk starts at the end of the table or does no harm. -/
theorem snetSection_right {cfg : Configuration} (v : DhcpVersion) (ranges : List Range) (past : Range)
    (nets : List SharedNetwork) (on : cfg.perfdata = true) {rest : List Piece} (plain : ∀ p ∈ rest, nameOf p = none) :
    (∃ text, snetSection cfg nets (classify cfg v ranges past nets) = some text ∧
        (rBit cfg.headerLimit = true → sBit cfg.headerLimit = true →
          (entries nameOf "_s'=" (text ++ rest)).Perm (snetEntries cfg nets.tail))) ↔
      (rBit cfg.headerLimit = true → sBit cfg.headerLimit = true → sBit cfg.numberLimit = true ∨ Harmless cfg nets) := by
  by_cases asked : rBit cfg.headerLimit = true ∧ sBit cfg.headerLimit = true
  · obtain ⟨ranged, header⟩ := asked
    have counters : ∀ p ∈ counterText "Shared nets" "snet" (classify cfg v ranges past nets).nets,
        nameOf p = none := counterText_plain (fun _ => rfl) (fun _ => rfl) _ _ _
    have printed : ∀ (l : List SharedNetwork) (rest : List Piece), (∀ p ∈ rest, nameOf p = none) →
        entries nameOf "_s'=" (counterText "Shared nets" "snet" (classify cfg v ranges past nets).nets ++
          (l.flatMap (snetPerf cfg) ++ [.text "\n"]) ++ rest) = snetEntries cfg l := by
      intro l rest plain
      have none : entries nameOf "_s'=" ([.text "\n"] ++ rest) = [] := by
        rw [List.singleton_append, entries_name_text, ← List.append_nil rest, entries_append plain]
        rfl
      rw [List.append_assoc, entries_append counters, List.append_assoc,
        entries_flatMap rfl (snetEntries_cons cfg) (entries_snetPerf cfg), none, List.append_nil]
    rw [snetSection_perfdata v ranges past nets on ranged header]
    simp only [header, ranged, true_implies]
    by_cases counted : sBit cfg.numberLimit = true ∨ nets.length ≤ 1
    · rw [if_pos counted]
      refine ⟨fun _ => counted.imp_right .inl, fun _ => ⟨_, rfl, ?_⟩⟩
      rw [printed _ rest plain]
      exact snetEntries_reverse cfg nets.tail
    · rw [if_neg counted]
      rw [not_or] at counted
      have harm : (sBit cfg.numberLimit = true ∨ Harmless cfg nets) ↔
          nets.length = 2 ∧ snetEntries cfg (nets.take 1) = snetEntries cfg nets.tail := by
        rw [or_iff_right counted.1, Harmless, or_iff_right counted.2]
      rw [harm]
      by_cases one : nets.length = 2
      · rw [if_pos one]
        constructor
        · rintro ⟨text, here, right⟩
          obtain rfl := Option.some.inj here
          have same := right
          rw [printed _ rest plain] at same
          refine ⟨one, eq_of_perm_short ?_ same⟩
          rw [snetEntries, List.length_map]
          exact le_trans (List.length_filter_le _ _) (List.length_take_le 1 nets)
        · rintro ⟨-, same⟩
          refine ⟨_, rfl, ?_⟩
          rw [printed _ rest plain, same]
      · rw [if_neg one]
        simp [one]
  · obtain ⟨text, printed⟩ := snetSection_plain nets (classify cfg v ranges past nets) asked
    refine ⟨fun _ header number => absurd ⟨header, number⟩ asked, fun _ => ⟨text, printed, fun header number => ?_⟩⟩
    exact absurd ⟨header, number⟩ asked

/-- No perfdata entry is in the word that opens the report. -/
theorem entries_headline {cfg : Configuration} {programName : List Char} {c : Classified} {opening : List Piece}
    (printed : headline cfg programName c = some opening) (rest : List Piece) :
    entries addressOf "_r=" (opening ++ rest) = entries addressOf "_r=" rest ∧
      entries nameOf "_s'=" (opening ++ rest) = entries nameOf "_s'=" rest := by
  have named : ∀ word : String,
      entries addressOf "_r=" ([Piece.text word, Piece.name programName, Piece.text ":"] ++ rest) =
        entries addressOf "_r=" rest ∧
      entries nameOf "_s'=" ([Piece.text word, Piece.name programName, Piece.text ":"] ++ rest) =
        entries nameOf "_s'=" rest := by
    intro word
    refine ⟨entries_append (by simp [addressOf]) rest, ?_⟩
    simp [entries_label]
  rw [headline] at printed
  split_ifs at printed
  · exact Option.some.inj printed ▸ named "CRITICAL: "
  · exact Option.some.inj printed ▸ named "WARNING: "
  · rw [← Option.some.inj printed]
    simp

/-- Perfdata lists every monitored object once, inside the tables, exactly when no report is printed or
    both walks start at the end of their table. -/
theorem perfdata_iff (cfg : Configuration) (v : DhcpVersion) (programName : List Char) (ranges : List Range)
    (past : Range) (nets : List SharedNetwork) (on : cfg.perfdata = true) :
    PerfdataRight cfg v ranges nets (outputAlarming cfg v programName ranges past nets) ↔
      (Reported cfg v ranges nets → WalksRight cfg ranges nets) := by
  cases word : headline cfg programName (classify cfg v ranges past nets) with
  | none =>
    have silent : ¬Reported cfg v ranges nets := (headline_none_iff cfg v programName ranges past nets).mp word
    rw [outputAlarming_silent word]
    refine ⟨fun _ reported => absurd reported silent, fun _ => ⟨by simp, ?_, ?_⟩⟩
    · rintro out member filled
      exact absurd (congrArg Prod.fst (Option.some.inj member)).symm filled
    · rintro out member filled
      exact absurd (congrArg Prod.fst (Option.some.inj member)).symm filled
  | some opening =>
    have reported : Reported cfg v ranges nets := by
      by_contra silent
      rw [(headline_none_iff cfg v programName ranges past nets).mpr silent] at word
      cases word
    have after : ∀ {text}, snetSection cfg nets (classify cfg v ranges past nets) = some text →
        ∀ p ∈ text ++ [.text "\n"], addressOf p = none := by
      intro text printed p member
      rcases List.mem_append.mp member with inside | last
      · exact snetSection_addressless printed p inside
      · rw [List.mem_singleton.mp last]
        rfl
    have shared := snetSection_right v ranges past nets on (show ∀ p ∈ [Piece.text "\n"], nameOf p = none by simp [nameOf])
    rw [outputAlarming_report word]
    constructor
    · rintro ⟨inside, once, onceNets⟩ -
      cases rangePart : rangeSection cfg v ranges past (classify cfg v ranges past nets) with
      | none => simp [rangePart] at inside
      | some r =>
        cases snetPart : snetSection cfg nets (classify cfg v ranges past nets) with
        | none => simp [rangePart, snetPart] at inside
        | some s =>
          simp only [rangePart, snetPart, Option.bind_eq_bind, Option.bind_some, Option.pure_def, Option.mem_def,
            Option.some.injEq, forall_eq', List.append_assoc] at once onceNets
          rw [(entries_headline word _).1] at once
          rw [(entries_headline word _).2, entries_append (rangeSection_nameless rangePart)] at onceNets
          exact ⟨(rangeSection_right v ranges past nets on (after snetPart)).mp ⟨r, rangePart, once (by simp)⟩,
            shared.mp ⟨s, snetPart, onceNets (by simp)⟩⟩
    · intro walks
      obtain ⟨rangeWalk, snetWalk⟩ := walks reported
      obtain ⟨s, snetPart, onceNets⟩ := shared.mpr snetWalk
      obtain ⟨r, rangePart, once⟩ := (rangeSection_right v ranges past nets on (after snetPart)).mpr rangeWalk
      rw [rangePart, snetPart]
      refine ⟨by simp, ?_, ?_⟩
      · rintro out member - header number
        obtain rfl := Option.some.inj member
        simp only [List.append_assoc]
        rw [(entries_headline word _).1]
        exact once header number
      · rintro out member - ranged header
        obtain rfl := Option.some.inj member
        simp only [List.append_assoc]
        rw [(entries_headline word _).2, entries_append (rangeSection_nameless rangePart)]
        exact onceNets ranged header

/-- The sample configuration with perfdata. -/
def perfdataConfiguration : Configuration := { sampleConfiguration with perfdata := true }

theorem perfdata_iff_sample :
    perfdataConfiguration.perfdata = true ∧
      PerfdataRight { perfdataConfiguration with snetAlarms := false } .IPv4 [fullRange 1, fullRange 0]
        [fullNetwork, fullNetwork]
        (outputAlarming { perfdataConfiguration with snetAlarms := false } .IPv4 "dhcpd-pools".toList
          [fullRange 1, fullRange 0] (fullRange 0) [fullNetwork, fullNetwork]) := by
  refine ⟨rfl, (perfdata_iff _ _ _ _ _ _ rfl).mpr fun _ => ⟨fun _ _ r _ on => ?_, fun _ _ => .inl (by decide)⟩⟩
  cases on

/-- With `--snet-alarms`, one range of a shared network makes the perfdata loop read `ranges[-1]`. -/
theorem perfdata_reads_before :
    ¬PerfdataRight perfdataConfiguration .IPv4 [fullRange 1] [fullNetwork, fullNetwork]
      (outputAlarming perfdataConfiguration .IPv4 "dhcpd-pools".toList [fullRange 1] (fullRange 0)
        [fullNetwork, fullNetwork]) := by
  intro right
  exact right.inside (by decide +kernel)

end DhcpdPools.Alarm
