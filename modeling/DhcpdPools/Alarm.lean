import DhcpdPools.Tables

/-!
`output_alarming`: the classification of ranges and shared networks and the text
of the Nagios report. With `--snet-alarms` the range loop stays on the first range
of a shared network, so it classifies only the ranges before it
(`rangeLoop_spec`); the shared network loop compares the number of used leases,
not of free ones, with the count limits.
-/
namespace DhcpdPools.Alarm

/-- The counters `rc`, `rw`, `ro`, `ri`, and likewise `sc`, `sw`, `so`, `si`. -/
structure Counters where
  crit : Nat
  warn : Nat
  ok : Nat
  ignored : Nat
deriving DecidableEq, Repr

/-- The variables that the range loop carries. -/
structure RangeLoop where
  rangeP : Nat
  rangeSize : ℚ
  count : Counters

/-- The range at an index; `past` is the allocated entry after the last range. -/
def rangeAt (ranges : List Range) (past : Range) (i : Nat) : Range := ranges[i]?.getD past

/-- The body of the range loop. The early `continue` leaves the pointer where it is. With a
    negative `minsize` a range may have no addresses: its percentage is 0 here, and infinite
    or not a number in C. -/
def rangeStep (cfg : Configuration) (v : DhcpVersion) (ranges : List Range) (past : Range) (s : RangeLoop) :
    RangeLoop :=
  let r := rangeAt ranges past s.rangeP
  if cfg.snetAlarms = true ∧ r.sharedNet ≠ some 0 then s
  else
    let count :=
      if cfg.minsize < s.rangeSize then
        let perc := 100 * r.count / s.rangeSize
        if cfg.critical < perc ∧ s.rangeSize - r.count < cfg.critCount then
          { s.count with crit := s.count.crit + 1 }
        else if cfg.warning < perc ∧ s.rangeSize - r.count < cfg.warnCount then
          { s.count with warn := s.count.warn + 1 }
        else { s.count with ok := s.count.ok + 1 }
      else { s.count with ignored := s.count.ignored + 1 }
    ⟨s.rangeP + 1, getRangeSize v (rangeAt ranges past (s.rangeP + 1)), count⟩

/-- The range loop with `n` rounds to go. -/
def rangeLoop (cfg : Configuration) (v : DhcpVersion) (ranges : List Range) (past : Range) :
    Nat → RangeLoop → RangeLoop
  | 0, s => s
  | n + 1, s => rangeLoop cfg v ranges past n (rangeStep cfg v ranges past s)

/-- The body of the shared network loop for the entry that the pointer is moved to. -/
def snetStep (cfg : Configuration) (s : Counters) (n : SharedNetwork) : Counters :=
  if cfg.minsize < n.available then
    let perc := if n.available = 0 then 100 else 100 * n.used / n.available
    if cfg.critical < perc ∧ n.used < cfg.critCount then { s with crit := s.crit + 1 }
    else if cfg.warning < perc ∧ n.used < cfg.warnCount then { s with warn := s.warn + 1 }
    else { s with ok := s.ok + 1 }
  else { s with ignored := s.ignored + 1 }

/-- The loop variables when both classification loops are done. -/
structure Classified where
  ranges : RangeLoop
  sharedP : Nat
  nets : Counters

/-- The two classification loops. `nets` are the entries `0..num_shared_networks`. -/
def classify (cfg : Configuration) (v : DhcpVersion) (ranges : List Range) (past : Range)
    (nets : List SharedNetwork) : Classified :=
  let start : RangeLoop := ⟨0, getRangeSize v (rangeAt ranges past 0), ⟨0, 0, 0, 0⟩⟩
  { ranges := if rBit cfg.numberLimit then rangeLoop cfg v ranges past ranges.length start else start
    sharedP := if sBit cfg.numberLimit then nets.length - 1 else 0
    nets := if sBit cfg.numberLimit then nets.tail.foldl (snetStep cfg) ⟨0, 0, 0, 0⟩ else ⟨0, 0, 0, 0⟩ }

/-! ## The report -/

/-- What `fprintf` is given: literal text, `%d`, `%g`, and `%s` of a name or of an address. -/
inductive Piece where
  | text (s : String)
  | int (n : Nat)
  | number (x : ℚ)
  | name (s : List Char)
  | address (a : Ipaddr)
deriving DecidableEq

/-- `STATE_OK`, `STATE_WARNING` and `STATE_CRITICAL`. -/
def returnValue (c : Classified) : Nat :=
  if c.nets.crit ≠ 0 ∨ c.ranges.count.crit ≠ 0 then 2
  else if c.nets.warn ≠ 0 ∨ c.ranges.count.warn ≠ 0 then 1
  else 0

/-- The word that opens the report, `none` when nothing is to be reported. -/
def headline (cfg : Configuration) (programName : List Char) (c : Classified) : Option (List Piece) :=
  if (0 < c.ranges.count.crit ∧ rBit cfg.numberLimit) ∨ (0 < c.nets.crit ∧ sBit cfg.numberLimit) then
    some [.text "CRITICAL: ", .name programName, .text ":"]
  else if (0 < c.ranges.count.warn ∧ rBit cfg.numberLimit) ∨ (0 < c.nets.warn ∧ sBit cfg.numberLimit) then
    some [.text "WARNING: ", .name programName, .text ":"]
  else if aBit cfg.numberLimit then some [.text "OK:"]
  else none

/-- Pieces that are printed under a condition. -/
def shown (condition : Bool) (pieces : List Piece) : List Piece := if condition then pieces else []

/-- The counters of a section, for a reader and for a program; `label` is the
    prefix of the second. -/
def counterText (title label : String) (c : Counters) : List Piece :=
  List.flatten [
    [.text title, .text " - crit: ", .int c.crit, .text " warn: ", .int c.warn, .text " ok: ", .int c.ok],
    shown (c.ignored != 0) [.text " ignored: ", .int c.ignored],
    [.text "; | ", .text label, .text "_crit=", .int c.crit, .text " ", .text label, .text "_warn=", .int c.warn,
      .text " ", .text label, .text "_ok=", .int c.ok],
    shown (c.ignored != 0) [.text " ", .text label, .text "_ignored=", .int c.ignored]]

/-- An entry of an array, `none` for a read outside it. -/
def entry {α : Type} (table : List α) (i : Int) : Option α := if 0 ≤ i then table[i.toNat]? else none

/-- The perfdata of one range. -/
def rangePerf (cfg : Configuration) (v : DhcpVersion) (r : Range) : List Piece :=
  let rangeSize := getRangeSize v r
  if cfg.minsize < rangeSize then
    [.text " ", .address r.firstIp, .text "_r=", .number r.count, .text ";",
      .number (rangeSize * cfg.warning / 100), .text ";", .number (rangeSize * cfg.critical / 100), .text ";0;",
      .number rangeSize, .text " ", .address r.firstIp, .text "_rt=", .number r.touched].append
    (shown cfg.backupsFound [.text " ", .address r.firstIp, .text "_rbu=", .number r.backups])
  else []

/-- The range perfdata loop, which walks back from `p`. -/
def rangePerfdata (cfg : Configuration) (v : DhcpVersion) (table : List Range) : Nat → Int → Option (List Piece)
  | 0, _ => some []
  | n + 1, p => do
    let r ← entry table (p - 1)
    let later ← rangePerfdata cfg v table n (p - 1)
    return rangePerf cfg v r ++ later

/-- The perfdata of one shared network. -/
def snetPerf (cfg : Configuration) (n : SharedNetwork) : List Piece :=
  if cfg.minsize < n.available then
    [.text " '", .name n.name, .text "_s'=", .number n.used, .text ";", .number (n.available * cfg.warning / 100),
      .text ";", .number (n.available * cfg.critical / 100), .text ";0;", .number n.available, .text " '",
      .name n.name, .text "_st'=", .number n.touched].append
    (shown cfg.backupsFound [.text " '", .name n.name, .text "_sbu'=", .number n.backups])
  else []

/-- The shared network perfdata loop, which walks back from `p`. -/
def snetPerfdata (cfg : Configuration) (nets : List SharedNetwork) : Nat → Int → Option (List Piece)
  | 0, _ => some []
  | n + 1, p => do
    let net ← entry nets p
    let later ← snetPerfdata cfg nets n (p - 1)
    return snetPerf cfg net ++ later

/-- `output_alarming`: the report and the return value, `none` when an entry outside
    the tables is read. -/
def outputAlarming (cfg : Configuration) (v : DhcpVersion) (programName : List Char) (ranges : List Range)
    (past : Range) (nets : List SharedNetwork) : Option (List Piece × Nat) := do
  let c := classify cfg v ranges past nets
  match headline cfg programName c with
  | none => return ([], returnValue c)
  | some opening =>
    let rangePart ←
      if rBit cfg.headerLimit then do
        let perf ← if cfg.perfdata && rBit cfg.numberLimit
          then rangePerfdata cfg v (ranges ++ [past]) ranges.length c.ranges.rangeP else some []
        some (counterText " Ranges" "range" c.ranges.count ++ perf ++ [.text "\n"])
      else some [.text " "]
    let snetPart ←
      if sBit cfg.headerLimit then do
        let perf ← if cfg.perfdata && rBit cfg.headerLimit
          then (snetPerfdata cfg nets (nets.length - 1) c.sharedP).map (· ++ [.text "\n"]) else some []
        some (counterText "Shared nets" "snet" c.nets ++ perf)
      else some []
    return (opening ++ rangePart ++ snetPart ++ [.text "\n"], returnValue c)

/-! ## The documented criterion -/

/-- The four classes of an entry. -/
inductive Verdict where
  | critical
  | warning
  | ok
  | ignored
deriving DecidableEq, Repr

/-- How alarming a class is. -/
def Verdict.rank : Verdict → Nat
  | .critical => 3
  | .warning => 2
  | .ok => 1
  | .ignored => 0

/-- Adding an entry of the given class. -/
def Counters.add (c : Counters) : Verdict → Counters
  | .critical => { c with crit := c.crit + 1 }
  | .warning => { c with warn := c.warn + 1 }
  | .ok => { c with ok := c.ok + 1 }
  | .ignored => { c with ignored := c.ignored + 1 }

/-- The class of an entry of `size` addresses with `used` of them in use: both the
    percentage and the number of free addresses decide. -/
def documented (cfg : Configuration) (perc size used : ℚ) : Verdict :=
  if cfg.minsize < size then
    if cfg.critical < perc ∧ size - used < cfg.critCount then .critical
    else if cfg.warning < perc ∧ size - used < cfg.warnCount then .warning
    else .ok
  else .ignored

/-- The class of a range; for one without addresses see `rangeStep`. -/
def rangeVerdict (cfg : Configuration) (v : DhcpVersion) (r : Range) : Verdict :=
  documented cfg (100 * r.count / getRangeSize v r) (getRangeSize v r) r.count

/-- The percentage of a shared network; that of an empty one is taken to be 100, as in the program. -/
def snetPercent (n : SharedNetwork) : ℚ := if n.available = 0 then 100 else 100 * n.used / n.available

/-- The documented class of a shared network. -/
def snetVerdict (cfg : Configuration) (n : SharedNetwork) : Verdict :=
  documented cfg (snetPercent n) n.available n.used

/-- The ranges that the alarms apply to. -/
def Considered (cfg : Configuration) (r : Range) : Prop := cfg.snetAlarms = true → r.sharedNet = some 0

instance (cfg : Configuration) (r : Range) : Decidable (Considered cfg r) :=
  inferInstanceAs (Decidable (_ → _))

/-- How many of the ranges fall into each class. -/
def tally (cfg : Configuration) (v : DhcpVersion) (ranges : List Range) : Counters :=
  let count (d : Verdict) := ranges.countP (fun r => rangeVerdict cfg v r = d)
  ⟨count .critical, count .warning, count .ok, count .ignored⟩

/-! ## The range loop -/

theorem tally_cons (cfg : Configuration) (v : DhcpVersion) (r : Range) (rest : List Range) :
    tally cfg v (r :: rest) = (tally cfg v rest).add (rangeVerdict cfg v r) := by
  cases verdict : rangeVerdict cfg v r <;> simp [tally, Counters.add, verdict]

/-- The sum of two counts. -/
def Counters.plus (a b : Counters) : Counters := ⟨a.crit + b.crit, a.warn + b.warn, a.ok + b.ok, a.ignored + b.ignored⟩

theorem add_plus (a b : Counters) (d : Verdict) : (a.add d).plus b = a.plus (b.add d) := by
  cases d <;> simp [Counters.add, Counters.plus, Nat.add_comm, Nat.add_left_comm]

/-- One round of the range loop: either the pointer stays on a range that the
    alarms do not apply to, or the range is classified and the pointer advances. -/
theorem rangeStep_spec (cfg : Configuration) (v : DhcpVersion) (ranges : List Range) (past : Range)
    (p : Nat) (c : Counters) :
    rangeStep cfg v ranges past ⟨p, getRangeSize v (rangeAt ranges past p), c⟩ =
      if Considered cfg (rangeAt ranges past p) then
        ⟨p + 1, getRangeSize v (rangeAt ranges past (p + 1)), c.add (rangeVerdict cfg v (rangeAt ranges past p))⟩
      else ⟨p, getRangeSize v (rangeAt ranges past p), c⟩ := by
  by_cases considered : Considered cfg (rangeAt ranges past p)
  · have goes : ¬ (cfg.snetAlarms = true ∧ (rangeAt ranges past p).sharedNet ≠ some 0) := by
      rintro ⟨on, outside⟩
      exact outside (considered on)
    simp only [rangeStep, if_neg goes, if_pos considered, rangeVerdict, documented]
    split_ifs <;> rfl
  · have stays : cfg.snetAlarms = true ∧ (rangeAt ranges past p).sharedNet ≠ some 0 := by
      simpa [Considered] using considered
    simp only [rangeStep, if_pos stays, if_neg considered]

/-- The ranges before the first one that the alarms do not apply to. -/
def classified (cfg : Configuration) (ranges : List Range) : List Range :=
  ranges.takeWhile (fun r => decide (Considered cfg r))

/-- The range loop classifies these and stays on the range after them. -/
theorem rangeLoop_spec (cfg : Configuration) (v : DhcpVersion) (ranges : List Range) (past : Range) (n p : Nat)
    (c : Counters) (rounds : p + n = ranges.length) :
    rangeLoop cfg v ranges past n ⟨p, getRangeSize v (rangeAt ranges past p), c⟩ =
      ⟨p + (classified cfg (ranges.drop p)).length,
        getRangeSize v (rangeAt ranges past (p + (classified cfg (ranges.drop p)).length)),
        c.plus (tally cfg v (classified cfg (ranges.drop p)))⟩ := by
  induction n generalizing p c with
  | zero =>
    have done : ranges.drop p = [] := List.drop_eq_nil_iff.mpr (by omega)
    simp [rangeLoop, done, classified, tally, Counters.plus]
  | succ n ih =>
    have inside : p < ranges.length := by omega
    have current : rangeAt ranges past p = ranges[p] := by simp [rangeAt, inside]
    rw [rangeLoop, rangeStep_spec]
    by_cases considered : Considered cfg (rangeAt ranges past p)
    · have more : classified cfg (ranges.drop p) = rangeAt ranges past p :: classified cfg (ranges.drop (p + 1)) := by
        rw [classified, List.drop_eq_getElem_cons inside, List.takeWhile_cons, ← current, if_pos (by simpa), classified]
      rw [if_pos considered, ih (p + 1) _ (by omega), add_plus, more, tally_cons, List.length_cons,
        Nat.add_right_comm p 1, Nat.add_assoc]
    · have stop : classified cfg (ranges.drop p) = [] := by
        rw [classified, List.drop_eq_getElem_cons inside, List.takeWhile_cons, ← current, if_neg (by simpa)]
      -- The pointer never leaves this range again.
      have stuck : ∀ m, rangeLoop cfg v ranges past m ⟨p, getRangeSize v (rangeAt ranges past p), c⟩ =
          ⟨p, getRangeSize v (rangeAt ranges past p), c⟩ := by
        intro m
        induction m with
        | zero => rfl
        | succ m again => rw [rangeLoop, rangeStep_spec, if_neg considered, again]
      rw [if_neg considered, stuck, stop]
      simp [tally, Counters.plus]

/-- The number of entries counted. -/
def Counters.sum (c : Counters) : Nat := c.crit + c.warn + c.ok + c.ignored

theorem sum_add (c : Counters) (d : Verdict) : (c.add d).sum = c.sum + 1 := by
  cases d <;> simp [Counters.add, Counters.sum] <;> omega

theorem tally_sum (cfg : Configuration) (v : DhcpVersion) (ranges : List Range) :
    (tally cfg v ranges).sum = ranges.length := by
  induction ranges with
  | nil => rfl
  | cons r rest ih => rw [tally_cons, sum_add, ih, List.length_cons]

/-- The leading elements satisfying `p` are all that do exactly when none follows one that does not. -/
theorem takeWhile_eq_filter_iff {α : Type} (p : α → Bool) (l : List α) :
    l.takeWhile p = l.filter p ↔ l.Pairwise fun a b => p b = true → p a = true := by
  induction l with
  | nil => simp
  | cons x rest ih =>
    rw [List.pairwise_cons]
    cases holds : p x
    · simp only [List.takeWhile_cons, holds, List.filter_cons, Bool.false_eq_true, if_false, imp_false]
      constructor
      · intro empty
        have absent := List.filter_eq_nil_iff.mp empty.symm
        exact ⟨absent, List.pairwise_of_forall_mem_list fun a _ b member yes => absurd yes (absent b member)⟩
      · rintro ⟨absent, -⟩
        exact (List.filter_eq_nil_iff.mpr absent).symm
    · simp [holds, ih]

/-- The counters of the range loop are those of all ranges that the alarms apply to
    exactly when these stand before all others, or the alarms apply to every range. -/
theorem classify_ranges_iff (cfg : Configuration) (v : DhcpVersion) (ranges : List Range) (past : Range)
    (nets : List SharedNetwork) (asked : rBit cfg.numberLimit = true) :
    (classify cfg v ranges past nets).ranges.count =
        tally cfg v (ranges.filter (fun r => decide (Considered cfg r))) ↔
      (cfg.snetAlarms = true →
        ranges.Pairwise fun a b => b.sharedNet = some 0 → a.sharedNet = some 0) := by
  have counted : (classify cfg v ranges past nets).ranges.count =
      tally cfg v (ranges.takeWhile (fun r => decide (Considered cfg r))) := by
    simp only [classify, asked, if_true]
    rw [rangeLoop_spec cfg v ranges past ranges.length 0 _ (by simp)]
    simp [classified, Counters.plus]
  have order : (cfg.snetAlarms = true → ranges.Pairwise fun a b => b.sharedNet = some 0 → a.sharedNet = some 0) ↔
      ranges.takeWhile (fun r => decide (Considered cfg r)) = ranges.filter (fun r => decide (Considered cfg r)) := by
    rw [takeWhile_eq_filter_iff]
    cases on : cfg.snetAlarms <;> simp [Considered, on, List.pairwise_of_forall]
  rw [counted, order]
  constructor
  · intro same
    -- Equal counters have equal sums, and a prefix as long as the whole is the whole.
    have lengths : (ranges.takeWhile (fun r => decide (Considered cfg r))).length =
        (ranges.filter (fun r => decide (Considered cfg r))).length := by
      rw [← tally_sum cfg v, same, tally_sum]
    have prefix_ : (ranges.takeWhile (fun r => decide (Considered cfg r))).Sublist
        (ranges.filter (fun r => decide (Considered cfg r))) := by
      have sub : ((ranges.takeWhile (fun r => decide (Considered cfg r))).filter
          (fun r => decide (Considered cfg r))).Sublist (ranges.filter (fun r => decide (Considered cfg r))) :=
        (List.takeWhile_sublist _).filter _
      rwa [List.filter_eq_self.mpr (fun r member => by simpa using List.mem_takeWhile_imp member)] at sub
    exact prefix_.eq_of_length lengths
  · intro same
    rw [same]

/-- A configuration with the default count limits, all limits on. -/
def sampleConfiguration : Configuration :=
  { warning := 80
    critical := 90
    warnCount := 4294967296
    critCount := 4294967296
    minsize := 0
    backupsFound := false
    snetAlarms := true
    perfdata := false
    headerLimit := 7
    numberLimit := 7 }

/-- A full range of ten addresses with the given network. -/
def fullRange (sharedNet : Nat) : Range := ⟨some sharedNet, .ofV4 0x0a000001, .ofV4 0x0a00000a, 10, 0, 0⟩

theorem classify_ranges_iff_sample :
    (classify sampleConfiguration .IPv4 [fullRange 0, fullRange 1] (fullRange 0) []).ranges.count = ⟨1, 0, 0, 0⟩ := by
  rw [(classify_ranges_iff sampleConfiguration .IPv4 [fullRange 0, fullRange 1] (fullRange 0) [] rfl).mpr
    (by decide)]
  decide +kernel

/-- A full range that follows a range of a shared network raises no alarm. -/
theorem snet_alarms_skip :
    rBit sampleConfiguration.numberLimit = true ∧
      (classify sampleConfiguration .IPv4 [fullRange 1, fullRange 0] (fullRange 0) []).ranges.count ≠
        tally sampleConfiguration .IPv4
          ([fullRange 1, fullRange 0].filter (fun r => decide (Considered sampleConfiguration r))) := by
  decide +kernel

/-! ## The shared network loop -/

/-- The shared network loop compares the number of used leases with the count limits. -/
theorem snetStep_spec (cfg : Configuration) (c : Counters) (n : SharedNetwork) :
    snetStep cfg c n =
      c.add (if cfg.minsize < n.available then
        if cfg.critical < snetPercent n ∧ n.used < cfg.critCount then .critical
        else if cfg.warning < snetPercent n ∧ n.used < cfg.warnCount then .warning
        else .ok
      else .ignored) := by
  simp only [snetStep, snetPercent]
  split_ifs <;> rfl

theorem add_injective (c : Counters) {d e : Verdict} (same : c.add d = c.add e) : d = e := by
  cases d <;> cases e <;> simp [Counters.add, Counters.mk.injEq] at same ⊢

/-- Two classifications with common percentage tests agree exactly when their count
    tests agree wherever they are reached. -/
theorem classes_eq_iff (crit warn critA critB warnA warnB : Prop) [Decidable crit] [Decidable warn]
    [Decidable critA] [Decidable critB] [Decidable warnA] [Decidable warnB] :
    (if crit ∧ critA then Verdict.critical else if warn ∧ warnA then .warning else .ok) =
        (if crit ∧ critB then Verdict.critical else if warn ∧ warnB then .warning else .ok) ↔
      (crit → (critA ↔ critB)) ∧ (¬ (crit ∧ critA) → warn → (warnA ↔ warnB)) := by
  by_cases crit <;> by_cases warn <;> by_cases critA <;> by_cases critB <;> by_cases warnA <;> by_cases warnB <;>
    simp [*]

/-- The count limits decide alike on the used and on the free leases of a network,
    wherever the percentage leaves the decision to them. -/
def LimitsAgree (cfg : Configuration) (n : SharedNetwork) : Prop :=
  cfg.minsize < n.available →
    (cfg.critical < snetPercent n → (n.used < cfg.critCount ↔ n.available - n.used < cfg.critCount)) ∧
    (¬ (cfg.critical < snetPercent n ∧ n.used < cfg.critCount) → cfg.warning < snetPercent n →
      (n.used < cfg.warnCount ↔ n.available - n.used < cfg.warnCount))

/-- A network is counted under its documented class exactly when the limits agree on it. -/
theorem snetStep_documented (cfg : Configuration) (n : SharedNetwork) :
    (∀ c, snetStep cfg c n = c.add (snetVerdict cfg n)) ↔ LimitsAgree cfg n := by
  have classes : (∀ c, snetStep cfg c n = c.add (snetVerdict cfg n)) ↔
      (if cfg.minsize < n.available then
        if cfg.critical < snetPercent n ∧ n.used < cfg.critCount then Verdict.critical
        else if cfg.warning < snetPercent n ∧ n.used < cfg.warnCount then .warning
        else .ok
      else .ignored) = snetVerdict cfg n := by
    simp only [snetStep_spec]
    exact ⟨fun same => add_injective ⟨0, 0, 0, 0⟩ (same _), fun same c => by rw [same]⟩
  rw [classes]
  by_cases large : cfg.minsize < n.available
  · simp only [snetVerdict, documented, LimitsAgree, large, true_implies, if_true]
    exact classes_eq_iff _ _ _ _ _ _
  · simp [snetVerdict, documented, LimitsAgree, large]

/-- How many of the networks fall into each documented class. -/
def snetTally (cfg : Configuration) (nets : List SharedNetwork) : Counters :=
  let count (d : Verdict) := nets.countP (fun n => snetVerdict cfg n = d)
  ⟨count .critical, count .warning, count .ok, count .ignored⟩

theorem snetTally_cons (cfg : Configuration) (n : SharedNetwork) (rest : List SharedNetwork) :
    snetTally cfg (n :: rest) = (snetTally cfg rest).add (snetVerdict cfg n) := by
  cases verdict : snetVerdict cfg n <;> simp [snetTally, Counters.add, verdict]

theorem foldl_snetTally (cfg : Configuration) (nets : List SharedNetwork) (c : Counters) :
    nets.foldl (fun c n => c.add (snetVerdict cfg n)) c = c.plus (snetTally cfg nets) := by
  induction nets generalizing c with
  | nil => rfl
  | cons n rest ih => rw [List.foldl_cons, ih, add_plus, snetTally_cons]

/-- A range and a shared network of one size and usage have one documented class. -/
theorem snetVerdict_range (cfg : Configuration) (v : DhcpVersion) (r : Range) (n : SharedNetwork)
    (size : n.available = getRangeSize v r) (used : n.used = r.count) (some_ : n.available ≠ 0) :
    snetVerdict cfg n = rangeVerdict cfg v r := by
  simp only [snetVerdict, rangeVerdict, snetPercent, if_neg some_, ← size, ← used]

/-- A higher percentage and fewer free addresses never lower the class. -/
theorem documented_mono (cfg : Configuration) {perc perc' size used used' : ℚ} (percent : perc ≤ perc')
    (free : size - used' ≤ size - used) :
    (documented cfg perc size used).rank ≤ (documented cfg perc' size used').rank := by
  by_cases large : cfg.minsize < size
  · simp only [documented, large, if_true]
    by_cases crit : cfg.critical < perc ∧ size - used < cfg.critCount
    · rw [if_pos crit, if_pos ⟨lt_of_lt_of_le crit.1 percent, lt_of_le_of_lt free crit.2⟩]
    · rw [if_neg crit]
      by_cases warn : cfg.warning < perc ∧ size - used < cfg.warnCount
      · have warn' : cfg.warning < perc' ∧ size - used' < cfg.warnCount :=
          ⟨lt_of_lt_of_le warn.1 percent, lt_of_le_of_lt free warn.2⟩
        rw [if_pos warn, if_pos warn']
        split_ifs <;> decide
      · rw [if_neg warn]
        split_ifs <;> decide
  · simp [documented, large]

/-- Raising the usage never lowers the documented class. -/
theorem snetVerdict_mono (cfg : Configuration) (n : SharedNetwork) {used : ℚ} (more : n.used ≤ used)
    (nonneg : 0 ≤ n.available) :
    (snetVerdict cfg n).rank ≤ (snetVerdict cfg { n with used := used }).rank := by
  have percent : snetPercent n ≤ snetPercent { n with used := used } := by
    simp only [snetPercent]
    split_ifs
    · exact le_rfl
    · gcongr
  exact documented_mono cfg percent (show n.available - used ≤ n.available - n.used by linarith)

section
variable (cfg : Configuration) (v : DhcpVersion) (ranges : List Range) (past : Range)

/-- The shared network loop counts the network behind the entries of `front` under a class. -/
def CountsSnet (front : List SharedNetwork) (n : SharedNetwork) (d : Verdict) : Prop :=
  (classify cfg v ranges past (front ++ [n])).nets = (classify cfg v ranges past front).nets.add d

/-- The range loop counts the range behind those of `front` under a class. -/
def CountsRange (nets : List SharedNetwork) (front : List Range) (r : Range) (d : Verdict) : Prop :=
  (classify cfg v (front ++ [r]) past nets).ranges.count = (classify cfg v front past nets).ranges.count.add d

variable {cfg}

/-- One more network is one more round of the loop; the first entry is passed over. -/
theorem classify_nets_append (asked : sBit cfg.numberLimit = true) {front : List SharedNetwork} (filled : front ≠ [])
    (n : SharedNetwork) : (classify cfg v ranges past (front ++ [n])).nets =
      snetStep cfg (classify cfg v ranges past front).nets n := by
  simp only [classify, asked, if_true]
  rw [List.tail_append_of_ne_nil filled, List.foldl_append]
  rfl

/-- The loop counts a network under the documented class exactly when the limits agree on it. -/
theorem countsSnet_iff (asked : sBit cfg.numberLimit = true) {front : List SharedNetwork} (filled : front ≠ [])
    (n : SharedNetwork) : CountsSnet cfg v ranges past front n (snetVerdict cfg n) ↔ LimitsAgree cfg n := by
  rw [CountsSnet, classify_nets_append v ranges past asked filled, ← snetStep_documented]
  constructor
  · intro here c
    rw [snetStep_spec] at here ⊢
    rw [add_injective _ here]
  · exact fun every => every _

theorem countsSnet_unique {front : List SharedNetwork} {n : SharedNetwork} {d e : Verdict}
    (counted : CountsSnet cfg v ranges past front n d) (also : CountsSnet cfg v ranges past front n e) : d = e :=
  add_injective _ (counted.symm.trans also)

/-- While the limits agree, the counters of the loop are those of the documented classes. -/
theorem classify_nets_documented {nets : List SharedNetwork} (asked : sBit cfg.numberLimit = true)
    (agree : ∀ n ∈ nets.tail, LimitsAgree cfg n) :
    (classify cfg v ranges past nets).nets = snetTally cfg nets.tail := by
  have steps : nets.tail.foldl (snetStep cfg) ⟨0, 0, 0, 0⟩ =
      nets.tail.foldl (fun c n => c.add (snetVerdict cfg n)) ⟨0, 0, 0, 0⟩ :=
    List.foldl_ext _ _ _ fun c n member => (snetStep_documented cfg n).mpr (agree n member) c
  simp only [classify, asked, if_true]
  rw [steps, foldl_snetTally]
  simp [Counters.plus]

/-- The range loop counts a range under its documented class, if the alarms apply to it
    and to all ranges before it. -/
theorem countsRange_iff (nets : List SharedNetwork) (asked : rBit cfg.numberLimit = true) {front : List Range} {r : Range}
    (considered : ∀ s ∈ front ++ [r], Considered cfg s) (d : Verdict) :
    CountsRange cfg v past nets front r d ↔ d = rangeVerdict cfg v r := by
  have counted : ∀ rs : List Range, (∀ s ∈ rs, Considered cfg s) →
      (classify cfg v rs past nets).ranges.count = tally cfg v rs := by
    intro rs all
    have whole : classified cfg rs = rs := List.takeWhile_eq_self_iff.mpr (fun s member => by simpa using all s member)
    simp only [classify, asked, if_true]
    rw [rangeLoop_spec cfg v rs past rs.length 0 _ (by simp), List.drop_zero, whole]
    simp [Counters.plus]
  have more : tally cfg v (front ++ [r]) = (tally cfg v front).add (rangeVerdict cfg v r) := by
    have moved : tally cfg v (front ++ [r]) = tally cfg v (r :: front) := by
      have same : (front ++ [r]).Perm (r :: front) := List.perm_append_singleton r front
      simp only [tally, same.countP_eq]
    rw [moved, tally_cons]
  rw [CountsRange, counted _ considered, counted _ (fun s member => considered s (List.mem_append_left _ member)), more]
  exact ⟨fun same => (add_injective _ same).symm, fun same => by rw [same]⟩

end

/-- After every network the counters are those of the documented classes exactly when the
    limits agree on each network that was looked at. A network is counted under the class of a
    range of its size and usage exactly when they agree on it, and where they agree, more
    usage never lowers its class. -/
theorem snet_classes_iff (cfg : Configuration) (v : DhcpVersion) (ranges : List Range) (past : Range)
    (nets : List SharedNetwork) (asked : sBit cfg.numberLimit = true) :
    ((∀ front, front <+: nets → (classify cfg v ranges past front).nets = snetTally cfg front.tail) ↔
      ∀ n ∈ nets.tail, LimitsAgree cfg n) ∧
    (∀ first n rs r, first ≠ [] → rBit cfg.numberLimit = true → (∀ s ∈ rs ++ [r], Considered cfg s) →
      n.available = getRangeSize v r → n.used = r.count → n.available ≠ 0 →
      ((∃ d, CountsSnet cfg v ranges past first n d ∧ CountsRange cfg v past nets rs r d) ↔ LimitsAgree cfg n)) ∧
    (∀ first n used d e, first ≠ [] → 0 ≤ n.available → n.used ≤ used →
      LimitsAgree cfg n → LimitsAgree cfg { n with used := used } →
      CountsSnet cfg v ranges past first n d → CountsSnet cfg v ranges past first { n with used := used } e →
      d.rank ≤ e.rank) := by
  refine ⟨⟨?_, ?_⟩, ?_, ?_⟩
  · intro every n member
    cases nets with
    | nil => cases member
    | cons first rest =>
      obtain ⟨front, later, rfl⟩ := List.append_of_mem member
      have before := every (first :: front) ⟨n :: later, by simp⟩
      have behind := every (first :: front ++ [n]) ⟨later, by simp⟩
      rw [← countsSnet_iff v ranges past asked (List.cons_ne_nil first front), CountsSnet, before, behind]
      have moved : snetTally cfg (front ++ [n]) = snetTally cfg (n :: front) := by
        have same : (front ++ [n]).Perm (n :: front) := List.perm_append_singleton n front
        simp only [snetTally, same.countP_eq]
      rw [List.cons_append, List.tail_cons, List.tail_cons, moved, snetTally_cons]
  · intro agree front shorter
    refine classify_nets_documented v ranges past asked (fun n member => agree n ?_)
    obtain ⟨later, rfl⟩ := shorter
    cases front with
    | nil => cases member
    | cons first front => exact List.mem_append_left later member
  · intro first n rs r filled ranged considered size used some_
    have same := snetVerdict_range cfg v r n size used some_
    simp only [countsRange_iff v past nets ranged considered, exists_eq_right]
    rw [← same]
    exact countsSnet_iff v ranges past asked filled n
  · intro first n used d e filled nonneg more agree agree' counted counted'
    obtain rfl := countsSnet_unique v ranges past counted ((countsSnet_iff v ranges past asked filled n).mpr agree)
    obtain rfl := countsSnet_unique v ranges past counted' ((countsSnet_iff v ranges past asked filled _).mpr agree')
    exact snetVerdict_mono cfg n more nonneg

/-- A network of a thousand addresses of which ten are free. -/
def fullNetwork : SharedNetwork := ⟨[], 1000, 990, 0, 0, 0⟩

theorem snet_classes_iff_sample :
    sBit sampleConfiguration.numberLimit = true ∧
      (classify sampleConfiguration .IPv4 [] (fullRange 0) [fullNetwork, fullNetwork, ⟨[], 10, 1, 0, 0, 0⟩]).nets =
        snetTally sampleConfiguration [fullNetwork, ⟨[], 10, 1, 0, 0, 0⟩] :=
  ⟨rfl, (snet_classes_iff sampleConfiguration .IPv4 [] (fullRange 0)
    [fullNetwork, fullNetwork, ⟨[], 10, 1, 0, 0, 0⟩] rfl).1.mpr
      (by simp only [List.tail_cons, LimitsAgree]; decide +kernel) _ List.prefix_rfl⟩

/-- With a limit of a hundred free addresses the network is counted as a warning only. -/
theorem snet_counts_used :
    sBit sampleConfiguration.numberLimit = true ∧
      (classify { sampleConfiguration with critCount := 100 } .IPv4 [] (fullRange 0) [fullNetwork, fullNetwork]).nets ≠
        snetTally { sampleConfiguration with critCount := 100 } [fullNetwork] := by
  decide +kernel

end DhcpdPools.Alarm
