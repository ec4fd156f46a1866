import DhcpdPools.LeaseReport

/-!
The exit status of the alarm report. It is that of the worst entry that is looked at, the
report opens with its name (`outputAlarming_status`), and more active leases never make it
better (`alarm_monotone`).
-/
namespace DhcpdPools.AlarmStatus
open Alarm Counting Inventory LeaseReport LeaseVersion Program
open CommandLine (Settings OutputFunction selects)
open ConfigReader (Globals)

/-! ## The worst entry -/

section
variable (cfg : Configuration) (v : DhcpVersion) (ranges : List Range) (nets : List SharedNetwork)

/-- An entry of at least this rank is looked at: 3 is critical, 2 a warning. -/
def Reaches (rank : Nat) : Prop :=
  (rBit cfg.numberLimit = true ∧ ∃ r ∈ classified cfg ranges, rank ≤ (rangeVerdict cfg v r).rank) ∨
    (sBit cfg.numberLimit = true ∧ ∃ n ∈ nets.tail, rank ≤ (snetCounted cfg n).rank)

variable {cfg v ranges nets}

theorem critical_iff (d : Verdict) : 3 ≤ d.rank ↔ d = .critical := by cases d <;> decide

theorem alarming_iff (d : Verdict) : 2 ≤ d.rank ↔ Alarming d := by cases d <;> simp [Verdict.rank, Alarming]

theorem foldl_add_crit {α : Type} (verdict : α → Verdict) (entries : List α) (c : Counters) :
    (entries.foldl (fun c x => c.add (verdict x)) c).crit ≠ 0 ↔ c.crit ≠ 0 ∨ ∃ x ∈ entries, verdict x = .critical := by
  induction entries generalizing c with
  | nil => simp
  | cons x rest ih =>
    rw [List.foldl_cons, ih, List.exists_mem_cons_iff]
    cases verdict x <;> simp [Counters.add]

variable (past : Range)

theorem ranges_crit : (classify cfg v ranges past nets).ranges.count.crit ≠ 0 ↔
    rBit cfg.numberLimit = true ∧ ∃ r ∈ classified cfg ranges, 3 ≤ (rangeVerdict cfg v r).rank := by
  by_cases asked : rBit cfg.numberLimit = true
  · simp only [(classify_ranges cfg v ranges past nets asked).2, asked, true_and, critical_iff, Alarm.tally, Ne,
      List.countP_eq_zero, decide_eq_true_eq]
    push Not
    rfl
  · simp [classify, asked]

theorem nets_crit : (classify cfg v ranges past nets).nets.crit ≠ 0 ↔
    sBit cfg.numberLimit = true ∧ ∃ n ∈ nets.tail, 3 ≤ (snetCounted cfg n).rank := by
  by_cases asked : sBit cfg.numberLimit = true
  · have steps : snetStep cfg = fun c n => c.add (snetCounted cfg n) := by
      funext c n
      exact snetStep_spec cfg c n
    simp only [classify, asked, if_true, steps, foldl_add_crit, critical_iff, true_and]
    simp
  · simp [classify, asked]

theorem ranges_alarm : (classify cfg v ranges past nets).ranges.count.crit ≠ 0 ∨
      (classify cfg v ranges past nets).ranges.count.warn ≠ 0 ↔
    rBit cfg.numberLimit = true ∧ ∃ r ∈ classified cfg ranges, 2 ≤ (rangeVerdict cfg v r).rank := by
  by_cases asked : rBit cfg.numberLimit = true
  · simp only [(classify_ranges cfg v ranges past nets asked).2, asked, true_and, alarming_iff, ← tally_alarm, Nat.pos_iff_ne_zero]
  · simp [classify, asked]

theorem nets_alarm : (classify cfg v ranges past nets).nets.crit ≠ 0 ∨ (classify cfg v ranges past nets).nets.warn ≠ 0 ↔
    sBit cfg.numberLimit = true ∧ ∃ n ∈ nets.tail, 2 ≤ (snetCounted cfg n).rank := by
  by_cases asked : sBit cfg.numberLimit = true
  · simp only [asked, true_and, alarming_iff, ← classify_nets_alarm cfg v ranges past nets asked, Nat.pos_iff_ne_zero]
  · simp [classify, asked]

omit past in
theorem returnValue_counters (c : Classified) : returnValue c ≤ 2 ∧
    (2 ≤ returnValue c ↔ c.ranges.count.crit ≠ 0 ∨ c.nets.crit ≠ 0) ∧
    (1 ≤ returnValue c ↔ (c.ranges.count.crit ≠ 0 ∨ c.ranges.count.warn ≠ 0) ∨ c.nets.crit ≠ 0 ∨ c.nets.warn ≠ 0) := by
  unfold returnValue
  split_ifs <;> omega

/-- The exit status goes by the worst entry. -/
theorem returnValue_spec : returnValue (classify cfg v ranges past nets) ≤ 2 ∧
    (2 ≤ returnValue (classify cfg v ranges past nets) ↔ Reaches cfg v ranges nets 3) ∧
    (1 ≤ returnValue (classify cfg v ranges past nets) ↔ Reaches cfg v ranges nets 2) := by
  obtain ⟨bound, critical, alarm⟩ := returnValue_counters (classify cfg v ranges past nets)
  exact ⟨bound, critical.trans (or_congr (ranges_crit past) (nets_crit past)),
    alarm.trans (or_congr (ranges_alarm past) (nets_alarm past))⟩

/-- The word that a report with an exit status opens with. -/
def opening (cfg : Configuration) (status : Nat) : Option Piece :=
  if status = 2 then some (.text "CRITICAL: ")
  else if status = 1 then some (.text "WARNING: ")
  else if aBit cfg.numberLimit then some (.text "OK:")
  else none

theorem headline_opening (programName : List Char) :
    ((headline cfg programName (classify cfg v ranges past nets)).getD []).head? =
      opening cfg (returnValue (classify cfg v ranges past nets)) := by
  have rangeBit := (@ranges_alarm cfg v ranges nets past).mp
  have netBit := (@nets_alarm cfg v ranges nets past).mp
  obtain ⟨bound, critical, alarm⟩ := returnValue_counters (classify cfg v ranges past nets)
  generalize classify cfg v ranges past nets = c at *
  have crit : (0 < c.ranges.count.crit ∧ rBit cfg.numberLimit) ∨ (0 < c.nets.crit ∧ sBit cfg.numberLimit) ↔
      returnValue c = 2 := by
    constructor
    · rintro (⟨counted, -⟩ | ⟨counted, -⟩) <;> omega
    · intro status
      rcases critical.mp (Nat.le_of_eq status.symm) with counted | counted
      · exact Or.inl ⟨Nat.pos_of_ne_zero counted, (rangeBit (Or.inl counted)).1⟩
      · exact Or.inr ⟨Nat.pos_of_ne_zero counted, (netBit (Or.inl counted)).1⟩
  rw [headline, opening]
  by_cases two : returnValue c = 2
  · rw [if_pos (crit.mpr two), if_pos two]
    rfl
  · have warn : (0 < c.ranges.count.warn ∧ rBit cfg.numberLimit) ∨ (0 < c.nets.warn ∧ sBit cfg.numberLimit) ↔
        returnValue c = 1 := by
      constructor
      · rintro (⟨counted, -⟩ | ⟨counted, -⟩) <;> omega
      · intro status
        rcases alarm.mp (Nat.le_of_eq status.symm) with (counted | counted) | counted | counted
        · omega
        · exact Or.inl ⟨Nat.pos_of_ne_zero counted, (rangeBit (Or.inr counted)).1⟩
        · omega
        · exact Or.inr ⟨Nat.pos_of_ne_zero counted, (netBit (Or.inr counted)).1⟩
    rw [if_neg fun counted => two (crit.mp counted), if_neg two]
    by_cases one : returnValue c = 1
    · rw [if_pos (warn.mpr one), if_pos one]
      rfl
    · rw [if_neg fun counted => one (warn.mp counted), if_neg one]
      split_ifs <;> rfl

/-- What is returned, and what a report begins with. -/
theorem outputAlarming_value {programName : List Char} {pieces : List Piece} {status : Nat}
    (printed : outputAlarming cfg v programName ranges past nets = some (pieces, status)) :
    status = returnValue (classify cfg v ranges past nets) ∧
      pieces.head? = ((headline cfg programName (classify cfg v ranges past nets)).getD []).head? := by
  cases opens : headline cfg programName (classify cfg v ranges past nets) with
  | none =>
    rw [outputAlarming_silent opens] at printed
    obtain ⟨rfl, rfl⟩ := Prod.mk.inj (Option.some.inj printed)
    exact ⟨rfl, rfl⟩
  | some front =>
    have filled : front ≠ [] := by
      unfold headline at opens
      split_ifs at opens <;> rw [← Option.some.inj opens] <;> exact List.cons_ne_nil _ _
    rw [outputAlarming_report opens] at printed
    obtain ⟨rangePart, -, printed⟩ := Option.bind_eq_some_iff.mp printed
    obtain ⟨snetPart, -, printed⟩ := Option.bind_eq_some_iff.mp printed
    obtain ⟨rfl, rfl⟩ := Prod.mk.inj (Option.some.inj printed)
    refine ⟨rfl, ?_⟩
    rw [Option.getD_some, List.append_assoc, List.append_assoc, List.head?_append_of_ne_nil _ filled]

end

/-- The exit status, the word that the report opens with and the worst class of the entries
    that are looked at say the same, whatever is configured; the report is left out when there
    is no alarm and it is not asked for. -/
theorem outputAlarming_status (cfg : Configuration) (v : DhcpVersion) (programName : List Char) (ranges : List Range)
    (past : Range) (nets : List SharedNetwork) (pieces : List Piece) (status : Nat)
    (printed : outputAlarming cfg v programName ranges past nets = some (pieces, status)) :
    status ≤ 2 ∧ (2 ≤ status ↔ Reaches cfg v ranges nets 3) ∧ (1 ≤ status ↔ Reaches cfg v ranges nets 2) ∧
      pieces.head? = opening cfg status := by
  obtain ⟨bound, critical, alarm⟩ := @returnValue_spec cfg v ranges nets past
  obtain ⟨rfl, begins⟩ := outputAlarming_value past printed
  exact ⟨bound, critical, alarm, begins.trans (headline_opening past programName)⟩

def sampleAlarms : Configuration := { sampleConfiguration with snetAlarms := false }

theorem outputAlarming_status_sample : ((outputAlarming sampleAlarms .IPv4 "pools".toList [fullRange 0] (fullRange 0) []).getD
    ([], 0)).1.head? = some (.text "CRITICAL: ") := by
  obtain ⟨⟨pieces, status⟩, printed⟩ := outputAlarming_plain sampleAlarms .IPv4 "pools".toList [fullRange 0] (fullRange 0) [] rfl
  obtain ⟨-, -, -, word⟩ := outputAlarming_status sampleAlarms .IPv4 "pools".toList [fullRange 0] (fullRange 0) [] pieces status printed
  have two : (outputAlarming sampleAlarms .IPv4 "pools".toList [fullRange 0] (fullRange 0) []).map Prod.snd = some 2 := by
    decide +kernel
  rw [printed] at two
  obtain rfl : status = 2 := Option.some.inj two
  rw [printed, Option.getD_some, word]
  rfl

/-! ## More active leases -/

section
variable {cfg : Configuration} {v : DhcpVersion}

/-- More active leases do not lower the class of a range. -/
theorem rangeVerdict_more (nonneg : 0 ≤ cfg.minsize) {r r' : Range} (size : getRangeSize v r = getRangeSize v r')
    (more : r.count ≤ r'.count) : (rangeVerdict cfg v r).rank ≤ (rangeVerdict cfg v r').rank := by
  rw [rangeVerdict, rangeVerdict, size]
  by_cases large : cfg.minsize < getRangeSize v r'
  · have positive : 0 < getRangeSize v r' := lt_of_le_of_lt nonneg large
    refine documented_mono cfg ?_ (by linarith)
    gcongr
  · simp [documented, large]

/-- Nor that of a shared network, while the count limits do not bind. -/
theorem snetCounted_more (nonneg : 0 ≤ cfg.minsize) {n n' : SharedNetwork} (size : n.available = n'.available)
    (more : n.used ≤ n'.used) (crit : n'.used < cfg.critCount) (warn : n'.used < cfg.warnCount) :
    (snetCounted cfg n).rank ≤ (snetCounted cfg n').rank := by
  by_cases large : cfg.minsize < n'.available
  · have positive : 0 < n'.available := lt_of_le_of_lt nonneg large
    have percent : snetPercent n ≤ snetPercent n' := by
      rw [snetPercent, snetPercent, size, if_neg positive.ne', if_neg positive.ne']
      gcongr
    simp only [snetCounted, size, large, if_true, crit, warn, lt_of_le_of_lt more crit, lt_of_le_of_lt more warn, and_true]
    by_cases critical : cfg.critical < snetPercent n
    · rw [if_pos critical, if_pos (lt_of_lt_of_le critical percent)]
    · rw [if_neg critical]
      by_cases warning : cfg.warning < snetPercent n
      · rw [if_pos warning, if_pos (lt_of_lt_of_le warning percent)]
        split_ifs <;> decide
      · rw [if_neg warning]
        split_ifs <;> decide
  · simp [snetCounted, size, large]

end

section
variable {w : World} {s : Settings} {macs : Bool} {g : Globals} {v : DhcpVersion} {file file' : List Char}

variable (w s macs g file) in
/-- A range or a shared network of at least this rank was counted. -/
def Counts (rank : Nat) : Prop :=
  (rBit s.alarms.numberLimit = true ∧ ∃ r ∈ (counted w macs g file).ranges,
      rank ≤ (rangeVerdict s.alarms (fileVersion g.ipVersion file) r).rank) ∨
    (sBit s.alarms.numberLimit = true ∧ ∃ k n, k ≠ 0 ∧ (counted w macs g file).sharedNetworks[k]? = some n ∧
      rank ≤ (snetCounted s.alarms n).rank)

theorem mem_tail_iff {α : Type} {entries : List α} {n : α} :
    n ∈ entries.tail ↔ ∃ k, k ≠ 0 ∧ entries[k]? = some n := by
  rw [List.mem_iff_getElem?]
  constructor
  · rintro ⟨k, found⟩
    exact ⟨k + 1, Nat.succ_ne_zero k, by rwa [← List.getElem?_tail]⟩
  · rintro ⟨k, other, found⟩
    obtain ⟨k, rfl⟩ := Nat.exists_eq_succ_of_ne_zero other
    exact ⟨k, by rwa [List.getElem?_tail]⟩

/-- Without `--snet-alarms` every range is looked at, in whatever order they are printed. -/
theorem reaches_tables (off : s.alarms.snetAlarms = false) (flag : Bool) (rank : Nat) :
    Reaches { s.alarms with backupsFound := flag } (tables w s macs g file).ipVersion (tables w s macs g file).ranges
      (tables w s macs g file).sharedNetworks rank ↔ Counts w s macs g file rank := by
  have everything : ∀ ranges, classified { s.alarms with backupsFound := flag } ranges = ranges := by
    intro ranges
    refine List.takeWhile_eq_self_iff.mpr ?_
    intro r _
    simp [Considered, off]
  have ordered := ordered_perm s (fileVersion g.ipVersion file) (networkAt g (counted w macs g file).sharedNetworks)
    (counted w macs g file).ranges
  rw [Reaches, everything, Counts]
  refine or_congr (and_congr_right fun _ => exists_congr fun r => and_congr_left fun _ => ordered.mem_iff)
    (and_congr_right fun _ => ?_)
  constructor
  · rintro ⟨n, member, reached⟩
    obtain ⟨k, other, found⟩ := mem_tail_iff.mp member
    exact ⟨k, n, other, found, reached⟩
  · rintro ⟨k, n, other, found, reached⟩
    exact ⟨n, mem_tail_iff.mpr ⟨k, other, found⟩, reached⟩

/-- The exit status goes by what was counted. -/
theorem report_status (selected : ∀ c ∈ s.sorts, selects c = true) (few : g.numRanges < 2 ^ 31)
    (off : s.alarms.snetAlarms = false) {out : List Char × Nat} (printed : report w s macs g .alarming file = some out) :
    out.2 ≤ 2 ∧ (2 ≤ out.2 ↔ Counts w s macs g file 3) ∧ (1 ≤ out.2 ↔ Counts w s macs g file 2) := by
  rw [report, analysis_spec selected few] at printed
  obtain ⟨⟨pieces, status⟩, alarmed, rfl⟩ := Option.map_eq_some_iff.mp printed
  obtain ⟨rfl, -⟩ := outputAlarming_value _ alarmed
  rw [← reaches_tables off, ← reaches_tables off]
  exact returnValue_spec _

theorem held_more {m m' : Holdings} (more : ∀ k, (m k).any (isType .ACTIVE) = true → (m' k).any (isType .ACTIVE) = true)
    (v : DhcpVersion) (r : Range) : held v m .ACTIVE r ≤ held v m' .ACTIVE r := by
  rw [held, held]
  exact_mod_cast Census.census_mono fun k _ _ => more k

theorem total_more (k : Nat) {f f' : Range → ℚ} (more : ∀ r, f r ≤ f' r) (ranges : List Range) :
    total k f ranges ≤ total k f' ranges :=
  List.sum_le_sum fun r _ => more r

/-- What was counted as an alarm is one when more leases are active. -/
theorem counts_more (version : g.ipVersion = v) (known : v ≠ .IPvUNKNOWN) (nonneg : 0 ≤ s.alarms.minsize)
    (more : ∀ k, (holdings w macs g file k).any (isType .ACTIVE) = true → (holdings w macs g file' k).any (isType .ACTIVE) = true)
    (limits : sBit s.alarms.numberLimit = true → ∀ n ∈ (counted w macs g file').sharedNetworks.tail,
      n.used < s.alarms.critCount ∧ n.used < s.alarms.warnCount) {rank : Nat} (counts : Counts w s macs g file rank) : Counts w s macs g file' rank := by
  subst version
  have versions : ∀ f, fileVersion g.ipVersion f = g.ipVersion := fileVersion_fixed known
  rw [Counts, counted_raised, versions] at counts ⊢
  rcases counts with ⟨asked, r, member, reached⟩ | ⟨asked, k, n, other, found, reached⟩
  · obtain ⟨start, inside, rfl⟩ := List.mem_map.mp member
    refine Or.inl ⟨asked, _, List.mem_map_of_mem inside, reached.trans (rangeVerdict_more nonneg ?_ ?_)⟩
    · rw [getRangeSize_raise, getRangeSize_raise]
    · exact add_le_add_right (held_more more _ start) _
  · rw [counted_network _ _ _ _ other, Option.map_eq_some_iff] at found
    obtain ⟨start, at_k, rfl⟩ := found
    have found' := counted_network w macs g file' other
    rw [at_k, Option.map_some] at found'
    obtain ⟨crit, warn⟩ := limits asked _ (mem_tail_iff.mpr ⟨k, other, found'⟩)
    refine Or.inr ⟨asked, k, _, other, found', reached.trans (snetCounted_more nonneg ?_ ?_ crit warn)⟩
    · rw [versions, versions]
      rfl
    · rw [versions, versions]
      exact add_le_add_right (total_more k (held_more more _) _) _

/-- The exit status of the alarm report does not get better when more leases are active:
    without `--snet-alarms`, with a size limit that is not negative, and when the count
    limits do not bind for the shared networks. -/
theorem alarm_monotone (selected : ∀ c ∈ s.sorts, selects c = true) (few : g.numRanges < 2 ^ 31) (version : g.ipVersion = v)
    (known : v ≠ .IPvUNKNOWN) (off : s.alarms.snetAlarms = false) (nonneg : 0 ≤ s.alarms.minsize)
    (more : ∀ k, (holdings w macs g file k).any (isType .ACTIVE) = true → (holdings w macs g file' k).any (isType .ACTIVE) = true)
    (limits : sBit s.alarms.numberLimit = true → ∀ n ∈ (counted w macs g file').sharedNetworks.tail,
      n.used < s.alarms.critCount ∧ n.used < s.alarms.warnCount)
    {out out' : List Char × Nat} (printed : report w s macs g .alarming file = some out)
    (printed' : report w s macs g .alarming file' = some out') : out.2 ≤ out'.2 := by
  obtain ⟨bound, critical, alarm⟩ := report_status selected few off printed
  obtain ⟨-, critical', alarm'⟩ := report_status selected few off printed'
  have worse : ∀ {rank}, Counts w s macs g file rank → Counts w s macs g file' rank :=
    counts_more version known nonneg more limits
  have two : 2 ≤ out.2 → 2 ≤ out'.2 := fun status => critical'.mpr (worse (critical.mp status))
  have one : 1 ≤ out.2 → 1 ≤ out'.2 := fun status => alarm'.mpr (worse (alarm.mp status))
  omega

end

/-- A range for the leases of the samples. -/
def sampleTable : Globals :=
  { sampleGlobals with
    numRanges := 1
    ranges := fun _ => ⟨some 0, .ofV4 0x0a000001, .ofV4 0x0a00000a, 0, 0, 0⟩
    numSharedNetworks := 0 }

def sampleOne : LeaseLog.Log .IPv4 (sampleText [sampleActive]) := sampleLog _ (by decide +kernel) (by decide +kernel)

def sampleTwo : LeaseLog.Log .IPv4 (sampleText [sampleActive, sampleOther]) :=
  sampleLog _ (by decide +kernel) (by decide +kernel)

theorem alarm_monotone_sample : ∃ out out',
    report sampleWorld sampleSettings true sampleTable .alarming (sampleText [sampleActive]) = some out ∧
      report sampleWorld sampleSettings true sampleTable .alarming (sampleText [sampleActive, sampleOther]) = some out' ∧
      out.2 ≤ out'.2 := by
  have selected : ∀ c ∈ sampleSettings.sorts, selects c = true := accepted sample_options
  have few : sampleTable.numRanges < 2 ^ 31 := by decide
  have none : ∀ n ∈ (counted sampleWorld true sampleTable (sampleText [sampleActive, sampleOther])).sharedNetworks.tail,
      n.used < sampleSettings.alarms.critCount ∧ n.used < sampleSettings.alarms.warnCount := by
    intro n member
    obtain ⟨k, other, found⟩ := mem_tail_iff.mp member
    obtain ⟨k, rfl⟩ := Nat.exists_eq_succ_of_ne_zero other
    rw [counted_network _ _ _ _ other] at found
    cases found
  obtain ⟨out, printed⟩ := @report_isSome sampleWorld sampleSettings .alarming true sampleTable (sampleText [sampleActive])
    selected few fun _ => rfl
  obtain ⟨out', printed'⟩ := @report_isSome sampleWorld sampleSettings .alarming true sampleTable
    (sampleText [sampleActive, sampleOther]) selected few fun _ => rfl
  have one : holdings sampleWorld true sampleTable (sampleText [sampleActive]) = sampleOne.holdings sampleWorld.inet true :=
    leaseData_map (by decide) sampleOne
  have two : holdings sampleWorld true sampleTable (sampleText [sampleActive, sampleOther]) =
      sampleTwo.holdings sampleWorld.inet true := leaseData_map (by decide) sampleTwo
  refine ⟨out, out', printed, printed', alarm_monotone (v := .IPv4) selected few rfl (by decide) rfl (by decide +kernel) ?_
    (fun _ => none) printed printed'⟩
  intro k
  rw [one, two]
  obtain ⟨active, -, other⟩ := sample_addresses
  simp only [LeaseLog.Log.holdings, LeaseLog.Log.about, sampleOne, sampleTwo, sampleLog]
  simp only [List.filter_cons, active, other, List.filter_nil, decide_eq_true_eq]
  split_ifs <;> first | omega | simp

end DhcpdPools.AlarmStatus
