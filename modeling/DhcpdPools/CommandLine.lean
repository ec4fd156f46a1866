import DhcpdPools.ConfigReader
import DhcpdPools.Registers
import DhcpdPools.Sort

/-!
The command line: the loop of `main` over the options that `getopt_long` returns, and the
selection of the output function. The loop ends at the first option that ends the program;
otherwise each setting is that of the last option that sets it, and the sort keys of all
options count in their order (`run_option`). A file name that does not fit its buffer is
not terminated (`fileNames_iff`).
-/
namespace DhcpdPools.CommandLine
open Machine
open DhcpdPools.Sort (fieldSelector)
open ConfigReader (MAXLEN)

/-! ## The code -/

/-- What `getopt_long` returns, with `optarg` where the option has an argument. -/
inductive Opt where
  | config (optarg : List Char)
  | leases (optarg : List Char)
  | format (optarg : List Char)
  | sort (optarg : List Char)
  | reverse
  | output (optarg : List Char)
  | limit (optarg : List Char)
  | snetAlarms
  | warning (optarg : List Char)
  | critical (optarg : List Char)
  | warnCount (optarg : List Char)
  | critCount (optarg : List Char)
  | minsize (optarg : List Char)
  | perfdata
  | allAsShared
  | version
  | help
  /-- An unknown option, or one without its argument. -/
  | other
deriving DecidableEq

/-- Why the program ends before it reads a file. -/
inductive Exit where
  | printVersion
  | usage
  | tryHelp
  | outputMaskIllegal (optarg : List Char)
  | unknownSortOrder (c : Char)
  | illegalArgument (str : List Char)
  | formatDeprecated
  | unknownOutputFormat (format : List Char)
deriving DecidableEq

/-- What is fixed when the program is built. -/
structure Build where
  DHCPDCONF_FILE : List Char
  DHCPDLEASE_FILE : List Char
  OUTPUT_LIMIT : List Char
  OUTPUT_FORMAT : List Char
  ALARM_WARN : ℚ
  ALARM_CRIT : ℚ

/-- The buffers for the file names as `xmalloc` returns them. -/
structure Buffers where
  dhcpdconfFile : List Char
  dhcpdleaseFile : List Char
  outputFile : List Char

/-- The settings that the options change. `sorts` has the characters whose functions are in
    the list of that name. -/
structure Settings where
  dhcpdconfFile : List Char
  dhcpdleaseFile : List Char
  outputFile : List Char
  printMacAddresesTmp : List Char
  sorts : List Char
  reverseOrder : Bool
  allAsShared : Bool
  alarms : Configuration
deriving DecidableEq

/-- `strncpy`: what is shorter is filled up with NUL bytes. -/
def strncpy (dst src : List Char) (n : Nat) : List Char := (src.take n).rightpad n '\x00' ++ dst.drop n

/-- A digit of `OUTPUT_LIMIT` in a field of three bits. -/
def limitDigit (c : Char) : BitVec 3 := BitVec.ofInt 3 ((c.toNat : Int) - '0'.toNat)

/-- `main` up to the option loop; `minsize` is a global and so starts at 0. -/
def defaults (b : Build) (m : Buffers) : Settings where
  dhcpdconfFile := strncpy m.dhcpdconfFile b.DHCPDCONF_FILE (MAXLEN - 1)
  dhcpdleaseFile := strncpy m.dhcpdleaseFile b.DHCPDLEASE_FILE (MAXLEN - 1)
  outputFile := m.outputFile.set 0 '\x00'
  printMacAddresesTmp := b.OUTPUT_FORMAT
  sorts := []
  reverseOrder := false
  allAsShared := false
  alarms :=
    { warning := b.ALARM_WARN
      critical := b.ALARM_CRIT
      warnCount := 2 ^ 32
      critCount := 2 ^ 32
      minsize := 0
      backupsFound := false
      snetAlarms := false
      perfdata := false
      headerLimit := limitDigit (charAt b.OUTPUT_LIMIT 0)
      numberLimit := limitDigit (charAt b.OUTPUT_LIMIT 1) }

/-- A digit of an output mask. -/
def MaskDigit (c : Char) : Prop := '0' ≤ c ∧ c < '8'

instance (c : Char) : Decidable (MaskDigit c) := inferInstanceAs (Decidable (_ ∧ _))

/-- `return_limit`. -/
def returnLimit (optarg : List Char) (c : Char) : Except Exit (BitVec 3) :=
  if MaskDigit c then .ok (limitDigit c) else .error (.outputMaskIllegal optarg)

/-- `strtod`: the number, the characters that it was read from, and whether `errno` is set.
    The numbers are finite. -/
abbrev Strtod := List Char → ℚ × Nat × Bool

/-- `strtod_or_err`, with the message of its callers. -/
def strtodOrErr (strtod : Strtod) (str : List Char) : Except Exit ℚ :=
  if str = [] then .error (.illegalArgument str)
  else
    let (num, stop, errno) := strtod str
    if errno ∨ stop = 0 ∨ stop < str.length then .error (.illegalArgument str) else .ok num

/-- The sort functions that `field_selector` knows do not depend on the version. -/
def selects (c : Char) : Bool := (fieldSelector .IPvUNKNOWN c).isSome

/-- A character of the argument of `-s` puts a function behind the last one. -/
def appendSort (sorts : List Char) (c : Char) : Except Exit (List Char) :=
  if selects c then .ok (sorts ++ [c]) else .error (.unknownSortOrder c)

section
variable (strtod : Strtod)

/-- The body of the option loop. -/
def option (s : Settings) : Opt → Except Exit Settings
  | .config optarg => .ok { s with dhcpdconfFile := strncpy s.dhcpdconfFile optarg (MAXLEN - 1) }
  | .leases optarg => .ok { s with dhcpdleaseFile := strncpy s.dhcpdleaseFile optarg (MAXLEN - 1) }
  | .format optarg => .ok { s with printMacAddresesTmp := optarg }
  | .sort optarg => do
    let sorts ← run appendSort s.sorts optarg
    .ok { s with sorts := sorts }
  | .reverse => .ok { s with reverseOrder := true }
  | .output optarg => .ok { s with outputFile := strncpy s.outputFile optarg (MAXLEN - 1) }
  | .limit optarg => do
    let header ← returnLimit optarg (charAt optarg 0)
    let number ← returnLimit optarg (charAt optarg 1)
    .ok { s with alarms := { s.alarms with headerLimit := header, numberLimit := number } }
  | .snetAlarms => .ok { s with alarms := { s.alarms with snetAlarms := true } }
  | .warning optarg => do
    let warning ← strtodOrErr strtod optarg
    .ok { s with printMacAddresesTmp := ['a'], alarms := { s.alarms with warning := warning } }
  | .critical optarg => do
    let critical ← strtodOrErr strtod optarg
    .ok { s with printMacAddresesTmp := ['a'], alarms := { s.alarms with critical := critical } }
  | .warnCount optarg => do
    let warnCount ← strtodOrErr strtod optarg
    .ok { s with printMacAddresesTmp := ['a'], alarms := { s.alarms with warnCount := warnCount } }
  | .critCount optarg => do
    let critCount ← strtodOrErr strtod optarg
    .ok { s with printMacAddresesTmp := ['a'], alarms := { s.alarms with critCount := critCount } }
  | .minsize optarg => do
    let minsize ← strtodOrErr strtod optarg
    .ok { s with alarms := { s.alarms with minsize := minsize } }
  | .perfdata => .ok { s with alarms := { s.alarms with perfdata := true } }
  | .allAsShared => .ok { s with allAsShared := true }
  | .version => .error .printVersion
  | .help => .error .usage
  | .other => .error .tryHelp

end

/-- The functions that `output_analysis` may be set to. -/
inductive OutputFunction where
  | txt
  | alarming
  | html
  | xml
  | json
  | csv
deriving DecidableEq, Repr

/-- The selection of the output function, with `config.print_mac_addreses`. -/
def selectFormat (tmp : List Char) : Except Exit (OutputFunction × Bool) :=
  match charAt tmp 0 with
  | 't' => .ok (.txt, false)
  | 'a' => .ok (.alarming, false)
  | 'h' => .error .formatDeprecated
  | 'H' => .ok (.html, false)
  | 'x' => .ok (.xml, false)
  | 'X' => .ok (.xml, true)
  | 'j' => .ok (.json, false)
  | 'J' => .ok (.json, true)
  | 'c' => .ok (.csv, false)
  | _ => .error (.unknownOutputFormat tmp)

/-! ## One option -/

section
variable (strtod : Strtod)

/-- How an option ends the program; it does so whatever the settings are. -/
def ends : Opt → Option Exit
  | .sort optarg => (optarg.find? fun c => !selects c).map Exit.unknownSortOrder
  | .limit optarg =>
    if MaskDigit (charAt optarg 0) ∧ MaskDigit (charAt optarg 1) then none else some (.outputMaskIllegal optarg)
  | .warning str | .critical str | .warnCount str | .critCount str | .minsize str =>
    if str = [] ∨ (strtod str).2.2 = true ∨ (strtod str).2.1 = 0 ∨ (strtod str).2.1 < str.length then
      some (.illegalArgument str)
    else none
  | .version => some .printVersion
  | .help => some .usage
  | .other => some .tryHelp
  | _ => none

/-- The settings behind an option that does not end the program. -/
def effect (s : Settings) : Opt → Settings
  | .config optarg => { s with dhcpdconfFile := strncpy s.dhcpdconfFile optarg (MAXLEN - 1) }
  | .leases optarg => { s with dhcpdleaseFile := strncpy s.dhcpdleaseFile optarg (MAXLEN - 1) }
  | .format optarg => { s with printMacAddresesTmp := optarg }
  | .sort optarg => { s with sorts := s.sorts ++ optarg }
  | .reverse => { s with reverseOrder := true }
  | .output optarg => { s with outputFile := strncpy s.outputFile optarg (MAXLEN - 1) }
  | .limit optarg =>
    { s with alarms := { s.alarms with
        headerLimit := limitDigit (charAt optarg 0), numberLimit := limitDigit (charAt optarg 1) } }
  | .snetAlarms => { s with alarms := { s.alarms with snetAlarms := true } }
  | .warning str => { s with printMacAddresesTmp := ['a'], alarms := { s.alarms with warning := (strtod str).1 } }
  | .critical str => { s with printMacAddresesTmp := ['a'], alarms := { s.alarms with critical := (strtod str).1 } }
  | .warnCount str => { s with printMacAddresesTmp := ['a'], alarms := { s.alarms with warnCount := (strtod str).1 } }
  | .critCount str => { s with printMacAddresesTmp := ['a'], alarms := { s.alarms with critCount := (strtod str).1 } }
  | .minsize str => { s with alarms := { s.alarms with minsize := (strtod str).1 } }
  | .perfdata => { s with alarms := { s.alarms with perfdata := true } }
  | .allAsShared => { s with allAsShared := true }
  | .version | .help | .other => s

theorem strtodOrErr_spec (str : List Char) : strtodOrErr strtod str =
    if str = [] ∨ (strtod str).2.2 = true ∨ (strtod str).2.1 = 0 ∨ (strtod str).2.1 < str.length then
      .error (.illegalArgument str)
    else .ok (strtod str).1 := by
  unfold strtodOrErr
  by_cases empty : str = []
  · rw [if_pos empty, if_pos (Or.inl empty)]
  · rw [if_neg empty]
    simp only [empty, false_or]

/-- All characters of the argument are known, or the first unknown one ends the program. -/
theorem appendSort_run (optarg sorts : List Char) : run appendSort sorts optarg =
    (optarg.find? fun c => !selects c).elim (.ok (sorts ++ optarg)) (fun c => .error (.unknownSortOrder c)) := by
  induction optarg generalizing sorts with
  | nil => simp
  | cons c rest ih =>
    rw [run_cons, appendSort, List.find?_cons]
    cases known : selects c with
    | true =>
      rw [if_pos rfl]
      exact (ih _).trans (by simp)
    | false => rfl

/-- One option ends the program or takes effect. -/
theorem option_spec (s : Settings) (o : Opt) :
    option strtod s o = (ends strtod o).elim (.ok (effect strtod s o)) .error := by
  cases o with
  | sort optarg =>
    rw [option, ends, effect, appendSort_run]
    cases optarg.find? fun c => !selects c <;> rfl
  | limit optarg =>
    rw [option, ends, effect, returnLimit, returnLimit]
    by_cases header : MaskDigit (charAt optarg 0)
    · by_cases number : MaskDigit (charAt optarg 1)
      · rw [if_pos header, if_pos number, if_pos ⟨header, number⟩]
        rfl
      · rw [if_pos header, if_neg number, if_neg (fun both => number both.2)]
        rfl
    · have neither : ¬(MaskDigit (charAt optarg 0) ∧ MaskDigit (charAt optarg 1)) := fun both => header both.1
      rw [if_neg header, if_neg neither]
      rfl
  | warning str => rw [option, ends, effect, strtodOrErr_spec]; split <;> rfl
  | critical str => rw [option, ends, effect, strtodOrErr_spec]; split <;> rfl
  | warnCount str => rw [option, ends, effect, strtodOrErr_spec]; split <;> rfl
  | critCount str => rw [option, ends, effect, strtodOrErr_spec]; split <;> rfl
  | minsize str => rw [option, ends, effect, strtodOrErr_spec]; split <;> rfl
  | _ => rfl

theorem option_decided : Decided (option strtod) (ends strtod) := by
  intro s o
  rw [option_spec]
  cases ended : ends strtod o with
  | none => exact Or.inr ⟨_, rfl, rfl⟩
  | some e => exact Or.inl ⟨e, rfl, rfl⟩

theorem option_ok {s s' : Settings} {o : Opt} (went : option strtod s o = .ok s') : s' = effect strtod s o := by
  rw [option_spec] at went
  cases ended : ends strtod o with
  | none =>
    rw [ended] at went
    exact (Except.ok.inj went).symm
  | some e =>
    rw [ended] at went
    cases went

end

/-! ## All options -/

/-! What an option sets, register by register. -/

def configArg : Opt → Option (List Char)
  | .config optarg => some optarg
  | _ => none

def leasesArg : Opt → Option (List Char)
  | .leases optarg => some optarg
  | _ => none

def outputArg : Opt → Option (List Char)
  | .output optarg => some optarg
  | _ => none

/-- The thresholds select the alarm report, `minsize` does not. -/
def formatArg : Opt → Option (List Char)
  | .format optarg => some optarg
  | .warning _ | .critical _ | .warnCount _ | .critCount _ => some ['a']
  | _ => none

def sortArg : Opt → List Char
  | .sort optarg => optarg
  | _ => []

def limitArg : Opt → Option (List Char)
  | .limit optarg => some optarg
  | _ => none

def warningArg : Opt → Option (List Char)
  | .warning str => some str
  | _ => none

def criticalArg : Opt → Option (List Char)
  | .critical str => some str
  | _ => none

def warnCountArg : Opt → Option (List Char)
  | .warnCount str => some str
  | _ => none

def critCountArg : Opt → Option (List Char)
  | .critCount str => some str
  | _ => none

def minsizeArg : Opt → Option (List Char)
  | .minsize str => some str
  | _ => none

section
variable (strtod : Strtod)

/-- The settings that a list of options stands for. -/
def settled (s : Settings) (os : List Opt) : Settings where
  dhcpdconfFile := (lastSet configArg os).elim s.dhcpdconfFile fun a => strncpy s.dhcpdconfFile a (MAXLEN - 1)
  dhcpdleaseFile := (lastSet leasesArg os).elim s.dhcpdleaseFile fun a => strncpy s.dhcpdleaseFile a (MAXLEN - 1)
  outputFile := (lastSet outputArg os).elim s.outputFile fun a => strncpy s.outputFile a (MAXLEN - 1)
  printMacAddresesTmp := (lastSet formatArg os).getD s.printMacAddresesTmp
  sorts := s.sorts ++ os.flatMap sortArg
  reverseOrder := s.reverseOrder || os.contains .reverse
  allAsShared := s.allAsShared || os.contains .allAsShared
  alarms :=
    { warning := (lastSet warningArg os).elim s.alarms.warning fun a => (strtod a).1
      critical := (lastSet criticalArg os).elim s.alarms.critical fun a => (strtod a).1
      warnCount := (lastSet warnCountArg os).elim s.alarms.warnCount fun a => (strtod a).1
      critCount := (lastSet critCountArg os).elim s.alarms.critCount fun a => (strtod a).1
      minsize := (lastSet minsizeArg os).elim s.alarms.minsize fun a => (strtod a).1
      backupsFound := s.alarms.backupsFound
      snetAlarms := s.alarms.snetAlarms || os.contains .snetAlarms
      perfdata := s.alarms.perfdata || os.contains .perfdata
      headerLimit := (lastSet limitArg os).elim s.alarms.headerLimit fun a => limitDigit (charAt a 0)
      numberLimit := (lastSet limitArg os).elim s.alarms.numberLimit fun a => limitDigit (charAt a 1) }

/-- A string over another one that was written in the same way leaves nothing of it. -/
theorem strncpy_strncpy (dst a b : List Char) (n : Nat) : strncpy (strncpy dst a n) b n = strncpy dst b n := by
  have full : ((a.take n).rightpad n '\x00').length = n := by simp
  unfold strncpy
  rw [List.drop_append_of_le_length (Nat.le_of_eq full.symm), List.drop_of_length_le (Nat.le_of_eq full), List.nil_append]

variable {s s' : Settings} {os : List Opt}

/-- The last option that writes a register decides what it holds. -/
theorem run_register {α : Type} (get : Settings → α) (sets : Opt → Option (List Char)) (write : α → List Char → α)
    (overwrites : ∀ d a b, write (write d a) b = write d b)
    (keeps : ∀ t o, get (effect strtod t o) = (sets o).elim (get t) (write (get t)))
    (ran : run (option strtod) s os = .ok s') : get s' = (lastSet sets os).elim (get s) (write (get s)) := by
  refine run_overwrites overwrites ?_ ran
  intro t o t' went
  rw [option_ok strtod went]
  exact keeps t o

/-- A flag is set once one of the options sets it. -/
theorem run_flag (get : Settings → Bool) (flag : Opt) (keeps : ∀ t o, get (effect strtod t o) = (get t || flag == o))
    (ran : run (option strtod) s os = .ok s') : get s' = (get s || os.contains flag) := by
  refine (Bool.or_false _).symm.trans
    (run_induction (P := fun rest t => (get t || rest.contains flag) = (get s || os.contains flag)) ?_ ran rfl)
  intro t o t' rest went held
  rw [← held, option_ok strtod went, keeps, List.contains_cons, Bool.or_assoc]

/-- The settings behind a run that goes to its end. -/
theorem run_settled (ran : run (option strtod) s os = .ok s') : s' = settled strtod s os := by
  let file (d a : List Char) : List Char := strncpy d a (MAXLEN - 1)
  have files : ∀ d a b, file (file d a) b = file d b := fun d a b => strncpy_strncpy d a b (MAXLEN - 1)
  let number (_ : ℚ) (a : List Char) : ℚ := (strtod a).1
  let digit (i : Nat) (_ : BitVec 3) (a : List Char) : BitVec 3 := limitDigit (charAt a i)
  have conf := run_register strtod (·.dhcpdconfFile) configArg file files (fun t o => by cases o <;> rfl) ran
  have lease := run_register strtod (·.dhcpdleaseFile) leasesArg file files (fun t o => by cases o <;> rfl) ran
  have output := run_register strtod (·.outputFile) outputArg file files (fun t o => by cases o <;> rfl) ran
  have format := run_last (·.printMacAddresesTmp) formatArg
    (fun t o t' went => by rw [option_ok strtod went]; cases o <;> rfl) ran
  have sorts := run_gathers (·.sorts) sortArg
    (fun t o t' went => by rw [option_ok strtod went]; cases o <;> simp [effect, sortArg]) ran
  have reverse := run_flag strtod (·.reverseOrder) .reverse (fun t o => by cases o <;> simp [effect]) ran
  have shared := run_flag strtod (·.allAsShared) .allAsShared (fun t o => by cases o <;> simp [effect]) ran
  have snet := run_flag strtod (·.alarms.snetAlarms) .snetAlarms (fun t o => by cases o <;> simp [effect]) ran
  have perf := run_flag strtod (·.alarms.perfdata) .perfdata (fun t o => by cases o <;> simp [effect]) ran
  have warning := run_register strtod (·.alarms.warning) warningArg number (fun _ _ _ => rfl) (fun t o => by cases o <;> rfl) ran
  have critical := run_register strtod (·.alarms.critical) criticalArg number (fun _ _ _ => rfl) (fun t o => by cases o <;> rfl) ran
  have warnCount := run_register strtod (·.alarms.warnCount) warnCountArg number (fun _ _ _ => rfl)
    (fun t o => by cases o <;> rfl) ran
  have critCount := run_register strtod (·.alarms.critCount) critCountArg number (fun _ _ _ => rfl)
    (fun t o => by cases o <;> rfl) ran
  have minsize := run_register strtod (·.alarms.minsize) minsizeArg number (fun _ _ _ => rfl) (fun t o => by cases o <;> rfl) ran
  have header := run_register strtod (·.alarms.headerLimit) limitArg (digit 0) (fun _ _ _ => rfl)
    (fun t o => by cases o <;> rfl) ran
  have limit := run_register strtod (·.alarms.numberLimit) limitArg (digit 1) (fun _ _ _ => rfl)
    (fun t o => by cases o <;> rfl) ran
  have backups : s'.alarms.backupsFound = s.alarms.backupsFound := by
    refine run_induction (P := fun _ t => t.alarms.backupsFound = s.alarms.backupsFound) ?_ ran rfl
    intro t o t' _ went held
    rw [option_ok strtod went, ← held]
    cases o <;> rfl
  obtain ⟨_, _, _, _, _, _, _, ⟨⟩⟩ := s'
  simp only [settled, Settings.mk.injEq, Configuration.mk.injEq]
  exact ⟨conf, lease, output, format, sorts, reverse, shared, warning, critical, warnCount, critCount, minsize, backups,
    snet, perf, header, limit⟩

/-- A run in which no option ends the program goes to its end. -/
theorem run_goes (s : Settings) {os : List Opt} (goes : os.findSome? (ends strtod) = none) :
    run (option strtod) s os = .ok (settled strtod s os) := by
  rcases run_ends (option_decided strtod) os s with ⟨e, ended, -⟩ | ⟨s', -, ran⟩
  · rw [goes] at ended
    cases ended
  · rw [ran, run_settled strtod ran]

/-- The loop ends at the first option that ends the program. Otherwise each setting is that
    of the last option that sets it, and all sort keys count, in their order. -/
theorem run_option (s : Settings) (os : List Opt) :
    run (option strtod) s os = (os.findSome? (ends strtod)).elim (.ok (settled strtod s os)) .error := by
  rcases run_ends (option_decided strtod) os s with ⟨e, ended, stops⟩ | ⟨s', goes, ran⟩
  · rw [ended, stops]
    rfl
  · rw [goes, ran, run_settled strtod ran]
    rfl

end

/-! ## File names -/

/-- The buffer holds the name, with the NUL behind it. -/
def Holds (buf name : List Char) : Prop := cstr buf = name ∧ '\x00' ∈ buf

instance (buf name : List Char) : Decidable (Holds buf name) := inferInstanceAs (Decidable (_ ∧ _))

/-- There is room for the name and its NUL; the last byte of the buffer is never written to. -/
def Fits (buf name : List Char) : Prop :=
  name.length < MAXLEN - 1 ∨ name.length = MAXLEN - 1 ∧ buf[MAXLEN - 1]? = some '\x00'

instance (buf name : List Char) : Decidable (Fits buf name) := inferInstanceAs (Decidable (_ ∨ _))

/-- A text without NUL in front of others is the string in a buffer when NUL comes next. -/
theorem holds_append {s : List Char} (text : '\x00' ∉ s) (rest : List Char) :
    Holds (s ++ rest) s ↔ rest.head? = some '\x00' := by
  have whole : s.takeWhile (fun c => c ≠ '\x00') = s := by
    rw [List.takeWhile_eq_self_iff]
    intro c member
    have differ : c ≠ '\x00' := fun same => text (same ▸ member)
    simpa using differ
  cases rest with
  | nil => simp [Holds, text]
  | cons c rest =>
    rw [List.head?_cons, Option.some.injEq]
    constructor
    · rintro ⟨string, -⟩
      by_contra differ
      have longer : cstr (s ++ c :: rest) = s ++ c :: cstr rest := by
        rw [cstr, List.takeWhile_append_of_pos (fun d member => ?_), List.takeWhile_cons_of_pos (by simpa using differ), cstr]
        have other : d ≠ '\x00' := fun same => text (same ▸ member)
        simpa using other
      have lengths := congrArg List.length (longer.symm.trans string)
      simp at lengths
    · rintro rfl
      exact ⟨(takeWhile_stop _ s (by simp) rest).trans whole, by simp⟩

theorem holds_strncpy {dst src : List Char} (size : dst.length = MAXLEN) (text : '\x00' ∉ src) :
    Holds (strncpy dst src (MAXLEN - 1)) src ↔ Fits dst src := by
  obtain ⟨n, count⟩ : ∃ n, MAXLEN = n + 1 := ⟨1023, rfl⟩
  rw [Fits, count, Nat.add_sub_cancel, strncpy]
  rw [count] at size
  obtain ⟨last, tail⟩ : ∃ c, dst.drop n = [c] := List.length_eq_one_iff.mp (by simp [size])
  have entry : dst[n]? = some last := by
    have head := List.head?_drop (l := dst) (i := n)
    rw [tail] at head
    exact head.symm
  rw [tail, entry, Option.some.injEq, List.rightpad]
  rcases Nat.lt_trichotomy src.length n with short | exact_ | long
  · obtain ⟨k, room⟩ : ∃ k, n - src.length = k + 1 := ⟨n - src.length - 1, by omega⟩
    rw [List.take_of_length_le (Nat.le_of_lt short), List.append_assoc, holds_append text, room]
    exact iff_of_true rfl (Or.inl short)
  · rw [List.take_of_length_le (Nat.le_of_eq exact_), exact_, Nat.sub_self, List.replicate_zero, List.append_nil,
      holds_append text]
    simp
  · have cut : (src.take n).length = n := List.length_take_of_le (Nat.le_of_lt long)
    have front : '\x00' ∉ src.take n := fun member => text (List.mem_of_mem_take member)
    rw [cut, Nat.sub_self, List.replicate_zero, List.append_nil]
    refine iff_of_false ?_ (by omega)
    rintro ⟨string, nul⟩
    -- Only the last byte can be the NUL, and the string before it is too short.
    obtain rfl : '\x00' = last := by simpa using (List.mem_append.mp nul).resolve_left front
    have whole := ((holds_append front ['\x00']).mpr rfl).1.symm.trans string
    have lengths := congrArg List.length whole
    omega

/-- After the options, each of the three buffers holds the name that its last option gives exactly when the
    name fits. -/
theorem fileNames_iff (strtod : Strtod) (b : Build) (m : Buffers) (os : List Opt) (s : Settings)
    (ran : run (option strtod) (defaults b m) os = .ok s)
    (sizes : m.dhcpdconfFile.length = MAXLEN ∧ m.dhcpdleaseFile.length = MAXLEN ∧ m.outputFile.length = MAXLEN)
    (texts : ∀ o ∈ os, ∀ a, (configArg o = some a ∨ leasesArg o = some a ∨ outputArg o = some a) → '\x00' ∉ a) :
    (∀ a, lastSet configArg os = some a → (Holds s.dhcpdconfFile a ↔ Fits m.dhcpdconfFile a)) ∧
      (∀ a, lastSet leasesArg os = some a → (Holds s.dhcpdleaseFile a ↔ Fits m.dhcpdleaseFile a)) ∧
      ∀ a, lastSet outputArg os = some a → (Holds s.outputFile a ↔ Fits m.outputFile a) := by
  rw [run_settled strtod ran]
  have given : ∀ {sets : Opt → Option (List Char)} {a}, lastSet sets os = some a → ∃ o ∈ os, sets o = some a := by
    intro sets a last
    exact List.mem_filterMap.mp (List.mem_of_getLast? last)
  refine ⟨?_, ?_, ?_⟩
  · intro a last
    obtain ⟨o, member, set⟩ := given last
    rw [settled, last, Option.elim_some, defaults, strncpy_strncpy]
    exact holds_strncpy sizes.1 (texts o member a (Or.inl set))
  · intro a last
    obtain ⟨o, member, set⟩ := given last
    rw [settled, last, Option.elim_some, defaults, strncpy_strncpy]
    exact holds_strncpy sizes.2.1 (texts o member a (Or.inr (Or.inl set)))
  · intro a last
    obtain ⟨o, member, set⟩ := given last
    have cleared : Fits (m.outputFile.set 0 '\x00') a ↔ Fits m.outputFile a := by
      rw [Fits, List.getElem?_set_ne (by decide), Fits]
    rw [settled, last, Option.elim_some, defaults, ← cleared]
    exact holds_strncpy (by rw [List.length_set, sizes.2.2]) (texts o member a (Or.inr (Or.inr set)))

/-- Decimal digits only. -/
def sampleStrtod : Strtod := fun str => (((String.ofList str).toNat?.getD 0 : ℕ), str.length, false)

def sampleBuild : Build :=
  ⟨"/etc/dhcpd.conf".toList, "/var/lib/dhcp/dhcpd.leases".toList, "77".toList, "text".toList, 80, 90⟩

def sampleBuffers : Buffers := ⟨List.replicate MAXLEN 'x', List.replicate MAXLEN 'x', List.replicate MAXLEN 'x'⟩

def sampleOptions : List Opt :=
  [.config "/usr/local/etc/dhcpd.conf".toList, .format "J".toList, .config "a.conf".toList, .limit "32".toList,
    .sort "nc".toList, .warning "70".toList, .sort "i".toList, .reverse]

example : (run (option sampleStrtod) (defaults sampleBuild sampleBuffers) sampleOptions).map (fun s => (s.sorts,
    s.printMacAddresesTmp, s.reverseOrder)) = .ok ("nci".toList, ['a'], true) := by decide +kernel

theorem fileNames_iff_sample : ∃ s, run (option sampleStrtod) (defaults sampleBuild sampleBuffers) sampleOptions = .ok s ∧
    Holds s.dhcpdconfFile "a.conf".toList := by
  have ran : run (option sampleStrtod) (defaults sampleBuild sampleBuffers) sampleOptions =
      .ok (settled sampleStrtod (defaults sampleBuild sampleBuffers) sampleOptions) :=
    run_goes sampleStrtod _ (by decide +kernel)
  have texts : ∀ o ∈ sampleOptions, ∀ a, (configArg o = some a ∨ leasesArg o = some a ∨ outputArg o = some a) →
      '\x00' ∉ a := by
    have each : ∀ o ∈ sampleOptions, '\x00' ∉ (configArg o).getD [] ∧ '\x00' ∉ (leasesArg o).getD [] ∧
        '\x00' ∉ (outputArg o).getD [] := by decide +kernel
    intro o member a given
    obtain ⟨conf, lease, output⟩ := each o member
    rcases given with set | set | set
    · rwa [set] at conf
    · rwa [set] at lease
    · rwa [set] at output
  refine ⟨_, ran, ((fileNames_iff sampleStrtod sampleBuild sampleBuffers sampleOptions _ ran ?_ texts).1 _ ?_).mpr ?_⟩
  · decide +kernel
  · decide +kernel
  · exact Or.inl (by decide +kernel)

end DhcpdPools.CommandLine
