import DhcpdPools.BlockLog
import DhcpdPools.LeaseVersion

/-!
The lease file as a log of declarations. The server appends a declaration when a lease
changes and rewrites the file from time to time with the last declaration of each
address. `parse_leases` keeps what the last declaration of an address says
(`parseLeases_log`), and notes whether any line at all says `backup`
(`parseLeases_backups`).
-/
namespace DhcpdPools.LeaseLog
open KeyedTable LeaseFile

/-! ## Declarations -/

/-- A header line and the lines up to the next one, with a binding state among them. -/
structure Declaration (v : DhcpVersion) where
  head : List Char
  body : List (List Char)
  header : IsHeader v head
  plain : ∀ line ∈ body, ¬IsHeader v line
  stated : ∃ line ∈ body, stateOf v line ≠ none

namespace Declaration
variable {v : DhcpVersion} (inet : Inet) (macs : Bool) (d : Declaration v)

def lines : List (List Char) := d.head :: d.body

def address : Nat := addressKey inet v (headerText v d.head)

/-- The last binding state. -/
def state : Option Ltype := (d.body.filterMap (stateOf v)).getLast?

/-- The last hardware address behind the last binding state. -/
def ethernet : Option (List Char) :=
  ((d.body.rtakeWhile fun line => (stateOf v line).isNone).filterMap (macOf v)).getLast?

/-- What a declaration says of its address. -/
def holding : Option (Ltype × Option (List Char)) := d.state.map fun t => (t, if macs then d.ethernet else none)

theorem head_state : stateOf v d.head = none := by
  have kind := d.header
  rw [IsHeader] at kind
  rw [stateOf, kind]

/-- The writes of a declaration. -/
def block : Block Nat Ltype (List Char) where
  key := d.address inet
  log := d.body.map (writeOf macs v (d.address inet))
  about := by
    intro e member k other
    obtain ⟨line, -, rfl⟩ := List.mem_map.mp member
    rw [writeOf_puts, writeOf_notes, if_neg (Ne.symm other), if_neg fun here => other here.1.symm]
    exact ⟨rfl, rfl⟩
  puts := by
    obtain ⟨line, member, stated⟩ := d.stated
    obtain ⟨t, state⟩ := Option.ne_none_iff_exists'.mp stated
    exact ⟨t, List.mem_map.mpr ⟨line, member, writeOf_state state⟩⟩

theorem block_leaves : (d.block inet macs).leaves = d.holding macs := by
  have puts : lastPut (d.address inet) (d.block inet macs).log = d.state := by
    simp [lastPut, block, state, List.filterMap_map, writeOf_puts]
  have notes : lastNote (d.address inet) (d.block inet macs).log = if macs then d.ethernet else none := by
    simp only [lastNote, block, ethernet, List.rtakeWhile, ← List.map_reverse, List.takeWhile_map, List.filterMap_map,
      Function.comp_def, writeOf_puts, writeOf_notes]
    cases macs <;> simp
  rw [Block.leaves, replay_lastPut]
  change (lastPut (d.address inet) _).map (fun b => (b, lastNote (d.address inet) _)) = _
  rw [puts, notes]
  rfl

end Declaration

/-- A file of declarations. Its lines fit into the buffer, and hardware lines are not cut
    off before the address. -/
structure Log (v : DhcpVersion) (file : List Char) where
  preamble : List (List Char)
  declarations : List (Declaration v)
  whole : fileLines file = preamble ++ declarations.flatMap Declaration.lines
  quiet : ∀ line ∈ preamble, (xstrstr v line).2 = .NUM_OF_PREFIX
  short : ∀ line ∈ fileLines file, line.length < 1024
  hardware : ∀ line ∈ fileLines file, macOf v line ≠ none → 20 ≤ line.length

namespace Log
variable {v : DhcpVersion} {file : List Char} (inet : Inet) (macs : Bool) (log : Log v file)

/-- The declarations of an address, in the order of the file. -/
def about (k : Nat) : List (Declaration v) := log.declarations.filter fun d => decide (d.address inet = k)

/-- What the last declaration of an address says. -/
def holdings (k : Nat) : Option (Ltype × Option (List Char)) := (log.about inet k).getLast?.bind (Declaration.holding macs)

/-- Is there any line with the state `backup`? -/
def backups : Bool := log.declarations.any fun d => d.body.any fun line => decide (stateOf v line = some .BACKUP)

/-- The last block of an address is that of its last declaration. -/
theorem latest_holdings (k : Nat) :
    (latest k (log.declarations.map (Declaration.block inet macs))).bind Block.leaves = log.holdings inet macs k := by
  have same : (log.declarations.map (Declaration.block inet macs)).filter (fun b => decide (b.key = k)) =
      (log.about inet k).map (Declaration.block inet macs) := by
    rw [List.filter_map]
    rfl
  rw [latest, same, List.getLast?_map, holdings, Option.bind_map]
  congr 1
  funext d
  exact d.block_leaves inet macs

end Log

/-! ## What `parse_leases` makes of it -/

section
variable {v : DhcpVersion} (known : v ≠ .IPvUNKNOWN) (inet : Inet) (macs : Bool)
include known

/-- Lines without a header write under the address that is current. -/
theorem readings_body {k : Nat} {body : List (List Char)} (plain : ∀ line ∈ body, ¬IsHeader v line)
    (hardware : ∀ line ∈ body, macOf v line ≠ none → 20 ≤ line.length) : ∀ buf : List Char, ∃ buf', ∀ rest : List (List Char),
      (readings inet v buf k (body ++ rest)).map (fun r => writeOf macs v r.1 r.2) =
        body.map (writeOf macs v k) ++ (readings inet v buf' k rest).map (fun r => writeOf macs v r.1 r.2) := by
  induction body with
  | nil => exact fun buf => ⟨buf, fun _ => rfl⟩
  | cons line body ih =>
    intro buf
    have long := hardware line List.mem_cons_self
    have stays : nextKey inet v line k = k := if_neg (plain line List.mem_cons_self)
    obtain ⟨buf', later⟩ := ih (fun l member => plain l (List.mem_cons_of_mem _ member))
      (fun l member => hardware l (List.mem_cons_of_mem _ member)) (store buf line)
    refine ⟨buf', fun rest => ?_⟩
    rw [List.cons_append, readings, List.map_cons, nextKey_store known buf line, stays, later, List.map_cons,
      List.cons_append, writeOf_store known macs buf line (fun _ => long)]

omit known in
/-- A header line writes nothing. -/
theorem writeOf_header (k : Nat) {line : List Char} (header : IsHeader v line) : writeOf macs v k line = .skip := by
  have kind := header
  rw [IsHeader] at kind
  simp [writeOf, stateOf, macOf, kind]

/-- Each declaration writes its block. -/
theorem readings_declarations {ds : List (Declaration v)}
    (hardware : ∀ line ∈ ds.flatMap Declaration.lines, macOf v line ≠ none → 20 ≤ line.length) : ∀ (buf : List Char) (k : Nat)
    (m : Nat → Option (Ltype × Option (List Char))),
      ((readings inet v buf k (ds.flatMap Declaration.lines)).map (fun r => writeOf macs v r.1 r.2)).foldl Write.apply m =
        ((ds.map (Declaration.block inet macs)).flatMap Block.log).foldl Write.apply m := by
  induction ds with
  | nil => exact fun _ _ _ => rfl
  | cons d ds ih =>
    intro buf k m
    rw [List.flatMap_cons, Declaration.lines] at hardware ⊢
    have long := hardware d.head List.mem_cons_self
    have here : nextKey inet v d.head k = d.address inet := if_pos d.header
    obtain ⟨buf', rest⟩ := readings_body known inet macs (k := d.address inet) d.plain
      (fun l member => hardware l (List.mem_cons_of_mem _ (List.mem_append_left _ member))) (store buf d.head)
    rw [List.cons_append, readings, List.map_cons, nextKey_store known buf d.head, here, rest,
      writeOf_store known macs buf d.head (fun _ => long), writeOf_header macs _ d.header, List.foldl_cons, List.foldl_append,
      ih fun l member => hardware l (List.mem_cons_of_mem _ (List.mem_append_right _ member)), List.map_cons,
      List.flatMap_cons, List.foldl_append]
    rfl

end

section
variable (env : Env) {v : DhcpVersion} (known : v ≠ .IPvUNKNOWN) (junk : List Char) (addr : Ipaddr) {file : List Char}
include known

omit known in
theorem Log.pieces_file (log : Log v file) : pieces 1023 1023 file = log.preamble ++ log.declarations.flatMap Declaration.lines := by
  have fits : ∀ line ∈ fileLines file, line.length ≤ 1023 := fun line member => Nat.le_of_lt_succ (log.short line member)
  rw [pieces_lines fits fun line member => fits line (List.mem_of_mem_head? member), log.whole]

/-- The table has for each address what its last declaration says. -/
theorem parseLeases_log (log : Log v file) (k : Nat) :
    tableMap v (parseLeases env v junk addr file).leases k = log.holdings env.inet env.printMacAddreses k := by
  have lines : fileLines file = log.preamble ++ log.declarations.flatMap Declaration.lines := log.whole
  have hardware := log.hardware
  rw [lines] at hardware
  have plain : ∀ line ∈ log.preamble, ¬IsHeader v line := by
    intro line member
    rw [IsHeader, log.quiet line member]
    decide
  have silent : ∀ e ∈ log.preamble.map (writeOf env.printMacAddreses v (key v addr)), e = .skip := by
    intro e member
    obtain ⟨line, inside, rfl⟩ := List.mem_map.mp member
    have kind := log.quiet line inside
    simp [writeOf, stateOf, macOf, kind]
  obtain ⟨buf, rest⟩ := readings_body known env.inet env.printMacAddreses (k := key v addr) plain
    (fun line member => hardware line (List.mem_append_left _ member)) ('\x00' :: junk)
  rw [(parseLeases_replay env known junk addr file).2, log.pieces_file, rest, replay, List.foldl_append, foldl_skips silent,
    readings_declarations known env.inet env.printMacAddreses fun line member => hardware line (List.mem_append_right _ member)]
  exact (replay_blocks _ k).trans (log.latest_holdings env.inet env.printMacAddreses k)

/-! ## The backup flag -/

/-- Does a line say `backup`? -/
def saysBackup (v : DhcpVersion) (line : List Char) : Bool := decide (stateOf v line = some .BACKUP)

theorem saysBackup_store (buf line : List Char) : saysBackup v (store buf line) = saysBackup v line := by
  rw [saysBackup, stateOf, xstrstr_store known]
  rfl

/-- A line sets the flag or leaves it. -/
theorem parseLine_backups {d : LeaseData} (version : d.ipVersion = v) :
    (parseLine env d).ipVersion = v ∧ (parseLine env d).line = d.line ∧
      (parseLine env d).backupsFound = (d.backupsFound || saysBackup v d.line) := by
  subst version
  obtain ⟨kind, classified⟩ : ∃ kind, xstrstr d.ipVersion d.line = (d.ipVersion, kind) :=
    ⟨_, Prod.ext (xstrstr_version known d.line) rfl⟩
  simp only [parseLine, saysBackup, stateOf, classified]
  cases kind with
  | PREFIX_LEASE => exact ⟨(key_parseIpaddr known _ _).1, rfl, (Bool.or_false _).symm⟩
  | PREFIX_BINDING_STATE_BACKUP => exact ⟨rfl, rfl, (Bool.or_true _).symm⟩
  | PREFIX_HARDWARE_ETHERNET =>
    cases env.printMacAddreses with
    | false => exact ⟨rfl, rfl, (Bool.or_false _).symm⟩
    | true =>
      cases findLease env.hash d.ipVersion d.leases d.addr <;> exact ⟨rfl, rfl, (Bool.or_false _).symm⟩
  | _ => exact ⟨rfl, rfl, (Bool.or_false _).symm⟩

theorem pieces_backups (ps : List (List Char)) : ∀ {d : LeaseData}, d.ipVersion = v →
    (ps.foldl (pieceStep env) d).ipVersion = v ∧
      (ps.foldl (pieceStep env) d).backupsFound = (d.backupsFound || ps.any (saysBackup v)) := by
  induction ps with
  | nil => exact fun version => ⟨version, (Bool.or_false _).symm⟩
  | cons p ps ih =>
    intro d version
    obtain ⟨version', -, flag⟩ := parseLine_backups env known (d := { d with line := store d.line p }) version
    obtain ⟨last, flags⟩ := ih (d := pieceStep env d p) version'
    refine ⟨last, flags.trans ?_⟩
    rw [pieceStep, flag, saysBackup_store known, List.any_cons, Bool.or_assoc]

/-- The flag is set when any line that is read says `backup`. -/
theorem parseLeases_backups (file : List Char) :
    (parseLeases env v junk addr file).backupsFound = (pieces 1023 1023 file).any (saysBackup v) := by
  let start : LeaseData := ⟨v, [], false, '\x00' :: junk, '\x00' :: junk, addr⟩
  have version : start.ipVersion = v := rfl
  obtain ⟨version', flags⟩ := pieces_backups env known (pieces 1023 1023 file) version
  rcases leaseLoop_run env (file.length + 1) start file (Nat.lt_succ_self _) with last | again
  · rw [parseLeases, last, flags]
    rfl
  · rw [parseLeases, again, (parseLine_backups env known version').2.2, flags]
    rcases List.eq_nil_or_concat (pieces 1023 1023 file) with none | ⟨front, p, split⟩
    · -- Of an empty file only the cleared buffer is classified.
      have blank := saysBackup_store known ('\x00' :: junk) []
      rw [none, List.foldl_nil]
      cases v with
      | IPvUNKNOWN => exact absurd rfl known
      | IPv4 => exact blank
      | IPv6 => exact blank
    · have line : ((pieces 1023 1023 file).foldl (pieceStep env) start).line = store (front.foldl (pieceStep env) start).line p := by
        rw [split, List.concat_eq_append, List.foldl_append]
        obtain ⟨version'', -⟩ := pieces_backups env known front version
        have kept := parseLine_backups env known
          (d := { front.foldl (pieceStep env) start with line := store (front.foldl (pieceStep env) start).line p }) version''
        exact kept.2.1
      rw [line, saysBackup_store known, split, List.concat_eq_append, List.any_append, List.any_cons, List.any_nil]
      cases saysBackup v p <;> simp [start]

omit known in
theorem Log.any_backup (log : Log v file) : (pieces 1023 1023 file).any (saysBackup v) = log.backups := by
  have silent : log.preamble.any (saysBackup v) = false := by
    refine List.any_eq_false.mpr ?_
    intro line member
    have kind := log.quiet line member
    simp [saysBackup, stateOf, kind]
  have each : ∀ d : Declaration v, d.lines.any (saysBackup v) = d.body.any (saysBackup v) := by
    intro d
    rw [Declaration.lines, List.any_cons, saysBackup, d.head_state]
    rfl
  rw [log.pieces_file, List.any_append, silent, Bool.false_or, List.any_flatMap]
  simp only [each]
  rfl

end

end DhcpdPools.LeaseLog
