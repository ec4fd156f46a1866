import DhcpdPools.LeaseKeywords

/-!
Blocks of a lease file that are not address leases, such as the prefix blocks of
ia-pd and the host blocks. `parse_leases` does not see where a block ends: a
binding state or hardware line of any block is taken for the address that was read
last. So an address keeps its entry when the blocks are deleted, if none of their
lines is read for it (`deleteBlocks_quiet`).
-/
namespace DhcpdPools.LeaseBlocks
open KeyedTable LeaseFile

/-- A part of a lease file: a line, or a block with its first line. -/
inductive Part where
  | line (text : List Char)
  | block (head : List Char) (body : List (List Char))

namespace Part

def lines : Part → List (List Char)
  | line text => [text]
  | block head body => head :: body

/-- Everything is kept except the blocks whose first line is no header of an address lease. -/
def kept (v : DhcpVersion) : Part → Bool
  | line _ => true
  | block head _ => decide (IsHeader v head)

/-- Each line of a part, as `fgets` reads it, with what becomes of the part. -/
def marked (v : DhcpVersion) (p : Part) : List (Bool × List Char) :=
  (p.lines.flatMap (pieces 1023 1023)).map (fun piece => (p.kept v, piece))

end Part

/-- The file without the blocks that are not address leases. -/
def deleteBlocks (v : DhcpVersion) (parts : List Part) : List Char :=
  ((parts.filter (Part.kept v)).flatMap Part.lines).flatten

/-- A piece of the file: is its part kept, which address is current when all lines
    are read, and which when only the kept ones are? -/
structure Entry where
  kept : Bool
  current : Nat
  alone : Nat
  text : List Char

def entries (inet : Inet) (v : DhcpVersion) : Nat → Nat → List (Bool × List Char) → List Entry
  | _, _, [] => []
  | k, a, (kept, piece) :: rest =>
    let k' := nextKey inet v piece k
    let a' := if kept then nextKey inet v piece a else a
    ⟨kept, k', a', piece⟩ :: entries inet v k' a' rest

section
variable (current : Entry → Nat) (v : DhcpVersion) (k : Nat) (log : List Entry)

/-- The state of the last binding state line that is read while an address is current. -/
def lastState : Option Ltype :=
  (log.filterMap (fun e => if current e = k then stateOf v e.text else none)).getLast?

/-- The text of the last hardware line that is read after it while the address is current. -/
def lastMac : Option (List Char) :=
  ((log.rtakeWhile (fun e => (if current e = k then stateOf v e.text else none).isNone)).filterMap
    (fun e => if current e = k then macOf v e.text else none)).getLast?

end

/-- What the lines of a log write. -/
def writes (current : Entry → Nat) (macs : Bool) (v : DhcpVersion) (log : List Entry) :
    List (Write Nat Ltype (List Char)) :=
  log.map (fun e => writeOf macs v (current e) e.text)

/-- A line that may change the entry of an address: a header of another one, or a line that
    is read while the address is current. -/
def Entry.ActsOn (macs : Bool) (v : DhcpVersion) (k : Nat) (e : Entry) : Prop :=
  IsHeader v e.text ∨ e.current = k ∧ (stateOf v e.text ≠ none ∨ macs = true ∧ macOf v e.text ≠ none)

instance (macs : Bool) (v : DhcpVersion) (k : Nat) (e : Entry) : Decidable (e.ActsOn macs v k) :=
  inferInstanceAs (Decidable (_ ∨ _))

theorem lastPut_writes (current : Entry → Nat) (macs : Bool) (v : DhcpVersion) (k : Nat) (log : List Entry) :
    lastPut k (writes current macs v log) = lastState current v k log := by
  simp only [lastPut, lastState, writes, List.filterMap_map, Function.comp_def, writeOf_puts]

theorem lastNote_writes (current : Entry → Nat) (macs : Bool) (v : DhcpVersion) (k : Nat) (log : List Entry) :
    lastNote k (writes current macs v log) = if macs then lastMac current v k log else none := by
  simp only [lastNote, lastMac, writes, List.rtakeWhile, ← List.map_reverse, List.takeWhile_map, List.filterMap_map,
    Function.comp_def, writeOf_puts, writeOf_notes]
  cases macs <;> simp

section
variable {inet : Inet} {v : DhcpVersion} (known : v ≠ .IPvUNKNOWN) (macs : Bool)
include known

/-- The whole file writes what all its entries write. -/
theorem readings_all {marked : List (Bool × List Char)}
    (hardware : macs = true → ∀ m ∈ marked, macOf v m.2 ≠ none → 20 ≤ m.2.length) (buf : List Char) (k a : Nat) :
    (readings inet v buf k (marked.map Prod.snd)).map (fun r => writeOf macs v r.1 r.2) =
      writes Entry.current macs v (entries inet v k a marked) := by
  induction marked generalizing buf k a with
  | nil => rfl
  | cons m rest ih =>
    have long := fun on => hardware on m List.mem_cons_self
    have tail := ih (fun on m' member => hardware on m' (List.mem_cons_of_mem _ member))
    simp only [List.map_cons, readings, entries, writes, writeOf_store known macs buf m.2 long,
      nextKey_store known buf m.2] at tail ⊢
    rw [tail]

/-- The file without the deleted blocks writes what the kept entries write. -/
theorem readings_kept {marked : List (Bool × List Char)}
    (hardware : macs = true → ∀ m ∈ marked, macOf v m.2 ≠ none → 20 ≤ m.2.length) (buf : List Char) (k a : Nat) :
    (readings inet v buf a ((marked.filter Prod.fst).map Prod.snd)).map (fun r => writeOf macs v r.1 r.2) =
      writes Entry.alone macs v ((entries inet v k a marked).filter Entry.kept) := by
  induction marked generalizing buf k a with
  | nil => rfl
  | cons m rest ih =>
    obtain ⟨kept, piece⟩ := m
    have long := fun on => hardware on _ List.mem_cons_self
    have tail := ih (fun on m' member => hardware on m' (List.mem_cons_of_mem _ member))
    cases kept with
    | false => simpa [entries] using tail buf (nextKey inet v piece k) a
    | true =>
      simp only [List.filter_cons_of_pos, List.map_cons, readings, entries, writes, if_true,
        writeOf_store known macs buf piece long, nextKey_store known buf piece] at tail ⊢
      rw [tail _ (nextKey inet v piece k)]

end

theorem marked_pieces (v : DhcpVersion) (parts : List Part) :
    (parts.flatMap (Part.marked v)).map Prod.snd = (parts.flatMap Part.lines).flatMap (pieces 1023 1023) := by
  induction parts with
  | nil => rfl
  | cons p rest ih =>
    rw [List.flatMap_cons, List.map_append, ih, List.flatMap_cons, List.flatMap_append, Part.marked, List.map_map]
    simp

theorem marked_kept (v : DhcpVersion) (parts : List Part) :
    (parts.flatMap (Part.marked v)).filter Prod.fst = (parts.filter (Part.kept v)).flatMap (Part.marked v) := by
  induction parts with
  | nil => rfl
  | cons p rest ih =>
    rw [List.flatMap_cons, List.filter_append, ih]
    cases kept : p.kept v with
    | true =>
      rw [List.filter_cons_of_pos kept, List.flatMap_cons, List.filter_eq_self.mpr]
      intro m member
      obtain ⟨piece, -, rfl⟩ := List.mem_map.mp member
      exact kept
    | false =>
      rw [List.filter_cons_of_neg (by simp [kept]), List.filter_eq_nil_iff.mpr, List.nil_append]
      intro m member
      obtain ⟨piece, -, rfl⟩ := List.mem_map.mp member
      simp [kept]

section
variable (env : Env) {v : DhcpVersion} (known : v ≠ .IPvUNKNOWN) (junk : List Char) (addr : Ipaddr)
  {file : List Char} {parts : List Part}
include known

/-- The tables of the file and of the file without the blocks, as replays of one log. -/
theorem deleteBlocks_replay (whole : parts.flatMap Part.lines = fileLines file)
    (ending : env.printMacAddreses = true → ¬EndsBare file) :
    let log := entries env.inet v (key v addr) (key v addr) (parts.flatMap (Part.marked v))
    tableMap v (parseLeases env v junk addr (deleteBlocks v parts)).leases =
        replay (writes Entry.alone env.printMacAddreses v (log.filter Entry.kept)) ∧
      tableMap v (parseLeases env v junk addr file).leases =
        replay (writes Entry.current env.printMacAddreses v log) := by
  have ends := fileLines_terminated file
  rw [← whole] at ends
  have allPieces : pieces 1023 1023 file = (parts.flatMap (Part.marked v)).map Prod.snd := by
    rw [marked_pieces, ← pieces_flatten 1023 ends, whole, fileLines_flatten]
  have keptPieces : pieces 1023 1023 (deleteBlocks v parts) =
      ((parts.flatMap (Part.marked v)).filter Prod.fst).map Prod.snd := by
    rw [marked_kept, marked_pieces, deleteBlocks, pieces_flatten]
    exact ends.sublist (List.Sublist.flatMap List.filter_sublist _)
  have hardware : env.printMacAddreses = true →
      ∀ m ∈ parts.flatMap (Part.marked v), macOf v m.2 ≠ none → 20 ≤ m.2.length := by
    intro on m member
    refine pieces_hardware known (ending on) m.2 ?_
    rw [allPieces]
    exact List.mem_map_of_mem member
  rw [(parseLeases_replay env known junk addr file).2, (parseLeases_replay env known junk addr _).2, allPieces,
    keptPieces, readings_all known _ hardware _ _ (key v addr), readings_kept known _ hardware _ (key v addr)]
  exact ⟨rfl, rfl⟩

omit known in
/-- Lines that do not act on an address may be left out, as far as its entry goes. -/
theorem entries_quiet (inet : Inet) (macs : Bool) {marked : List (Bool × List Char)} (k : Nat) : ∀ {current : Nat}
    {m m' : Nat → Option (Ltype × Option (List Char))}, m k = m' k →
    (∀ e ∈ entries inet v current current marked, e.kept = false → ¬e.ActsOn macs v k) →
    (writes Entry.alone macs v ((entries inet v current current marked).filter Entry.kept)).foldl Write.apply m k =
      (writes Entry.current macs v (entries inet v current current marked)).foldl Write.apply m' k := by
  induction marked with
  | nil => exact fun same _ => same
  | cons piece rest ih =>
    intro current m m' same quiet
    obtain ⟨kept, piece⟩ := piece
    cases kept with
    | true =>
      simp only [entries, if_true] at quiet
      have later := fun e member => quiet e (List.mem_cons_of_mem _ member)
      simpa [entries, writes] using ih (Write.apply_congr same (writeOf macs v (nextKey inet v piece current) piece)) later
    | false =>
      have here := quiet _ List.mem_cons_self rfl
      obtain ⟨body, silent⟩ := not_or.mp here
      have stays : nextKey inet v piece current = current := if_neg body
      rw [stays] at silent
      simp only [entries, stays, Bool.false_eq_true, if_false] at quiet
      have later := fun e member => quiet e (List.mem_cons_of_mem _ member)
      -- What the line puts or notes, it does for the address that is current.
      have puts : (writeOf macs v current piece).puts k = none := by
        rw [writeOf_puts]
        split_ifs with at_address
        · by_contra state
          exact silent ⟨at_address, Or.inl state⟩
        · rfl
      have notes : (writeOf macs v current piece).notes k = none := by
        rw [writeOf_notes]
        split_ifs with printed
        · by_contra mac
          exact silent ⟨printed.1, Or.inr ⟨printed.2, mac⟩⟩
        · rfl
      have left : (writeOf macs v current piece).apply m' k = m' k := Write.apply_other puts notes m'
      simpa [entries, writes, stays] using ih (same.trans left.symm) later

end

/-- Deleting the blocks that are not address leases leaves the entry of every address that no
    line of theirs acts on. In the whole file the entry of an address is that of the last
    binding state line read for it, with the last hardware line after it, in whatever
    blocks they stand. -/
theorem deleteBlocks_quiet (env : Env) (v : DhcpVersion) (known : v ≠ .IPvUNKNOWN) (junk : List Char) (addr : Ipaddr)
    (file : List Char) (parts : List Part) (whole : parts.flatMap Part.lines = fileLines file)
    (ending : env.printMacAddreses = true → ¬EndsBare file) :
    let log := entries env.inet v (key v addr) (key v addr) (parts.flatMap (Part.marked v))
    let table := tableMap v (parseLeases env v junk addr file).leases
    (∀ k, (∀ e ∈ log, e.kept = false → ¬e.ActsOn env.printMacAddreses v k) →
        tableMap v (parseLeases env v junk addr (deleteBlocks v parts)).leases k = table k) ∧
      ∀ k, table k = (lastState Entry.current v k log).map (fun type =>
        (type, if env.printMacAddreses then lastMac Entry.current v k log else none)) := by
  intro log table
  obtain ⟨without, all⟩ := deleteBlocks_replay env known junk addr whole ending
  refine ⟨fun k quiet => ?_, fun k => ?_⟩
  · change _ = tableMap v (parseLeases env v junk addr file).leases k
    rw [without, all]
    exact entries_quiet env.inet env.printMacAddreses k rfl quiet
  · change tableMap v (parseLeases env v junk addr file).leases k = _
    rw [all, replay_lastPut, lastPut_writes, lastNote_writes]

/-- An address block with an expired binding, then a prefix block. -/
def prefixParts (state : String) : List Part :=
  [.line "ia-na \"c\" \x7b\n".toList,
   .block "  iaaddr fe80::1 \x7b\n".toList ["    binding state expired;\n".toList, "  \x7d\n".toList],
   .line "\x7d\n".toList, .line "ia-pd \"c\" \x7b\n".toList,
   .block "  iaprefix fe00::/56 \x7b\n".toList [state.toList, "  \x7d\n".toList],
   .line "\x7d\n".toList]

/-- The prefix block comes first, when no address is read yet. -/
def prefixFirst : List Part :=
  [.block "  iaprefix fe00::/56 \x7b\n".toList ["    binding state active;\n".toList, "  \x7d\n".toList],
   .block "  iaaddr fe80::1 \x7b\n".toList ["    binding state expired;\n".toList, "  \x7d\n".toList]]

theorem deleteBlocks_quiet_sample :
    let k := key .IPv6 ⟨#v[0xfe, 0x80, 0, 0, 0, 0, 0, 0, 0, 0, 0, 0, 0, 0, 0, 1]⟩
    tableMap .IPv6 (parseLeases sampleEnv .IPv6 [] ⟨Vector.replicate 16 0⟩ (deleteBlocks .IPv6 prefixFirst)).leases k =
      tableMap .IPv6 (parseLeases sampleEnv .IPv6 [] ⟨Vector.replicate 16 0⟩
        (prefixFirst.flatMap Part.lines).flatten).leases k :=
  (deleteBlocks_quiet sampleEnv .IPv6 (by decide) [] ⟨Vector.replicate 16 0⟩ (prefixFirst.flatMap Part.lines).flatten
    prefixFirst (by decide +kernel) (by decide +kernel)).1 _ (by decide +kernel)

/-- A file that ends behind the keyword of a hardware line, with a host block in front of it. -/
def bareParts : List Part :=
  [.block "lease 10.0.0.5 \x7b\n".toList ["  binding state active;\n".toList, "\x7d\n".toList],
   .block "host a \x7b\n".toList ["  dynamic; # 00:11:22:33:44:55\n".toList, "\x7d\n".toList],
   .line "  hardware ethernet".toList]

/-- The state of the prefix becomes the state of the address, and a hardware line without its
    text reads what the deleted block left in the buffer. -/
theorem prefix_sets_state :
    let k := key .IPv6 ⟨#v[0xfe, 0x80, 0, 0, 0, 0, 0, 0, 0, 0, 0, 0, 0, 0, 0, 1]⟩
    let parts := prefixParts "    binding state active;\n"
    let parse := fun v file => tableMap v (parseLeases sampleEnv v [] ⟨Vector.replicate 16 0⟩ file).leases
    (parts.flatMap Part.lines = fileLines (parts.flatMap Part.lines).flatten ∧
      parse .IPv6 (deleteBlocks .IPv6 parts) k = some (.FREE, none) ∧
      parse .IPv6 (parts.flatMap Part.lines).flatten k = some (.ACTIVE, none)) ∧
    bareParts.flatMap Part.lines = fileLines (bareParts.flatMap Part.lines).flatten ∧
      parse .IPv4 (deleteBlocks .IPv4 bareParts) 0x0a000005 ≠
        parse .IPv4 (bareParts.flatMap Part.lines).flatten 0x0a000005 := by
  decide +kernel

end DhcpdPools.LeaseBlocks
