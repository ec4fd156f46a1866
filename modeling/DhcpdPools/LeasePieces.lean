import DhcpdPools.LeaseKeywords
import DhcpdPools.LeaseVersion

/-!
Reading the lease file in pieces of 1023 bytes against reading it line by line. The
first piece of a line does what the whole line does (`lineStep_level`), unless it is a
header that is cut inside its address. So the tables agree, and no other piece is taken
for a line, while no text at a multiple of 1023 bytes into a line looks like a line of
its own and no such header is used (`pieces_agree_iff`).
-/
namespace DhcpdPools.LeasePieces
open KeyedTable LeaseFile LeaseVersion

/-! ## The first piece of a line -/

theorem charAt_take {n i : Nat} (inside : i < n) (s : List Char) : charAt (s.take n) i = charAt s i := by
  simp [charAt, inside]

theorem cstr_take_comm (n : Nat) (s : List Char) : cstr (s.take n) = (cstr s).take n := by
  rw [cstr, cstr, List.take_takeWhile]

theorem probe_take {margin n : Nat} {s : String} {k : Nat} (inside : margin + n ≤ k) (str : List Char) :
    probe margin n s (str.take k) = probe margin n s str := by
  simp [probe, sameBytes, List.take_take, inside]

theorem xstrstrState_take {margin k : Nat} (small : margin ≤ 4) (long : 28 ≤ k) (str : List Char) :
    xstrstrState margin (str.take k) = xstrstrState margin str := by
  have size : 13 + margin < strlen (str.take k) ↔ 13 + margin < strlen str := by
    rw [strlen, cstr_take_comm, List.length_take, ← strlen]
    omega
  have guard : (13 + margin < if charAt str margin = 'b' ∨ charAt str 2 = 'h' then strlen (str.take k) else 0) ↔
      13 + margin < if charAt str margin = 'b' ∨ charAt str 2 = 'h' then strlen str else 0 := by
    split_ifs
    · exact size
    · rfl
  unfold xstrstrState
  simp only [charAt_take (show margin < k by omega), charAt_take (show 2 < k by omega),
    charAt_take (show 14 + margin < k by omega), probe_take (show margin + 19 ≤ k by omega),
    probe_take (show margin + 21 ≤ k by omega), probe_take (show margin + 22 ≤ k by omega),
    probe_take (show margin + 23 ≤ k by omega), probe_take (show 2 + 17 ≤ k by omega), guard]

/-- The classifier looks at the first bytes only. -/
theorem xstrstr_take {v : DhcpVersion} (known : v ≠ .IPvUNKNOWN) {k : Nat} (long : 28 ≤ k) (str : List Char) :
    xstrstr v (str.take k) = xstrstr v str := by
  cases v with
  | IPvUNKNOWN => exact absurd rfl known
  | IPv4 => rw [xstrstr, xstrstr, xstrstrV4, xstrstrV4, xstrstrState_take (by decide) long, probe_take (by omega)]
  | IPv6 => rw [xstrstr, xstrstr, xstrstrV6, xstrstrV6, xstrstrState_take (by decide) long, probe_take (by omega)]

theorem macOf_take {v : DhcpVersion} (known : v ≠ .IPvUNKNOWN) {k : Nat} (long : 37 ≤ k) (line : List Char) :
    macOf v (line.take k) = macOf v line := by
  have text : ((line.take k).drop 20).take 17 = (line.drop 20).take 17 := by
    rw [List.drop_take, List.take_take, Nat.min_eq_left (by omega)]
  rw [macOf, macOf, xstrstr_take known (by omega), text]

/-! ## Runs without the buffer -/

/-- What is known after some lines: the current address and what the table says. -/
abbrev Known := Nat × (Nat → Option (Ltype × Option (List Char)))

section
variable (macs : Bool) (inet : Inet) (v : DhcpVersion)

/-- One line on its own. -/
def lineStep (st : Known) (line : List Char) : Known :=
  let k := nextKey inet v line st.1
  (k, (writeOf macs v k line).apply st.2)

/-- No line before the next header is read for an address. -/
def Unread (lines : List (List Char)) : Prop :=
  ∀ line ∈ lines.takeWhile (fun l => ¬IsHeader v l), stateOf v line = none ∧ (macs = true → macOf v line = none)

/-- Two runs in front of some lines: one table, and one address if that is used. -/
def Level (lines : List (List Char)) (st st' : Known) : Prop := st.2 = st'.2 ∧ (st.1 = st'.1 ∨ Unread macs v lines)

/-- A header whose address is used gives the same address when the buffer cuts it. -/
def HeadersKept : List (List Char) → Prop
  | [] => True
  | line :: rest =>
    ((IsHeader v line → addressKey inet v (headerText v (line.take 1023)) = addressKey inet v (headerText v line)) ∨
      Unread macs v rest) ∧ HeadersKept rest

variable {macs inet v}

instance (lines : List (List Char)) : Decidable (Unread macs v lines) := List.decidableBAll _ _

instance headersKept_decidable : ∀ lines : List (List Char), Decidable (HeadersKept macs inet v lines)
  | [] => isTrue trivial
  | _ :: rest => @instDecidableAnd _ _ (inferInstanceAs (Decidable ((_ → _) ∨ _))) (headersKept_decidable rest)

/-- What stood in the buffer matters for the last line only, and there for the text of a
    hardware line that ends before it. -/
theorem readings_concat (known : v ≠ .IPvUNKNOWN) (lines : List (List Char)) (last : List Char)
    (hardware : ∀ line ∈ lines, macOf v line ≠ none → 20 ≤ line.length) (buf : List Char) (st : Known) :
    ((readings inet v buf st.1 (lines ++ [last])).map (fun r => writeOf macs v r.1 r.2)).foldl Write.apply st.2 =
      (writeOf macs v (nextKey inet v last (lines.foldl (lineStep macs inet v) st).1) (store (lines.foldl store buf) last)).apply
        (lines.foldl (lineStep macs inet v) st).2 := by
  induction lines generalizing buf st with
  | nil =>
    rw [List.nil_append, readings, readings, nextKey_store known]
    rfl
  | cons line rest ih =>
    have first := fun _ : macs = true => hardware line List.mem_cons_self
    rw [List.cons_append, readings, List.map_cons, List.foldl_cons, nextKey_store known buf line,
      writeOf_store known _ buf line first]
    exact ih (fun l member => hardware l (List.mem_cons_of_mem line member)) _ (lineStep macs inet v st line)

theorem lineStep_quiet (st : Known) {line : List Char} (quiet : (xstrstr v line).2 = .NUM_OF_PREFIX) :
    lineStep macs inet v st line = st := by
  have body : ¬IsHeader v line := by simp [IsHeader, quiet]
  simp [lineStep, nextKey, body, writeOf, stateOf, macOf, quiet, Write.apply]

theorem writeOf_take (known : v ≠ .IPvUNKNOWN) (k : Nat) (line : List Char) :
    writeOf macs v k (line.take 1023) = writeOf macs v k line := by
  rw [writeOf, writeOf, stateOf, xstrstr_take known (by decide), ← stateOf, macOf_take known (by decide)]

theorem level_refl (lines : List (List Char)) (st : Known) : Level macs v lines st st := ⟨rfl, Or.inl rfl⟩

/-- The pieces of a line do what its first piece does. -/
theorem pieces_lineStep (st : Known) {line : List Char} (plain : '\n' ∉ line.dropLast)
    (quiet : ∀ piece ∈ (pieces 1023 1023 line).tail, (xstrstr v piece).2 = .NUM_OF_PREFIX) (filled : line ≠ []) :
    (pieces 1023 1023 line).foldl (lineStep macs inet v) st = lineStep macs inet v st (line.take 1023) := by
  rw [pieces_take plain filled (by decide)] at quiet ⊢
  rw [List.foldl_cons]
  generalize pieces 1023 1023 (line.drop 1023) = later at quiet
  generalize lineStep macs inet v st (line.take 1023) = st'
  induction later with
  | nil => rfl
  | cons piece rest ih =>
    rw [List.foldl_cons, lineStep_quiet st' (quiet piece List.mem_cons_self)]
    exact ih (fun p member => quiet p (List.mem_cons_of_mem piece member))

theorem unread_cons {line : List Char} {rest : List (List Char)} (body : ¬IsHeader v line)
    (unread : Unread macs v (line :: rest)) :
    (stateOf v line = none ∧ (macs = true → macOf v line = none)) ∧ Unread macs v rest := by
  rw [Unread, List.takeWhile_cons, if_pos (by simpa using body)] at unread
  exact List.forall_mem_cons.mp unread

theorem writeOf_skip {line : List Char} (silent : stateOf v line = none ∧ (macs = true → macOf v line = none)) (k : Nat) :
    writeOf macs v k line = .skip := by
  rw [writeOf, silent.1]
  cases on : macs with
  | false => cases macOf v line <;> rfl
  | true => rw [silent.2 on]

/-- The first piece of a line and the line keep two runs level. -/
theorem lineStep_level (known : v ≠ .IPvUNKNOWN) {line : List Char} {rest : List (List Char)}
    (kept : HeadersKept macs inet v (line :: rest)) {st st' : Known} (level : Level macs v (line :: rest) st st') :
    Level macs v rest (lineStep macs inet v st (line.take 1023)) (lineStep macs inet v st' line) := by
  obtain ⟨table, address⟩ := level
  have kind : IsHeader v (line.take 1023) ↔ IsHeader v line := by rw [IsHeader, xstrstr_take known (by decide), IsHeader]
  simp only [lineStep, writeOf_take known, nextKey]
  by_cases headed : IsHeader v line
  · rw [if_pos (kind.mpr headed), if_pos headed]
    have silent : stateOf v line = none ∧ (macs = true → macOf v line = none) := by
      have code := headed
      rw [IsHeader] at code
      simp [stateOf, macOf, code]
    rw [writeOf_skip silent, writeOf_skip silent]
    exact ⟨table, kept.1.imp_left (fun same => same headed)⟩
  · rw [if_neg (fun h => headed (kind.mp h)), if_neg headed]
    rcases address with same | unread
    · exact ⟨by rw [same, table], Or.inl same⟩
    · obtain ⟨silent, later⟩ := unread_cons headed unread
      rw [writeOf_skip silent, writeOf_skip silent]
      exact ⟨table, Or.inr later⟩

/-- So do the pieces of many lines. -/
theorem pieces_level (known : v ≠ .IPvUNKNOWN) {lines rest : List (List Char)} (plain : ∀ line ∈ lines, '\n' ∉ line.dropLast)
    (filled : ∀ line ∈ lines, line ≠ [])
    (quiet : ∀ line ∈ lines, ∀ piece ∈ (pieces 1023 1023 line).tail, (xstrstr v piece).2 = .NUM_OF_PREFIX) :
    ∀ {st st' : Known}, HeadersKept macs inet v (lines ++ rest) → Level macs v (lines ++ rest) st st' →
      Level macs v rest ((lines.flatMap (pieces 1023 1023)).foldl (lineStep macs inet v) st)
        (lines.foldl (lineStep macs inet v) st') := by
  induction lines with
  | nil => exact fun _ level => level
  | cons line lines ih =>
    intro st st' kept level
    rw [List.flatMap_cons, List.foldl_append, List.foldl_cons, pieces_lineStep st (plain line List.mem_cons_self)
      (quiet line List.mem_cons_self) (filled line List.mem_cons_self)]
    exact ih (fun l member => plain l (List.mem_cons_of_mem line member))
      (fun l member => filled l (List.mem_cons_of_mem line member))
      (fun l member => quiet l (List.mem_cons_of_mem line member)) kept.2 (lineStep_level known kept level)

end

/-! ## Whole files -/

/-- The processing of `parse_leases` applied once to each whole line, in a buffer that
    every line fits into. -/
def lineByLine (env : Env) (v : DhcpVersion) (junk : List Char) (addr : Ipaddr) (file : List Char) : LeaseData :=
  (fileLines file).foldl (pieceStep env) (start v junk addr)

/-- What some lines leave in the buffer at the place of the text of a hardware line. -/
def residue (junk : List Char) (lines : List (List Char)) : List Char :=
  cstr (((lines.foldl store ('\x00' :: junk)).drop 20).take 17)

/-- Both ways of reading leave the same table, and no piece that continues a line is
    taken for a line of its own. -/
structure Agrees (env : Env) (v : DhcpVersion) (junk : List Char) (addr : Ipaddr) (file : List Char) : Prop where
  table : tableMap v (parseLeases env v junk addr file).leases = tableMap v (lineByLine env v junk addr file).leases
  tails : ∀ line ∈ fileLines file, ∀ piece ∈ (pieces 1023 1023 line).tail, (xstrstr v piece).2 = .NUM_OF_PREFIX

/-- At the places where the buffer cuts a line stands nothing that looks like a header, a
    binding state or a hardware address. -/
def HarmlessCuts (v : DhcpVersion) (line : List Char) : Prop :=
  ∀ i, 0 < i → 1023 * i < line.length → (xstrstr v (line.drop (1023 * i))).2 = .NUM_OF_PREFIX

instance (v : DhcpVersion) (line : List Char) : Decidable (HarmlessCuts v line) :=
  decidable_of_iff (∀ i < line.length, 0 < i → 1023 * i < line.length →
      (xstrstr v (line.drop (1023 * i))).2 = .NUM_OF_PREFIX)
    ⟨fun each i positive inside => each i (by omega) positive inside, fun each i _ => each i⟩

theorem harmlessCuts_iff {v : DhcpVersion} (known : v ≠ .IPvUNKNOWN) {line : List Char} (plain : '\n' ∉ line.dropLast)
    (filled : line ≠ []) :
    (∀ piece ∈ (pieces 1023 1023 line).tail, (xstrstr v piece).2 = .NUM_OF_PREFIX) ↔ HarmlessCuts v line := by
  have later := @forall_pieces 1023 (by decide) (fun piece => (xstrstr v piece).2 = .NUM_OF_PREFIX)
    (line.drop 1023) (newline_drop plain 1023)
  rw [pieces_take plain filled (by decide), List.tail_cons, later]
  constructor
  · intro each i positive inside
    obtain ⟨i, rfl⟩ := Nat.exists_eq_succ_of_ne_zero (Nat.ne_of_gt positive)
    have here := each i (by rw [List.length_drop]; omega)
    rwa [xstrstr_take known (by decide), List.drop_drop, Nat.add_comm, ← Nat.mul_succ] at here
  · intro each i inside
    have here := each (i + 1) (Nat.succ_pos i) (by rw [List.length_drop] at inside; omega)
    rwa [xstrstr_take known (by decide), List.drop_drop, Nat.add_comm, ← Nat.mul_succ]

/-- Cutting the lines changes nothing that is read: no cut is harmful, a header whose address is
    used keeps it, and a hardware line without its text finds the same bytes behind it. -/
structure CutsKeep (env : Env) (v : DhcpVersion) (junk : List Char) (file : List Char) : Prop where
  tails : ∀ line ∈ fileLines file, HarmlessCuts v line
  headers : HeadersKept env.printMacAddreses env.inet v (fileLines file)
  ending : env.printMacAddreses = true → EndsBare file →
    residue junk (pieces 1023 1023 file) = residue junk (fileLines file)

theorem tails_iff {v : DhcpVersion} (known : v ≠ .IPvUNKNOWN) (file : List Char) :
    (∀ line ∈ fileLines file, ∀ piece ∈ (pieces 1023 1023 line).tail, (xstrstr v piece).2 = .NUM_OF_PREFIX) ↔
      ∀ line ∈ fileLines file, HarmlessCuts v line :=
  forall₂_congr fun line member => harmlessCuts_iff known (fileLines_newline line member) (fileLines_nonempty line member)

/-- The table of a run over whole lines, in front of the last one. -/
theorem run_concat (env : Env) {v : DhcpVersion} (known : v ≠ .IPvUNKNOWN) (junk : List Char) (addr : Ipaddr)
    {lines : List (List Char)} (last : List Char) (hardware : ∀ line ∈ lines, macOf v line ≠ none → 20 ≤ line.length) :
    let before := lines.foldl (lineStep env.printMacAddreses env.inet v) (key v addr, fun _ => none)
    replay ((readings env.inet v ('\x00' :: junk) (key v addr) (lines ++ [last])).map
        (fun r => writeOf env.printMacAddreses v r.1 r.2)) =
      (writeOf env.printMacAddreses v (nextKey env.inet v last before.1)
        (store (lines.foldl store ('\x00' :: junk)) last)).apply before.2 :=
  readings_concat known lines last hardware ('\x00' :: junk) (key v addr, fun _ => none)

/-- A bare hardware line notes what is left in the buffer. -/
theorem writeOf_bare {v : DhcpVersion} (known : v ≠ .IPvUNKNOWN) {bare : List Char} (found : macOf v bare ≠ none)
    (junk : List Char) (lines : List (List Char)) (k : Nat) :
    writeOf true v k (store (lines.foldl store ('\x00' :: junk)) bare) = .note k (residue junk (lines ++ [bare])) := by
  have kind : (xstrstr v bare).2 = .PREFIX_HARDWARE_ETHERNET := by
    by_contra other
    exact found (if_neg other)
  have silent : stateOf v (store (lines.foldl store ('\x00' :: junk)) bare) = none := by
    rw [stateOf_store known, stateOf, kind]
  have text : macOf v (store (lines.foldl store ('\x00' :: junk)) bare) = some (residue junk (lines ++ [bare])) := by
    rw [macOf, xstrstr_store known, if_pos kind, residue, List.foldl_append]
    rfl
  rw [writeOf, silent, text]
  rfl

/-- A line is its only piece, or the last piece continues it. -/
theorem pieces_last {line piece : List Char} {before : List (List Char)} (plain : '\n' ∉ line.dropLast)
    (filled : line ≠ []) (cut : pieces 1023 1023 line = before ++ [piece]) :
    before = [] ∧ piece = line ∨ line.take 1023 ∈ before ∧ piece ∈ (pieces 1023 1023 line).tail := by
  have first : pieces 1023 1023 line = line.take 1023 :: pieces 1023 1023 (line.drop 1023) :=
    pieces_take plain filled (by decide)
  rw [cut] at first ⊢
  cases before with
  | nil =>
    obtain ⟨rfl, rest⟩ := List.cons.inj first
    have done : line.drop 1023 = [] := by
      by_contra more
      rw [pieces_fgets (by decide) more] at rest
      cases rest
    exact Or.inl ⟨rfl, List.take_of_length_le (List.drop_eq_nil_iff.mp done)⟩
  | cons start before =>
    obtain ⟨rfl, -⟩ := List.cons.inj first
    exact Or.inr ⟨List.mem_cons_self, by simp⟩

theorem headersKept_append {macs : Bool} {inet : Inet} {v : DhcpVersion} {front rest : List (List Char)}
    (kept : HeadersKept macs inet v (front ++ rest)) : HeadersKept macs inet v rest := by
  induction front with
  | nil => exact kept
  | cons line front ih => exact ih kept.2

/-- While cutting the lines changes nothing, the tables agree. -/
theorem CutsKeep.table {env : Env} {v : DhcpVersion} (known : v ≠ .IPvUNKNOWN) {junk : List Char} (addr : Ipaddr)
    {file : List Char} (keeps : CutsKeep env v junk file) :
    tableMap v (parseLeases env v junk addr file).leases = tableMap v (lineByLine env v junk addr file).leases := by
  have quiet := (tails_iff known file).mpr keeps.tails
  have replayed := (parseLeases_replay env known junk addr file).2
  have whole : tableMap v (lineByLine env v junk addr file).leases =
      replay ((readings env.inet v ('\x00' :: junk) (key v addr) (fileLines file)).map
        (fun r => writeOf env.printMacAddreses v r.1 r.2)) :=
    (pieces_run env known (fileLines file) (start_inv v junk addr)).2
  rw [replayed, whole]
  rcases List.eq_nil_or_concat (fileLines file) with none | ⟨front, line, lines⟩
  · rw [none, fileLines_eq_nil none]
    rfl
  rw [List.concat_eq_append] at lines
  have inside : ∀ l ∈ front ++ [line], l ∈ fileLines file := fun l member => lines ▸ member
  have plain := fun l member => fileLines_newline l (inside l member)
  have filled := fun l member => fileLines_nonempty l (inside l member)
  have here := List.mem_append_right front (List.mem_singleton_self line)
  -- The last piece of the file is the last one of the last line.
  obtain ⟨before, piece, cut⟩ : ∃ before piece, pieces 1023 1023 line = before ++ [piece] := by
    rcases List.eq_nil_or_concat (pieces 1023 1023 line) with none | ⟨before, piece, cut⟩
    · rw [pieces_take (plain line here) (filled line here) (by decide)] at none
      cases none
    · exact ⟨before, piece, by rw [cut, List.concat_eq_append]⟩
  have split : pieces 1023 1023 file = (front.flatMap (pieces 1023 1023) ++ before) ++ [piece] := by
    rw [pieces_fileLines, lines, List.flatMap_append, List.flatMap_singleton, cut, List.append_assoc]
  have reach := pieces_front known split
  have first : ∀ l ∈ front ++ [line], pieces 1023 1023 l = l.take 1023 :: pieces 1023 1023 (l.drop 1023) :=
    fun l member => pieces_take (plain l member) (filled l member) (by decide)
  have reach' : ∀ l ∈ front, macOf v l ≠ none → 20 ≤ l.length := by
    intro l member found
    have long := reach (l.take 1023) (List.mem_append_left _ (List.mem_flatMap.mpr ⟨l, member, by
      rw [first l (List.mem_append_left _ member)]
      exact List.mem_cons_self⟩)) (by rwa [macOf_take known (by decide)])
    rw [List.length_take] at long
    omega
  have level := pieces_level known (fun l member => plain l (List.mem_append_left _ member))
    (fun l member => filled l (List.mem_append_left _ member))
    (fun l member => quiet l (inside l (List.mem_append_left _ member))) (lines ▸ keeps.headers)
    (level_refl (front ++ [line]) (key v addr, fun _ => none))
  have last := pieces_last (plain line here) (filled line here) cut
  rw [split, run_concat env known junk addr piece reach, lines, run_concat env known junk addr line reach']
  by_cases texts : env.printMacAddreses = true → macOf v piece ≠ none → 20 ≤ piece.length
  · -- Neither table needs the buffer, and the pieces of the last line do what the line does.
    have texts' : env.printMacAddreses = true → macOf v line ≠ none → 20 ≤ line.length := by
      intro on found
      rcases last with ⟨-, rfl⟩ | ⟨front, -⟩
      · exact texts on found
      · have long := reach _ (List.mem_append_right _ front) (by rwa [macOf_take known (by decide)])
        rw [List.length_take] at long
        omega
    have step := lineStep_level known (headersKept_append (lines ▸ keeps.headers)) level
    rw [← pieces_lineStep _ (plain line here) (quiet line (inside line here)) (filled line here), cut, ← List.foldl_append,
      ← List.append_assoc, List.foldl_append, List.foldl_cons, List.foldl_nil] at step
    rw [writeOf_store known _ _ piece texts, writeOf_store known _ _ line texts']
    exact step.1
  · -- The file ends in a bare hardware line.
    obtain ⟨on, found, short⟩ : env.printMacAddreses = true ∧ macOf v piece ≠ none ∧ ¬20 ≤ piece.length := by
      simpa only [Classical.not_imp] using texts
    rcases last with ⟨rfl, rfl⟩ | ⟨-, continued⟩
    · have bare : EndsBare file := by rw [EndsBare, split, ← bare_piece known found short]; simp
      have same := keeps.ending on bare
      rw [split, lines, List.append_nil] at same
      have body : ¬IsHeader v piece := by
        intro headed
        rw [IsHeader] at headed
        exact found (if_neg (by rw [headed]; decide))
      have address := level.2.resolve_right (fun unread => found ((unread_cons body unread).1.2 on))
      rw [List.append_nil, on, writeOf_bare known found, writeOf_bare known found, same, nextKey, if_neg body, nextKey,
        if_neg body, ← on, address, level.1]
    · have code := quiet line (inside line here) piece continued
      exact absurd (if_neg (by rw [code]; decide)) found

/-- Reading in pieces agrees with reading line by line while cutting the lines changes nothing,
    and only while every cut is harmless. -/
theorem pieces_agree_iff (env : Env) {v : DhcpVersion} (known : v ≠ .IPvUNKNOWN) (junk : List Char) (addr : Ipaddr)
    (file : List Char) :
    (CutsKeep env v junk file → Agrees env v junk addr file) ∧
      (Agrees env v junk addr file → ∀ line ∈ fileLines file, HarmlessCuts v line) :=
  ⟨fun keeps => ⟨keeps.table known addr, (tails_iff known file).mpr keeps.tails⟩,
    fun agrees => (tails_iff known file).mp agrees.tails⟩

/-- A lease whose client has chosen an identifier of more than a thousand bytes. -/
def longFile (tail : String) : List Char :=
  "lease 10.0.0.5 \x7b\n  binding state active;\n".toList ++ "  uid ".toList ++ List.replicate 1017 'x' ++ tail.toList

theorem pieces_agree_iff_sample :
    Agrees sampleEnv .IPv4 [] ⟨Vector.replicate 16 0⟩ (longFile "  binding state;\n\x7d\n") :=
  (pieces_agree_iff sampleEnv (by decide) [] ⟨Vector.replicate 16 0⟩ (longFile "  binding state;\n\x7d\n")).1
    ⟨by decide +kernel, by decide +kernel, fun _ bare => absurd bare (by decide +kernel)⟩

/-- The end of the identifier is read as a state of the lease. -/
theorem identifier_frees_lease :
    ¬Agrees sampleEnv .IPv4 [] ⟨Vector.replicate 16 0⟩ (longFile "  binding state free;\n\x7d\n") := by
  intro agrees
  have same := congrFun agrees.table 0x0a000005
  exact absurd same (by decide +kernel)

end DhcpdPools.LeasePieces
