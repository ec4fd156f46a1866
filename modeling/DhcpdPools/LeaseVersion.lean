import DhcpdPools.LeaseFile

/-!
Detecting the IP version from the lease file. `xstrstr_init` takes the first line for
a header in any case and decides by it alone (`parseLine_init`), so an IPv6 file is never
detected, and an IPv4 file only when another line stands before its headers
(`detection_iff`). From the first header on the run that detected the version and the
run that knew it do the same, because nothing else in them differs (`leaseStep_beside`).
-/
namespace DhcpdPools.LeaseVersion
open KeyedTable LeaseFile

/-! ## The first line -/

/-- The version that `xstrstr_init` chooses on a line. -/
def detected (line : List Char) : DhcpVersion := if probe 0 6 "lease " line then .IPv6 else .IPv4

theorem detected_known (line : List Char) : detected line ≠ .IPvUNKNOWN := by
  unfold detected
  split_ifs <;> simp

/-- No line has both keywords. -/
theorem keywords_exclude {line : List Char} (lease : probe 0 6 "lease " line = true) :
    probe 2 7 "iaaddr " line = false := by
  cases line with
  | nil => simp [probe, sameBytes] at lease
  | cons c line =>
    have first : c = 'l' := by
      simp [probe, sameBytes] at lease
      exact lease.1.symm
    simp [probe, sameBytes, first, List.replicate]

theorem xstrstrInit_eq (line : List Char) : xstrstrInit line = (detected line, .PREFIX_LEASE) := by
  unfold xstrstrInit detected
  by_cases lease : probe 0 6 "lease " line = true
  · simp [lease, keywords_exclude lease]
  · simp [lease]

theorem isHeader_v4 (line : List Char) : IsHeader .IPv4 line ↔ probe 0 6 "lease " line = true := by
  have silent : probe 0 6 "lease " line = true → xstrstrState 2 line = none := by
    intro lease
    have third : charAt line 2 = 'a' := by
      have same : ("lease ".toList).take 6 = line.take 6 := by simpa [probe, sameBytes] using lease
      have letter : charAt line 2 = (line.take 6)[2]?.getD '\x00' := by simp [charAt]
      rw [letter, ← same]
      rfl
    simp [xstrstrState, third]
  rw [IsHeader, xstrstr, xstrstrV4]
  by_cases lease : probe 0 6 "lease " line = true
  · simp [silent lease, lease]
  · simp only [lease]
    cases state : xstrstrState 2 line with
    | none => simp
    | some kind =>
      have other := xstrstrState_lease 2 line
      rw [state] at other
      simpa using other

theorem detected_store (buf line : List Char) : detected (store buf line) = detected line := by
  unfold detected
  rw [probe_cstr (by decide) (by decide) (store buf line), cstr_store, ← probe_cstr (by decide) (by decide) line]

/-- The first line fixes the version and leaves the table. -/
theorem parseLine_init (env : Env) {d : LeaseData} (unknown : d.ipVersion = .IPvUNKNOWN) :
    (parseLine env d).ipVersion = detected d.line ∧ (parseLine env d).leases = d.leases ∧
      (parseLine env d).line = d.line := by
  simp only [parseLine, unknown, xstrstr, xstrstrInit_eq]
  exact ⟨(key_parseIpaddr (detected_known d.line) _ d.addr).1, trivial, trivial⟩

/-! ## The invariant from any start -/

section
variable (env : Env) {v : DhcpVersion} (known : v ≠ .IPvUNKNOWN)

/-- What a round of the loop classifies: the next piece, or the line before once more. -/
theorem leaseStep_parse (s : LeaseRun) :
    ∃ line, (line = s.data.line ∨ s.file ≠ [] ∧ line = store s.data.line (fgets 1023 s.file).piece) ∧
      leaseStep env s =
        ⟨parseLine env { s.data with line := line }, (fgets 1023 s.file).rest, (fgets 1023 s.file).eof⟩ := by
  by_cases empty : (fgets 1023 s.file).piece = []
  · exact ⟨s.data.line, Or.inl rfl, by rw [leaseStep, if_pos empty]⟩
  · refine ⟨_, Or.inr ⟨?_, rfl⟩, by rw [leaseStep, if_neg empty]⟩
    intro none
    rw [none] at empty
    exact empty rfl

include known

theorem leaseStep_inv {s : LeaseRun} (inv : Inv v s.data) : Inv v (leaseStep env s).data := by
  obtain ⟨line, which, step⟩ := leaseStep_parse env s
  have ends : '\x00' ∈ line := by
    rcases which with rfl | ⟨-, rfl⟩
    · exact inv.ends
    · simp [store]
  obtain ⟨version, same, distinct, -, -⟩ :=
    parseLine_spec env known (d := { s.data with line := line }) inv.version ends inv.distinct
  rw [step]
  exact ⟨version, same ▸ ends, distinct⟩

theorem leaseLoop_inv (n : Nat) : ∀ {s : LeaseRun}, Inv v s.data → Inv v (leaseLoop env n s).data := by
  induction n with
  | zero => exact fun inv => inv
  | succ n ih =>
    intro s inv
    rw [leaseLoop]
    split_ifs
    · exact inv
    · exact ih (leaseStep_inv env known inv)

end

/-! ## Two runs side by side -/

/-- No line before the first header gives a state: there is no address to give it to. -/
def Headed (v : DhcpVersion) : List (List Char) → Prop
  | [] => True
  | line :: rest => IsHeader v line ∨ stateOf v line = none ∧ Headed v rest

instance decidableHeaded (v : DhcpVersion) : ∀ lines : List (List Char), Decidable (Headed v lines)
  | [] => isTrue trivial
  | _ :: rest => @instDecidableOr _ _ _ (@instDecidableAnd _ _ _ (decidableHeaded v rest))

/-- Two runs with the same table and the same line in the buffer. -/
structure Alike (v : DhcpVersion) (d d' : LeaseData) : Prop where
  inv : Inv v d
  version : d'.ipVersion = v
  line : d'.line = d.line
  leases : d'.leases = d.leases

theorem findLease_nil (hash : Uthash) (v : DhcpVersion) (addr : Ipaddr) : findLease hash v [] addr = none := by
  cases v with
  | IPvUNKNOWN => rfl
  | IPv4 => exact hash.finds _ [] (Nat.zero_le 1)
  | IPv6 => exact hash.finds _ [] (Nat.zero_le 1)

/-- A line that gives no state leaves an empty table empty. -/
theorem parseLine_empty (env : Env) {v : DhcpVersion} (known : v ≠ .IPvUNKNOWN) {d : LeaseData}
    (version : d.ipVersion = v) (empty : d.leases = []) (quiet : stateOf v d.line = none) :
    (parseLine env d).leases = [] := by
  subst version
  obtain ⟨kind, classified⟩ : ∃ kind, xstrstr d.ipVersion d.line = (d.ipVersion, kind) :=
    ⟨_, Prod.ext (xstrstr_version known d.line) rfl⟩
  rw [stateOf, classified] at quiet
  simp only [parseLine, classified]
  cases kind with
  | PREFIX_LEASE => exact empty
  | PREFIX_HARDWARE_ETHERNET =>
    simp only [empty, findLease_nil]
    split_ifs <;> rfl
  | NUM_OF_PREFIX => exact empty
  | _ => simp at quiet

/-- A line does the same in both runs, if they have the same address or it is a line
    that an empty table ignores; a header makes the addresses the same. -/
theorem parseLine_alike (env : Env) {v : DhcpVersion} (known : v ≠ .IPvUNKNOWN) {d d' : LeaseData}
    (alike : Alike v d d') (silent : d'.addr = d.addr ∨ d.leases = [] ∧ stateOf v d.line = none) :
    Alike v (parseLine env d) (parseLine env d') ∧
      ((parseLine env d').addr = (parseLine env d).addr ∨
        (parseLine env d).leases = [] ∧ ¬IsHeader v d.line ∧ d'.addr ≠ d.addr) := by
  have inv : Inv v (parseLine env d) := by
    obtain ⟨version, line, distinct, -, -⟩ :=
      parseLine_spec env known alike.inv.version alike.inv.ends alike.inv.distinct
    exact ⟨version, line ▸ alike.inv.ends, distinct⟩
  obtain ⟨⟨version, ends, -⟩, version', line, leases⟩ := alike
  obtain ⟨v₁, table₁, backups, text₁, ipstring, addr⟩ := d
  obtain ⟨v₂, table, backups', text, ipstring', addr'⟩ := d'
  simp only at version version' line leases silent
  subst version version' line leases
  obtain ⟨kind, classified⟩ : ∃ kind, xstrstr v₂ text = (v₂, kind) := ⟨_, Prod.ext (xstrstr_version known text) rfl⟩
  have headed : IsHeader v₂ text ↔ kind = .PREFIX_LEASE := by rw [IsHeader, classified]
  simp only [stateOf, classified] at silent
  simp only [headed]
  -- A line that gives a state finds the same address.
  have replaced : ∀ type, addr' = addr →
      replaceLease env ⟨v₂, table, backups', text, ipstring', addr'⟩ type =
        replaceLease env ⟨v₂, table, backups, text, ipstring, addr⟩ type := by
    rintro type rfl
    rfl
  cases kind with
  | PREFIX_LEASE =>
    have texts := fun dst => header_text known ends (headed.mpr rfl) dst
    simp only [headerSize] at texts
    simp only [parseLine, classified, texts] at inv ⊢
    exact ⟨⟨inv, (key_parseIpaddr known _ _).1, rfl, rfl⟩, Or.inl ((parseIpaddr_dst _ _ _ _ _).2.2 (Or.inr known))⟩
  | PREFIX_HARDWARE_ETHERNET =>
    have found : findLease env.hash v₂ table addr' = findLease env.hash v₂ table addr := by
      rcases silent with rfl | ⟨rfl, -⟩
      · rfl
      · rw [findLease_nil, findLease_nil]
    have quiet : addr' = addr ∨ findLease env.hash v₂ table addr = none ∧ table = [] ∧ addr' ≠ addr := by
      by_cases agree : addr' = addr
      · exact Or.inl agree
      · obtain ⟨rfl, -⟩ := silent.resolve_left agree
        exact Or.inr ⟨findLease_nil env.hash v₂ addr, rfl, agree⟩
    simp only [parseLine, classified, found] at inv ⊢
    by_cases macs : env.printMacAddreses = true
    · simp only [macs, if_true] at inv ⊢
      cases at_address : findLease env.hash v₂ table addr with
      | none =>
        simp only [at_address] at inv ⊢
        exact ⟨⟨inv, rfl, rfl, rfl⟩, quiet.imp_right (fun nothing => ⟨nothing.2.1, by simp, nothing.2.2⟩)⟩
      | some lease =>
        simp only [at_address] at inv ⊢
        exact ⟨⟨inv, rfl, rfl, rfl⟩, Or.inl (quiet.resolve_right (by simp [at_address]))⟩
    · simp only [macs] at inv ⊢
      exact ⟨⟨inv, rfl, rfl, rfl⟩, quiet.imp_right (fun nothing => ⟨nothing.2.1, by simp, nothing.2.2⟩)⟩
  | NUM_OF_PREFIX =>
    simp only [parseLine, classified] at inv ⊢
    refine ⟨⟨inv, rfl, rfl, rfl⟩, ?_⟩
    by_cases agree : addr' = addr
    · exact Or.inl agree
    · exact Or.inr ⟨(silent.resolve_left agree).1, by simp, agree⟩
  | _ =>
    have same : addr' = addr := by simpa using silent
    simp only [parseLine, classified] at inv ⊢
    exact ⟨⟨inv, rfl, rfl, replaced _ same⟩, Or.inl same⟩

/-- Two runs at one place of the file. Until their addresses agree, nothing was written
    and nothing will be before the next header. -/
structure Beside (v : DhcpVersion) (s s' : LeaseRun) : Prop where
  data : Alike v s.data s'.data
  file : s'.file = s.file
  eof : s'.eof = s.eof
  address : s'.data.addr = s.data.addr ∨
    s.data.leases = [] ∧ stateOf v s.data.line = none ∧ Headed v (pieces 1023 1023 s.file)

theorem stateOf_header {v : DhcpVersion} {line : List Char} (header : IsHeader v line) : stateOf v line = none := by
  rw [stateOf, header]

theorem headed_next {v : DhcpVersion} {file : List Char} (more : file ≠ []) (headed : Headed v (pieces 1023 1023 file)) :
    IsHeader v (fgets 1023 file).piece ∨
      stateOf v (fgets 1023 file).piece = none ∧ Headed v (pieces 1023 1023 (fgets 1023 file).rest) := by
  rwa [pieces_fgets (by decide) more, Headed] at headed

theorem leaseStep_beside (env : Env) {v : DhcpVersion} (known : v ≠ .IPvUNKNOWN) {s s' : LeaseRun}
    (beside : Beside v s s') : Beside v (leaseStep env s) (leaseStep env s') := by
  obtain ⟨⟨inv, version, line, leases⟩, file, -, address⟩ := beside
  obtain ⟨buffer, named⟩ : ∃ buffer,
      buffer = if (fgets 1023 s.file).piece = [] then s.data.line else store s.data.line (fgets 1023 s.file).piece :=
    ⟨_, rfl⟩
  -- What the line in the buffer may do before the addresses agree.
  have next : '\x00' ∈ buffer ∧ (s'.data.addr = s.data.addr ∨ s.data.leases = [] ∧
      (IsHeader v buffer ∨ stateOf v buffer = none ∧ Headed v (pieces 1023 1023 (fgets 1023 s.file).rest))) := by
    by_cases more : s.file = []
    · rw [more] at named address ⊢
      rw [named, if_pos (by rfl)]
      exact ⟨inv.ends, address.imp_right (fun quiet => ⟨quiet.1, Or.inr quiet.2⟩)⟩
    · rw [named, if_neg (@fgets_piece 1023 (by decide) _ more)]
      refine ⟨by simp [store], address.imp_right (fun quiet => ⟨quiet.1, ?_⟩)⟩
      rw [IsHeader, xstrstr_store known, stateOf_store known]
      exact headed_next more quiet.2.2
  obtain ⟨ends, address⟩ := next
  have alike : Alike v { s.data with line := buffer } { s'.data with line := buffer } :=
    ⟨⟨inv.version, ends, inv.distinct⟩, version, rfl, leases⟩
  have silent : s'.data.addr = s.data.addr ∨ s.data.leases = [] ∧ stateOf v buffer = none :=
    address.imp_right (fun quiet => ⟨quiet.1, quiet.2.elim stateOf_header And.left⟩)
  obtain ⟨alike', address'⟩ := parseLine_alike env known alike silent
  have left : leaseStep env s =
      ⟨parseLine env { s.data with line := buffer }, (fgets 1023 s.file).rest, (fgets 1023 s.file).eof⟩ := by
    rw [leaseStep, named]
  have right : leaseStep env s' =
      ⟨parseLine env { s'.data with line := buffer }, (fgets 1023 s.file).rest, (fgets 1023 s.file).eof⟩ := by
    rw [leaseStep, file, line, named]
  have kept : (parseLine env { s.data with line := buffer }).line = buffer :=
    (parseLine_spec env known alike.inv.version ends inv.distinct).2.1
  rw [left, right]
  refine ⟨alike', rfl, rfl, ?_⟩
  rcases address' with same | ⟨empty, body, differ⟩
  · exact Or.inl same
  · obtain ⟨-, header | ⟨quiet, ahead⟩⟩ := address.resolve_left differ
    · exact absurd header body
    · exact Or.inr ⟨empty, by rw [kept]; exact quiet, ahead⟩

/-- The loop keeps two such runs side by side. -/
theorem leaseLoop_beside (env : Env) {v : DhcpVersion} (known : v ≠ .IPvUNKNOWN) (n : Nat) :
    ∀ {s s' : LeaseRun}, Beside v s s' → Beside v (leaseLoop env n s) (leaseLoop env n s') := by
  induction n with
  | zero => exact fun beside => beside
  | succ n ih =>
    intro s s' beside
    rw [leaseLoop, leaseLoop, beside.eof]
    split_ifs
    · exact beside
    · exact ih (leaseStep_beside env known beside)

/-! ## Detection -/

/-- The variables of `parse_leases` before the loop. -/
def start (v : DhcpVersion) (junk : List Char) (addr : Ipaddr) : LeaseData :=
  ⟨v, [], false, '\x00' :: junk, '\x00' :: junk, addr⟩

theorem start_inv (v : DhcpVersion) (junk : List Char) (addr : Ipaddr) : Inv v (start v junk addr) :=
  ⟨rfl, List.mem_cons_self, List.nodup_nil⟩

theorem parseLeases_step (env : Env) (v : DhcpVersion) (junk : List Char) (addr : Ipaddr) (file : List Char) :
    parseLeases env v junk addr file =
      (leaseLoop env file.length (leaseStep env ⟨start v junk addr, file, false⟩)).data := rfl

/-- The version that the first piece of a file decides. -/
def fileVersion (v : DhcpVersion) (file : List Char) : DhcpVersion :=
  match v with
  | .IPvUNKNOWN => detected (fgets 1023 file).piece
  | v => v

theorem fileVersion_known (v : DhcpVersion) (file : List Char) : fileVersion v file ≠ .IPvUNKNOWN := by
  cases v with
  | IPvUNKNOWN => exact detected_known _
  | IPv4 => exact fun same => by cases same
  | IPv6 => exact fun same => by cases same

/-- After the first line the version is fixed; that line has left the table if it was unknown. -/
theorem leaseStep_init (env : Env) (junk : List Char) (addr : Ipaddr) (file : List Char) :
    (leaseStep env ⟨start .IPvUNKNOWN junk addr, file, false⟩).data.ipVersion = fileVersion .IPvUNKNOWN file ∧
      (leaseStep env ⟨start .IPvUNKNOWN junk addr, file, false⟩).data.leases = [] ∧
      (leaseStep env ⟨start .IPvUNKNOWN junk addr, file, false⟩).data.line =
        if (fgets 1023 file).piece = [] then '\x00' :: junk else store ('\x00' :: junk) (fgets 1023 file).piece := by
  obtain ⟨version, leases, line⟩ := @parseLine_init env { start .IPvUNKNOWN junk addr with
    line := if (fgets 1023 file).piece = [] then '\x00' :: junk else store ('\x00' :: junk) (fgets 1023 file).piece } rfl
  refine ⟨version.trans ?_, leases, line⟩
  rw [fileVersion]
  by_cases empty : (fgets 1023 file).piece = []
  · simp only [empty]
    rw [detected, probe_cstr (by decide) (by decide)]
    rfl
  · simp only [if_neg empty, detected_store]

/-- From any version `parse_leases` ends in a known one, with one entry for an address. -/
theorem parseLeases_inv (env : Env) (v : DhcpVersion) (junk : List Char) (addr : Ipaddr) (file : List Char) :
    Inv (fileVersion v file) (parseLeases env v junk addr file) := by
  rw [parseLeases_step]
  apply leaseLoop_inv env (fileVersion_known v file)
  cases v with
  | IPvUNKNOWN =>
    obtain ⟨version, leases, line⟩ := leaseStep_init env junk addr file
    refine ⟨version, ?_, by rw [leases]; exact List.nodup_nil⟩
    rw [line]
    split_ifs <;> simp [store]
  | IPv4 => exact leaseStep_inv env (fileVersion_known .IPv4 file) (start_inv .IPv4 junk addr)
  | IPv6 => exact leaseStep_inv env (fileVersion_known .IPv6 file) (start_inv .IPv6 junk addr)

/-- The run that starts with an unknown version ends in the version of the file and with
    the table of the run that knew it. -/
structure Detects (env : Env) (v : DhcpVersion) (junk : List Char) (addr : Ipaddr) (file : List Char) : Prop where
  version : (parseLeases env .IPvUNKNOWN junk addr file).ipVersion = v
  leases : (parseLeases env .IPvUNKNOWN junk addr file).leases = (parseLeases env v junk addr file).leases

/-- Lines with headers of one version only. -/
structure OneFamily (v : DhcpVersion) (lines : List (List Char)) : Prop where
  headers : ∃ line ∈ lines, IsHeader v line
  single : ∀ w, w ≠ .IPvUNKNOWN → w ≠ v → ∀ line ∈ lines, ¬IsHeader w line

/-- A first line that is no header and gives no state makes the runs differ in the address only. -/
theorem start_beside (env : Env) {v : DhcpVersion} (known : v ≠ .IPvUNKNOWN) (junk : List Char) (addr : Ipaddr)
    {file : List Char} (more : file ≠ []) (chosen : detected (fgets 1023 file).piece = v)
    (quiet : stateOf v (fgets 1023 file).piece = none)
    (ahead : Headed v (pieces 1023 1023 (fgets 1023 file).rest)) :
    Beside v (leaseStep env ⟨start v junk addr, file, false⟩)
      (leaseStep env ⟨start .IPvUNKNOWN junk addr, file, false⟩) := by
  obtain ⟨version', leases', line'⟩ := leaseStep_init env junk addr file
  rw [if_neg (@fgets_piece 1023 (by decide) _ more)] at line'
  set buffer := store ('\x00' :: junk) (fgets 1023 file).piece with named
  have step : leaseStep env ⟨start v junk addr, file, false⟩ =
      ⟨parseLine env { start v junk addr with line := buffer }, (fgets 1023 file).rest, (fgets 1023 file).eof⟩ := by
    rw [leaseStep, if_neg (@fgets_piece 1023 (by decide) _ more)]
    rfl
  have silent : stateOf v buffer = none := by rw [named, stateOf_store known]; exact quiet
  have inv : Inv v { start v junk addr with line := buffer } := ⟨rfl, by simp [named, store], List.nodup_nil⟩
  have line : (parseLine env { start v junk addr with line := buffer }).line = buffer :=
    (parseLine_spec env known inv.version inv.ends inv.distinct).2.1
  have leases : (parseLine env { start v junk addr with line := buffer }).leases = [] :=
    parseLine_empty env known rfl rfl silent
  have inv' := leaseStep_inv env known (s := ⟨start v junk addr, file, false⟩) (start_inv v junk addr)
  rw [step] at inv' ⊢
  refine ⟨⟨inv', version'.trans chosen, line'.trans line.symm, leases'.trans leases.symm⟩, rfl, rfl, Or.inr ?_⟩
  exact ⟨leases, by rw [line]; exact silent, ahead⟩

/-- The first line of a file of one family gives its version exactly when it is a line of
    an IPv4 file that is no header. -/
theorem detected_iff {v : DhcpVersion} (known : v ≠ .IPvUNKNOWN) {line : List Char} {rest : List (List Char)}
    (single : .IPv4 ≠ v → ¬IsHeader .IPv4 line) :
    detected line = v ↔ v = .IPv4 ∧ ∀ first ∈ (line :: rest).head?, ¬IsHeader v first := by
  constructor
  · intro chosen
    have lease : detected line = .IPv4 ↔ ¬IsHeader .IPv4 line := by
      rw [isHeader_v4]
      simp [detected]
    cases v with
    | IPvUNKNOWN => exact absurd rfl known
    | IPv4 =>
      refine ⟨rfl, ?_⟩
      rintro first ⟨⟩
      exact lease.mp chosen
    | IPv6 =>
      have no := lease.mpr (single (by decide))
      rw [chosen] at no
      cases no
  · rintro ⟨rfl, first⟩
    have body := first line rfl
    rw [isHeader_v4] at body
    simp [detected, body]

/-- The version of a file is detected exactly when it is an IPv4 file and its first line
    is no header; then the table is the same, if no line before the first header gives a
    state. The lines are those that `fgets` delivers. -/
theorem detection_iff (env : Env) {v : DhcpVersion} (known : v ≠ .IPvUNKNOWN) (junk : List Char) (addr : Ipaddr)
    (file : List Char) (family : OneFamily v (pieces 1023 1023 file)) :
    ((parseLeases env .IPvUNKNOWN junk addr file).ipVersion = v ↔
      v = .IPv4 ∧ ∀ line ∈ (pieces 1023 1023 file).head?, ¬IsHeader v line) ∧
    (Headed v (pieces 1023 1023 file) → (Detects env v junk addr file ↔
      v = .IPv4 ∧ ∀ line ∈ (pieces 1023 1023 file).head?, ¬IsHeader v line)) := by
  have more : file ≠ [] := by
    rintro rfl
    obtain ⟨line, member, -⟩ := family.headers
    simp [pieces] at member
  have cut := @pieces_fgets 1023 1023 (by decide) file more
  have version : (parseLeases env .IPvUNKNOWN junk addr file).ipVersion = detected (fgets 1023 file).piece :=
    (parseLeases_inv env .IPvUNKNOWN junk addr file).version
  have exact_version : (parseLeases env .IPvUNKNOWN junk addr file).ipVersion = v ↔
      v = .IPv4 ∧ ∀ line ∈ (pieces 1023 1023 file).head?, ¬IsHeader v line := by
    rw [version, cut]
    exact detected_iff known (family.single .IPv4 (by decide) · _ (by simp [cut]))
  refine ⟨exact_version, ?_⟩
  intro headed
  constructor
  · exact fun detects => exact_version.mp detects.version
  · intro condition
    have chosen := exact_version.mpr condition
    obtain ⟨rfl, first⟩ := condition
    have body : ¬IsHeader .IPv4 (fgets 1023 file).piece := first _ (by simp [cut])
    obtain ⟨quiet, ahead⟩ := (headed_next more headed).resolve_left body
    have start := start_beside env known junk addr more (version.symm.trans chosen) quiet ahead
    have beside := leaseLoop_beside env known file.length start
    refine ⟨chosen, ?_⟩
    rw [parseLeases_step, parseLeases_step]
    exact beside.data.leases

/-- A comment before the sample file. -/
def commentedFile : List Char := "# leases\n".toList ++ sampleFile

theorem commentedFile_family : OneFamily .IPv4 (pieces 1023 1023 commentedFile) := by
  refine ⟨by decide +kernel, ?_⟩
  intro w known other
  cases w with
  | IPvUNKNOWN => exact absurd rfl known
  | IPv4 => exact absurd rfl other
  | IPv6 => decide +kernel

theorem detection_iff_sample : Detects sampleEnv .IPv4 [] ⟨Vector.replicate 16 0⟩ commentedFile :=
  ((detection_iff sampleEnv (by decide) [] ⟨Vector.replicate 16 0⟩ commentedFile commentedFile_family).2
    (by decide +kernel)).mpr (by decide +kernel)

/-- One address lease of dhcpd in IPv6 mode. -/
def sampleFile6 : List Char := "# leases\n  iaaddr fe80::1 \x7b\n    binding state active;\n".toList

/-- Without the comment the IPv4 file is taken for an IPv6 file, and with it the IPv6
    file for an IPv4 file. -/
theorem families_swapped :
    ¬Detects sampleEnv .IPv4 [] ⟨Vector.replicate 16 0⟩ sampleFile ∧
      ¬Detects sampleEnv .IPv6 [] ⟨Vector.replicate 16 0⟩ sampleFile6 :=
  ⟨fun detects => absurd detects.version (by decide +kernel), fun detects => absurd detects.version (by decide +kernel)⟩

end DhcpdPools.LeaseVersion
