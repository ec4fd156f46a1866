import DhcpdPools.CString
import DhcpdPools.KeyedTable
import DhcpdPools.Tables

/-!
`parse_leases`: the lease table of hash.c, the line classifier of other.c and the
loop over the lease file. A lease file is a log: each line is classified on its
own (`xstrstr_cstr`) and writes to the table under the address of the header read
last (`parseLine_spec`), so the table is the replay of the lines
(`parseLeases_replay`), also when the last line is classified twice.
-/
namespace DhcpdPools.LeaseFile
open KeyedTable

/-- `enum prefix_t`. -/
inductive PrefixT where
  | PREFIX_LEASE
  | PREFIX_BINDING_STATE_FREE
  | PREFIX_BINDING_STATE_ABANDONED
  | PREFIX_BINDING_STATE_EXPIRED
  | PREFIX_BINDING_STATE_RELEASED
  | PREFIX_BINDING_STATE_ACTIVE
  | PREFIX_BINDING_STATE_BACKUP
  | PREFIX_HARDWARE_ETHERNET
  | NUM_OF_PREFIX
deriving DecidableEq, Repr

/-! ## The classifier -/

/-- `!memcmp(s, str, n)` for `s` behind the margin, which `n` does not count. -/
def probe (margin n : Nat) (s : String) (str : List Char) : Bool :=
  sameBytes (margin + n) (List.replicate margin ' ' ++ s.toList) str

/-- The arms that `xstrstr_v4` and `xstrstr_v6` share: the margin of a binding state is 2 or 4. -/
def xstrstrState (margin : Nat) (str : List Char) : Option PrefixT :=
  let len := if charAt str margin = 'b' ∨ charAt str 2 = 'h' then strlen str else 0
  if 13 + margin < len then
    match charAt str (14 + margin) with
    | 'f' => if probe margin 19 "binding state free;" str then some .PREFIX_BINDING_STATE_FREE else none
    | 'a' =>
      if probe margin 21 "binding state active;" str then some .PREFIX_BINDING_STATE_ACTIVE
      -- The semicolon is not compared.
      else if probe margin 23 "binding state abandoned;" str then some .PREFIX_BINDING_STATE_ABANDONED
      else none
    | 'e' => if probe margin 22 "binding state expired;" str then some .PREFIX_BINDING_STATE_EXPIRED else none
    | 'r' => if probe margin 23 "binding state released;" str then some .PREFIX_BINDING_STATE_RELEASED else none
    | 'b' => if probe margin 21 "binding state backup;" str then some .PREFIX_BINDING_STATE_BACKUP else none
    | 'n' => if probe 2 17 "hardware ethernet" str then some .PREFIX_HARDWARE_ETHERNET else none
    | _ => none
  else none

/-- `xstrstr_v4`. -/
def xstrstrV4 (str : List Char) : PrefixT :=
  (xstrstrState 2 str).getD (if probe 0 6 "lease " str then .PREFIX_LEASE else .NUM_OF_PREFIX)

/-- `xstrstr_v6`. -/
def xstrstrV6 (str : List Char) : PrefixT :=
  (xstrstrState 4 str).getD (if probe 2 7 "iaaddr " str then .PREFIX_LEASE else .NUM_OF_PREFIX)

/-- `xstrstr_init`, which takes each comparison the wrong way round, and the version that it sets. -/
def xstrstrInit (str : List Char) : DhcpVersion × PrefixT :=
  if ¬probe 0 6 "lease " str then (.IPv4, .PREFIX_LEASE)
  else if ¬probe 2 7 "iaaddr " str then (.IPv6, .PREFIX_LEASE)
  else (.IPvUNKNOWN, .NUM_OF_PREFIX)

/-- `xstrstr` in the version in force, with the version afterwards. -/
def xstrstr (v : DhcpVersion) (str : List Char) : DhcpVersion × PrefixT :=
  match v with
  | .IPvUNKNOWN => xstrstrInit str
  | .IPv4 => (.IPv4, xstrstrV4 str)
  | .IPv6 => (.IPv6, xstrstrV6 str)

/-! ## The table -/

section
variable (hash : Uthash)

/-- `find_lease`. -/
def findLease (v : DhcpVersion) (leases : List Lease) (addr : Ipaddr) : Option Nat :=
  match v with
  | .IPvUNKNOWN => none
  | .IPv4 => hash.find (fun l => l.ip.v4 = addr.v4) leases
  | .IPv6 => hash.find (fun l => l.ip.v6 = addr.v6) leases

/-- `delete_lease`. -/
def deleteLease (leases : List Lease) (lease : Nat) : List Lease := hash.del leases lease

/-- `add_lease`; `fresh` is what `xmalloc` left in the address. -/
def addLease (v : DhcpVersion) (fresh : Ipaddr) (leases : List Lease) (addr : Ipaddr) (type : Ltype) : List Lease :=
  match v with
  | .IPvUNKNOWN => leases
  | v => hash.add leases ⟨copyIpaddr v fresh addr, type, none⟩

end

/-- What the loop takes from outside: the address parsers, the contents of the
    memory that `xmalloc` returns, `config.print_mac_addreses`, and the hash table. -/
structure Env where
  inet : Inet
  fresh : List Lease → Ipaddr
  printMacAddreses : Bool
  hash : Uthash

/-- The variables of `parse_leases` and the globals that it changes. -/
structure LeaseData where
  ipVersion : DhcpVersion
  leases : List Lease
  backupsFound : Bool
  line : List Char
  ipstring : List Char
  addr : Ipaddr

section
variable (env : Env)

/-- The three state arms: the old entry, if there is one, goes, and a new one comes. -/
def replaceLease (d : LeaseData) (type : Ltype) : List Lease :=
  let kept := match findLease env.hash d.ipVersion d.leases d.addr with
    | some lease => deleteLease env.hash d.leases lease
    | none => d.leases
  addLease env.hash d.ipVersion (env.fresh kept) kept d.addr type

/-- The body of the loop after `fgets`. -/
def parseLine (d : LeaseData) : LeaseData :=
  let kind := xstrstr d.ipVersion d.line
  let d := { d with ipVersion := kind.1 }
  match kind.2 with
  | .PREFIX_LEASE =>
    let src := d.line.drop (if d.ipVersion = .IPv4 then 6 else 9)
    let ipstring := match memccpy d.ipstring src ' ' (strlen d.line) with
      | (copy, some stop) => copy.set (stop - 1) '\x00'
      | (copy, none) => copy
    let parsed := parseIpaddr env.inet d.ipVersion (cstr ipstring) d.addr
    { d with ipVersion := parsed.1, ipstring := ipstring, addr := parsed.2.2 }
  | .PREFIX_BINDING_STATE_FREE
  | .PREFIX_BINDING_STATE_ABANDONED
  | .PREFIX_BINDING_STATE_EXPIRED
  | .PREFIX_BINDING_STATE_RELEASED => { d with leases := replaceLease env d .FREE }
  | .PREFIX_BINDING_STATE_ACTIVE => { d with leases := replaceLease env d .ACTIVE }
  | .PREFIX_BINDING_STATE_BACKUP => { d with leases := replaceLease env d .BACKUP, backupsFound := true }
  | .PREFIX_HARDWARE_ETHERNET =>
    if env.printMacAddreses then
      let macstring := (d.line.drop 20).take 17
      match findLease env.hash d.ipVersion d.leases d.addr with
      | some lease =>
        { d with leases := d.leases.modify lease (fun l => { l with ethernet := some (cstr macstring) }) }
      | none => d
    else d
  | .NUM_OF_PREFIX => d

/-- The stream next to the data. -/
structure LeaseRun where
  data : LeaseData
  file : List Char
  eof : Bool

/-- The body of the loop: when `fgets` returns NULL the buffer keeps the line before. -/
def leaseStep (s : LeaseRun) : LeaseRun :=
  let got := fgets 1023 s.file
  let line := if got.piece = [] then s.data.line else store s.data.line got.piece
  ⟨parseLine env { s.data with line := line }, got.rest, got.eof⟩

/-- `while (!feof(dhcpd_leases))`, with a bound on the rounds. -/
def leaseLoop : Nat → LeaseRun → LeaseRun
  | 0, s => s
  | n + 1, s => if s.eof then s else leaseLoop n (leaseStep env s)

/-- `parse_leases` on an empty table. `junk` and `addr` are the contents of the
    buffers and of the address before anything is written to them. -/
def parseLeases (v : DhcpVersion) (junk : List Char) (addr : Ipaddr) (file : List Char) : LeaseData :=
  let start : LeaseData := ⟨v, [], false, '\x00' :: junk, '\x00' :: junk, addr⟩
  (leaseLoop env (file.length + 1) ⟨start, file, false⟩).data

end

/-! ## One line -/

theorem probe_cstr {margin n : Nat} {s : String} (long : n ≤ s.toList.length) (text : '\x00' ∉ s.toList)
    (str : List Char) : probe margin n s str = probe margin n s (cstr str) := by
  refine sameBytes_cstr (by simpa using long) ?_ str
  simpa [List.mem_append, List.mem_replicate] using text

theorem probe_length {margin n : Nat} {s : String} (long : n ≤ s.toList.length) {str : List Char}
    (found : probe margin n s str = true) : margin + n ≤ str.length := by
  have same : (List.replicate margin ' ' ++ s.toList).take (margin + n) = str.take (margin + n) := by
    simpa [probe, sameBytes] using found
  have lengths := congrArg List.length same
  simp only [List.length_take, List.length_append, List.length_replicate] at lengths
  omega

/-- A string that is too short for the character looked at is no state line anyway. -/
theorem xstrstrState_cstr (margin : Nat) (str : List Char) (inside : margin ≤ 4) :
    xstrstrState margin str = xstrstrState margin (cstr str) := by
  have whole : strlen (cstr str) = strlen str := by rw [strlen, cstr_cstr, strlen]
  by_cases long : 13 + margin < strlen str
  · have third : charAt str 2 = charAt (cstr str) 2 := charAt_cstr (by omega)
    have first : charAt str margin = charAt (cstr str) margin := charAt_cstr (by omega)
    have probed : charAt str (14 + margin) = charAt (cstr str) (14 + margin) := charAt_cstr (by omega)
    unfold xstrstrState
    rw [third, first, probed, whole, probe_cstr (s := "binding state free;") (by decide) (by decide) str,
      probe_cstr (s := "binding state active;") (by decide) (by decide) str,
      probe_cstr (s := "binding state abandoned;") (by decide) (by decide) str,
      probe_cstr (s := "binding state expired;") (by decide) (by decide) str,
      probe_cstr (s := "binding state released;") (by decide) (by decide) str,
      probe_cstr (s := "binding state backup;") (by decide) (by decide) str,
      probe_cstr (s := "hardware ethernet") (by decide) (by decide) str]
  · have short : ∀ b : Bool, ¬13 + margin < (if b then strlen str else 0) := by
      intro b
      cases b
      · simp
      · simpa using long
    have left := short (decide (charAt str margin = 'b' ∨ charAt str 2 = 'h'))
    have right := short (decide (charAt (cstr str) margin = 'b' ∨ charAt (cstr str) 2 = 'h'))
    simp only [decide_eq_true_eq] at left right
    unfold xstrstrState
    rw [if_neg left, whole, if_neg right]

/-- Only the string in the buffer is classified. -/
theorem xstrstr_cstr {v : DhcpVersion} (known : v ≠ .IPvUNKNOWN) (str : List Char) :
    xstrstr v str = xstrstr v (cstr str) := by
  cases v with
  | IPvUNKNOWN => exact absurd rfl known
  | IPv4 =>
    rw [xstrstr, xstrstrV4, xstrstrState_cstr 2 str (by decide), probe_cstr (by decide) (by decide)]
    rfl
  | IPv6 =>
    rw [xstrstr, xstrstrV6, xstrstrState_cstr 4 str (by decide), probe_cstr (by decide) (by decide)]
    rfl

theorem xstrstr_version {v : DhcpVersion} (known : v ≠ .IPvUNKNOWN) (str : List Char) : (xstrstr v str).1 = v := by
  cases v with
  | IPvUNKNOWN => exact absurd rfl known
  | IPv4 => rfl
  | IPv6 => rfl

/-- The state that a line gives its address, if it is a binding state line. -/
def stateOf (v : DhcpVersion) (line : List Char) : Option Ltype :=
  match (xstrstr v line).2 with
  | .PREFIX_BINDING_STATE_FREE
  | .PREFIX_BINDING_STATE_ABANDONED
  | .PREFIX_BINDING_STATE_EXPIRED
  | .PREFIX_BINDING_STATE_RELEASED => some .FREE
  | .PREFIX_BINDING_STATE_ACTIVE => some .ACTIVE
  | .PREFIX_BINDING_STATE_BACKUP => some .BACKUP
  | _ => none

/-- The hardware address text of a line, if it is a hardware line: bytes 20 to 36. -/
def macOf (v : DhcpVersion) (line : List Char) : Option (List Char) :=
  if (xstrstr v line).2 = .PREFIX_HARDWARE_ETHERNET then some (cstr ((line.drop 20).take 17)) else none

/-- A header line: `lease ` or `  iaaddr `. -/
def IsHeader (v : DhcpVersion) (line : List Char) : Prop := (xstrstr v line).2 = .PREFIX_LEASE

instance (v : DhcpVersion) (line : List Char) : Decidable (IsHeader v line) := decEq _ _

/-- Where the address starts in a header line. -/
def headerSize (v : DhcpVersion) : Nat := if v = .IPv4 then 6 else 9

/-- The word after the keyword of a header line. -/
def headerText (v : DhcpVersion) (line : List Char) : List Char := (line.drop (headerSize v)).takeWhile inWord

/-- Is a text an address of the version, and which number is it? -/
def parses (inet : Inet) (v : DhcpVersion) (s : List Char) : Bool := (parseIpaddr inet v s ⟨Vector.replicate 16 0⟩).2.1

def addressKey (inet : Inet) (v : DhcpVersion) (s : List Char) : Nat :=
  key v (parseIpaddr inet v s ⟨Vector.replicate 16 0⟩).2.2

theorem key_parseIpaddr {inet : Inet} {v : DhcpVersion} (known : v ≠ .IPvUNKNOWN) (s : List Char) (dst : Ipaddr) :
    (parseIpaddr inet v s dst).1 = v ∧ key v (parseIpaddr inet v s dst).2.2 = addressKey inet v s := by
  cases v with
  | IPvUNKNOWN => exact absurd rfl known
  | IPv4 => simp [parseIpaddr, parseIpaddrV4, addressKey, key]
  | IPv6 => simp [parseIpaddr, parseIpaddrV6, addressKey, key]

/-! ## The table as a map -/

/-- The number that a lease is stored under. -/
def ipKey (v : DhcpVersion) (l : Lease) : Nat := key v l.ip

/-- What the table says about each address. -/
def tableMap (v : DhcpVersion) (leases : List Lease) (k : Nat) : Option (Ltype × Option (List Char)) :=
  (get (ipKey v) k leases).map (fun l => (l.type, l.ethernet))

theorem findLease_key (hash : Uthash) {v : DhcpVersion} (known : v ≠ .IPvUNKNOWN) {leases : List Lease}
    (distinct : Distinct (ipKey v) leases) (addr : Ipaddr) :
    findLease hash v leases addr = leases.findIdx? (fun l => ipKey v l = key v addr) := by
  have once := countP_key distinct (key v addr)
  cases v with
  | IPvUNKNOWN => exact absurd rfl known
  | IPv4 =>
    simp only [findLease, ipKey, key_v4] at once ⊢
    exact hash.finds _ _ once
  | IPv6 =>
    simp only [findLease, ipKey, key_v6] at once ⊢
    exact hash.finds _ _ once

/-- Finding, deleting and adding is replacing. -/
theorem replaceLease_put (env : Env) {d : LeaseData} (known : d.ipVersion ≠ .IPvUNKNOWN)
    (distinct : Distinct (ipKey d.ipVersion) d.leases) (type : Ltype) :
    ∃ ip, key d.ipVersion ip = key d.ipVersion d.addr ∧
      replaceLease env d type = put (ipKey d.ipVersion) ⟨ip, type, none⟩ d.leases := by
  have kept : (match findLease env.hash d.ipVersion d.leases d.addr with
      | some lease => deleteLease env.hash d.leases lease
      | none => d.leases) = erase (ipKey d.ipVersion) (key d.ipVersion d.addr) d.leases := by
    rw [erase_findIdx?, findLease_key env.hash known distinct]
    cases d.leases.findIdx? (fun l => ipKey d.ipVersion l = key d.ipVersion d.addr) with
    | none => rfl
    | some lease => exact env.hash.dels d.leases lease
  refine ⟨copyIpaddr d.ipVersion (env.fresh (erase (ipKey d.ipVersion) (key d.ipVersion d.addr) d.leases)) d.addr,
    key_copyIpaddr _ _, ?_⟩
  rw [replaceLease, kept, put, ipKey, key_copyIpaddr]
  generalize d.ipVersion = v at known ⊢
  cases v with
  | IPvUNKNOWN => exact absurd rfl known
  | IPv4 => exact env.hash.adds _ _
  | IPv6 => exact env.hash.adds _ _

/-- The table after a replacement. -/
theorem replaceLease_spec (env : Env) {d : LeaseData} (known : d.ipVersion ≠ .IPvUNKNOWN)
    (distinct : Distinct (ipKey d.ipVersion) d.leases) (type : Ltype) :
    Distinct (ipKey d.ipVersion) (replaceLease env d type) ∧
      tableMap d.ipVersion (replaceLease env d type) =
        (Write.put (key d.ipVersion d.addr) type).apply (tableMap d.ipVersion d.leases) := by
  obtain ⟨ip, number, replaced⟩ := replaceLease_put env known distinct type
  rw [replaced]
  refine ⟨distinct_put distinct _, ?_⟩
  funext k
  rw [tableMap, get_put distinct, ipKey, Write.apply, Function.update_apply, ← number]
  by_cases same : k = key d.ipVersion ip
  · rw [if_pos same, if_pos same, Option.map_some]
  · rw [if_neg same, if_neg same, tableMap]

/-- The table after a hardware line. -/
theorem tableMap_change (v : DhcpVersion) (leases : List Lease) (k : Nat) (text : List Char) :
    tableMap v (change (ipKey v) k (fun l => { l with ethernet := some text }) leases) =
      (Write.note k text).apply (tableMap v leases) := by
  funext k'
  have keeps : ∀ l : Lease, ipKey v { l with ethernet := some text } = ipKey v l := fun _ => rfl
  rw [tableMap, get_change keeps, Write.apply, Function.update_apply]
  by_cases same : k' = k
  · subst same
    rw [if_pos rfl, if_pos rfl, tableMap, Option.map_map, Option.map_map]
    rfl
  · rw [if_neg same, if_neg same, tableMap]

/-- The address that is current after a line. -/
def nextKey (inet : Inet) (v : DhcpVersion) (line : List Char) (k : Nat) : Nat :=
  if IsHeader v line then addressKey inet v (headerText v line) else k

/-- What a line writes under the current address. -/
def writeOf (macs : Bool) (v : DhcpVersion) (k : Nat) (line : List Char) : Write Nat Ltype (List Char) :=
  match stateOf v line with
  | some type => .put k type
  | none =>
    match macOf v line with
    | some text => if macs then .note k text else .skip
    | none => .skip

theorem writeOf_state {macs : Bool} {v : DhcpVersion} {k : Nat} {line : List Char} {type : Ltype}
    (state : stateOf v line = some type) : writeOf macs v k line = .put k type := by
  simp only [writeOf, state]

/-- The arms that both families share never find a header. -/
theorem xstrstrState_lease (margin : Nat) (str : List Char) : xstrstrState margin str ≠ some .PREFIX_LEASE := by
  have arm : ∀ (found : Bool) (kind : PrefixT), kind ≠ .PREFIX_LEASE →
      (if found = true then some kind else none) ≠ some .PREFIX_LEASE := by
    intro found kind differ
    split_ifs
    · exact fun same => differ (Option.some.inj same)
    · exact Option.some_ne_none _ ∘ Eq.symm
  unfold xstrstrState
  simp only
  generalize (if charAt str margin = 'b' ∨ charAt str 2 = 'h' then strlen str else 0) = len
  by_cases long : 13 + margin < len
  · rw [if_pos long]
    split
    · exact arm _ _ (by decide)
    · split
      · exact fun same => by cases same
      · exact arm _ _ (by decide)
    · exact arm _ _ (by decide)
    · exact arm _ _ (by decide)
    · exact arm _ _ (by decide)
    · exact arm _ _ (by decide)
    · exact fun same => by cases same
  · rw [if_neg long]
    exact fun same => by cases same

/-- A header line has its keyword. -/
theorem header_length {v : DhcpVersion} (known : v ≠ .IPvUNKNOWN) {line : List Char} (header : IsHeader v line) :
    headerSize v ≤ strlen line := by
  rw [IsHeader, xstrstr_cstr known] at header
  cases v with
  | IPvUNKNOWN => exact absurd rfl known
  | IPv4 =>
    refine @probe_length 0 6 "lease " (by decide) _ ?_
    by_contra absent
    rw [xstrstr, xstrstrV4, if_neg absent] at header
    cases state : xstrstrState 2 (cstr line) with
    | none => simp [state] at header
    | some kind => exact xstrstrState_lease 2 (cstr line) (by simpa [state] using header)
  | IPv6 =>
    refine @probe_length 2 7 "iaaddr " (by decide) _ ?_
    by_contra absent
    rw [xstrstr, xstrstrV6, if_neg absent] at header
    cases state : xstrstrState 4 (cstr line) with
    | none => simp [state] at header
    | some kind => exact xstrstrState_lease 4 (cstr line) (by simpa [state] using header)

/-- The bytes that `memccpy` may copy from a header line include the NUL. -/
theorem window_ends {line : List Char} (ends : '\x00' ∈ line) {n : Nat} (positive : 0 < n) (keyword : n ≤ strlen line) :
    '\x00' ∈ (line.drop n).take (strlen line) := by
  obtain ⟨a, b, split, fresh⟩ : ∃ a b, line = a ++ '\x00' :: b ∧ '\x00' ∉ a := List.eq_append_cons_of_mem ends
  have text : cstr line = a := by
    rw [split, cstr, takeWhile_stop _ _ (by simp), List.takeWhile_eq_self_iff]
    intro c member
    have differ : c ≠ '\x00' := fun same => fresh (same ▸ member)
    simpa using differ
  have size : strlen line = a.length := by rw [strlen, text]
  rw [size] at keyword ⊢
  rw [split, List.drop_append_of_le_length keyword]
  refine List.mem_take_iff_getElem.mpr ⟨a.length - n, ?_, ?_⟩
  · simp
    omega
  · simp

/-- The address that a header line leaves. -/
theorem header_text {v : DhcpVersion} (known : v ≠ .IPvUNKNOWN) {line : List Char} (ends : '\x00' ∈ line)
    (header : IsHeader v line) (dst : List Char) :
    cstr (match memccpy dst (line.drop (headerSize v)) ' ' (strlen line) with
      | (copy, some stop) => copy.set (stop - 1) '\x00'
      | (copy, none) => copy) = headerText v line := by
  refine memccpy_word (window_ends ends ?_ (header_length known header))
  unfold headerSize
  split_ifs <;> simp

/-- What one line does: the current address and one write to the table. -/
theorem parseLine_spec (env : Env) {v : DhcpVersion} (known : v ≠ .IPvUNKNOWN) {d : LeaseData}
    (version : d.ipVersion = v) (ends : '\x00' ∈ d.line) (distinct : Distinct (ipKey v) d.leases) :
    let d' := parseLine env d
    d'.ipVersion = v ∧ d'.line = d.line ∧ Distinct (ipKey v) d'.leases ∧
      key v d'.addr = nextKey env.inet v d.line (key v d.addr) ∧
      tableMap v d'.leases =
        (writeOf env.printMacAddreses v (key v d'.addr) d.line).apply (tableMap v d.leases) := by
  subst version
  have replaced := replaceLease_spec env known distinct
  obtain ⟨kind, classified⟩ : ∃ kind, xstrstr d.ipVersion d.line = (d.ipVersion, kind) :=
    ⟨_, Prod.ext (xstrstr_version known d.line) rfl⟩
  have headed : IsHeader d.ipVersion d.line ↔ kind = .PREFIX_LEASE := by rw [IsHeader, classified]
  simp only [parseLine, nextKey, headed, writeOf, stateOf, macOf, classified]
  cases kind with
  | PREFIX_LEASE =>
    obtain ⟨stays, number⟩ := @key_parseIpaddr env.inet d.ipVersion known (headerText d.ipVersion d.line) d.addr
    have text := header_text known ends (headed.mpr rfl) d.ipstring
    rw [headerSize] at text
    simp only [text]
    exact ⟨stays, trivial, distinct, number, rfl⟩
  | PREFIX_BINDING_STATE_FREE => exact ⟨rfl, rfl, (replaced .FREE).1, rfl, (replaced .FREE).2⟩
  | PREFIX_BINDING_STATE_ABANDONED => exact ⟨rfl, rfl, (replaced .FREE).1, rfl, (replaced .FREE).2⟩
  | PREFIX_BINDING_STATE_EXPIRED => exact ⟨rfl, rfl, (replaced .FREE).1, rfl, (replaced .FREE).2⟩
  | PREFIX_BINDING_STATE_RELEASED => exact ⟨rfl, rfl, (replaced .FREE).1, rfl, (replaced .FREE).2⟩
  | PREFIX_BINDING_STATE_ACTIVE => exact ⟨rfl, rfl, (replaced .ACTIVE).1, rfl, (replaced .ACTIVE).2⟩
  | PREFIX_BINDING_STATE_BACKUP => exact ⟨rfl, rfl, (replaced .BACKUP).1, rfl, (replaced .BACKUP).2⟩
  | PREFIX_HARDWARE_ETHERNET =>
    by_cases macs : env.printMacAddreses = true
    · have noted := tableMap_change d.ipVersion d.leases (key d.ipVersion d.addr) (cstr ((d.line.drop 20).take 17))
      have kept := @distinct_change _ _ _ (ipKey d.ipVersion)
        (fun l => { l with ethernet := some (cstr ((d.line.drop 20).take 17)) }) (fun _ => rfl) _
        distinct (key d.ipVersion d.addr)
      rw [change_findIdx?] at noted kept
      simp only [macs, findLease_key env.hash known distinct]
      cases found : d.leases.findIdx? (fun l => ipKey d.ipVersion l = key d.ipVersion d.addr) with
      | none =>
        rw [found] at noted
        exact ⟨rfl, rfl, distinct, rfl, noted⟩
      | some lease =>
        rw [found] at noted kept
        exact ⟨rfl, rfl, kept, rfl, noted⟩
    · simp only [macs]
      exact ⟨rfl, rfl, distinct, rfl, rfl⟩
  | NUM_OF_PREFIX => exact ⟨rfl, rfl, distinct, rfl, rfl⟩

/-! ## The whole file -/

/-- What holds between two lines. -/
structure Inv (v : DhcpVersion) (d : LeaseData) : Prop where
  version : d.ipVersion = v
  ends : '\x00' ∈ d.line
  distinct : Distinct (ipKey v) d.leases

/-- Each piece of the file in the buffer, with the address that is current after it. -/
def readings (inet : Inet) (v : DhcpVersion) : List Char → Nat → List (List Char) → List (Nat × List Char)
  | _, _, [] => []
  | buf, k, p :: ps =>
    let line := store buf p
    let k' := nextKey inet v line k
    (k', line) :: readings inet v line k' ps

/-- Reading one piece. -/
def pieceStep (env : Env) (d : LeaseData) (p : List Char) : LeaseData :=
  parseLine env { d with line := store d.line p }

section
variable (env : Env) {v : DhcpVersion} (known : v ≠ .IPvUNKNOWN)
include known

theorem pieces_run (ps : List (List Char)) : ∀ {d : LeaseData}, Inv v d →
    Inv v (ps.foldl (pieceStep env) d) ∧
      tableMap v (ps.foldl (pieceStep env) d).leases =
        ((readings env.inet v d.line (key v d.addr) ps).map
          (fun r => writeOf env.printMacAddreses v r.1 r.2)).foldl Write.apply (tableMap v d.leases) := by
  induction ps with
  | nil => exact fun inv => ⟨inv, rfl⟩
  | cons p ps ih =>
    intro d inv
    have ends : '\x00' ∈ store d.line p := by simp [store]
    obtain ⟨version, line, distinct, number, table⟩ :=
      parseLine_spec env known (d := { d with line := store d.line p }) inv.version ends inv.distinct
    obtain ⟨inv', table'⟩ := ih (d := pieceStep env d p) ⟨version, by rw [pieceStep, line]; exact ends, distinct⟩
    refine ⟨inv', table'.trans ?_⟩
    rw [pieceStep] at *
    simp only [readings, List.map_cons, List.foldl_cons, line, table, number]

/-- Classifying the same line once more leaves the table. -/
theorem parseLine_again {d : LeaseData} (inv : Inv v d) :
    tableMap v (parseLine env (parseLine env d)).leases = tableMap v (parseLine env d).leases := by
  obtain ⟨version, line, distinct, number, table⟩ := parseLine_spec env known inv.version inv.ends inv.distinct
  obtain ⟨-, -, -, number', table'⟩ := parseLine_spec env known version (line ▸ inv.ends) distinct
  have stays : key v (parseLine env (parseLine env d)).addr = key v (parseLine env d).addr := by
    rw [number', line, number]
    unfold nextKey
    split_ifs <;> rfl
  rw [table', stays, line, table, Write.apply_again]

end

/-- The loop reads every piece; at the end it may classify the last one once more. -/
theorem leaseLoop_run (env : Env) : ∀ (n : Nat) (d : LeaseData) (file : List Char), file.length < n →
    (leaseLoop env n ⟨d, file, false⟩).data = (pieces 1023 1023 file).foldl (pieceStep env) d ∨
      (leaseLoop env n ⟨d, file, false⟩).data = parseLine env ((pieces 1023 1023 file).foldl (pieceStep env) d) := by
  intro n
  induction n with
  | zero => exact fun _ _ none => absurd none (Nat.not_lt_zero _)
  | succ n ih =>
    intro d file fuel
    have stop : ∀ s : LeaseRun, s.eof = true → leaseLoop env n s = s := by
      intro s met
      cases n <;> simp [leaseLoop, met]
    rw [leaseLoop, if_neg (by simp)]
    cases file with
    | nil =>
      right
      rw [stop _ rfl]
      rfl
    | cons c rest =>
      have more : c :: rest ≠ [] := List.cons_ne_nil c rest
      have piece := @fgets_piece 1023 (by decide) _ more
      have lengths := congrArg List.length (fgets_rest 1023 (c :: rest))
      rw [List.length_append] at lengths
      have shorter := List.length_pos_iff.mpr piece
      rw [pieces_fgets (by decide) more, List.foldl_cons]
      have step : leaseStep env ⟨d, c :: rest, false⟩ =
          ⟨pieceStep env d (fgets 1023 (c :: rest)).piece, (fgets 1023 (c :: rest)).rest,
            (fgets 1023 (c :: rest)).eof⟩ := by
        rw [leaseStep, if_neg piece, pieceStep]
      rw [step]
      cases met : (fgets 1023 (c :: rest)).eof with
      | true =>
        left
        rw [stop _ rfl, fgets_eof met]
        rfl
      | false => exact ih _ _ (by omega)

/-- The table is the replay of the writes of the pieces. -/
theorem parseLeases_replay (env : Env) {v : DhcpVersion} (known : v ≠ .IPvUNKNOWN) (junk : List Char) (addr : Ipaddr)
    (file : List Char) :
    Distinct (ipKey v) (parseLeases env v junk addr file).leases ∧
      tableMap v (parseLeases env v junk addr file).leases =
        replay ((readings env.inet v ('\x00' :: junk) (key v addr) (pieces 1023 1023 file)).map
          (fun r => writeOf env.printMacAddreses v r.1 r.2)) := by
  let start : LeaseData := ⟨v, [], false, '\x00' :: junk, '\x00' :: junk, addr⟩
  have inv : Inv v start := ⟨rfl, List.mem_cons_self, List.nodup_nil⟩
  obtain ⟨inv', table⟩ := pieces_run env known (pieces 1023 1023 file) inv
  rcases leaseLoop_run env (file.length + 1) start file (Nat.lt_succ_self _) with last | again
  · rw [parseLeases, last]
    exact ⟨inv'.distinct, table⟩
  · rw [parseLeases, again]
    obtain ⟨-, -, distinct, -, -⟩ := parseLine_spec env known inv'.version inv'.ends inv'.distinct
    refine ⟨distinct, Eq.trans ?_ table⟩
    rcases List.eq_nil_or_concat (pieces 1023 1023 file) with none | ⟨front, p, split⟩
    · -- Of an empty file only the cleared buffer is classified.
      obtain ⟨-, -, -, -, table'⟩ := parseLine_spec env known inv.version inv.ends inv.distinct
      have blank : xstrstr v ('\x00' :: junk) = xstrstr v [] := by
        rw [xstrstr_cstr known]
        rfl
      have quiet : ∀ k, writeOf env.printMacAddreses v k ('\x00' :: junk) = .skip := by
        intro k
        rw [writeOf, stateOf, macOf, blank]
        cases v with
        | IPvUNKNOWN => exact absurd rfl known
        | IPv4 => rfl
        | IPv6 => rfl
      rw [none, List.foldl_nil, table', quiet]
      rfl
    · obtain ⟨before, -⟩ := pieces_run env known front inv
      rw [split, List.concat_eq_append, List.foldl_append, List.foldl_cons, List.foldl_nil, pieceStep]
      exact parseLine_again env known (d := { front.foldl (pieceStep env) start with line := _ })
        ⟨before.version, by simp [store], before.distinct⟩

/-! ## Lines -/

/-- Each line with the current address: the one of the last header line so far. -/
def addressed (inet : Inet) (v : DhcpVersion) : Option Nat → List (List Char) → List (Option Nat × List Char)
  | _, [] => []
  | current, line :: rest =>
    let current :=
      if IsHeader v line then
        if parses inet v (headerText v line) then some (addressKey inet v (headerText v line)) else none
      else current
    (current, line) :: addressed inet v current rest

/-- A line is classified as on its own, whatever stood in the buffer before. -/
theorem xstrstr_store {v : DhcpVersion} (known : v ≠ .IPvUNKNOWN) (buf line : List Char) :
    xstrstr v (store buf line) = xstrstr v line := by
  rw [xstrstr_cstr known, cstr_store, ← xstrstr_cstr known]

theorem stateOf_store {v : DhcpVersion} (known : v ≠ .IPvUNKNOWN) (buf line : List Char) :
    stateOf v (store buf line) = stateOf v line := by
  rw [stateOf, xstrstr_store known, stateOf]

/-- A hardware line reads as on its own, unless it ends before its text. -/
theorem macOf_store {v : DhcpVersion} (known : v ≠ .IPvUNKNOWN) (buf line : List Char)
    (hardware : macOf v line ≠ none → 20 ≤ line.length) : macOf v (store buf line) = macOf v line := by
  rw [macOf, xstrstr_store known, macOf] at *
  split_ifs at hardware ⊢ with kind
  · rw [store, List.drop_append_of_le_length (hardware (by simp)), cstr_take]
  · rfl

theorem nextKey_store {inet : Inet} {v : DhcpVersion} (known : v ≠ .IPvUNKNOWN) (buf line : List Char) (k : Nat) :
    nextKey inet v (store buf line) k = nextKey inet v line k := by
  have kind : IsHeader v (store buf line) ↔ IsHeader v line := by rw [IsHeader, xstrstr_store known, IsHeader]
  unfold nextKey
  by_cases headed : IsHeader v line
  · have long : headerSize v ≤ line.length :=
      (header_length known headed).trans (List.Sublist.length_le (List.takeWhile_sublist _))
    have text : headerText v (store buf line) = headerText v line := by
      rw [headerText, store, List.drop_append_of_le_length long, takeWhile_stop _ _ (by simp [inWord]), headerText]
    rw [if_pos (kind.mpr headed), if_pos headed, text]
  · rw [if_neg (fun h => headed (kind.mp h)), if_neg headed]

/-- The text of a hardware line matters only when it is printed. -/
theorem writeOf_store {v : DhcpVersion} (known : v ≠ .IPvUNKNOWN) (macs : Bool) (buf line : List Char)
    (hardware : macs = true → macOf v line ≠ none → 20 ≤ line.length) (k : Nat) :
    writeOf macs v k (store buf line) = writeOf macs v k line := by
  have state := stateOf_store known buf line
  cases macs with
  | true => rw [writeOf, writeOf, state, macOf_store known buf line (hardware rfl)]
  | false =>
    have silent : ∀ mac : Option (List Char), (match mac with
        | some text => if false = true then Write.note k text else .skip
        | none => .skip) = (Write.skip : Write Nat Ltype (List Char)) := by
      intro mac
      cases mac <;> rfl
    rw [writeOf, writeOf, state, silent, silent]

/-- The write of a line; without a current address there is nothing to write to. -/
def lineWrite (macs : Bool) (v : DhcpVersion) (r : Option Nat × List Char) : Write Nat Ltype (List Char) :=
  match r.1 with
  | some k => writeOf macs v k r.2
  | none => .skip

theorem addressed_replay {inet : Inet} {v : DhcpVersion} (known : v ≠ .IPvUNKNOWN) (macs : Bool)
    (lines : List (List Char)) : ∀ (buf : List Char) (k : Nat) (current : Option Nat)
    (m : Nat → Option (Ltype × Option (List Char))),
    (current = some k ∨ current = none ∧ m = fun _ => none) →
    (∀ line ∈ lines, IsHeader v line → parses inet v (headerText v line) = true) →
    (∀ line ∈ lines, macOf v line ≠ none → 37 ≤ line.length) →
    (∀ r ∈ addressed inet v current lines, stateOf v r.2 ≠ none → r.1 ≠ none) →
    ((readings inet v buf k lines).map (fun r => writeOf macs v r.1 r.2)).foldl Write.apply m =
      ((addressed inet v current lines).map (lineWrite macs v)).foldl Write.apply m := by
  induction lines with
  | nil => exact fun _ _ _ _ _ _ _ _ => rfl
  | cons line rest ih =>
    intro buf k current m start headers hardware ordered
    have long : macs = true → macOf v line ≠ none → 20 ≤ line.length := fun _ h =>
      Nat.le_trans (by decide) (hardware line List.mem_cons_self h)
    have headers' := fun l member => headers l (List.mem_cons_of_mem line member)
    have hardware' := fun l member => hardware l (List.mem_cons_of_mem line member)
    simp only [readings, addressed, List.map_cons, List.foldl_cons, writeOf_store known macs buf line long,
      nextKey_store known buf line] at ordered ⊢
    rw [nextKey]
    by_cases headed : IsHeader v line
    · have parsed := headers line List.mem_cons_self headed
      simp only [if_pos headed, parsed] at ordered ⊢
      exact ih _ _ _ _ (Or.inl rfl) headers' hardware' (fun r member => ordered r (List.mem_cons_of_mem _ member))
    · simp only [if_neg headed] at ordered ⊢
      have ordered' := fun r member => ordered r (List.mem_cons_of_mem _ member)
      rcases start with rfl | ⟨rfl, rfl⟩
      · exact ih _ _ _ _ (Or.inl rfl) headers' hardware' ordered'
      · -- Before the first header a hardware line finds nothing.
        have silent : stateOf v line = none := by
          by_contra recognised
          exact ordered (none, line) List.mem_cons_self recognised rfl
        have empty : (writeOf macs v k line).apply (fun _ => none) = fun _ => none := by
          simp only [writeOf, silent]
          cases macOf v line with
          | none => rfl
          | some found => cases macs <;> simp [Write.apply]
        rw [empty]
        exact ih _ _ _ _ (Or.inr ⟨rfl, rfl⟩) headers' hardware' ordered'

theorem writeOf_puts (macs : Bool) (v : DhcpVersion) (k' k : Nat) (line : List Char) :
    (writeOf macs v k' line).puts k = if k' = k then stateOf v line else none := by
  unfold writeOf
  cases stateOf v line with
  | some type => rfl
  | none =>
    cases macOf v line with
    | none => simp [Write.puts]
    | some text => cases macs <;> simp [Write.puts]

theorem writeOf_notes (macs : Bool) (v : DhcpVersion) (k' k : Nat) (line : List Char) :
    (writeOf macs v k' line).notes k = if k' = k ∧ macs = true then macOf v line else none := by
  -- No line is a binding state line and a hardware line.
  have other : ∀ type, stateOf v line = some type → macOf v line = none := by
    intro type state
    rw [macOf, if_neg]
    intro kind
    simp [stateOf, kind] at state
  unfold writeOf
  cases state : stateOf v line with
  | some type => simp [Write.notes, other type state]
  | none =>
    cases macOf v line with
    | none => simp [Write.notes]
    | some text => cases macs <;> simp [Write.notes]

theorem lineWrite_puts (macs : Bool) (v : DhcpVersion) (r : Option Nat × List Char) (k : Nat) :
    (lineWrite macs v r).puts k = if r.1 = some k then stateOf v r.2 else none := by
  obtain ⟨current, line⟩ := r
  cases current with
  | none => rfl
  | some k' => simpa [lineWrite] using writeOf_puts macs v k' k line

theorem lineWrite_notes (macs : Bool) (v : DhcpVersion) (r : Option Nat × List Char) (k : Nat) :
    (lineWrite macs v r).notes k = if r.1 = some k ∧ macs = true then macOf v r.2 else none := by
  obtain ⟨current, line⟩ := r
  cases current with
  | none => rfl
  | some k' => simpa [lineWrite] using writeOf_notes macs v k' k line

/-- An address has an entry exactly when a state line was read under it. -/
theorem replay_member (macs : Bool) (v : DhcpVersion) (log : List (Option Nat × List Char)) (k : Nat) :
    (replay (log.map (lineWrite macs v)) k).isSome ↔ ∃ r ∈ log, r.1 = some k ∧ stateOf v r.2 ≠ none := by
  rw [replay_isSome]
  constructor
  · rintro ⟨type, member⟩
    obtain ⟨r, inside, write⟩ := List.mem_map.mp member
    have sets := lineWrite_puts macs v r k
    rw [write, Write.puts, if_pos rfl] at sets
    split_ifs at sets with current
    exact ⟨r, inside, current, sets ▸ Option.some_ne_none type⟩
  · rintro ⟨r, inside, current, state⟩
    obtain ⟨type, recognised⟩ := Option.ne_none_iff_exists'.mp state
    refine ⟨type, List.mem_map.mpr ⟨r, inside, ?_⟩⟩
    simp only [lineWrite, current, writeOf_state recognised]

/-- The table after `parse_leases`: one entry for each address under which a binding
    state was read, with the last state and the last hardware text after it. -/
theorem parseLeases_last_state (env : Env) (v : DhcpVersion) (known : v ≠ .IPvUNKNOWN) (junk : List Char)
    (addr : Ipaddr) (file : List Char) (short : ∀ line ∈ fileLines file, line.length < 1024)
    (headers : ∀ line ∈ fileLines file, IsHeader v line → parses env.inet v (headerText v line) = true)
    (hardware : ∀ line ∈ fileLines file, macOf v line ≠ none → 37 ≤ line.length)
    (ordered : ∀ r ∈ addressed env.inet v none (fileLines file), stateOf v r.2 ≠ none → r.1 ≠ none) :
    let table := (parseLeases env v junk addr file).leases
    let log := addressed env.inet v none (fileLines file)
    (table.map (fun l => key v l.ip)).Nodup ∧
      (∀ k, (∃ l ∈ table, key v l.ip = k) ↔ ∃ r ∈ log, r.1 = some k ∧ stateOf v r.2 ≠ none) ∧
      ∀ l ∈ table, ∃ before line after, log = before ++ (some (key v l.ip), line) :: after ∧
        stateOf v line = some l.type ∧ (∀ r ∈ after, r.1 = some (key v l.ip) → stateOf v r.2 = none) ∧
        l.ethernet = (after.filterMap (fun r =>
          if r.1 = some (key v l.ip) ∧ env.printMacAddreses = true then macOf v r.2 else none)).getLast? := by
  intro table log
  obtain ⟨distinct, replayed⟩ := parseLeases_replay env known junk addr file
  have lines : pieces 1023 1023 file = fileLines file := by
    refine pieces_lines (fun l member => Nat.le_of_lt_succ (short l member)) (fun l member => ?_)
    exact Nat.le_of_lt_succ (short l (List.mem_of_mem_head? member))
  rw [lines, replay, addressed_replay known _ _ _ _ none _ (Or.inr ⟨rfl, rfl⟩) headers hardware ordered] at replayed
  change tableMap v table = replay (log.map (lineWrite env.printMacAddreses v)) at replayed
  refine ⟨distinct, fun k => ?_, fun l member => ?_⟩
  · rw [← replay_member env.printMacAddreses, ← replayed, tableMap, Option.isSome_map]
    constructor
    · rintro ⟨l, member, rfl⟩
      rw [show key v l.ip = ipKey v l from rfl, get_of_mem distinct member]
      rfl
    · intro filled
      obtain ⟨l, found⟩ := Option.isSome_iff_exists.mp filled
      exact ⟨l, get_mem found⟩
  · have entry : tableMap v table (key v l.ip) = some (l.type, l.ethernet) := by
      rw [tableMap, show key v l.ip = ipKey v l from rfl, get_of_mem distinct member]
      rfl
    rw [replayed] at entry
    obtain ⟨before, after, split, silent, note⟩ := replay_some entry
    obtain ⟨before, rest, logged, rfl, tail⟩ := List.map_eq_append_iff.mp split
    obtain ⟨r, after, rfl, write, rfl⟩ := List.map_eq_cons_iff.mp tail
    have sets := lineWrite_puts env.printMacAddreses v r (key v l.ip)
    rw [write, Write.puts, if_pos rfl] at sets
    obtain ⟨current, state⟩ : r.1 = some (key v l.ip) ∧ stateOf v r.2 = some l.type := by
      split_ifs at sets with current
      exact ⟨current, sets.symm⟩
    refine ⟨before, r.2, after, by rw [logged, ← current], state, fun r' later here => ?_, ?_⟩
    · have quiet := silent _ (List.mem_map_of_mem later)
      rwa [lineWrite_puts, if_pos here] at quiet
    · rw [note, List.filterMap_map]
      congr 2
      funext r'
      exact lineWrite_notes env.printMacAddreses v r' (key v l.ip)

/-- The parsers on the texts of one IPv4 and one IPv6 address. -/
def sampleInet : Inet where
  inetAton s := if s = "10.0.0.5".toList then (true, 0x0a000005) else (false, 0)
  inetPton s := if s = "fe80::1".toList then (true, #v[0xfe, 0x80, 0, 0, 0, 0, 0, 0, 0, 0, 0, 0, 0, 0, 0, 1])
    else (false, Vector.replicate 16 0)
  inetAton_empty := by decide
  inetPton_empty := by decide
  families := by
    intro s parsed
    split_ifs at parsed with text
    rw [text]
    decide

/-- A table that is its list of entries. -/
def listHash : Uthash where
  find p leases := leases.findIdx? p
  add leases l := leases ++ [l]
  del leases i := leases.eraseIdx i
  sort cmp leases := leases.mergeSort fun a b => cmp a b ≤ 0
  finds _ _ _ := rfl
  adds _ _ := rfl
  dels _ _ := rfl
  permutes _ leases := List.mergeSort_perm leases _
  sorts cmp leases total trans := by
    have ordered := @List.pairwise_mergeSort Lease (fun a b => decide (cmp a b ≤ 0))
      (fun a b c first second => by simpa using trans a b c (by simpa using first) (by simpa using second))
      (fun a b => by simpa using total a b) leases
    exact ordered.imp (by simp)

def sampleEnv : Env := ⟨sampleInet, fun _ => ⟨Vector.replicate 16 0⟩, true, listHash⟩

/-- One address lease, without a newline at the end. -/
def sampleFile : List Char :=
  "lease 10.0.0.5 \x7b\n  binding state free;\n  hardware ethernet 00:11:22:33:44:55;".toList

/-- A lease that is declared twice, the second time with two states. -/
def renewedFile : List Char :=
  ("lease 10.0.0.5 \x7b\n  binding state active;\n  hardware ethernet 00:11:22:33:44:55;\n\x7d\n" ++
    "lease 10.0.0.5 \x7b\n  binding state free;\n  binding state backup;\n" ++
    "  hardware ethernet 66:77:88:99:aa:bb;\n\x7d\n").toList

theorem parseLeases_last_state_sample :
    let table := (parseLeases sampleEnv .IPv4 [] ⟨Vector.replicate 16 0⟩ renewedFile).leases
    let log := addressed sampleInet .IPv4 none (fileLines renewedFile)
    (∃ l ∈ table, key .IPv4 l.ip = 0x0a000005 ∧ l.type = .BACKUP ∧ l.ethernet = some "66:77:88:99:aa:bb".toList) ∧
      ∀ l ∈ table, ∃ before line after, log = before ++ (some (key .IPv4 l.ip), line) :: after ∧
        stateOf .IPv4 line = some l.type ∧ (∀ r ∈ after, r.1 = some (key .IPv4 l.ip) → stateOf .IPv4 r.2 = none) ∧
        l.ethernet = (after.filterMap (fun r =>
          if r.1 = some (key .IPv4 l.ip) ∧ true = true then macOf .IPv4 r.2 else none)).getLast? :=
  ⟨by decide +kernel, (parseLeases_last_state sampleEnv .IPv4 (by decide) [] ⟨Vector.replicate 16 0⟩ renewedFile
    (by decide +kernel) (by decide +kernel) (by decide +kernel) (by decide +kernel)).2.2⟩

end DhcpdPools.LeaseFile
