import DhcpdPools.Bytes

/-!
Addresses: the union that holds an IPv4 or an IPv6 address, the functions behind
the family-specific function pointers, and the order of addresses. The pointers
are assigned together by `set_ipv_functions`, so each of them is a function of
the version in force. Both comparisons are comparisons of numbers (`ipcomp_key`).
-/
namespace DhcpdPools

/-- `enum dhcp_version`. -/
inductive DhcpVersion where
  | IPvUNKNOWN
  | IPv4
  | IPv6
deriving DecidableEq, Repr

/-- `union ipaddr_t`: sixteen bytes, of which the first four are also `v4`. -/
structure Ipaddr where
  v6 : Vector UInt8 16
deriving DecidableEq

namespace Ipaddr

/-- The member `v4`, on a little-endian host. -/
def v4 (a : Ipaddr) : BitVec 32 :=
  BitVec.ofNat 32 (a.v6[0].toNat + 256 * a.v6[1].toNat + 65536 * a.v6[2].toNat + 16777216 * a.v6[3].toNat)

/-- A union after an assignment to the member `v4`. The other bytes take unspecified
    values then, and nothing reads them while the version is IPv4; here they are 0. -/
def ofV4 (x : BitVec 32) : Ipaddr :=
  ⟨((((Vector.replicate 16 0).set 0 (UInt8.ofNat x.toNat)).set 1 (UInt8.ofNat (x.toNat / 256))).set 2
    (UInt8.ofNat (x.toNat / 65536))).set 3 (UInt8.ofNat (x.toNat / 16777216))⟩

@[simp] theorem v4_ofV4 (x : BitVec 32) : (ofV4 x).v4 = x := by
  apply BitVec.eq_of_toNat_eq
  have bound := x.isLt
  simp [v4, ofV4, UInt8.toNat_ofNat']
  omega

end Ipaddr

/-- What the program relies on from the system: the two address parsers, each with
    its return value (is it 1?) and what it leaves in the destination, which is
    meaningless after a failure. The IPv4 word is in host order, after `ntohl`. -/
structure Inet where
  inetAton : List Char → Bool × BitVec 32
  inetPton : List Char → Bool × Vector UInt8 16
  /-- The empty string is no address. -/
  inetAton_empty : (inetAton []).1 = false
  inetPton_empty : (inetPton []).1 = false
  /-- No string is an address of both families: only IPv6 addresses have colons. -/
  families : ∀ s, (inetPton s).1 = true → (inetAton s).1 = false

section
variable (inet : Inet)

/-- `parse_ipaddr_v4`. -/
def parseIpaddrV4 (src : List Char) (_dst : Ipaddr) : Bool × Ipaddr :=
  let r := inet.inetAton src
  (r.1, .ofV4 r.2)

/-- `parse_ipaddr_v6`. -/
def parseIpaddrV6 (src : List Char) (_dst : Ipaddr) : Bool × Ipaddr :=
  let r := inet.inetPton src
  (r.1, ⟨r.2⟩)

/-- `parse_ipaddr_init`: the first address decides the version. -/
def parseIpaddrInit (src : List Char) (dst : Ipaddr) : DhcpVersion × Bool × Ipaddr :=
  if (inet.inetAton src).1 then (.IPv4, parseIpaddrV4 inet src dst)
  else if (inet.inetPton src).1 then (.IPv6, parseIpaddrV6 inet src dst)
  else (.IPvUNKNOWN, false, dst)

/-- `parse_ipaddr` in the version in force: the version afterwards, the return
    value and the destination. -/
def parseIpaddr (v : DhcpVersion) (src : List Char) (dst : Ipaddr) : DhcpVersion × Bool × Ipaddr :=
  match v with
  | .IPvUNKNOWN => parseIpaddrInit inet src dst
  | .IPv4 => (.IPv4, parseIpaddrV4 inet src dst)
  | .IPv6 => (.IPv6, parseIpaddrV6 inet src dst)

end

theorem parseIpaddr_dst (inet : Inet) (v : DhcpVersion) (src : List Char) (dst dst' : Ipaddr) :
    (parseIpaddr inet v src dst).1 = (parseIpaddr inet v src dst').1 ∧
      (parseIpaddr inet v src dst).2.1 = (parseIpaddr inet v src dst').2.1 ∧
      ((parseIpaddr inet v src dst).2.1 = true ∨ v ≠ .IPvUNKNOWN →
        (parseIpaddr inet v src dst).2.2 = (parseIpaddr inet v src dst').2.2) := by
  cases v with
  | IPvUNKNOWN =>
    unfold parseIpaddr parseIpaddrInit
    split_ifs <;> simp [parseIpaddrV4, parseIpaddrV6]
  | IPv4 => exact ⟨rfl, rfl, fun _ => rfl⟩
  | IPv6 => exact ⟨rfl, rfl, fun _ => rfl⟩

/-- The version changes only with an address that parses, and is known then. -/
theorem parseIpaddr_version (inet : Inet) (v : DhcpVersion) (src : List Char) (dst : Ipaddr) :
    if (parseIpaddr inet v src dst).2.1 then (parseIpaddr inet v src dst).1 ≠ .IPvUNKNOWN
    else (parseIpaddr inet v src dst).1 = v := by
  cases v with
  | IPvUNKNOWN =>
    unfold parseIpaddr parseIpaddrInit
    split_ifs <;> simp_all [parseIpaddrV4, parseIpaddrV6]
  | IPv4 =>
    split_ifs
    · exact fun same => by cases same
    · rfl
  | IPv6 =>
    split_ifs
    · exact fun same => by cases same
    · rfl

theorem parseIpaddr_empty (inet : Inet) (v : DhcpVersion) (dst : Ipaddr) : (parseIpaddr inet v [] dst).2.1 = false := by
  cases v with
  | IPvUNKNOWN => simp [parseIpaddr, parseIpaddrInit, inet.inetAton_empty, inet.inetPton_empty]
  | IPv4 => exact inet.inetAton_empty
  | IPv6 => exact inet.inetPton_empty

/-- `copy_ipaddr`: the destination afterwards. -/
def copyIpaddr (v : DhcpVersion) (dst src : Ipaddr) : Ipaddr :=
  match v with
  | .IPvUNKNOWN => dst
  | .IPv4 => .ofV4 src.v4
  | .IPv6 => ⟨src.v6⟩

/-- `ipcomp_v4`. -/
def ipcompV4 (a b : Ipaddr) : Int :=
  if a.v4 < b.v4 then -1 else if b.v4 < a.v4 then 1 else 0

/-- `ipcomp_v6`. -/
def ipcompV6 (a b : Ipaddr) : Int := memcmp a.v6.toList b.v6.toList

/-- `ipcomp` in the version in force. -/
def ipcomp (v : DhcpVersion) (a b : Ipaddr) : Int :=
  match v with
  | .IPvUNKNOWN => 0
  | .IPv4 => ipcompV4 a b
  | .IPv6 => ipcompV6 a b

/-- The number that an address is in the version in force. -/
def key (v : DhcpVersion) (a : Ipaddr) : Nat :=
  match v with
  | .IPvUNKNOWN => 0
  | .IPv4 => a.v4.toNat
  | .IPv6 => bigEndian a.v6.toList

/-- Comparing addresses is comparing their numbers. -/
theorem ipcomp_key (v : DhcpVersion) (a b : Ipaddr) :
    (ipcomp v a b < 0 ↔ key v a < key v b) ∧ (0 < ipcomp v a b ↔ key v b < key v a) := by
  cases v with
  | IPvUNKNOWN => simp [ipcomp, key]
  | IPv4 =>
    simp only [ipcomp, ipcompV4, key, BitVec.lt_def]
    split_ifs <;> omega
  | IPv6 => exact memcmp_sign a.v6.toList b.v6.toList (by simp)

theorem ipcomp_neg (v : DhcpVersion) (a b : Ipaddr) : ipcomp v a b < 0 ↔ key v a < key v b :=
  (ipcomp_key v a b).1

theorem ipcomp_nonpos (v : DhcpVersion) (a b : Ipaddr) : ipcomp v a b ≤ 0 ↔ key v a ≤ key v b := by
  have := (ipcomp_key v a b).2
  omega

theorem ipcomp_pos (v : DhcpVersion) (a b : Ipaddr) : 0 < ipcomp v a b ↔ key v b < key v a :=
  (ipcomp_key v a b).2

theorem ipcomp_zero (v : DhcpVersion) (a b : Ipaddr) : ipcomp v a b = 0 ↔ key v a = key v b := by
  obtain ⟨less, greater⟩ := ipcomp_key v a b
  omega

theorem copyIpaddr_dst {v : DhcpVersion} (known : v ≠ .IPvUNKNOWN) (dst dst' src : Ipaddr) :
    copyIpaddr v dst src = copyIpaddr v dst' src := by
  cases v with
  | IPvUNKNOWN => exact absurd rfl known
  | IPv4 => rfl
  | IPv6 => rfl

theorem key_copyIpaddr {v : DhcpVersion} (dst src : Ipaddr) : key v (copyIpaddr v dst src) = key v src := by
  cases v <;> simp [key, copyIpaddr]

theorem key_v4 (a b : Ipaddr) : key .IPv4 a = key .IPv4 b ↔ a.v4 = b.v4 := BitVec.toNat_inj

theorem key_v6 (a b : Ipaddr) : key .IPv6 a = key .IPv6 b ↔ a.v6 = b.v6 := by
  constructor
  · intro same
    exact Vector.toList_inj.mp (bigEndian_inj (by simp) same)
  · intro same
    rw [key, same, key]

end DhcpdPools
