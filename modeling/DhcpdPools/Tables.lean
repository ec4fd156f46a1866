import DhcpdPools.Address

/-!
The tables of the program: leases, ranges and shared networks. A `double` is an
exact rational, so rounding is not modelled. A pointer to a shared network is its
index in `shared_networks`, the null pointer is `none`; the entry 0 is both the
network of the ranges outside every shared network and the grand total.
-/
namespace DhcpdPools

/-- `enum ltype`. -/
inductive Ltype where
  | ACTIVE
  | FREE
  | BACKUP
deriving DecidableEq, Repr

/-- `struct leases_t` without the hash handle. -/
structure Lease where
  ip : Ipaddr
  type : Ltype
  ethernet : Option (List Char)
deriving DecidableEq

/-- The table of `uthash.h`: its entries in the order in which they were added or sorted, the
    macros `HASH_FIND`, `HASH_ADD`, `HASH_DEL` and `HASH_SORT`, and what is documented of them.
    A pointer to an entry is its index. -/
structure Uthash where
  find : (Lease → Bool) → List Lease → Option Nat
  add : List Lease → Lease → List Lease
  del : List Lease → Nat → List Lease
  sort : (Lease → Lease → Int) → List Lease → List Lease
  finds : ∀ p leases, leases.countP p ≤ 1 → find p leases = leases.findIdx? p
  adds : ∀ leases l, add leases l = leases ++ [l]
  dels : ∀ leases i, del leases i = leases.eraseIdx i
  permutes : ∀ cmp leases, (sort cmp leases).Perm leases
  sorts : ∀ cmp leases, (∀ a b, cmp a b ≤ 0 ∨ cmp b a ≤ 0) → (∀ a b c, cmp a b ≤ 0 → cmp b c ≤ 0 → cmp a c ≤ 0) →
    (sort cmp leases).Pairwise fun a b => cmp a b ≤ 0

/-- `struct shared_network_t`. -/
structure SharedNetwork where
  name : List Char
  available : ℚ
  used : ℚ
  touched : ℚ
  backups : ℚ
  netmask : Int
deriving DecidableEq

/-- `struct range_t`. -/
structure Range where
  sharedNet : Option Nat
  firstIp : Ipaddr
  lastIp : Ipaddr
  count : ℚ
  touched : ℚ
  backups : ℚ
deriving DecidableEq

/-- The fields of `struct configuration_t` that the alarm report reads. -/
structure Configuration where
  warning : ℚ
  critical : ℚ
  warnCount : ℚ
  critCount : ℚ
  minsize : ℚ
  backupsFound : Bool
  snetAlarms : Bool
  perfdata : Bool
  headerLimit : BitVec 3
  numberLimit : BitVec 3
deriving DecidableEq

/-- `limit & R_BIT`, the bit of the ranges. -/
def rBit (limit : BitVec 3) : Bool := limit.getLsbD 0

/-- `limit & S_BIT`, the bit of the shared networks. -/
def sBit (limit : BitVec 3) : Bool := limit.getLsbD 1

/-- `limit & A_BIT`, the bit of the summary. -/
def aBit (limit : BitVec 3) : Bool := limit.getLsbD 2

/-- `get_range_size_v4`: the arithmetic is that of 32-bit unsigned integers. -/
def getRangeSizeV4 (r : Range) : ℚ := ((r.lastIp.v4 - r.firstIp.v4 + 1).toNat : ℚ)

/-- `get_range_size_v6`: byte by byte from the most significant one. -/
def getRangeSizeV6 (r : Range) : ℚ :=
  (r.lastIp.v6.toList.zip r.firstIp.v6.toList).foldl
    (fun size bytes => size * 256 + ((bytes.1.toNat : ℚ) - bytes.2.toNat)) 0 + 1

/-- `get_range_size` in the version in force. -/
def getRangeSize (v : DhcpVersion) (r : Range) : ℚ :=
  match v with
  | .IPvUNKNOWN => 0
  | .IPv4 => getRangeSizeV4 r
  | .IPv6 => getRangeSizeV6 r

/-- `leasecomp_v4`. -/
def leasecompV4 (a b : Lease) : Int :=
  if a.ip.v4 < b.ip.v4 then -1 else if b.ip.v4 < a.ip.v4 then 1 else 0

/-- `leasecomp_v6`. -/
def leasecompV6 (a b : Lease) : Int := memcmp a.ip.v6.toList b.ip.v6.toList

/-- `leasecomp` in the version in force. -/
def leasecomp (v : DhcpVersion) (a b : Lease) : Int :=
  match v with
  | .IPvUNKNOWN => 0
  | .IPv4 => leasecompV4 a b
  | .IPv6 => leasecompV6 a b

theorem leasecomp_ipcomp (v : DhcpVersion) (a b : Lease) : leasecomp v a b = ipcomp v a.ip b.ip := by
  cases v <;> rfl

/-- The size depends on the addresses only. -/
theorem getRangeSize_congr (v : DhcpVersion) {r s : Range} (first : r.firstIp = s.firstIp)
    (last : r.lastIp = s.lastIp) : getRangeSize v r = getRangeSize v s := by
  cases v <;> simp [getRangeSize, getRangeSizeV4, getRangeSizeV6, first, last]

end DhcpdPools
