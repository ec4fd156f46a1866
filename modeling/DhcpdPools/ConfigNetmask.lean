import DhcpdPools.ConfigTables

/-!
The netmask clause of `parse_config`: the loop that shifts the mask until its lowest
bit is a one, and the name with the prefix length that the subnet gets. The empty
mask has no one bit, and the loop does not end (`netmaskLoop_zero`).
-/
namespace DhcpdPools.ConfigNetmask
open ConfigReader ConfigTables

/-- The zeros below the lowest one of a mask; 32 of the empty mask. -/
def trailingZeros (mask : BitVec 32) : Nat := (List.range 32).findIdx mask.getLsbD

/-- A mask of `len` ones in front of zeros. -/
def IsPrefixMask (mask : BitVec 32) : Prop := ∃ len ≤ 32, mask.toNat = 2 ^ 32 - 2 ^ (32 - len)

/-- `A/len`. -/
def cidrName (a : List Char) (len : Int) : List Char := a ++ '/' :: (toString len).toList

/-- The mask that a name in this form stands for: the number behind the last slash counts its ones. -/
def cidrMask (name : List Char) : Nat :=
  2 ^ 32 - 2 ^ (32 - Nat.ofDigitChars 10 (name.reverse.takeWhile (· ≠ '/')).reverse 0)

/-! ## The loop -/

theorem trailingZeros_eq {mask : BitVec 32} {k : Nat} (one : mask.getLsbD k = true)
    (zeros : ∀ j < k, mask.getLsbD j = false) : trailingZeros mask = k := by
  have inside : k < 32 := BitVec.lt_of_getLsbD one
  rw [trailingZeros, List.findIdx_eq (by simpa using inside)]
  simpa [one] using zeros

/-- A mask with a one has a lowest one. -/
theorem trailingZeros_spec {mask : BitVec 32} (some_ : mask ≠ 0#32) :
    mask.getLsbD (trailingZeros mask) = true ∧ ∀ j < trailingZeros mask, mask.getLsbD j = false := by
  have ones : ∃ k, mask.getLsbD k = true := by
    by_contra none
    refine some_ (BitVec.eq_of_getLsbD_eq fun j _ => ?_)
    rw [BitVec.getLsbD_zero, ← Bool.not_eq_true]
    exact fun one => none ⟨j, one⟩
  have least := Nat.find_spec ones
  have below : ∀ j < Nat.find ones, mask.getLsbD j = false := fun j less => by
    rw [← Bool.not_eq_true]
    exact Nat.find_min ones less
  rw [trailingZeros_eq least below]
  exact ⟨least, below⟩

/-- Shifting the empty mask never ends. -/
theorem netmaskLoop_zero (fuel : Nat) (netmask : Int) : netmaskLoop fuel 0#32 netmask = .error .endlessLoop := by
  induction fuel generalizing netmask with
  | zero => rfl
  | succ fuel ih =>
    have shifted : 0#32 >>> 1 = 0#32 := by decide
    rw [netmaskLoop, if_neg (by simp), shifted, ih]

/-- The loop on any other mask takes one round for each trailing zero. -/
theorem netmaskLoop_some {mask : BitVec 32} (some_ : mask ≠ 0#32) :
    netmaskLoop 33 mask 32 = .ok (mask >>> trailingZeros mask, 32 - trailingZeros mask) ∧ trailingZeros mask < 32 := by
  obtain ⟨one, zeros⟩ := trailingZeros_spec some_
  have inside := BitVec.lt_of_getLsbD one
  exact ⟨netmaskLoop_ok one zeros (by omega), inside⟩

theorem trailingZeros_prefix {mask : BitVec 32} {len : Nat} (bound : len ≤ 32) (some_ : mask ≠ 0#32)
    (form : mask.toNat = 2 ^ 32 - 2 ^ (32 - len)) : trailingZeros mask = 32 - len := by
  have positive : 0 < len := by
    by_contra empty
    refine some_ (BitVec.eq_of_toNat_eq ?_)
    rw [form, Nat.le_zero.mp (Nat.le_of_not_lt empty)]
    rfl
  have product : mask.toNat = 2 ^ (32 - len) * (2 ^ len - 1) := by
    rw [form, Nat.mul_sub, ← Nat.pow_add, Nat.sub_add_cancel bound, Nat.mul_one]
  have bit : ∀ j, mask.getLsbD j = (decide (32 - len ≤ j) && decide (j - (32 - len) < len)) := by
    intro j
    rw [← BitVec.testBit_toNat, product, Nat.testBit_two_pow_mul, Nat.testBit_two_pow_sub_one]
  refine trailingZeros_eq ?_ ?_
  · simp [bit, positive]
  · intro j below
    simp [bit, Nat.not_le.mpr below]

/-! ## The name -/

/-- The prefix length is read back from the name. -/
theorem cidrMask_cidrName (a : List Char) (len : Nat) : cidrMask (cidrName a len) = 2 ^ 32 - 2 ^ (32 - len) := by
  have digits : (toString (len : Int)).toList = Nat.toDigits 10 len := Nat.toList_repr
  have plain : ∀ c ∈ Nat.toDigits 10 len, (decide (c ≠ '/')) = true := by
    intro c member
    have digit := Nat.isDigit_of_mem_toDigits (by decide) (by decide) member
    rw [decide_eq_true_eq]
    rintro rfl
    exact absurd digit (by decide)
  have behind : ((cidrName a len).reverse.takeWhile (· ≠ '/')).reverse = Nat.toDigits 10 len := by
    rw [cidrName, digits, List.reverse_append, List.reverse_cons, List.append_assoc, List.singleton_append,
      takeWhile_stop _ _ (by decide),
      List.takeWhile_eq_self_iff.mpr (fun c member => plain c (List.mem_reverse.mp member)), List.reverse_reverse]
  rw [cidrMask, behind, Nat.ofDigitChars_ten_toDigits]

/-- What the clause should record for an accepted mask. -/
structure Recorded (mask : BitVec 32) (before after : SharedNetwork) : Prop where
  range : 0 ≤ after.netmask ∧ after.netmask ≤ 32
  zeros : after.netmask = 32 - trailingZeros mask
  name : IsPrefixMask mask → after.name = cidrName before.name after.netmask ∧ cidrMask after.name = mask.toNat

section
variable {env : Env} {incl : List Char → Nat → Globals → Except Stop Globals} {s : St} {addr : Ipaddr}

/-- The clause with a mask that has a one: the network gets its prefix length and its name. -/
theorem argumentWord_netmask (clause : s.lex.argument = .ITS_A_NETMASK)
    (asked : (s.core.g.sharedNetworks s.core.sharedP).netmask ≠ 0)
    (accepted : parseIpaddr env.inet s.core.g.ipVersion (cstr s.lex.word) s.addr = (.IPv4, true, addr))
    (some_ : addr.v4 ≠ 0#32) :
    ∃ s', argumentWord env incl s = .ok s' ∧ s'.core.g.sharedNetworks s.core.sharedP =
      { s.core.g.sharedNetworks s.core.sharedP with
        name := (cidrName (s.core.g.sharedNetworks s.core.sharedP).name (32 - trailingZeros addr.v4)).take (MAXLEN - 2)
        netmask := 32 - trailingZeros addr.v4 } := by
  simp only [argumentWord, clause, if_pos asked, accepted, if_true, recordNetmask, (netmaskLoop_some some_).1]
  exact ⟨_, rfl, Function.update_self ..⟩

/-- The empty mask is never recorded. -/
theorem argumentWord_netmask_zero (clause : s.lex.argument = .ITS_A_NETMASK)
    (asked : (s.core.g.sharedNetworks s.core.sharedP).netmask ≠ 0)
    (accepted : parseIpaddr env.inet s.core.g.ipVersion (cstr s.lex.word) s.addr = (.IPv4, true, addr))
    (empty : addr.v4 = 0#32) : argumentWord env incl s = .error .endlessLoop := by
  simp only [argumentWord, clause, if_pos asked, accepted, if_true, recordNetmask, empty, netmaskLoop_zero]
  rfl

/-- The netmask clause ends and records the prefix length, under a name from which a mask of leading ones
    can be read back, exactly when the mask is not empty and such a name fits into the buffer. -/
theorem netmask_iff (clause : s.lex.argument = .ITS_A_NETMASK)
    (asked : (s.core.g.sharedNetworks s.core.sharedP).netmask ≠ 0)
    (accepted : parseIpaddr env.inet s.core.g.ipVersion (cstr s.lex.word) s.addr = (.IPv4, true, addr)) :
    (∃ s', argumentWord env incl s = .ok s' ∧
        Recorded addr.v4 (s.core.g.sharedNetworks s.core.sharedP) (s'.core.g.sharedNetworks s.core.sharedP)) ↔
      addr.v4 ≠ 0#32 ∧ (IsPrefixMask addr.v4 →
        (cidrName (s.core.g.sharedNetworks s.core.sharedP).name (32 - trailingZeros addr.v4)).length ≤ MAXLEN - 2) := by
  by_cases empty : addr.v4 = 0#32
  · rw [argumentWord_netmask_zero clause asked accepted empty]
    simp [empty]
  · obtain ⟨s', made, network⟩ := @argumentWord_netmask env incl s addr clause asked accepted empty
    have bound := (netmaskLoop_some empty).2
    rw [made]
    constructor
    · rintro ⟨_, same, recorded⟩
      obtain rfl := Except.ok.inj same
      refine ⟨empty, fun ones => ?_⟩
      have name := (recorded.name ones).1
      rw [network] at name
      rw [← List.take_eq_self_iff]
      exact name
    · rintro ⟨-, fits⟩
      refine ⟨s', rfl, ⟨?_, ?_⟩, ?_, ?_⟩
      · rw [network]
        show (0 : Int) ≤ 32 - trailingZeros addr.v4
        omega
      · rw [network]
        show (32 - trailingZeros addr.v4 : Int) ≤ 32
        omega
      · rw [network]
      · intro ones
        obtain ⟨len, most, form⟩ := id ones
        have zeros := trailingZeros_prefix most empty form
        have left : (32 - trailingZeros addr.v4 : Int) = len := by omega
        rw [network, List.take_of_length_le (fits ones), left]
        exact ⟨rfl, (cidrMask_cidrName _ len).trans form.symm⟩

end

/-- A parser that knows two masks. -/
def maskInet : Inet where
  inetAton s :=
    if s = "255.255.255.0".toList then (true, 0xffffff00#32)
    else if s = "0.0.0.0".toList then (true, 0#32)
    else (false, 0#32)
  inetPton := sampleInet.inetPton
  inetAton_empty := rfl
  inetPton_empty := sampleInet.inetPton_empty
  families _ parses := by cases parses

/-- A configuration with `--all-as-shared`. -/
def maskEnv (text : String) : Env := ⟨maskInet, fun _ => some text.toList, true, '\x00', ⟨Vector.replicate 16 0⟩⟩

/-- The state at the end of the word `255.255.255.0` behind the netmask of a subnet. -/
def maskState : St :=
  { core := ⟨{ emptyGlobals .IPv4 with sharedNetworks := fun _ => ⟨"10.0.0.0".toList, 0, 0, 0, 0, -1⟩ }, 1, 0, 0⟩
    lex := ⟨false, false, false, false, .ITS_A_NETMASK, "255.255.255.0".toList⟩
    addr := ⟨Vector.replicate 16 0⟩
    rangeP := none
    pos := 0 }

theorem netmask_iff_sample :
    (maskState.lex.argument = .ITS_A_NETMASK ∧ (maskState.core.g.sharedNetworks maskState.core.sharedP).netmask ≠ 0 ∧
      parseIpaddr maskInet .IPv4 (cstr maskState.lex.word) maskState.addr = (.IPv4, true, .ofV4 0xffffff00#32)) ∧
    ∃ s', argumentWord (maskEnv "") (fun _ _ g => .ok g) maskState = .ok s' ∧
      Recorded (Ipaddr.ofV4 0xffffff00#32).v4 (maskState.core.g.sharedNetworks maskState.core.sharedP)
        (s'.core.g.sharedNetworks maskState.core.sharedP) :=
  ⟨⟨rfl, by decide, rfl⟩, (netmask_iff rfl (by decide) rfl).mpr ⟨by decide, fun _ => by decide⟩⟩

/-- The mask of `subnet 0.0.0.0 netmask 0.0.0.0` is accepted, and the program does not come back. -/
theorem empty_netmask_endless :
    parseConfig (maskEnv "subnet 0.0.0.0 netmask 0.0.0.0 \x7b\n\x7d\n") 1 "dhcpd.conf".toList 0 (emptyGlobals .IPvUNKNOWN) =
        .error .endlessLoop ∧
      ∀ fuel, netmaskLoop fuel 0#32 32 = .error .endlessLoop :=
  ⟨rfl, fun fuel => netmaskLoop_zero fuel 32⟩

end DhcpdPools.ConfigNetmask
