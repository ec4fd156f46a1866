import DhcpdPools.LeaseFile

/-!
# The keywords of the lease file

The line classifiers of other.c look at one character, at the length and at a
character in the middle of the line before they compare it with a keyword. Here
they are set against plain prefix matching with their own tables.
-/
namespace DhcpdPools.LeaseFile

/-- The texts that the classifier of a version compares a line with, to the length that it
    compares, and their codes. -/
def keywords : DhcpVersion → List (String × PrefixT)
  | .IPvUNKNOWN => []
  | .IPv4 =>
    [("  binding state free;", .PREFIX_BINDING_STATE_FREE), ("  binding state active;", .PREFIX_BINDING_STATE_ACTIVE),
     ("  binding state abandoned", .PREFIX_BINDING_STATE_ABANDONED),
     ("  binding state expired;", .PREFIX_BINDING_STATE_EXPIRED),
     ("  binding state released;", .PREFIX_BINDING_STATE_RELEASED),
     ("  binding state backup;", .PREFIX_BINDING_STATE_BACKUP), ("  hardware ethernet", .PREFIX_HARDWARE_ETHERNET),
     ("lease ", .PREFIX_LEASE)]
  | .IPv6 =>
    [("    binding state free;", .PREFIX_BINDING_STATE_FREE),
     ("    binding state active;", .PREFIX_BINDING_STATE_ACTIVE),
     ("    binding state abandoned", .PREFIX_BINDING_STATE_ABANDONED),
     ("    binding state expired;", .PREFIX_BINDING_STATE_EXPIRED),
     ("    binding state released;", .PREFIX_BINDING_STATE_RELEASED),
     ("    binding state backup;", .PREFIX_BINDING_STATE_BACKUP), ("  hardware ethernet", .PREFIX_HARDWARE_ETHERNET),
     ("  iaaddr ", .PREFIX_LEASE)]

/-- Plain prefix matching: the code of the keyword that the line begins with, or `NUM_OF_PREFIX`. -/
def PlainMatch (v : DhcpVersion) (line : List Char) (code : PrefixT) : Prop :=
  (∀ k ∈ keywords v, k.1.toList <+: line → code = k.2) ∧
    ((∀ k ∈ keywords v, ¬k.1.toList <+: line) → code = .NUM_OF_PREFIX)

/-- A comparison finds its keyword in front of the string, whatever stands after the NUL. -/
theorem probe_iff {margin n : Nat} {s : String} {word : List Char}
    (cut : (List.replicate margin ' ' ++ s.toList).take (margin + n) = word) (long : n ≤ s.toList.length)
    (text : '\x00' ∉ s.toList) (str : List Char) : probe margin n s str = true ↔ word <+: cstr str := by
  have size : word.length = margin + n := by
    rw [← cut, List.length_take, List.length_append, List.length_replicate]
    omega
  rw [probe_cstr long text, probe, sameBytes, cut, beq_iff_eq, ← size]
  constructor
  · intro same
    rw [same]
    exact List.take_prefix _ _
  · rintro ⟨rest, split⟩
    rw [← split, List.take_left]

/-- The characters of a keyword that was found. -/
theorem probe_charAt {margin n : Nat} {s : String} {str : List Char} (found : probe margin n s str = true) {i : Nat}
    (inside : i < n) : charAt str (margin + i) = charAt s.toList i := by
  have same : (List.replicate margin ' ' ++ s.toList).take (margin + n) = str.take (margin + n) := by
    simpa [probe, sameBytes] using found
  have here := congrArg (fun l => l[margin + i]?) same
  simp only [List.getElem?_take, Nat.add_lt_add_left inside margin, if_true] at here
  rw [charAt, ← here, List.getElem?_append_right (by simp), List.length_replicate, Nat.add_sub_cancel_left, charAt]

/-- A line with a keyword is at least as long. -/
theorem probe_strlen {margin n : Nat} {s : String} {str : List Char} (found : probe margin n s str = true)
    (long : n ≤ s.toList.length) (text : '\x00' ∉ s.toList) : margin + n ≤ strlen str := by
  rw [probe_cstr long text] at found
  exact probe_length long found

/-! ## The arms -/

/-- The binding states: the length compared behind the margin, the text and the code. -/
def stateArms : List (Nat × String × PrefixT) :=
  [(19, "binding state free;", .PREFIX_BINDING_STATE_FREE), (21, "binding state active;", .PREFIX_BINDING_STATE_ACTIVE),
   (23, "binding state abandoned;", .PREFIX_BINDING_STATE_ABANDONED),
   (22, "binding state expired;", .PREFIX_BINDING_STATE_EXPIRED),
   (23, "binding state released;", .PREFIX_BINDING_STATE_RELEASED),
   (21, "binding state backup;", .PREFIX_BINDING_STATE_BACKUP)]

/-- All filters let a binding state through. -/
theorem xstrstrState_filters {margin n : Nat} {s : String} {str : List Char} (found : probe margin n s str = true)
    (long : 14 < n ∧ n ≤ s.toList.length) (text : '\x00' ∉ s.toList) (first : charAt s.toList 0 = 'b') :
    charAt str margin = 'b' ∧ 13 + margin < strlen str ∧ charAt str (14 + margin) = charAt s.toList 14 := by
  refine ⟨?_, ?_, ?_⟩
  · rw [← first, ← probe_charAt found (i := 0) (by omega), Nat.add_zero]
  · have := probe_strlen found long.2 text
    omega
  · rw [Nat.add_comm 14 margin]
    exact probe_charAt found long.1

theorem xstrstrState_arm {margin : Nat} {str : List Char} {arm : Nat × String × PrefixT} (listed : arm ∈ stateArms)
    (found : probe margin arm.1 arm.2.1 str = true) : xstrstrState margin str = some arm.2.2 := by
  simp only [stateArms, List.mem_cons, List.not_mem_nil, or_false] at listed
  rcases listed with rfl | rfl | rfl | rfl | rfl | rfl
  all_goals
    obtain ⟨first, long, probed⟩ := xstrstrState_filters found (by decide) (by decide) (by decide)
    simp only [xstrstrState, first, true_or, if_true, long, probed]
  · simp [charAt, found]
  · simp [charAt, found]
  · -- The two states of this arm differ in the character after the one looked at.
    have other : probe margin 21 "binding state active;" str = false := by
      by_contra both
      have here := probe_charAt found (i := 15) (by decide)
      have there := probe_charAt (Bool.not_eq_false _ ▸ both) (i := 15) (by decide)
      rw [here] at there
      exact absurd there (by decide)
    simp [charAt, found, other]
  · simp [charAt, found]
  · simp [charAt, found]
  · simp [charAt, found]

/-- Without a binding state only the hardware arm is left. -/
theorem xstrstrState_else {margin : Nat} {str : List Char}
    (missing : ∀ arm ∈ stateArms, probe margin arm.1 arm.2.1 str = false)
    (hardware : charAt str (14 + margin) = 'n' → probe 2 17 "hardware ethernet" str = false) :
    xstrstrState margin str = none := by
  simp only [stateArms, List.forall_mem_cons, List.not_mem_nil, false_implies, implies_true, and_true] at missing
  obtain ⟨free, active, abandoned, expired, released, backup⟩ := missing
  simp only [xstrstrState, free, active, abandoned, expired, released, backup, Bool.false_eq_true, if_false]
  generalize charAt str (14 + margin) = probed at hardware ⊢
  by_cases named : probed = 'n'
  · rw [named, hardware named]
    simp
  · rw [ite_eq_right_iff]
    intro _
    split
    all_goals first | rfl | exact absurd rfl named

/-- At the character that the IPv4 classifier looks at, the hardware keyword has its `n`. -/
theorem xstrstrState_hardware {str : List Char} (found : probe 2 17 "hardware ethernet" str = true) :
    xstrstrState 2 str = some .PREFIX_HARDWARE_ETHERNET := by
  have third : charAt str 2 = 'h' := probe_charAt found (i := 0) (by decide)
  have long := probe_strlen found (by decide) (by decide)
  have probed : charAt str (14 + 2) = 'n' := probe_charAt found (i := 14) (by decide)
  simp only [xstrstrState, third, or_true, if_true, probed, found]
  rw [if_pos (by omega)]

/-- The IPv6 classifier looks two characters further, at the `t`. -/
theorem xstrstrState_hardware_missed {str : List Char} (found : probe 2 17 "hardware ethernet" str = true) :
    xstrstrState 4 str = none := by
  have third : charAt str 2 = 'h' := probe_charAt found (i := 0) (by decide)
  have probed : charAt str (14 + 4) = 't' := probe_charAt found (i := 16) (by decide)
  simp [xstrstrState, third, probed]

/-- Two texts that differ in a character are not both found. -/
theorem probe_differ {margin margin' n n' : Nat} {s s' : String} {str : List Char}
    (found : probe margin n s str = true) (found' : probe margin' n' s' str = true) (i : Nat)
    (inside : margin ≤ i ∧ i < margin + n ∧ margin' ≤ i ∧ i < margin' + n') :
    charAt s.toList (i - margin) = charAt s'.toList (i - margin') := by
  rw [← probe_charAt found (by omega), ← probe_charAt found' (by omega)]
  congr 1
  omega

/-! ## The classifiers -/

/-- The leading spaces of a binding state line. -/
def stateMargin (v : DhcpVersion) : Nat := if v = .IPv4 then 2 else 4

/-- What an arm compares a line with. -/
def stateWord (margin : Nat) (arm : Nat × String × PrefixT) : List Char :=
  (List.replicate margin ' ' ++ arm.2.1.toList).take (margin + arm.1)

theorem stateArm_iff {arm : Nat × String × PrefixT} (listed : arm ∈ stateArms) (margin : Nat) (str : List Char) :
    probe margin arm.1 arm.2.1 str = true ↔ stateWord margin arm <+: cstr str := by
  have sound : ∀ arm ∈ stateArms, arm.1 ≤ arm.2.1.toList.length ∧ '\x00' ∉ arm.2.1.toList := by decide
  exact probe_iff rfl (sound arm listed).1 (sound arm listed).2 str

theorem hardware_iff (str : List Char) :
    probe 2 17 "hardware ethernet" str = true ↔ "  hardware ethernet".toList <+: cstr str :=
  probe_iff (by decide) (by decide) (by decide) str

/-- The keywords of a version are the binding states behind its margin, the hardware keyword and the header. -/
theorem keywords_cases {v : DhcpVersion} (known : v ≠ .IPvUNKNOWN) {k : String × PrefixT} (listed : k ∈ keywords v) :
    (∃ arm ∈ stateArms, stateWord (stateMargin v) arm = k.1.toList ∧ arm.2.2 = k.2) ∨
      k = ("  hardware ethernet", .PREFIX_HARDWARE_ETHERNET) ∨
      k = (if v = .IPv4 then "lease " else "  iaaddr ", .PREFIX_LEASE) := by
  revert k
  cases v with
  | IPvUNKNOWN => exact absurd rfl known
  | IPv4 => decide
  | IPv6 => decide

theorem stateArm_keyword {v : DhcpVersion} (known : v ≠ .IPvUNKNOWN) {arm : Nat × String × PrefixT}
    (listed : arm ∈ stateArms) : ∃ k ∈ keywords v, k.1.toList = stateWord (stateMargin v) arm := by
  revert arm
  cases v with
  | IPvUNKNOWN => exact absurd rfl known
  | IPv4 => decide
  | IPv6 => decide

/-- A line without a keyword has no code. -/
theorem xstrstr_none {v : DhcpVersion} (known : v ≠ .IPvUNKNOWN) {str : List Char}
    (missing : ∀ k ∈ keywords v, ¬k.1.toList <+: cstr str) : (xstrstr v str).2 = .NUM_OF_PREFIX := by
  have states : ∀ arm ∈ stateArms, probe (stateMargin v) arm.1 arm.2.1 str = false := by
    intro arm listed
    obtain ⟨k, member, word⟩ := stateArm_keyword known listed
    rw [← Bool.not_eq_true, stateArm_iff listed, ← word]
    exact missing k member
  have hardware : probe 2 17 "hardware ethernet" str = false := by
    rw [← Bool.not_eq_true, hardware_iff]
    refine missing ("  hardware ethernet", .PREFIX_HARDWARE_ETHERNET) ?_
    cases v with
    | IPvUNKNOWN => exact absurd rfl known
    | IPv4 => decide
    | IPv6 => decide
  have state := xstrstrState_else states (fun _ => hardware)
  cases v with
  | IPvUNKNOWN => exact absurd rfl known
  | IPv4 =>
    have header : ¬probe 0 6 "lease " str = true := fun found =>
      missing ("lease ", .PREFIX_LEASE) (by decide) ((probe_iff (by decide) (by decide) (by decide) str).mp found)
    rw [xstrstr, xstrstrV4, show xstrstrState 2 str = none from state, Option.getD_none, if_neg header]
  | IPv6 =>
    have header : ¬probe 2 7 "iaaddr " str = true := fun found =>
      missing ("  iaaddr ", .PREFIX_LEASE) (by decide) ((probe_iff (by decide) (by decide) (by decide) str).mp found)
    rw [xstrstr, xstrstrV6, show xstrstrState 4 str = none from state, Option.getD_none, if_neg header]

/-- A header line is not taken for a state line. -/
theorem xstrstr_header {v : DhcpVersion} (known : v ≠ .IPvUNKNOWN) {str : List Char}
    (front : (if v = .IPv4 then "lease " else "  iaaddr ").toList <+: cstr str) :
    (xstrstr v str).2 = .PREFIX_LEASE := by
  cases v with
  | IPvUNKNOWN => exact absurd rfl known
  | IPv4 =>
    have found : probe 0 6 "lease " str = true := (probe_iff (by decide) (by decide) (by decide) str).mpr front
    have third : charAt str 2 = 'a' := probe_charAt found (i := 2) (by decide)
    simp [xstrstr, xstrstrV4, xstrstrState, third, found]
  | IPv6 =>
    have found : probe 2 7 "iaaddr " str = true := (probe_iff (by decide) (by decide) (by decide) str).mpr front
    have third : charAt str 2 = 'i' := probe_charAt found (i := 0) (by decide)
    have fifth : charAt str 4 = 'a' := probe_charAt found (i := 2) (by decide)
    simp [xstrstr, xstrstrV6, xstrstrState, third, fifth, found]

theorem xstrstr_state {v : DhcpVersion} (known : v ≠ .IPvUNKNOWN) {str : List Char} {arm : Nat × String × PrefixT}
    (listed : arm ∈ stateArms) (front : stateWord (stateMargin v) arm <+: cstr str) :
    (xstrstr v str).2 = arm.2.2 := by
  have state := xstrstrState_arm listed ((stateArm_iff listed _ str).mpr front)
  cases v with
  | IPvUNKNOWN => exact absurd rfl known
  | IPv4 => rw [xstrstr, xstrstrV4, show xstrstrState 2 str = _ from state, Option.getD_some]
  | IPv6 => rw [xstrstr, xstrstrV6, show xstrstrState 4 str = _ from state, Option.getD_some]

/-- A line with a keyword has its code, but for a hardware line read as IPv6. -/
theorem xstrstr_keyword {v : DhcpVersion} (known : v ≠ .IPvUNKNOWN) {str : List Char} {k : String × PrefixT}
    (listed : k ∈ keywords v) (front : k.1.toList <+: cstr str)
    (recognised : ¬(v = .IPv6 ∧ "  hardware ethernet".toList <+: cstr str)) : (xstrstr v str).2 = k.2 := by
  rcases keywords_cases known listed with ⟨arm, member, word, code⟩ | rfl | rfl
  · rw [← code]
    exact xstrstr_state known member (word ▸ front)
  · cases v with
    | IPvUNKNOWN => exact absurd rfl known
    | IPv4 => rw [xstrstr, xstrstrV4, xstrstrState_hardware ((hardware_iff str).mpr front), Option.getD_some]
    | IPv6 => exact absurd ⟨rfl, front⟩ recognised
  · exact xstrstr_header known front

/-- In IPv6 the hardware keyword is not recognised. -/
theorem xstrstr_hardware_missed {str : List Char} (front : "  hardware ethernet".toList <+: cstr str) :
    (xstrstr .IPv6 str).2 = .NUM_OF_PREFIX := by
  have found := (hardware_iff str).mpr front
  have header : ¬probe 2 7 "iaaddr " str = true := by
    intro both
    have differ := probe_differ found both 2 (by decide)
    exact absurd differ (by decide)
  rw [xstrstr, xstrstrV6, xstrstrState_hardware_missed found, Option.getD_none, if_neg header]

/-- A hardware line has its keyword, and only the IPv4 classifier finds it. -/
theorem hardware_front {v : DhcpVersion} (known : v ≠ .IPvUNKNOWN) {str : List Char}
    (kind : (xstrstr v str).2 = .PREFIX_HARDWARE_ETHERNET) : "  hardware ethernet".toList <+: cstr str := by
  by_contra absent
  by_cases missing : ∀ k ∈ keywords v, ¬k.1.toList <+: cstr str
  · rw [xstrstr_none known missing] at kind
    cases kind
  · simp only [not_forall, not_not] at missing
    obtain ⟨k, listed, front⟩ := missing
    have code := xstrstr_keyword known listed front (fun both => absent both.2)
    rw [kind] at code
    have word : ∀ k ∈ keywords v, .PREFIX_HARDWARE_ETHERNET = k.2 → k.1 = "  hardware ethernet" := by
      cases v with
      | IPvUNKNOWN => exact absurd rfl known
      | IPv4 => decide
      | IPv6 => decide
    exact absent (word k listed code ▸ front)

/-- The file ends behind the keyword of a hardware line. -/
def EndsBare (file : List Char) : Prop := (pieces 1023 1023 file).getLast? = some "  hardware ethernet".toList

instance (file : List Char) : Decidable (EndsBare file) := decEq (α := Option (List Char)) _ _

theorem bare_piece {v : DhcpVersion} (known : v ≠ .IPvUNKNOWN) {piece : List Char} (found : macOf v piece ≠ none)
    (short : ¬20 ≤ piece.length) : piece = "  hardware ethernet".toList := by
  have kind : (xstrstr v piece).2 = .PREFIX_HARDWARE_ETHERNET := by
    by_contra other
    exact found (if_neg other)
  have front : "  hardware ethernet".toList <+: piece := (hardware_front known kind).trans (List.takeWhile_prefix _)
  exact (front.eq_of_length_le (by simpa using Nat.le_of_lt_succ (Nat.lt_of_not_le short))).symm

/-- Every hardware line reaches the place of its text, but for the last piece of the file. -/
theorem pieces_front {v : DhcpVersion} (known : v ≠ .IPvUNKNOWN) {file : List Char} {front : List (List Char)}
    {last : List Char} (split : pieces 1023 1023 file = front ++ [last]) :
    ∀ piece ∈ front, macOf v piece ≠ none → 20 ≤ piece.length := by
  intro piece member found
  by_contra short
  -- A piece in front of another one ends its line or fills the buffer.
  obtain rfl := bare_piece known found short
  have full := @pieces_full 1023 (by decide) file
  rw [split] at full
  rcases (List.pairwise_append.mp full).2.2 _ member last List.mem_cons_self with ⟨text, ends⟩ | long
  · have newline := congrArg List.getLast? ends
    simp at newline
  · exact absurd long (by decide)

theorem pieces_hardware {v : DhcpVersion} (known : v ≠ .IPvUNKNOWN) {file : List Char} (whole : ¬EndsBare file) :
    ∀ piece ∈ pieces 1023 1023 file, macOf v piece ≠ none → 20 ≤ piece.length := by
  intro piece member found
  rcases List.eq_nil_or_concat (pieces 1023 1023 file) with none | ⟨front, last, split⟩
  · rw [none] at member
    cases member
  · rw [List.concat_eq_append] at split
    rw [split] at member
    rcases List.mem_append.mp member with before | here
    · exact pieces_front known split piece before found
    · by_contra short
      rw [List.mem_singleton.mp here] at found short
      exact whole (by rw [EndsBare, split, bare_piece known found short]; simp)

/-- The classifier of a version is prefix matching with its keywords, and never looks behind the
    terminator, except that the IPv6 classifier does not know its own hardware keyword. -/
theorem classifier_plain_iff {v : DhcpVersion} (known : v ≠ .IPvUNKNOWN) {line : List Char} (text : '\x00' ∉ line) :
    (∀ junk, PlainMatch v line (xstrstr v (line ++ '\x00' :: junk)).2) ∧
        (∀ junk junk', (xstrstr v (line ++ '\x00' :: junk)).2 = (xstrstr v (line ++ '\x00' :: junk')).2) ↔
      ¬(v = .IPv6 ∧ "  hardware ethernet".toList <+: line) := by
  have inside : ∀ junk, cstr (line ++ '\x00' :: junk) = line := fun junk => by
    rw [cstr, takeWhile_stop _ _ (by simp)]
    exact cstr_self text
  constructor
  · rintro ⟨plain, -⟩ ⟨rfl, front⟩
    have missed := xstrstr_hardware_missed ((inside []).symm ▸ front)
    have code := (plain []).1 ("  hardware ethernet", .PREFIX_HARDWARE_ETHERNET) (by decide) front
    rw [missed] at code
    cases code
  · intro recognised
    refine ⟨fun junk => ⟨fun k listed front => ?_, fun missing => ?_⟩, fun junk junk' => ?_⟩
    · exact xstrstr_keyword known listed (by rwa [inside]) (by rwa [inside])
    · exact xstrstr_none known (by rwa [inside])
    · rw [xstrstr_cstr known, inside, xstrstr_cstr known (line ++ '\x00' :: junk'), inside]

theorem classifier_plain_iff_sample :
    (DhcpVersion.IPv4 ≠ .IPvUNKNOWN ∧ '\x00' ∉ "  binding state active;\n".toList) ∧
      (∀ junk, PlainMatch .IPv4 "  binding state active;\n".toList
        (xstrstr .IPv4 ("  binding state active;\n".toList ++ '\x00' :: junk)).2) :=
  ⟨⟨by decide, by decide⟩, ((classifier_plain_iff (by decide) (by decide)).mpr (by decide)).1⟩

/-- A hardware line of an IPv6 lease file is not recognised. -/
theorem ipv6_hardware_missed :
    ¬PlainMatch .IPv6 "  hardware ethernet 00:11:22:33:44:55;\n".toList
      (xstrstr .IPv6 ("  hardware ethernet 00:11:22:33:44:55;\n".toList ++ ['\x00'])).2 := by
  intro plain
  have code := plain.1 ("  hardware ethernet", .PREFIX_HARDWARE_ETHERNET) (by decide) (by decide)
  exact absurd code (by decide)

end DhcpdPools.LeaseFile
