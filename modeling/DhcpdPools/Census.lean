import DhcpdPools.KeyedTable

/-!
Counting the keys of an interval by the values that a map gives them. A census splits
where its interval is split (`census_split`), follows a change of the map at one key
(`census_update`) and counts the entries of a table with distinct keys (`census_table`).
Over a family of intervals the censuses count each entry as often as it is covered
(`sum_countP`).
-/
namespace DhcpdPools.Census
open KeyedTable
universe u

variable {β γ : Type u}

/-- How many keys from `a` to `b` have a value that satisfies `p`. -/
def census (m : ℕ → Option β) (p : β → Bool) (a b : ℕ) : ℕ := ((Finset.Icc a b).filter fun k => (m k).any p).card

variable {m : ℕ → Option β} {p : β → Bool} {m' : ℕ → Option γ} {p' : γ → Bool} {a b c : ℕ}

/-- Only the keys of the interval matter. -/
theorem census_congr (same : ∀ k, a ≤ k → k ≤ b → (m k).any p = (m' k).any p') : census m p a b = census m' p' a b := by
  refine congrArg Finset.card (Finset.filter_congr ?_)
  intro k inside
  obtain ⟨low, high⟩ := Finset.mem_Icc.mp inside
  rw [same k low high]

/-- More keys that count, a larger census. -/
theorem census_mono (more : ∀ k, a ≤ k → k ≤ b → (m k).any p = true → (m' k).any p' = true) :
    census m p a b ≤ census m' p' a b := by
  refine Finset.card_le_card ?_
  intro k counted
  obtain ⟨inside, holds⟩ := Finset.mem_filter.mp counted
  obtain ⟨low, high⟩ := Finset.mem_Icc.mp inside
  exact Finset.mem_filter.mpr ⟨inside, more k low high holds⟩

/-- Two parts of an interval. -/
theorem census_split (low : a ≤ c + 1) (high : c ≤ b) : census m p a b = census m p a c + census m p (c + 1) b := by
  have parts : Finset.Icc a b = Finset.Icc a c ∪ Finset.Icc (c + 1) b := by
    ext k
    simp only [Finset.mem_union, Finset.mem_Icc]
    omega
  have apart : Disjoint (Finset.Icc a c) (Finset.Icc (c + 1) b) := by
    refine Finset.disjoint_left.mpr ?_
    intro k first second
    have upper := (Finset.mem_Icc.mp first).2
    have lower := (Finset.mem_Icc.mp second).1
    omega
  rw [census, parts, Finset.filter_union, Finset.card_union_of_disjoint (Finset.disjoint_filter_filter apart)]
  rfl

/-- One when a key counts. -/
def weigh (p : β → Bool) (v : Option β) : ℕ := if v.any p then 1 else 0

/-- A change of the map at one key. -/
theorem census_update (k : ℕ) (v : Option β) :
    census (Function.update m k v) p a b + (if a ≤ k ∧ k ≤ b then weigh p (m k) else 0) =
      census m p a b + if a ≤ k ∧ k ≤ b then weigh p v else 0 := by
  by_cases inside : a ≤ k ∧ k ≤ b
  · -- Both censuses count the other keys alike.
    have each : ∀ m : ℕ → Option β, census m p a b =
        weigh p (m k) + (((Finset.Icc a b).erase k).filter fun j => (m j).any p).card := by
      intro m
      have split := Finset.insert_erase (Finset.mem_Icc.mpr inside)
      conv_lhs => rw [census, ← split]
      rw [Finset.filter_insert, weigh]
      split_ifs with counts
      · rw [Finset.card_insert_of_notMem (by simp), Nat.add_comm]
      · rw [Nat.zero_add]
    have others : (((Finset.Icc a b).erase k).filter fun j => (Function.update m k v j).any p) =
        ((Finset.Icc a b).erase k).filter fun j => (m j).any p := by
      refine Finset.filter_congr ?_
      intro j member
      rw [Function.update_of_ne (Finset.ne_of_mem_erase member)]
    rw [each, each m, others, if_pos inside, if_pos inside, Function.update_self]
    omega
  · rw [if_neg inside, if_neg inside, Nat.add_zero, Nat.add_zero]
    refine census_congr ?_
    intro j low high
    have other : j ≠ k := fun same => inside ⟨same ▸ low, same ▸ high⟩
    rw [Function.update_of_ne other]

/-! ## Tables -/

section
variable {α : Type u} {key : α → ℕ} {l : List α}

/-- The entries of a table with distinct keys are counted by their keys. -/
theorem census_table (distinct : Distinct key l) (p : α → Bool) (a b : ℕ) :
    (l.filter fun x => decide (a ≤ key x ∧ key x ≤ b)).countP p = census (fun k => get key k l) p a b := by
  have nodup : (((l.filter fun x => decide (a ≤ key x ∧ key x ≤ b)).filter p).map key).Nodup :=
    List.Nodup.sublist ((List.filter_sublist.trans List.filter_sublist).map key) distinct
  rw [List.countP_eq_length_filter, ← List.length_map (f := key), ← List.toFinset_card_of_nodup nodup]
  refine congrArg Finset.card (Finset.ext ?_)
  intro k
  rw [List.mem_toFinset, Finset.mem_filter, Finset.mem_Icc, Option.any_eq_true]
  constructor
  · intro counted
    obtain ⟨x, member, rfl⟩ := List.mem_map.mp counted
    obtain ⟨within, holds⟩ := List.mem_filter.mp member
    obtain ⟨inside, interval⟩ := List.mem_filter.mp within
    exact ⟨of_decide_eq_true interval, x, get_of_mem distinct inside, holds⟩
  · rintro ⟨interval, x, found, holds⟩
    obtain ⟨inside, rfl⟩ := get_mem found
    exact List.mem_map_of_mem (List.mem_filter.mpr ⟨List.mem_filter.mpr ⟨inside, decide_eq_true interval⟩, holds⟩)

/-- A count is a sum of ones. -/
theorem sum_ones {ι : Type u} (q : ι → Bool) (family : List ι) :
    (family.map fun i => if q i then 1 else 0).sum = family.countP q := by
  induction family with
  | nil => rfl
  | cons i rest ih =>
    rw [List.map_cons, List.sum_cons, ih, List.countP_cons, Nat.add_comm]

/-- Counting over a family of intervals, interval by interval or entry by entry. -/
theorem sum_countP {ι : Type u} (inside : ι → α → Bool) (p : α → Bool) (family : List ι) (l : List α) :
    (family.map fun i => (l.filter (inside i)).countP p).sum =
      ((l.filter p).map fun x => family.countP fun i => inside i x).sum := by
  induction l with
  | nil => simp
  | cons x rest ih =>
    have first : ∀ i, ((x :: rest).filter (inside i)).countP p =
        (if inside i x && p x then 1 else 0) + (rest.filter (inside i)).countP p := by
      intro i
      cases within : inside i x <;> cases holds : p x <;> simp [within, holds, Nat.add_comm]
    simp only [first]
    rw [List.sum_map_add, ih, sum_ones]
    cases holds : p x <;> simp [holds]

end

end DhcpdPools.Census
