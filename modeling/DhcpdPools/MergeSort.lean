import DhcpdPools.WeakSort

/-!
`mergesort_ranges` on a table in memory. Every access is checked against the part of the
table that the call may use; nothing fails, and the part is left as the insertion sort
of its reverse (`mergesortRanges_spec`), by the insertion branch as well as by the merge.
-/
namespace DhcpdPools.MergeSort
open WeakSort
universe u

section
variable {α : Type u}

/-! ## The code -/

/-- `*(p + i)`, which has to be among the first `size` elements. -/
def load (size : Nat) (p : List α) (i : Nat) : Option α := if i < size then p[i]? else none

/-- `*(p + i) = x`. -/
def store (size : Nat) (p : List α) (i : Nat) (x : α) : Option (List α) :=
  if i < size ∧ i < p.length then some (p.set i x) else none

variable (before : α → α → Bool) (size : Nat)

/-- The loop over `right`, which moves elements up; `n` is `right + 1`. It gives the table
    and the place for `hold`. -/
def shift (hold : α) : Nat → List α → Option (List α × Nat)
  | 0, orig => some (orig, 0)
  | right + 1, orig => do
    let x ← load size orig right
    if before x hold then some (orig, right + 1)
    else do
      let orig ← store size orig (right + 1) x
      shift hold right orig

/-- The body of the loop over `left`. -/
def insertOne (orig : List α) (left : Nat) : Option (List α) := do
  let hold ← load size orig left
  let moved ← shift before size hold left orig
  store size moved.1 moved.2 hold

/-- The branch for small tables. -/
def insertionBranch (orig : List α) : Option (List α) := (List.range size).foldlM (insertOne before size) orig

/-- The loop that merges the halves, up to the end of one of them: `left`, `right`, `i` and `temp`. -/
def mergeLoop (orig : List α) (left right i : Nat) (temp : List α) : Option (Nat × Nat × Nat × List α) :=
  if left < size / 2 ∧ right < size then do
    let x ← load size orig left
    let y ← load size orig right
    if before x y then do
      let temp ← store size temp i x
      mergeLoop orig (left + 1) right (i + 1) temp
    else do
      let temp ← store size temp i y
      mergeLoop orig left (right + 1) (i + 1) temp
  else some (left, right, i, temp)
termination_by (size / 2 - left) + (size - right)

/-- A loop that copies the rest of one half: `i` and `temp`. -/
def drain (orig : List α) (stop k i : Nat) (temp : List α) : Option (Nat × List α) :=
  if k < stop then do
    let x ← load size orig k
    let temp ← store size temp i x
    drain orig stop (k + 1) (i + 1) temp
  else some (i, temp)
termination_by stop - k

/-- `memcpy(orig, temp, size * sizeof(struct range_t))`. -/
def copyBack (orig temp : List α) : Option (List α) :=
  if size ≤ orig.length ∧ size ≤ temp.length then some (temp.take size ++ orig.drop size) else none

def MIN_MERGE_SIZE : Nat := 8

/-- `mergesort_ranges`: the tables afterwards. The table `orig + size / 2` is the rest of
    the table from there. -/
def mergesortRanges (size : Nat) (orig temp : List α) : Option (List α × List α) :=
  if size < MIN_MERGE_SIZE then do
    let orig ← insertionBranch before size orig
    some (orig, temp)
  else do
    let first ← mergesortRanges (size / 2) orig temp
    let second ← mergesortRanges (size - size / 2) (first.1.drop (size / 2)) first.2
    let orig := first.1.take (size / 2) ++ second.1
    let (left, right, i, temp) ← mergeLoop before size orig 0 (size / 2) 0 second.2
    let (i, temp) ← drain size orig (size / 2) left i temp
    let (_, temp) ← drain size orig size right i temp
    let orig ← copyBack size orig temp
    some (orig, temp)
termination_by size
decreasing_by
  all_goals
    unfold MIN_MERGE_SIZE at *
    omega

variable {before size}

theorem load_inside {p : List α} {i : Nat} (inside : i < size) (there : i < p.length) : load size p i = some p[i] := by
  rw [load, if_pos inside, List.getElem?_eq_getElem there]

theorem store_inside {p : List α} {i : Nat} (inside : i < size) (there : i < p.length) (x : α) :
    store size p i x = some (p.set i x) := if_pos ⟨inside, there⟩

/-! ## Insertion -/

/-- The elements at the end that do not come before `hold` move up by one place. -/
theorem shift_spec (hold : α) (pre : List α) : ∀ (gap : α) (s : List α), pre.length < size → ∃ gap',
    shift before size hold pre.length (pre ++ gap :: s) =
      some (pre.rdropWhile (fun y => !before y hold) ++ gap' :: (pre.rtakeWhile (fun y => !before y hold) ++ s),
        (pre.rdropWhile (fun y => !before y hold)).length) := by
  induction pre using List.reverseRecOn with
  | nil => exact fun gap s _ => ⟨gap, rfl⟩
  | append_singleton pre x ih =>
    intro gap s inside
    rw [List.length_append, List.length_singleton] at inside ⊢
    rw [List.append_assoc, List.singleton_append]
    have found : load size (pre ++ x :: gap :: s) pre.length = some x := by
      rw [load_inside (by omega) (by simp)]
      simp
    rw [shift, found, List.rdropWhile_concat, List.rtakeWhile_concat]
    by_cases first : before x hold = true
    · exact ⟨gap, by simp [first]⟩
    · have moved : store size (pre ++ x :: gap :: s) (pre.length + 1) x = some (pre ++ x :: (x :: s)) := by
        rw [store_inside inside (by simp)]
        simp
      obtain ⟨gap', shifted⟩ := ih x (x :: s) (by omega)
      refine ⟨gap', ?_⟩
      simp [first, moved, shifted]

theorem insertOne_spec {pre : List α} (inside : pre.length < size) (x : α) (rest : List α) :
    insertOne before size (pre ++ x :: rest) pre.length = some (insertBack before pre x ++ rest) := by
  obtain ⟨gap, shifted⟩ := @shift_spec _ before size x pre x rest inside
  have found : load size (pre ++ x :: rest) pre.length = some x := by
    rw [load_inside inside (by simp)]
    simp
  have shorter : (pre.rdropWhile (fun y => !before y x)).length ≤ pre.length := (List.rdropWhile_prefix _ _).length_le
  rw [insertOne, found]
  simp only [Option.bind_eq_bind, Option.bind_some, shifted]
  rw [store_inside (by omega) (by simp), insertBack]
  simp

/-- The insertion branch leaves the part in order. -/
theorem insertionBranch_spec (weak : StrictWeak before) {orig : List α} (fits : size ≤ orig.length) :
    insertionBranch before size orig = some (sortBack before (orig.take size) ++ orig.drop size) := by
  have loop : ∀ n ≤ size, (List.range n).foldlM (insertOne before size) orig =
      some (sortBack before (orig.take n) ++ orig.drop n) := by
    intro n
    induction n with
    | zero => exact fun _ => rfl
    | succ n ih =>
      intro most
      have there : n < orig.length := by omega
      have sorted : (sortBack before (orig.take n)).length = n := by
        rw [(sortBack_perm _).length_eq, List.length_take]
        omega
      have one := @insertOne_spec _ before size (sortBack before (orig.take n)) (by omega) orig[n] (orig.drop (n + 1))
      rw [sorted] at one
      rw [List.range_succ, List.foldlM_append, ih (by omega), List.drop_eq_getElem_cons there]
      simp only [Option.bind_eq_bind, Option.bind_some, List.foldlM_cons, List.foldlM_nil, one]
      rw [← sortBack_concat weak, List.take_append_getElem there]
      rfl
  exact loop size (Nat.le_refl size)

/-! ## Merging -/

/-- Writing the next element of the output. -/
theorem store_next {temp : List α} {i : Nat} (room : size ≤ temp.length) (inside : i < size) (x : α) :
    ∃ temp', store size temp i x = some temp' ∧ temp'.length = temp.length ∧ temp'.take (i + 1) = temp.take i ++ [x] := by
  refine ⟨temp.set i x, store_inside inside (by omega) x, List.length_set, ?_⟩
  rw [List.take_succ_eq_append_getElem (by rw [List.length_set]; omega), List.take_set_of_le (Nat.le_refl i)]
  simp

/-- The merged rest of both halves. -/
def mergedRest (before : α → α → Bool) (size : Nat) (orig : List α) (left right : Nat) : List α :=
  List.merge ((orig.take size).drop right) ((orig.take (size / 2)).drop left) (fun x y => decide (Upto before x y))

/-- The loop writes the merged elements, up to the end of one half. -/
theorem mergeLoop_spec {orig : List α} (fits : size ≤ orig.length) {left right : Nat} (i : Nat) {temp : List α}
    (low : left ≤ size / 2) (middle : size / 2 ≤ right) (high : right ≤ size) (place : i + size / 2 = left + right)
    (room : size ≤ temp.length) : ∃ left' right' i' temp', mergeLoop before size orig left right i temp =
      some (left', right', i', temp') ∧ left' ≤ size / 2 ∧ size / 2 ≤ right' ∧ right' ≤ size ∧
      (left' = size / 2 ∨ right' = size) ∧ i' + size / 2 = left' + right' ∧ temp'.length = temp.length ∧
      temp'.take i' ++ mergedRest before size orig left' right' = temp.take i ++ mergedRest before size orig left right := by
  fun_induction mergeLoop before size orig left right i temp with
  | case1 left right i temp more ihLeft ihRight =>
    obtain ⟨moreLeft, moreRight⟩ := more
    have inHalf : left < (orig.take (size / 2)).length := by
      rw [List.length_take]
      omega
    have inWhole : right < (orig.take size).length := by
      rw [List.length_take]
      omega
    have heads : mergedRest before size orig left right =
        if before orig[left] orig[right] = true then orig[left] :: mergedRest before size orig (left + 1) right
        else orig[right] :: mergedRest before size orig left (right + 1) := by
      rw [mergedRest, List.drop_eq_getElem_cons inHalf, List.drop_eq_getElem_cons inWhole, merge_cons, mergedRest,
        mergedRest, List.drop_eq_getElem_cons inHalf, List.drop_eq_getElem_cons inWhole]
      simp only [List.getElem_take]
    have loaded : load size orig left = some orig[left] := load_inside (by omega) (by omega)
    have loaded' : load size orig right = some orig[right] := load_inside moreRight (by omega)
    simp only [Option.bind_eq_bind, loaded, loaded', Option.bind_some]
    by_cases first : before orig[left] orig[right] = true
    · obtain ⟨temp1, stored, length, taken⟩ := store_next room (by omega : i < size) orig[left]
      rw [if_pos first, stored, heads, if_pos first]
      obtain ⟨left', right', i', temp', ran, h1, h2, h3, stop, place', length', merged⟩ :=
        ihLeft temp1 (by omega) middle high (by omega) (by omega)
      refine ⟨left', right', i', temp', ran, h1, h2, h3, stop, place', by omega, ?_⟩
      rw [merged, taken, List.append_assoc]
      rfl
    · obtain ⟨temp1, stored, length, taken⟩ := store_next room (by omega : i < size) orig[right]
      rw [if_neg first, stored, heads, if_neg first]
      obtain ⟨left', right', i', temp', ran, h1, h2, h3, stop, place', length', merged⟩ :=
        ihRight temp1 low (by omega) (by omega) (by omega) (by omega)
      refine ⟨left', right', i', temp', ran, h1, h2, h3, stop, place', by omega, ?_⟩
      rw [merged, taken, List.append_assoc]
      rfl
  | case2 left right i temp done =>
    exact ⟨left, right, i, temp, rfl, low, middle, high, by omega, place, rfl, rfl⟩

/-- A loop that writes the rest of a half. -/
theorem drain_spec {orig : List α} (fits : size ≤ orig.length) {stop k i : Nat} {temp : List α} (low : k ≤ stop)
    (high : stop ≤ size) (space : i + (stop - k) ≤ size) (room : size ≤ temp.length) : ∃ temp',
    drain size orig stop k i temp = some (i + (stop - k), temp') ∧ temp'.length = temp.length ∧
      temp'.take (i + (stop - k)) = temp.take i ++ (orig.take stop).drop k := by
  fun_induction drain size orig stop k i temp with
  | case1 k i temp more ih =>
    have inPart : k < (orig.take stop).length := by
      rw [List.length_take]
      omega
    obtain ⟨temp1, stored, length, taken⟩ := store_next room (by omega : i < size) orig[k]
    obtain ⟨temp', ran, length', drained⟩ := ih temp1 (by omega) (by omega) (by omega)
    have loaded : load size orig k = some orig[k] := load_inside (by omega) (by omega)
    have place : i + 1 + (stop - (k + 1)) = i + (stop - k) := by omega
    rw [place] at ran drained
    refine ⟨temp', ?_, by omega, ?_⟩
    · simp only [Option.bind_eq_bind, loaded, Option.bind_some, stored]
      exact ran
    · rw [drained, taken, List.drop_eq_getElem_cons inPart, List.append_assoc, List.getElem_take]
      rfl
  | case2 k i temp done =>
    obtain rfl : k = stop := by omega
    refine ⟨temp, by simp, rfl, ?_⟩
    simp [List.drop_of_length_le]

/-- When one half is used up the merged rest is what the two copying loops write. -/
theorem mergedRest_end {orig : List α} (fits : size ≤ orig.length) {left right : Nat}
    (stop : left = size / 2 ∨ right = size) : mergedRest before size orig left right =
      (orig.take (size / 2)).drop left ++ (orig.take size).drop right := by
  rw [mergedRest]
  rcases stop with rfl | rfl
  · rw [List.drop_of_length_le (l := orig.take (size / 2)) (by rw [List.length_take]; omega), List.nil_append,
      List.merge_right]
  · rw [List.drop_of_length_le (l := orig.take right) (by rw [List.length_take]; omega), List.append_nil, List.nil_merge]

/-- The merge of two halves that are in order. -/
theorem merge_spec (weak : StrictWeak before) {xs ys rest temp : List α} (half : xs.length = size / 2)
    (whole : xs.length + ys.length = size) (room : size ≤ temp.length) : ∃ left right i temp1 i' temp2 i'' temp3,
      mergeLoop before size (sortBack before xs ++ (sortBack before ys ++ rest)) 0 (size / 2) 0 temp =
        some (left, right, i, temp1) ∧
      drain size (sortBack before xs ++ (sortBack before ys ++ rest)) (size / 2) left i temp1 = some (i', temp2) ∧
      drain size (sortBack before xs ++ (sortBack before ys ++ rest)) size right i' temp2 = some (i'', temp3) ∧
      temp3.length = temp.length ∧ temp3.take size = sortBack before (xs ++ ys) := by
  have lengthX : (sortBack before xs).length = size / 2 := by rw [(sortBack_perm _).length_eq, half]
  have lengthY : (sortBack before xs).length + (sortBack before ys).length = size := by
    rw [(sortBack_perm _).length_eq, (sortBack_perm _).length_eq, whole]
  have takeX : (sortBack before xs ++ (sortBack before ys ++ rest)).take (size / 2) = sortBack before xs := by
    rw [← lengthX, List.take_left']
    rfl
  have takeY : (sortBack before xs ++ (sortBack before ys ++ rest)).take size = sortBack before xs ++ sortBack before ys := by
    rw [← List.append_assoc, ← lengthY, ← List.length_append, List.take_left']
    rfl
  have fits : size ≤ (sortBack before xs ++ (sortBack before ys ++ rest)).length := by
    rw [List.length_append, List.length_append]
    omega
  generalize table : sortBack before xs ++ (sortBack before ys ++ rest) = orig at takeX takeY fits ⊢
  have merged : mergedRest before size orig 0 (size / 2) = sortBack before (xs ++ ys) := by
    rw [mergedRest, takeX, takeY, List.drop_zero, ← lengthX, List.drop_left', sortBack_append weak]
    rfl
  obtain ⟨left, right, i, temp1, ran, low, middle, high, stop, place, length1, taken⟩ :=
    @mergeLoop_spec _ before size orig fits 0 (size / 2) 0 temp (Nat.zero_le _) (Nat.le_refl _) (by omega) (by omega) room
  obtain ⟨temp2, ran2, length2, taken2⟩ := drain_spec fits low (by omega) (by omega : i + (size / 2 - left) ≤ size)
    (by omega : size ≤ temp1.length)
  obtain ⟨temp3, ran3, length3, taken3⟩ := drain_spec fits high (Nat.le_refl _)
    (by omega : i + (size / 2 - left) + (size - right) ≤ size) (by omega : size ≤ temp2.length)
  refine ⟨left, right, i, temp1, _, temp2, _, temp3, ran, ran2, ran3, by omega, ?_⟩
  have all : i + (size / 2 - left) + (size - right) = size := by omega
  rw [all] at taken3
  rw [taken3, taken2, List.append_assoc, ← mergedRest_end fits stop, taken, merged]
  rfl

/-- The part of the table that the call may use is left in order, and nothing else changes. -/
theorem mergesortRanges_spec (weak : StrictWeak before) (size : Nat) {orig temp : List α} (fits : size ≤ orig.length)
    (room : size ≤ temp.length) : ∃ temp', mergesortRanges before size orig temp =
      some (sortBack before (orig.take size) ++ orig.drop size, temp') ∧ temp'.length = temp.length := by
  induction size using Nat.strong_induction_on generalizing orig temp with
  | _ size ih =>
    rw [mergesortRanges]
    by_cases small : size < MIN_MERGE_SIZE
    · rw [if_pos small, insertionBranch_spec weak fits]
      exact ⟨temp, rfl, rfl⟩
    · rw [if_neg small]
      unfold MIN_MERGE_SIZE at small
      obtain ⟨temp1, first, length1⟩ := ih (size / 2) (by omega) (by omega : size / 2 ≤ orig.length)
        (by omega : size / 2 ≤ temp.length)
      have half : (orig.take (size / 2)).length = size / 2 := by
        rw [List.length_take]
        omega
      have sorted : (sortBack before (orig.take (size / 2))).length = size / 2 := by
        rw [(sortBack_perm _).length_eq, half]
      have rest : (sortBack before (orig.take (size / 2)) ++ orig.drop (size / 2)).drop (size / 2) = orig.drop (size / 2) :=
        List.drop_left' sorted
      have front : (sortBack before (orig.take (size / 2)) ++ orig.drop (size / 2)).take (size / 2) =
          sortBack before (orig.take (size / 2)) := List.take_left' sorted
      obtain ⟨temp2, second, length2⟩ := @ih (size - size / 2) (by omega) (orig.drop (size / 2)) temp1
        (by rw [List.length_drop]; omega) (by omega)
      obtain ⟨left, right, i, temp3, i', temp4, i'', temp5, merged, drained, drained', length, taken⟩ :=
        @merge_spec _ before size weak (orig.take (size / 2)) ((orig.drop (size / 2)).take (size - size / 2))
          ((orig.drop (size / 2)).drop (size - size / 2)) temp2 half
          (by rw [half, List.length_take, List.length_drop]; omega) (by omega)
      have tail : (orig.drop (size / 2)).drop (size - size / 2) = orig.drop size := by
        rw [List.drop_drop]
        congr 1
        omega
      have joined : orig.take (size / 2) ++ (orig.drop (size / 2)).take (size - size / 2) = orig.take size := by
        rw [← List.take_add]
        congr 1
        omega
      have behind : (sortBack before (orig.take (size / 2)) ++
          (sortBack before ((orig.drop (size / 2)).take (size - size / 2)) ++
            (orig.drop (size / 2)).drop (size - size / 2))).drop size = orig.drop size := by
        rw [← List.append_assoc, List.drop_left', tail]
        rw [List.length_append, sorted, (sortBack_perm _).length_eq, List.length_take, List.length_drop]
        omega
      simp only [Option.bind_eq_bind, first, Option.bind_some, rest, second, front, merged, drained, drained']
      refine ⟨temp5, ?_, by omega⟩
      rw [copyBack, if_pos, Option.bind_some, taken, behind, joined]
      refine ⟨?_, by omega⟩
      rw [List.length_append, List.length_append, sorted, (sortBack_perm _).length_eq, List.length_take,
        List.length_drop, List.length_drop, List.length_drop]
      omega

end

end DhcpdPools.MergeSort
