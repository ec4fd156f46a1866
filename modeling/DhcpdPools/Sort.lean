import DhcpdPools.CString
import DhcpdPools.MergeSort
import DhcpdPools.Tables

/-!
Sorting the ranges by the requested keys. The chain of comparisons answers whether a
range comes strictly before another in the lexicographic order of the keys
(`merge_lt`), so the sort puts the table in that order (`mergesortRanges_sorts`); ranges
that tie on every key come out in reverse (`mergesort_stable_iff`).
-/
namespace DhcpdPools.Sort
open WeakSort MergeSort

/-! ## The code -/

/-- `strcmp`, of which the sign matters. -/
def strcmp : List Char → List Char → Int
  | [], [] => 0
  | [], _ :: _ => -1
  | _ :: _, [] => 1
  | a :: s, b :: t => if a < b then -1 else if b < a then 1 else strcmp s t

/-- `comp_double`. -/
def compDouble (f1 f2 : ℚ) : Int := if f1 < f2 then -1 else if f2 < f1 then 1 else 0

section
variable (v : DhcpVersion)

/-- `ret_percent`. -/
def retPercent (r : Range) : ℚ := r.count / getRangeSize v r

/-- `ret_tc`. -/
def retTc (r : Range) : ℚ := r.count + r.touched

/-- `ret_tcperc`. -/
def retTcperc (r : Range) : ℚ := retTc r / getRangeSize v r

/-- `comp_ip`. -/
def compIp (r1 r2 : Range) : Int := ipcomp v r1.firstIp r2.firstIp

/-- `comp_max`. -/
def compMax (r1 r2 : Range) : Int := compDouble (getRangeSize v r1) (getRangeSize v r2)

/-- `comp_cur`. -/
def compCur (r1 r2 : Range) : Int := compDouble r1.count r2.count

/-- `comp_percent`. -/
def compPercent (r1 r2 : Range) : Int := compDouble (retPercent v r1) (retPercent v r2)

/-- `comp_touched`. -/
def compTouched (r1 r2 : Range) : Int := compDouble r1.touched r2.touched

/-- `comp_tc`. -/
def compTc (r1 r2 : Range) : Int := compDouble (retTc r1) (retTc r2)

/-- `comp_tcperc`. -/
def compTcperc (r1 r2 : Range) : Int := compDouble (retTcperc v r1) (retTcperc v r2)

/-- `field_selector`: the function, or null for the names, and no answer where the
    program ends. -/
def fieldSelector (c : Char) : Option (Option (Range → Range → Int)) :=
  match c with
  | 'n' => some none
  | 'i' => some (some (compIp v))
  | 'm' => some (some (compMax v))
  | 'c' => some (some compCur)
  | 'p' => some (some (compPercent v))
  | 't' => some (some compTouched)
  | 'T' => some (some compTc)
  | 'e' => some (some (compTcperc v))
  | _ => none

end

/-- `shared_net->name`. -/
def netName (nets : Nat → SharedNetwork) (r : Range) : List Char :=
  (r.sharedNet.map (fun k => cstr (nets k).name)).getD []

/-- The comparison by one key; that of strings is special. -/
def compareKey (nets : Nat → SharedNetwork) (func : Option (Range → Range → Int)) (left right : Range) : Int :=
  match func with
  | none => strcmp (netName nets left) (netName nets right)
  | some f => f left right

/-- `merge`. -/
def merge (nets : Nat → SharedNetwork) : List (Option (Range → Range → Int)) → Range → Range → Bool
  | [], _, _ => false
  | func :: rest, left, right =>
    let ret := compareKey nets func left right
    if 0 < ret then false
    else if ret < 0 then true
    else merge nets rest left right

/-! ## The order that is asked for -/

section
variable (v : DhcpVersion) (nets : Nat → SharedNetwork)

/-- The order by one key. -/
def keyOrder (c : Char) : Range → Range → Ordering :=
  match c with
  | 'n' => compareOn (netName nets)
  | 'i' => compareOn (fun r => key v r.firstIp)
  | 'm' => compareOn (getRangeSize v)
  | 'c' => compareOn Range.count
  | 'p' => compareOn (fun r => r.count / getRangeSize v r)
  | 't' => compareOn Range.touched
  | 'T' => compareOn (fun r => r.count + r.touched)
  | 'e' => compareOn (fun r => (r.count + r.touched) / getRangeSize v r)
  | _ => fun _ _ => .eq

/-- The lexicographic order by a list of keys. -/
def lexOrder : List Char → Range → Range → Ordering
  | [] => fun _ _ => .eq
  | c :: rest => compareLex (keyOrder v nets c) (lexOrder rest)

end

/-! ## The comparisons -/

/-- The sign of a comparison is an order. -/
def Signs (ret : Int) (o : Ordering) : Prop := (ret < 0 ↔ o = .lt) ∧ (0 < ret ↔ o = .gt)

theorem strcmp_signs (s t : List Char) : Signs (strcmp s t) (List.compareLex compare s t) := by
  induction s generalizing t with
  | nil => cases t <;> simp [strcmp, Signs, List.compareLex]
  | cons a s ih =>
    cases t with
    | nil => simp [strcmp, Signs, List.compareLex]
    | cons b t =>
      rw [List.compareLex_cons_cons, strcmp]
      by_cases less : a < b
      · have order : compare a b = .lt := compare_lt_iff_lt.mpr less
        simp [less, order, Signs]
      · by_cases greater : b < a
        · have order : compare a b = .gt := compare_gt_iff_gt.mpr greater
          simp [less, greater, order, Signs]
        · have order : compare a b = .eq := compare_eq_iff_eq.mpr (le_antisymm (not_lt.mp greater) (not_lt.mp less))
          simpa [less, greater, order] using ih t

theorem compDouble_signs (f1 f2 : ℚ) : Signs (compDouble f1 f2) (compare f1 f2) := by
  unfold compDouble Signs
  rw [compare_lt_iff_lt, compare_gt_iff_gt]
  split_ifs with less greater
  · exact ⟨by simp [less], by simp [not_lt_of_gt less]⟩
  · exact ⟨by simp [less], by simp [greater]⟩
  · exact ⟨by simp [less], by simp [greater]⟩

theorem ipcomp_signs (v : DhcpVersion) (a b : Ipaddr) : Signs (ipcomp v a b) (compare (key v a) (key v b)) := by
  unfold Signs
  rw [compare_lt_iff_lt, compare_gt_iff_gt]
  exact ipcomp_key v a b

section
variable {v : DhcpVersion} {nets : Nat → SharedNetwork}

/-- The selected comparison is the order by the key. -/
theorem fieldSelector_signs {c : Char} {func : Option (Range → Range → Int)} (selected : fieldSelector v c = some func)
    (a b : Range) :
    Signs (compareKey nets func a b) (keyOrder v nets c a b) := by
  unfold fieldSelector at selected
  unfold keyOrder
  split at selected <;> first | cases Option.some.inj selected | cases selected
  · exact strcmp_signs _ _
  · exact ipcomp_signs _ _ _
  · exact compDouble_signs _ _
  · exact compDouble_signs _ _
  · exact compDouble_signs _ _
  · exact compDouble_signs _ _
  · exact compDouble_signs _ _
  · exact compDouble_signs _ _

/-- The chain of comparisons answers whether a range comes strictly before another. -/
theorem merge_lt (nets : Nat → SharedNetwork) {fields : List Char} {sorts : List (Option (Range → Range → Int))}
    (selected : fields.mapM (fieldSelector v) = some sorts) (a b : Range) :
    merge nets sorts a b = true ↔ lexOrder v nets fields a b = .lt := by
  induction fields generalizing sorts with
  | nil =>
    cases Option.some.inj selected
    simp [merge, lexOrder]
  | cons c fields ih =>
    rw [List.mapM_cons] at selected
    obtain ⟨func, first, rest⟩ := Option.bind_eq_some_iff.mp selected
    obtain ⟨sorts, later, made⟩ := Option.bind_eq_some_iff.mp rest
    obtain rfl := Option.some.inj made
    obtain ⟨less, greater⟩ := @fieldSelector_signs v nets c func first a b
    rw [merge, lexOrder, compareLex]
    generalize compareKey nets func a b = ret at less greater ⊢
    cases order : keyOrder v nets c a b with
    | lt =>
      have negative := less.mpr order
      simp [negative, Int.not_lt.mpr (Int.le_of_lt negative)]
    | gt =>
      have positive := greater.mpr order
      simp [positive]
    | eq =>
      have notLess : ¬ret < 0 := fun negative => by
        rw [less.mp negative] at order
        cases order
      have notGreater : ¬0 < ret := fun positive => by
        rw [greater.mp positive] at order
        cases order
      simpa [notLess, notGreater] using ih later

instance equal_trans : Std.TransCmp (fun _ _ : Range => Ordering.eq) where
  eq_swap := rfl
  isLE_trans _ _ := rfl

instance keyOrder_trans (c : Char) : Std.TransCmp (keyOrder v nets c) := by
  unfold keyOrder
  split <;> infer_instance

instance lexOrder_trans (fields : List Char) : Std.TransCmp (lexOrder v nets fields) := by
  induction fields with
  | nil => exact equal_trans
  | cons c fields ih =>
    unfold lexOrder
    infer_instance

/-- What does not come before is not less. -/
theorem upto_lexOrder (nets : Nat → SharedNetwork) {fields : List Char} {sorts : List (Option (Range → Range → Int))}
    (selected : fields.mapM (fieldSelector v) = some sorts) (a b : Range) :
    Upto (merge nets sorts) a b ↔ (lexOrder v nets fields a b).isLE := by
  rw [Upto, ← Bool.not_eq_true, merge_lt nets selected]
  constructor
  · exact fun notLess => Std.OrientedCmp.isLE_of_isGE (Ordering.isGE_iff_ne_lt.mpr notLess)
  · exact fun upto => Std.OrientedCmp.not_lt_of_isLE upto

theorem merge_weak (nets : Nat → SharedNetwork) {fields : List Char} {sorts : List (Option (Range → Range → Int))}
    (selected : fields.mapM (fieldSelector v) = some sorts) : StrictWeak (merge nets sorts) := by
  constructor
  · intro a b first
    rw [merge_lt nets selected] at first
    refine (upto_lexOrder nets selected a b).mpr ?_
    rw [first]
    rfl
  · intro a b c first
    by_contra neither
    obtain ⟨notFirst, notSecond⟩ := not_or.mp neither
    have upto := Std.TransCmp.isLE_trans ((upto_lexOrder nets selected c b).mp (Bool.eq_false_of_not_eq_true notSecond))
      ((upto_lexOrder nets selected b a).mp (Bool.eq_false_of_not_eq_true notFirst))
    rw [show merge nets sorts a c = false from (upto_lexOrder nets selected c a).mpr upto] at first
    cases first

/-- `mergesort_ranges` puts the table in the order of the keys, loses nothing and stays in
    the part of the tables that it is given. -/
theorem mergesortRanges_sorts {fields : List Char} {sorts : List (Option (Range → Range → Int))}
    (selected : fields.mapM (fieldSelector v) = some sorts) {size : Nat} {orig temp : List Range}
    (fits : size ≤ orig.length) (room : size ≤ temp.length) : ∃ sorted temp',
      mergesortRanges (merge nets sorts) size orig temp = some (sorted ++ orig.drop size, temp') ∧
      sorted.Perm (orig.take size) ∧ sorted.Pairwise (fun a b => (lexOrder v nets fields a b).isLE) := by
  have weak := merge_weak nets selected
  obtain ⟨temp', ran, -⟩ := mergesortRanges_spec weak size fits room
  exact ⟨_, temp', ran, sortBack_perm _,
    (sortBack_sorted weak _).imp (fun {a b} upto => (upto_lexOrder nets selected a b).mp upto)⟩

/-- A range of five addresses without leases, outside the networks. -/
def freeRange (first : BitVec 32) : Range := ⟨some 0, .ofV4 first, .ofV4 (first + 4), 0, 0, 0⟩

def unnamed : Nat → SharedNetwork := fun _ => ⟨[], 0, 0, 0, 0, 0⟩

/-- Ten ranges in no order, so that a run on nine of them splits the table. -/
def shuffled : List Range := [45, 5, 30, 10, 40, 20, 0, 35, 15, 25].map freeRange

theorem mergesortRanges_sorts_sample : 9 ≤ shuffled.length ∧ ∃ sorted temp',
    mergesortRanges (merge unnamed [some (compIp .IPv4)]) 9 shuffled shuffled =
      some (sorted ++ [freeRange 25], temp') ∧ sorted.Perm (shuffled.take 9) ∧
      sorted.Pairwise (fun a b => (lexOrder .IPv4 unnamed ['i'] a b).isLE) := by
  have selected : ['i'].mapM (fieldSelector .IPv4) = some [some (compIp .IPv4)] := rfl
  have fits : 9 ≤ shuffled.length := by decide
  exact ⟨fits, mergesortRanges_sorts selected fits fits⟩

/-- The hybrid sort is its own insertion sort, ties included. -/
theorem mergesortRanges_insertion {fields : List Char} {sorts : List (Option (Range → Range → Int))}
    (selected : fields.mapM (fieldSelector v) = some sorts) {size : Nat} {orig temp : List Range}
    (fits : size ≤ orig.length) (room : size ≤ temp.length) :
    (mergesortRanges (merge nets sorts) size orig temp).map Prod.fst = insertionBranch (merge nets sorts) size orig := by
  have weak := merge_weak nets selected
  obtain ⟨temp', ran, -⟩ := mergesortRanges_spec weak size fits room
  rw [ran, insertionBranch_spec weak fits]
  rfl

theorem mergesortRanges_insertion_sample : 9 ≤ shuffled.length ∧
    (mergesortRanges (merge unnamed [some compCur]) 9 shuffled shuffled).map Prod.fst =
      insertionBranch (merge unnamed [some compCur]) 9 shuffled := by
  have selected : ['c'].mapM (fieldSelector .IPv4) = some [some compCur] := rfl
  have fits : 9 ≤ shuffled.length := by decide
  exact ⟨fits, mergesortRanges_insertion selected fits fits⟩

end

/-! ## Ties -/

/-- A run on ranges that carry their positions: the positions in the order of the output. -/
def outputPlaces (nets : Nat → SharedNetwork) (sorts : List (Option (Range → Range → Int))) (ranges : List Range) :
    List Nat :=
  match mergesortRanges (fun x y => merge nets sorts x.1 y.1) ranges.length ranges.zipIdx ranges.zipIdx with
  | some (out, _) => out.map Prod.snd
  | none => []

/-- The ranges at two positions compare equal on every key. -/
def Ties (v : DhcpVersion) (nets : Nat → SharedNetwork) (fields : List Char) (ranges : List Range) (i j : Nat) : Prop :=
  ∃ a b, ranges[i]? = some a ∧ ranges[j]? = some b ∧ lexOrder v nets fields a b = .eq

/-- Earlier elements stand before later ones. -/
theorem pair_sublist {α : Type} {l : List α} {i j : Nat} {x y : α} (order : i < j) (first : l[i]? = some x)
    (second : l[j]? = some y) : [x, y].Sublist l := by
  obtain ⟨there, rfl⟩ := List.getElem?_eq_some_iff.mp second
  have front : x ∈ l.take j := List.mem_of_getElem? (by rwa [List.getElem?_take_of_lt order])
  have both : ([x] ++ [l[j]]).Sublist (l.take j ++ l.drop j) := by
    refine (List.singleton_sublist.mpr front).append (List.singleton_sublist.mpr ?_)
    rw [List.drop_eq_getElem_cons there]
    exact List.mem_cons_self
  rwa [List.take_append_drop] at both

/-- In a list without repetition two elements stand in one order only. -/
theorem one_order {α : Type} {l : List α} (nodup : l.Nodup) {x y : α} (first : [x, y].Sublist l)
    (second : [y, x].Sublist l) : False := by
  induction l with
  | nil => cases first
  | cons z l ih =>
    obtain ⟨fresh, nodup⟩ := List.nodup_cons.mp nodup
    cases first with
    | cons _ first =>
      cases second with
      | cons _ second => exact ih nodup first second
      | cons_cons _ second => exact fresh (first.subset (by simp))
    | cons_cons _ first =>
      cases second with
      | cons _ second => exact fresh (second.subset (by simp))
      | cons_cons _ second => exact fresh (second.subset (by simp))

section
variable {v : DhcpVersion} {nets : Nat → SharedNetwork} {fields : List Char} {sorts : List (Option (Range → Range → Int))}

theorem tagged_weak (nets : Nat → SharedNetwork) (selected : fields.mapM (fieldSelector v) = some sorts) :
    StrictWeak (fun x y : Range × Nat => merge nets sorts x.1 y.1) := by
  have weak := merge_weak nets selected
  exact ⟨fun x y => weak.asymm x.1 y.1, fun x y z => weak.between x.1 y.1 z.1⟩

theorem outputPlaces_sortBack (selected : fields.mapM (fieldSelector v) = some sorts) (ranges : List Range) :
    outputPlaces nets sorts ranges =
      (sortBack (fun x y : Range × Nat => merge nets sorts x.1 y.1) ranges.zipIdx).map Prod.snd := by
  have whole : ranges.length = ranges.zipIdx.length := List.length_zipIdx.symm
  obtain ⟨temp', ran, -⟩ := mergesortRanges_spec (tagged_weak nets selected) ranges.length
    (Nat.le_of_eq whole) (Nat.le_of_eq whole)
  rw [outputPlaces, ran, whole, List.take_length, List.drop_length, List.append_nil]

/-- The positions are those of the ranges in the sorted table. -/
theorem outputPlaces_ranges (selected : fields.mapM (fieldSelector v) = some sorts) {ranges temp out temp' : List Range}
    (room : ranges.length ≤ temp.length)
    (ran : mergesortRanges (merge nets sorts) ranges.length ranges temp = some (out, temp')) :
    out.map some = (outputPlaces nets sorts ranges).map (fun i => ranges[i]?) := by
  obtain ⟨temp1, sorted, -⟩ := mergesortRanges_spec (merge_weak nets selected) ranges.length (Nat.le_refl _) room
  rw [sorted] at ran
  obtain ⟨rfl, -⟩ := Prod.mk.inj (Option.some.inj ran)
  rw [outputPlaces_sortBack selected, List.take_length, List.drop_length, List.append_nil, List.map_map]
  have tagged := @sortBack_map _ (merge nets sorts) _ Prod.fst ranges.zipIdx
  rw [List.zipIdx_map_fst] at tagged
  rw [← tagged, List.map_map]
  refine List.map_congr_left (fun x member => ?_)
  have there := (sortBack_perm _).subset member
  exact (List.mem_zipIdx_iff_getElem?.mp there).symm

/-- Ranges that tie on every key come out in reverse. -/
theorem outputPlaces_ties (selected : fields.mapM (fieldSelector v) = some sorts) {ranges : List Range} {i j : Nat}
    (order : i < j) (ties : Ties v nets fields ranges i j) : [j, i].Sublist (outputPlaces nets sorts ranges) := by
  obtain ⟨a, b, first, second, equal⟩ := ties
  have tied : Tied (fun x y : Range × Nat => merge nets sorts x.1 y.1) (a, i) (b, j) := by
    constructor
    · refine Bool.eq_false_of_not_eq_true (fun less => ?_)
      rw [(merge_lt nets selected a b).mp less] at equal
      cases equal
    · refine Bool.eq_false_of_not_eq_true (fun less => ?_)
      have back := Std.OrientedCmp.eq_symm equal
      rw [(merge_lt nets selected b a).mp less] at back
      cases back
  have places := sortBack_ties (tagged_weak nets selected) (pair_sublist order (l := ranges.zipIdx)
    (by rw [List.getElem?_zipIdx, first]; simp) (by rw [List.getElem?_zipIdx, second]; simp)) tied
  rw [outputPlaces_sortBack selected]
  exact places.map Prod.snd

theorem outputPlaces_nodup (selected : fields.mapM (fieldSelector v) = some sorts) (ranges : List Range) :
    (outputPlaces nets sorts ranges).Nodup := by
  rw [outputPlaces_sortBack selected, ((sortBack_perm _).map Prod.snd).nodup_iff, List.zipIdx_map_snd]
  exact List.nodup_range'

/-- The sort is stable exactly for the tables in which no two ranges compare equal on every key. -/
theorem mergesort_stable_iff (selected : fields.mapM (fieldSelector v) = some sorts) (ranges : List Range) :
    (∀ i j, i < j → Ties v nets fields ranges i j → [i, j].Sublist (outputPlaces nets sorts ranges)) ↔
      ¬∃ i j, i < j ∧ Ties v nets fields ranges i j := by
  constructor
  · rintro stable ⟨i, j, order, ties⟩
    exact one_order (outputPlaces_nodup selected ranges) (stable i j order ties) (outputPlaces_ties selected order ties)
  · exact fun none i j order ties => absurd ⟨i, j, order, ties⟩ none

/-- An order that the table is in is found in reverse among the ranges that tie. -/
theorem ties_pairwise (selected : fields.mapM (fieldSelector v) = some sorts) {ranges temp out temp' : List Range}
    (room : ranges.length ≤ temp.length)
    (ran : mergesortRanges (merge nets sorts) ranges.length ranges temp = some (out, temp')) {R : Range → Range → Prop}
    (order : ranges.Pairwise R) : out.Pairwise (fun a b => lexOrder v nets fields a b = .eq → R b a) := by
  have nodup : (outputPlaces nets sorts ranges).Nodup := outputPlaces_nodup selected ranges
  have placed : (outputPlaces nets sorts ranges).Pairwise (fun i j => ∀ a b, ranges[i]? = some a → ranges[j]? = some b →
      lexOrder v nets fields a b = .eq → R b a) := by
    refine List.pairwise_iff_forall_sublist.mpr ?_
    intro i j sub a b first second equal
    rcases Nat.lt_trichotomy i j with before | rfl | behind
    · -- A tie comes out in reverse, so the two do not stand like this.
      exact (one_order nodup sub (outputPlaces_ties selected before ⟨a, b, first, second, equal⟩)).elim
    · exact (List.nodup_iff_sublist.mp nodup i sub).elim
    · obtain ⟨inside, rfl⟩ := List.getElem?_eq_some_iff.mp first
      obtain ⟨inside', rfl⟩ := List.getElem?_eq_some_iff.mp second
      exact List.pairwise_iff_getElem.mp order j i inside' inside behind
  have pairs : (out.map some).Pairwise (fun x y => ∀ a b, x = some a → y = some b →
      lexOrder v nets fields a b = .eq → R b a) := by
    rw [outputPlaces_ranges selected room ran]
    exact List.pairwise_map.mpr placed
  exact (List.pairwise_map.mp pairs).imp (fun {a b} tied => tied a b rfl rfl)

/-- Ranges that compare equal on every key come out in reverse: in any order that the table
    is in, such as that of the addresses or that of an earlier sort, the tied ranges are
    reversed, and the sort is stable exactly for the tables without ties. -/
theorem mergesort_ties (selected : fields.mapM (fieldSelector v) = some sorts) (ranges : List Range) :
    (∀ i j, i < j → Ties v nets fields ranges i j → [j, i].Sublist (outputPlaces nets sorts ranges)) ∧
      (∀ temp, ranges.length ≤ temp.length → ∃ out temp',
        mergesortRanges (merge nets sorts) ranges.length ranges temp = some (out, temp') ∧
        ∀ R : Range → Range → Prop, ranges.Pairwise R →
          out.Pairwise (fun a b => lexOrder v nets fields a b = .eq → R b a)) ∧
      ((∀ i j, i < j → Ties v nets fields ranges i j → [i, j].Sublist (outputPlaces nets sorts ranges)) ↔
        ¬∃ i j, i < j ∧ Ties v nets fields ranges i j) := by
  refine ⟨fun i j order ties => outputPlaces_ties selected order ties, ?_, mergesort_stable_iff selected ranges⟩
  intro temp room
  obtain ⟨temp', ran, -⟩ := mergesortRanges_spec (merge_weak nets selected) ranges.length (Nat.le_refl _) room
  exact ⟨_, temp', ran, fun R order => ties_pairwise selected room ran order⟩

/-- No range has a lease: sorted by their leases, they all come out in reverse. -/
theorem mergesort_ties_sample : Ties .IPv4 unnamed ['c'] shuffled 2 7 ∧
    [7, 2].Sublist (outputPlaces unnamed [some compCur] shuffled) := by
  have selected : ['c'].mapM (fieldSelector .IPv4) = some [some compCur] := rfl
  have ties : Ties .IPv4 unnamed ['c'] shuffled 2 7 := ⟨_, _, rfl, rfl, by decide +kernel⟩
  exact ⟨ties, (mergesort_ties selected shuffled).1 2 7 (by decide) ties⟩

/-- Two ranges with the same count, sorted by count. -/
theorem sort_reverses_ties : ¬∀ i j, i < j → Ties .IPv4 unnamed ['c'] [freeRange 4, freeRange 9] i j →
    [i, j].Sublist (outputPlaces unnamed [some compCur] [freeRange 4, freeRange 9]) := by
  intro stable
  have selected : ['c'].mapM (fieldSelector .IPv4) = some [some compCur] := rfl
  have ties : Ties .IPv4 unnamed ['c'] [freeRange 4, freeRange 9] 0 1 := ⟨_, _, rfl, rfl, by decide +kernel⟩
  exact one_order (outputPlaces_nodup selected _) (stable 0 1 Nat.one_pos ties)
    (outputPlaces_ties selected Nat.one_pos ties)

end

end DhcpdPools.Sort
