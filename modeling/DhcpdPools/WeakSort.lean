import Mathlib.Data.List.DropRight
import Mathlib.Data.List.Sort

/-!
Sorting with a comparison that only answers whether an element comes strictly before
another. Insertion from the back and merging with the later list in front both put a
later element before the earlier ones that it ties with: they give the insertion sort
of the reversed list (`sortBack`).
-/
namespace DhcpdPools.WeakSort
universe u v

section
variable {α : Type u} (before : α → α → Bool)

/-- A strict weak order. -/
structure StrictWeak : Prop where
  asymm : ∀ x y, before x y = true → before y x = false
  between : ∀ x y z, before x z = true → before x y = true ∨ before y z = true

/-- Not after. -/
def Upto (x y : α) : Prop := before y x = false

instance (x y : α) : Decidable (Upto before x y) := inferInstanceAs (Decidable (_ = _))

/-- Neither comes before the other. -/
def Tied (x y : α) : Prop := before x y = false ∧ before y x = false

/-- The list in order, with tied elements in reverse. -/
def sortBack (l : List α) : List α := l.reverse.insertionSort (Upto before)

/-- An element goes in front of the elements at the end that do not come before it. -/
def insertBack (l : List α) (x : α) : List α :=
  l.rdropWhile (fun y => !before y x) ++ x :: l.rtakeWhile (fun y => !before y x)

variable {before}

theorem StrictWeak.total (weak : StrictWeak before) (x y : α) : Upto before x y ∨ Upto before y x := by
  by_cases first : before x y = true
  · exact Or.inl (weak.asymm x y first)
  · exact Or.inr (Bool.eq_false_of_not_eq_true first)

theorem StrictWeak.trans (weak : StrictWeak before) {x y z : α} (first : Upto before x y) (second : Upto before y z) :
    Upto before x z := by
  refine Bool.eq_false_of_not_eq_true (fun back => ?_)
  rcases weak.between z y x back with late | late
  · rw [show before z y = false from second] at late
    cases late
  · rw [show before y x = false from first] at late
    cases late

theorem sortBack_perm (l : List α) : (sortBack before l).Perm l :=
  (List.perm_insertionSort _ _).trans (List.reverse_perm l)

theorem sortBack_sorted (weak : StrictWeak before) (l : List α) : (sortBack before l).Pairwise (Upto before) := by
  have : Std.Total (Upto before) := ⟨weak.total⟩
  have : IsTrans α (Upto before) := ⟨fun _ _ _ => weak.trans⟩
  exact List.pairwise_insertionSort _ _

/-- Sorting by a part of the elements. -/
theorem sortBack_map {β : Type v} (f : β → α) (l : List β) :
    (sortBack (fun x y => before (f x) (f y)) l).map f = sortBack before (l.map f) := by
  unfold sortBack
  rw [← List.map_reverse]
  exact List.map_insertionSort _ _ f _ (fun _ _ _ _ => Iff.rfl)

/-- The element that comes later stands in front of one that it ties with. -/
theorem sortBack_ties (weak : StrictWeak before) {l : List α} {x y : α} (order : [x, y].Sublist l)
    (tied : Tied before x y) : [y, x].Sublist (sortBack before l) := by
  have : Std.Total (Upto before) := ⟨weak.total⟩
  have : IsTrans α (Upto before) := ⟨fun _ _ _ => weak.trans⟩
  exact List.pair_sublist_insertionSort tied.1 order.reverse

/-- Cutting from the back, where the predicate holds of everything before an element it holds of. -/
theorem rdropWhile_closed {p : α → Bool} {l : List α} (closed : l.Pairwise (fun x y => p y = true → p x = true)) :
    l.rdropWhile (fun y => !p y) = l.takeWhile p ∧ l.rtakeWhile (fun y => !p y) = l.dropWhile p := by
  induction l using List.reverseRecOn with
  | nil => exact ⟨rfl, rfl⟩
  | append_singleton l z ih =>
    obtain ⟨closed, -, last⟩ := List.pairwise_append.mp closed
    obtain ⟨front, back⟩ := ih closed
    rw [List.rdropWhile_concat, List.rtakeWhile_concat]
    by_cases holds : p z = true
    · have all : ∀ y ∈ l ++ [z], p y = true := by
        intro y member
        rcases List.mem_append.mp member with before | last'
        · exact last y before z List.mem_cons_self holds
        · rwa [List.mem_singleton.mp last']
      simp [holds, List.takeWhile_eq_self_iff.mpr all, List.dropWhile_eq_nil_iff.mpr all]
    · have cut : ∀ l : List α, (l ++ [z]).takeWhile p = l.takeWhile p ∧ (l ++ [z]).dropWhile p = l.dropWhile p ++ [z] := by
        intro l
        induction l with
        | nil => simp [holds]
        | cons y l ih => by_cases yes : p y = true <;> simp [yes, ih]
      simp [holds, cut, front, back]

/-- Into a list that is in order an element is inserted as insertion sort does it. -/
theorem insertBack_sorted (weak : StrictWeak before) {l : List α} (sorted : l.Pairwise (Upto before)) (x : α) :
    insertBack before l x = l.orderedInsert (Upto before) x := by
  have closed : l.Pairwise (fun y z => before z x = true → before y x = true) := by
    refine sorted.imp (fun {y z} upto first => ?_)
    rcases weak.between z y x first with no | yes
    · rw [show before z y = false from upto] at no
      cases no
    · exact yes
  obtain ⟨front, back⟩ := rdropWhile_closed closed
  have same : (fun y => before y x) = fun y => decide ¬Upto before x y := by
    funext y
    simp [Upto]
  rw [insertBack, front, back, List.orderedInsert_eq_take_drop, same]

theorem sortBack_concat (weak : StrictWeak before) (l : List α) (x : α) :
    sortBack before (l ++ [x]) = insertBack before (sortBack before l) x := by
  rw [insertBack_sorted weak (sortBack_sorted weak l), sortBack, List.reverse_append]
  rfl

/-- In order, and tied elements in the order `R`. -/
def Refined (before : α → α → Bool) (R : α → α → Prop) (x y : α) : Prop := before x y = true ∨ Tied before x y ∧ R x y

/-- An element goes in front of those that it ties with. -/
theorem orderedInsert_refined (weak : StrictWeak before) {R : α → α → Prop} {a : α} {l : List α}
    (first : ∀ x ∈ l, R a x) (sorted : l.Pairwise (Refined before R)) :
    (l.orderedInsert (Upto before) a).Pairwise (Refined before R) := by
  induction l with
  | nil => exact List.pairwise_singleton _ _
  | cons x l ih =>
    obtain ⟨least, rest⟩ := List.pairwise_cons.mp sorted
    rw [List.orderedInsert_cons]
    split_ifs with upto
    · refine List.pairwise_cons.mpr ⟨?_, sorted⟩
      intro y member
      have low : Upto before a y := by
        rcases List.mem_cons.mp member with rfl | later
        · exact upto
        · rcases least y later with less | ⟨tied, -⟩
          · exact weak.trans upto (weak.asymm x y less)
          · exact weak.trans upto tied.2
      by_cases less : before a y = true
      · exact Or.inl less
      · exact Or.inr ⟨⟨Bool.eq_false_of_not_eq_true less, low⟩, first y member⟩
    · refine List.pairwise_cons.mpr ⟨?_, ih (fun y member => first y (List.mem_cons_of_mem _ member)) rest⟩
      intro y member
      rcases (List.mem_orderedInsert _).mp member with rfl | later
      · exact Or.inl (by simpa [Upto] using upto)
      · exact least y later

/-- Tied elements come out in the order that the reversed list has them in. -/
theorem sortBack_refined (weak : StrictWeak before) {R : α → α → Prop} {l : List α} (order : l.Pairwise fun x y => R y x) :
    (sortBack before l).Pairwise (Refined before R) := by
  have reversed : l.reverse.Pairwise R := List.pairwise_reverse.mpr order
  rw [sortBack]
  generalize l.reverse = l at reversed
  induction l with
  | nil => exact List.Pairwise.nil
  | cons a l ih =>
    obtain ⟨first, rest⟩ := List.pairwise_cons.mp reversed
    rw [List.insertionSort_cons]
    refine orderedInsert_refined weak ?_ (ih rest)
    intro x member
    exact first x ((List.perm_insertionSort _ _).mem_iff.mp member)

/-- Merging two lists takes the head of the first unless the head of the second comes before it. -/
theorem merge_cons (x y : α) (xs ys : List α) :
    List.merge (x :: xs) (y :: ys) (fun x y => decide (Upto before x y)) =
      if before y x = true then y :: List.merge (x :: xs) ys (fun x y => decide (Upto before x y))
      else x :: List.merge xs (y :: ys) (fun x y => decide (Upto before x y)) := by
  rw [List.cons_merge_cons]
  by_cases first : before y x = true <;> simp [Upto, first]

/-- Inserting into a merged list is inserting into the list that goes in front. -/
theorem orderedInsert_merge (weak : StrictWeak before) (a : α) (xs ys : List α) :
    (List.merge xs ys (fun x y => decide (Upto before x y))).orderedInsert (Upto before) a =
      List.merge (xs.orderedInsert (Upto before) a) ys (fun x y => decide (Upto before x y)) := by
  have front : ∀ (x : α) (l : List α), (x :: l).orderedInsert (Upto before) a =
      if before x a = true then x :: l.orderedInsert (Upto before) a else a :: x :: l := by
    intro x l
    by_cases first : before x a = true <;> simp [List.orderedInsert_cons, Upto, first]
  induction xs generalizing ys with
  | nil =>
    induction ys with
    | nil => simp
    | cons y ys ih =>
      simp only [List.nil_merge, List.orderedInsert_nil] at ih ⊢
      rw [front, merge_cons, ih, List.nil_merge]
  | cons x xs ihX =>
    induction ys with
    | nil => simp
    | cons y ys ihY =>
      rw [merge_cons, front x xs]
      by_cases back : before y x = true
      · rw [if_pos back, front, ihY, front x xs]
        by_cases first : before x a = true
        · have lower : before y a = true := by
            rcases weak.between x y a first with no | yes
            · rw [weak.asymm y x back] at no
              cases no
            · exact yes
          rw [if_pos first, if_pos lower, merge_cons, if_pos back]
        · rw [if_neg first, merge_cons, merge_cons, if_pos back]
      · rw [if_neg back, front, ihX]
        by_cases first : before x a = true
        · rw [if_pos first, if_pos first, merge_cons, if_neg back]
        · have upper : ¬before y a = true := by
            intro lower
            rcases weak.between y x a lower with no | no
            · exact back no
            · exact first no
          rw [if_neg first, if_neg first, merge_cons, if_neg upper, merge_cons, if_neg back]

/-- Merging with the later list in front sorts. -/
theorem sortBack_append (weak : StrictWeak before) (xs ys : List α) : sortBack before (xs ++ ys) =
    List.merge (sortBack before ys) (sortBack before xs) (fun x y => decide (Upto before x y)) := by
  unfold sortBack
  rw [List.reverse_append]
  induction ys.reverse with
  | nil => simp
  | cons a l ih => rw [List.cons_append, List.insertionSort_cons, ih, orderedInsert_merge weak, List.insertionSort_cons]

end

end DhcpdPools.WeakSort
