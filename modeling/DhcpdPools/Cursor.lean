import Mathlib

/-!
A cursor on a doubly linked list: the element it stands on, the elements before
it (nearest first) and the elements after it. Walking back and scanning forward
keep the list, and on a list sorted for two bounds a scan that starts at or
before the lower bound meets exactly the elements between the bounds
(`scan_between`).
-/
namespace DhcpdPools
universe u v

/-- A position in a doubly linked list. The null pointer is `none` of `Option (Cursor α)`. -/
structure Cursor (α : Type u) where
  before : List α
  here : α
  after : List α

namespace Cursor
variable {α : Type u} {σ : Type v}

/-- The list that the cursor stands in. -/
def all (c : Cursor α) : List α := c.before.reverse ++ c.here :: c.after

/-- The first element, `none` for the empty list. -/
def head : List α → Option (Cursor α)
  | [] => none
  | x :: rest => some ⟨[], x, rest⟩

/-- Walking back while `p` holds; `none` when it falls off the front. -/
def rewindFrom (p : α → Bool) : List α → α → List α → Option (Cursor α)
  | [], x, after => if p x then none else some ⟨[], x, after⟩
  | y :: before, x, after =>
    if p x then rewindFrom p before y (x :: after) else some ⟨y :: before, x, after⟩

/-- `while (l != NULL && p(l)) l = l->prev`. -/
def rewind (p : α → Bool) : Option (Cursor α) → Option (Cursor α)
  | none => none
  | some c => rewindFrom p c.before c.here c.after

/-- Scanning forward while `keep` holds, with an accumulator; `none` when it
    falls off the end. -/
def scanFrom (keep : α → Bool) (body : σ → α → σ) : σ → List α → α → List α → σ × Option (Cursor α)
  | acc, before, x, [] => if keep x then (body acc x, none) else (acc, some ⟨before, x, []⟩)
  | acc, before, x, y :: after =>
    if keep x then scanFrom keep body (body acc x) (x :: before) y after else (acc, some ⟨before, x, y :: after⟩)

/-- `for (; l != NULL && keep(l); l = l->next) body(l)`. -/
def scan (keep : α → Bool) (body : σ → α → σ) (acc : σ) : Option (Cursor α) → σ × Option (Cursor α)
  | none => (acc, none)
  | some c => scanFrom keep body acc c.before c.here c.after

/-- A cursor that is null or stands in the list `l`. -/
def In (l : List α) (o : Option (Cursor α)) : Prop := ∀ c, o = some c → c.all = l

theorem in_none (l : List α) : In l none := by
  intro c impossible
  cases impossible

theorem in_head (l : List α) : In l (head l) := by
  intro c at_head
  cases l with
  | nil => simp [head] at at_head
  | cons x rest =>
    simp only [head, Option.some.injEq] at at_head
    subst at_head
    rfl

theorem rewindFrom_spec (p : α → Bool) (before : List α) (x : α) (after : List α) :
    ∀ c, rewindFrom p before x after = some c → c.all = (Cursor.mk before x after).all ∧ p c.here = false := by
  induction before generalizing x after with
  | nil =>
    intro c found
    simp only [rewindFrom] at found
    split at found
    · cases found
    · rename_i stays
      cases found
      exact ⟨rfl, by simpa using stays⟩
  | cons y before ih =>
    intro c found
    simp only [rewindFrom] at found
    split at found
    · obtain ⟨same, stops⟩ := ih y (x :: after) c found
      exact ⟨by rw [same]; simp [all], stops⟩
    · rename_i stays
      cases found
      exact ⟨rfl, by simpa using stays⟩

/-- A rewound cursor stands in the same list, on an element where `p` fails. -/
theorem rewind_spec (p : α → Bool) {l : List α} {o : Option (Cursor α)} (inside : In l o) {c : Cursor α}
    (found : rewind p o = some c) : c.all = l ∧ p c.here = false := by
  cases o with
  | none => cases found
  | some start =>
    obtain ⟨same, stops⟩ := rewindFrom_spec p start.before start.here start.after c found
    exact ⟨same.trans (inside start rfl), stops⟩

theorem scanFrom_acc (keep : α → Bool) (body : σ → α → σ) (after : List α) :
    ∀ (acc : σ) (before : List α) (x : α),
      (scanFrom keep body acc before x after).1 = ((x :: after).takeWhile keep).foldl body acc := by
  induction after with
  | nil =>
    intro acc before x
    cases kept : keep x <;> simp [scanFrom, kept]
  | cons y after ih =>
    intro acc before x
    cases kept : keep x
    · simp [scanFrom, kept]
    · rw [List.takeWhile_cons_of_pos kept, List.foldl_cons, ← ih (body acc x) (x :: before) y]
      simp [scanFrom, kept]

theorem scanFrom_in (keep : α → Bool) (body : σ → α → σ) (after : List α) :
    ∀ (acc : σ) (before : List α) (x : α),
      In (Cursor.mk before x after).all (scanFrom keep body acc before x after).2 := by
  induction after with
  | nil =>
    intro acc before x c stops
    cases kept : keep x
    · simp only [scanFrom, kept, Bool.false_eq_true, if_false, Option.some.injEq] at stops
      rw [← stops]
    · simp [scanFrom, kept] at stops
  | cons y after ih =>
    intro acc before x c stops
    cases kept : keep x
    · simp only [scanFrom, kept, Bool.false_eq_true, if_false, Option.some.injEq] at stops
      rw [← stops]
    · simp only [scanFrom, kept, if_true] at stops
      rw [ih (body acc x) (x :: before) y c stops]
      simp [all]

/-- A scan leaves the cursor null or in the same list. -/
theorem scan_in (keep : α → Bool) (body : σ → α → σ) (acc : σ) {l : List α} {o : Option (Cursor α)}
    (inside : In l o) : In l (scan keep body acc o).2 := by
  cases o with
  | none => exact in_none l
  | some start =>
    rw [← inside start rfl]
    exact scanFrom_in keep body start.after acc start.before start.here

/-- What a scan accumulates: `body` over the elements that it keeps. -/
theorem scan_acc (keep : α → Bool) (body : σ → α → σ) (acc : σ) (c : Cursor α) :
    (scan keep body acc (some c)).1 = ((c.here :: c.after).takeWhile keep).foldl body acc :=
  scanFrom_acc keep body c.after acc c.before c.here

/-- On a list where `high` is inherited by earlier elements, the elements kept by
    the scan that also satisfy `low` are all those satisfying both. -/
theorem filter_takeWhile (low high : α → Bool) {l : List α}
    (sorted : l.Pairwise fun x y => high y = true → high x = true) :
    (l.takeWhile high).filter low = l.filter (fun x => low x && high x) := by
  induction l with
  | nil => rfl
  | cons x rest ih =>
    obtain ⟨first, later⟩ := List.pairwise_cons.mp sorted
    cases kept : high x
    · have none_later : ∀ y ∈ rest, high y = false := by
        intro y member
        by_contra holds
        have := first y member (by simpa using holds)
        simp [kept] at this
      have empty : rest.filter (fun x => low x && high x) = [] := by
        rw [List.filter_eq_nil_iff]
        intro y member
        simp [none_later y member]
      simp [kept, empty]
    · simp [kept, List.filter_cons, ih later]

/-- A scan from a cursor with only elements below `low` before it accumulates
    over exactly the elements of the list between the bounds. -/
theorem scan_between (low high : α → Bool) (body : σ → α → σ) (acc : σ) (c : Cursor α)
    (sorted : c.all.Pairwise fun x y => high y = true → high x = true)
    (below : ∀ x ∈ c.before, low x = false) :
    (scan high (fun s x => if low x then body s x else s) acc (some c)).1 =
      (c.all.filter (fun x => low x && high x)).foldl body acc := by
  have skipped : c.before.reverse.filter (fun x => low x && high x) = [] := by
    rw [List.filter_eq_nil_iff]
    intro x member
    simp [below x (List.mem_reverse.mp member)]
  have rest := (List.pairwise_append.mp sorted).2.1
  rw [scan_acc, ← List.foldl_filter, filter_takeWhile low high rest, all, List.filter_append, skipped, List.nil_append]

end Cursor
end DhcpdPools
