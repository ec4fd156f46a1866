import Mathlib

/-!
A table of entries with a key, kept as a list: looking an entry up, replacing the
entry of a key by one at the end, changing an entry in place. Over it, a log of
writes to a map: what a replay leaves for a key is decided by the last `put` to
that key and the last `note` after it (`replay_some`, `replay_lastPut`).
-/
namespace DhcpdPools.KeyedTable
universe u v w

section table
variable {α : Type u} {κ : Type v} [DecidableEq κ] (key : α → κ)

/-- No two entries have one key. -/
def Distinct (l : List α) : Prop := (l.map key).Nodup

/-- The first entry of a key. -/
def get (k : κ) (l : List α) : Option α := l.find? (fun x => key x = k)

/-- Removing the first entry of a key. -/
def erase (k : κ) (l : List α) : List α := l.eraseP (fun x => key x = k)

/-- Replacing the entry of a key; the new one goes to the end. -/
def put (x : α) (l : List α) : List α := erase key (key x) l ++ [x]

/-- Changing the first entry of a key in place. -/
def change (k : κ) (f : α → α) : List α → List α
  | [] => []
  | x :: rest => if key x = k then f x :: rest else x :: change k f rest

variable {key}

theorem get_mem {k : κ} {l : List α} {x : α} (found : get key k l = some x) : x ∈ l ∧ key x = k := by
  refine ⟨List.mem_of_find?_eq_some found, ?_⟩
  simpa using List.find?_some found

theorem get_none {k : κ} {l : List α} : get key k l = none ↔ ∀ x ∈ l, key x ≠ k := by
  simp [get, List.find?_eq_none]

theorem get_append (k : κ) (l m : List α) : get key k (l ++ m) = (get key k l).or (get key k m) := by
  simp [get, List.find?_append]

/-- In a table with distinct keys every entry is the one its key finds. -/
theorem get_of_mem {l : List α} (distinct : Distinct key l) {x : α} (member : x ∈ l) :
    get key (key x) l = some x := by
  induction l with
  | nil => cases member
  | cons y rest ih =>
    obtain ⟨fresh, tail⟩ := List.nodup_cons.mp distinct
    by_cases same : key y = key x
    · rcases List.mem_cons.mp member with rfl | later
      · simp [get]
      · exact absurd (List.mem_map_of_mem (f := key) later) (same ▸ fresh)
    · have later : x ∈ rest := (List.mem_cons.mp member).resolve_left (fun h => same (h ▸ rfl))
      simpa [get, List.find?_cons, same] using ih tail later

/-- At most one entry has a key. -/
theorem countP_key {l : List α} (distinct : Distinct key l) (k : κ) : l.countP (fun x => decide (key x = k)) ≤ 1 := by
  have once := List.nodup_iff_count_le_one.mp distinct k
  rw [List.count_eq_countP, List.countP_map] at once
  exact once

@[simp] theorem erase_nil (k : κ) : erase key k [] = [] := rfl

theorem erase_cons (k : κ) (x : α) (rest : List α) :
    erase key k (x :: rest) = if key x = k then rest else x :: erase key k rest := by
  simp [erase, List.eraseP_cons, Bool.cond_decide]

theorem get_cons (k : κ) (x : α) (rest : List α) :
    get key k (x :: rest) = if key x = k then some x else get key k rest := by
  by_cases hit : key x = k <;> simp [get, hit]

theorem get_erase_other {k k' : κ} (differ : k ≠ k') (l : List α) :
    get key k' (erase key k l) = get key k' l := by
  induction l with
  | nil => rfl
  | cons x rest ih =>
    rw [erase_cons]
    by_cases hit : key x = k
    · have miss : key x ≠ k' := fun h => differ (hit.symm.trans h)
      rw [if_pos hit, get_cons, if_neg miss]
    · rw [if_neg hit, get_cons, get_cons, ih]

theorem get_erase_same {k : κ} {l : List α} (distinct : Distinct key l) : get key k (erase key k l) = none := by
  induction l with
  | nil => rfl
  | cons x rest ih =>
    obtain ⟨fresh, tail⟩ := List.nodup_cons.mp distinct
    rw [erase_cons]
    by_cases hit : key x = k
    · rw [if_pos hit, get_none]
      intro y later same
      exact fresh (hit ▸ same ▸ List.mem_map_of_mem later)
    · rw [if_neg hit, get_cons, if_neg hit, ih tail]

theorem get_put {l : List α} (distinct : Distinct key l) (x : α) (k : κ) :
    get key k (put key x l) = if k = key x then some x else get key k l := by
  rw [put, get_append]
  by_cases same : k = key x
  · subst same
    rw [get_erase_same distinct, if_pos rfl, get_cons, if_pos rfl, Option.none_or]
  · have miss : get key k [x] = none := get_none.mpr (by simpa using fun h => same h.symm)
    rw [get_erase_other (fun h => same h.symm), miss, if_neg same, Option.or_none]

theorem distinct_put {l : List α} (distinct : Distinct key l) (x : α) : Distinct key (put key x l) := by
  have gone : ∀ y ∈ erase key (key x) l, key y ≠ key x := get_none.mp (get_erase_same distinct)
  have kept : Distinct key (erase key (key x) l) := List.Nodup.sublist (List.Sublist.map key List.eraseP_sublist) distinct
  unfold Distinct put at *
  rw [List.map_append, List.nodup_append]
  refine ⟨kept, by simp, ?_⟩
  intro a member b last same
  obtain ⟨y, inside, rfl⟩ := List.mem_map.mp member
  have : b = key x := by simpa using last
  exact gone y inside (same.trans this)

section change
variable {f : α → α} (keeps : ∀ x, key (f x) = key x)
include keeps

theorem map_key_change (k : κ) (l : List α) : (change key k f l).map key = l.map key := by
  induction l with
  | nil => rfl
  | cons x rest ih =>
    by_cases hit : key x = k
    · simp [change, hit, keeps]
    · simp [change, hit, ih]

theorem distinct_change {l : List α} (distinct : Distinct key l) (k : κ) : Distinct key (change key k f l) := by
  unfold Distinct
  rwa [map_key_change keeps]

theorem get_change (k k' : κ) (l : List α) :
    get key k' (change key k f l) = if k' = k then (get key k' l).map f else get key k' l := by
  induction l with
  | nil => simp [change, get]
  | cons x rest ih =>
    rw [change]
    by_cases hit : key x = k
    · rw [if_pos hit, get_cons, get_cons, keeps, hit]
      by_cases same : k = k'
      · rw [if_pos same, if_pos same, if_pos same.symm, Option.map_some]
      · rw [if_neg same, if_neg same, if_neg (Ne.symm same)]
    · rw [if_neg hit, get_cons, get_cons, ih]
      by_cases found : key x = k'
      · have other : k' ≠ k := fun h => hit (found.trans h)
        rw [if_pos found, if_pos found, if_neg other]
      · rw [if_neg found, if_neg found]

end change

/-- Deleting through a pointer to the entry found. -/
theorem erase_findIdx? (k : κ) (l : List α) :
    erase key k l = match l.findIdx? (fun x => key x = k) with
      | none => l
      | some i => l.eraseIdx i :=
  List.eraseP_eq_eraseIdx

/-- Changing through a pointer to the entry found. -/
theorem change_findIdx? (k : κ) (f : α → α) (l : List α) :
    change key k f l = match l.findIdx? (fun x => key x = k) with
      | none => l
      | some i => l.modify i f := by
  induction l with
  | nil => rfl
  | cons x rest ih =>
    by_cases hit : key x = k
    · simp [change, List.findIdx?_cons, hit]
    · rw [change, if_neg hit, ih, List.findIdx?_cons]
      cases rest.findIdx? (fun x => key x = k) <;> simp [hit]

end table

section log
variable {κ : Type u} {β : Type v} {γ : Type w} [DecidableEq κ]

/-- A write to a map whose values carry an optional note: `put` sets the value and
    drops the note, `note` adds one to a value that is there. -/
inductive Write (κ : Type u) (β : Type v) (γ : Type w) where
  | put (k : κ) (b : β)
  | note (k : κ) (c : γ)
  | skip

namespace Write

def apply (m : κ → Option (β × Option γ)) : Write κ β γ → κ → Option (β × Option γ)
  | put k b => Function.update m k (some (b, none))
  | note k c => Function.update m k ((m k).map (fun r => (r.1, some c)))
  | skip => m

/-- What a write puts for a key. -/
def puts (k : κ) : Write κ β γ → Option β
  | put k' b => if k' = k then some b else none
  | _ => none

/-- What a write notes for a key. -/
def notes (k : κ) : Write κ β γ → Option γ
  | note k' c => if k' = k then some c else none
  | _ => none

/-- Writing the same once more changes nothing. -/
theorem apply_again (m : κ → Option (β × Option γ)) (e : Write κ β γ) : e.apply (e.apply m) = e.apply m := by
  cases e with
  | put k b => simp [apply]
  | note k c =>
    simp only [apply, Function.update_self, Function.update_idem]
    cases m k <;> rfl
  | skip => rfl

/-- What a write leaves under a key depends on what stood there only. -/
theorem apply_congr {m m' : κ → Option (β × Option γ)} {k : κ} (same : m k = m' k) (e : Write κ β γ) :
    e.apply m k = e.apply m' k := by
  cases e with
  | put k' b => simp only [apply, Function.update_apply, same]
  | note k' c =>
    by_cases here : k = k'
    · subst here
      simp [apply, same]
    · simp [apply, here, same]
  | skip => exact same

/-- A write that neither puts nor notes anything for a key leaves it alone. -/
theorem apply_other {k : κ} {e : Write κ β γ} (puts : e.puts k = none) (notes : e.notes k = none)
    (m : κ → Option (β × Option γ)) : e.apply m k = m k := by
  cases e with
  | put k' b =>
    have differ : k ≠ k' := by
      rintro rfl
      simp [Write.puts] at puts
    simp [apply, differ]
  | note k' c =>
    have differ : k ≠ k' := by
      rintro rfl
      simp [Write.notes] at notes
    simp [apply, differ]
  | skip => rfl

theorem puts_eq_some {k : κ} {b : β} {e : Write κ β γ} (sets : e.puts k = some b) : e = .put k b := by
  cases e with
  | put k' b' =>
    by_cases same : k' = k
    · subst same
      simp_all [puts]
    · simp [puts, same] at sets
  | note k' c => simp [puts] at sets
  | skip => simp [puts] at sets

end Write

/-- The map that a log of writes leaves, from the empty one. -/
def replay (log : List (Write κ β γ)) : κ → Option (β × Option γ) := log.foldl Write.apply (fun _ => none)

theorem replay_concat (log : List (Write κ β γ)) (e : Write κ β γ) :
    replay (log ++ [e]) = e.apply (replay log) := by
  simp [replay]

/-- The value of the last `put` to a key. -/
def lastPut (k : κ) (log : List (Write κ β γ)) : Option β := (log.filterMap (Write.puts k)).getLast?

/-- The last note for a key after the last `put` to it. -/
def lastNote (k : κ) (log : List (Write κ β γ)) : Option γ :=
  ((log.rtakeWhile (fun e => (e.puts k).isNone)).filterMap (Write.notes k)).getLast?

/-- A replay leaves the last value put, with the last note after it. -/
theorem replay_lastPut (log : List (Write κ β γ)) (k : κ) :
    replay log k = (lastPut k log).map (fun b => (b, lastNote k log)) := by
  induction log using List.reverseRecOn with
  | nil => rfl
  | append_singleton log e ih =>
    rw [replay_concat]
    simp only [lastPut, lastNote, List.filterMap_append, List.rtakeWhile_concat] at ih ⊢
    cases e with
    | put k' b =>
      by_cases same : k' = k
      · subst same
        simp [Write.apply, Write.puts]
      · simp [Write.apply, Write.puts, Write.notes, same, Ne.symm same, ih]
    | note k' c =>
      by_cases same : k' = k
      · subst same
        simp [Write.apply, Write.puts, Write.notes, ih, Function.comp_def]
      · simp [Write.apply, Write.puts, Write.notes, same, Ne.symm same, ih]
    | skip => simp [Write.apply, Write.puts, Write.notes, ih]

/-- The value and the note that a replay leaves, by the place of the last `put`. -/
theorem replay_some {log : List (Write κ β γ)} {k : κ} {b : β} {c : Option γ} (left : replay log k = some (b, c)) :
    ∃ before after, log = before ++ Write.put k b :: after ∧ (∀ e ∈ after, e.puts k = none) ∧
      c = (after.filterMap (Write.notes k)).getLast? := by
  induction log using List.reverseRecOn generalizing b c with
  | nil => simp [replay] at left
  | append_singleton log e ih =>
    rw [replay_concat] at left
    -- Either the last write puts this key, or the place is the one for the shorter log.
    have keep : ∀ {c'}, replay log k = some (b, c') → e.puts k = none → (∃ before after,
        log ++ [e] = before ++ Write.put k b :: after ∧ (∀ e ∈ after, e.puts k = none) ∧
        ((e.notes k).or c') = (after.filterMap (Write.notes k)).getLast?) := by
      intro c' short quiet
      obtain ⟨before, after, rfl, silent, rfl⟩ := ih short
      refine ⟨before, after ++ [e], by simp, ?_, ?_⟩
      · simpa [or_imp, forall_and] using ⟨silent, quiet⟩
      · cases h : e.notes k <;> simp [List.filterMap_append, h]
    cases e with
    | put k' b' =>
      by_cases same : k' = k
      · subst same
        obtain ⟨rfl, rfl⟩ : b' = b ∧ none = c := by simpa [Write.apply] using left
        exact ⟨log, [], rfl, by simp, rfl⟩
      · have short : replay log k = some (b, c) := by simpa [Write.apply, Ne.symm same] using left
        simpa [Write.notes] using keep short (by simp [Write.puts, same])
    | note k' c' =>
      by_cases same : k' = k
      · subst same
        obtain ⟨r, old, pair⟩ : ∃ r, replay log k' = some r ∧ (r.1, some c') = (b, c) := by
          simpa [Write.apply] using left
        obtain ⟨rfl, rfl⟩ : r.1 = b ∧ some c' = c := by simpa using pair
        simpa [Write.notes] using @keep r.2 old (by simp [Write.puts])
      · have short : replay log k = some (b, c) := by simpa [Write.apply, Ne.symm same] using left
        simpa [Write.notes, same] using keep short (by simp [Write.puts])
    | skip => simpa [Write.notes] using keep left (by simp [Write.puts])

/-- A key is in the map exactly when something was put for it. -/
theorem replay_isSome (log : List (Write κ β γ)) (k : κ) :
    (replay log k).isSome ↔ ∃ b, Write.put k b ∈ log := by
  rw [replay_lastPut, Option.isSome_map, lastPut]
  constructor
  · intro filled
    obtain ⟨b, last⟩ := Option.isSome_iff_exists.mp filled
    obtain ⟨e, inside, sets⟩ := List.mem_filterMap.mp (List.mem_of_getLast? last)
    exact ⟨b, Write.puts_eq_some sets ▸ inside⟩
  · rintro ⟨b, member⟩
    have inside : b ∈ log.filterMap (Write.puts k) :=
      List.mem_filterMap.mpr ⟨_, member, by simp [Write.puts]⟩
    obtain ⟨last, found⟩ := Option.ne_none_iff_exists'.mp
      (fun h => List.ne_nil_of_mem inside (List.getLast?_eq_none_iff.mp h))
    rw [found]
    rfl

end log

end DhcpdPools.KeyedTable
