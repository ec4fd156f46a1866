import DhcpdPools.KeyedTable

/-!
A log in blocks. A block writes to one key only and puts something for it, so what a
replay leaves for a key is what the last block of the key leaves on its own
(`replay_blocks`).
-/
namespace DhcpdPools.KeyedTable
universe u v w

variable {κ : Type u} {β : Type v} {γ : Type w} [DecidableEq κ]

/-- A write to `k`, or none at all. -/
def Write.About (k : κ) (e : Write κ β γ) : Prop := ∀ k' ≠ k, e.puts k' = none ∧ e.notes k' = none

theorem foldl_congr {k : κ} (log : List (Write κ β γ)) : ∀ {m m' : κ → Option (β × Option γ)}, m k = m' k →
    log.foldl Write.apply m k = log.foldl Write.apply m' k := by
  induction log with
  | nil => exact id
  | cons e rest ih => exact fun same => ih (e.apply_congr same)

/-- Behind a `put` to a key, what was there before does not matter. -/
theorem foldl_put {k : κ} {b : β} {log : List (Write κ β γ)} (puts : Write.put k b ∈ log) :
    ∀ m m' : κ → Option (β × Option γ), log.foldl Write.apply m k = log.foldl Write.apply m' k := by
  induction log with
  | nil => cases puts
  | cons e rest ih =>
    intro m m'
    rcases List.mem_cons.mp puts with rfl | later
    · exact foldl_congr rest (by simp [Write.apply])
    · exact ih later _ _

theorem foldl_other {k k' : κ} (other : k' ≠ k) (log : List (Write κ β γ)) (about : ∀ e ∈ log, e.About k) :
    ∀ m : κ → Option (β × Option γ), log.foldl Write.apply m k' = m k' := by
  induction log with
  | nil => exact fun _ => rfl
  | cons e rest ih =>
    intro m
    rw [List.foldl_cons, ih (fun e member => about e (List.mem_cons_of_mem _ member)),
      Write.apply_other (about e List.mem_cons_self k' other).1 (about e List.mem_cons_self k' other).2]

theorem foldl_skips {log : List (Write κ β γ)} (skips : ∀ e ∈ log, e = .skip) (m : κ → Option (β × Option γ)) :
    log.foldl Write.apply m = m := by
  induction log with
  | nil => rfl
  | cons e rest ih =>
    rw [List.foldl_cons, skips e List.mem_cons_self]
    exact ih fun e member => skips e (List.mem_cons_of_mem _ member)

/-- Writes to one key, one of them a `put`. -/
structure Block (κ : Type u) (β : Type v) (γ : Type w) [DecidableEq κ] where
  key : κ
  log : List (Write κ β γ)
  about : ∀ e ∈ log, e.About key
  puts : ∃ b, Write.put key b ∈ log

/-- What a block leaves for its key. -/
def Block.leaves (b : Block κ β γ) : Option (β × Option γ) := replay b.log b.key

/-- The last block of a key. -/
def latest (k : κ) (blocks : List (Block κ β γ)) : Option (Block κ β γ) :=
  (blocks.filter fun b => decide (b.key = k)).getLast?

theorem latest_concat (k : κ) (blocks : List (Block κ β γ)) (b : Block κ β γ) :
    latest k (blocks ++ [b]) = if b.key = k then some b else latest k blocks := by
  unfold latest
  rw [List.filter_append]
  by_cases here : b.key = k <;> simp [here]

theorem replay_block (blocks : List (Block κ β γ)) (b : Block κ β γ) :
    replay ((blocks ++ [b]).flatMap Block.log) = Function.update (replay (blocks.flatMap Block.log)) b.key b.leaves := by
  funext k
  have split : (blocks ++ [b]).flatMap Block.log = blocks.flatMap Block.log ++ b.log := by simp
  rw [split, replay, List.foldl_append, Function.update_apply]
  by_cases here : k = b.key
  · subst here
    obtain ⟨value, puts⟩ := b.puts
    rw [if_pos rfl, Block.leaves, replay]
    exact foldl_put puts _ _
  · rw [if_neg here, foldl_other here b.log b.about]
    rfl

/-- The last block of a key decides what is left for it. -/
theorem replay_blocks (blocks : List (Block κ β γ)) (k : κ) :
    replay (blocks.flatMap Block.log) k = (latest k blocks).bind Block.leaves := by
  induction blocks using List.reverseRecOn with
  | nil => rfl
  | append_singleton blocks b ih =>
    rw [replay_block, Function.update_apply, latest_concat]
    by_cases here : k = b.key
    · rw [if_pos here, if_pos here.symm]
      rfl
    · rw [if_neg here, if_neg (Ne.symm here), ih]

end DhcpdPools.KeyedTable
