import DhcpdPools.Machine

/-!
Machines whose state has registers. A register that each input sets or keeps holds, at
the end of a run, what was set last (`run_last`); one to which inputs append holds all of
it in order (`run_gathers`). When only the inputs decide whether the machine stops, the
first one that stops it says why (`run_ends`).
-/
namespace DhcpdPools.Machine
universe u v

variable {ε σ ι : Type u} {β : Type v}

/-- What the inputs that set a register set last. -/
def lastSet (sets : ι → Option β) (inputs : List ι) : Option β := (inputs.filterMap sets).getLast?

theorem lastSet_cons (sets : ι → Option β) (i : ι) (rest : List ι) :
    lastSet sets (i :: rest) = (lastSet sets rest).or (sets i) := by
  unfold lastSet
  cases set : sets i with
  | none => rw [List.filterMap_cons_none set, Option.or_none]
  | some b =>
    rw [List.filterMap_cons_some set, List.getLast?_cons]
    cases (rest.filterMap sets).getLast? <;> rfl

section
variable {step : σ → ι → Except ε σ}

/-- A property of a state and what is still to be read, kept by every step. -/
theorem run_induction {P : List ι → σ → Prop} (keeps : ∀ s i s' rest, step s i = .ok s' → P (i :: rest) s → P rest s') :
    ∀ {inputs : List ι} {s s' : σ}, run step s inputs = .ok s' → P inputs s → P [] s' := by
  intro inputs
  induction inputs with
  | nil =>
    intro s s' ran start
    cases ran
    exact start
  | cons i rest ih =>
    intro s s' ran start
    obtain ⟨s1, first, later⟩ := bind_ok ran
    exact ih later (keeps s i s1 rest first start)

/-- What is written to a register stands on what the register held before; the last write decides. -/
theorem run_overwrites {α : Type v} {get : σ → α} {sets : ι → Option β} {write : α → β → α}
    (overwrites : ∀ d a b, write (write d a) b = write d b)
    (keeps : ∀ s i s', step s i = .ok s' → get s' = (sets i).elim (get s) (write (get s))) {inputs : List ι} {s s' : σ}
    (ran : run step s inputs = .ok s') : get s' = (lastSet sets inputs).elim (get s) (write (get s)) := by
  refine (run_induction (P := fun rest t => (lastSet sets rest).elim (get t) (write (get t)) =
    (lastSet sets inputs).elim (get s) (write (get s))) ?_ ran rfl)
  intro t i t' rest went held
  rw [← held, keeps t i t' went, lastSet_cons]
  cases lastSet sets rest <;> cases sets i <;> simp [overwrites]

/-- A register holds what was set last. -/
theorem run_last (get : σ → β) (sets : ι → Option β)
    (keeps : ∀ s i s', step s i = .ok s' → get s' = (sets i).getD (get s)) {inputs : List ι} {s s' : σ}
    (ran : run step s inputs = .ok s') : get s' = (lastSet sets inputs).getD (get s) := by
  have same : ∀ (o : Option β) (d : β), o.getD d = o.elim d fun b => b := fun o d => by cases o <;> rfl
  rw [same]
  refine @run_overwrites ε σ ι β step β get sets (fun _ b => b) (fun _ _ _ => rfl) ?_ inputs s s' ran
  intro t i t' went
  rw [keeps t i t' went, same]

/-- A register to which inputs append holds all of it. -/
theorem run_gathers (get : σ → List β) (adds : ι → List β)
    (keeps : ∀ s i s', step s i = .ok s' → get s' = get s ++ adds i) {inputs : List ι} {s s' : σ}
    (ran : run step s inputs = .ok s') : get s' = get s ++ inputs.flatMap adds := by
  refine (List.append_nil _).symm.trans
    (run_induction (P := fun rest t => get t ++ rest.flatMap adds = get s ++ inputs.flatMap adds) ?_ ran rfl)
  intro t i t' rest went held
  rw [← held, keeps t i t' went, List.flatMap_cons, List.append_assoc]

/-- Only the input decides whether a step stops, and why. -/
def Decided (step : σ → ι → Except ε σ) (ends : ι → Option ε) : Prop :=
  ∀ s i, (∃ e, ends i = some e ∧ step s i = .error e) ∨ ∃ s', ends i = none ∧ step s i = .ok s'

/-- A run goes on to its end, or stops at the first input that ends it. -/
theorem run_ends {ends : ι → Option ε} (decided : Decided step ends) (inputs : List ι) (s : σ) :
    (∃ e, inputs.findSome? ends = some e ∧ run step s inputs = .error e) ∨
      ∃ s', inputs.findSome? ends = none ∧ run step s inputs = .ok s' := by
  induction inputs generalizing s with
  | nil => exact Or.inr ⟨s, rfl, rfl⟩
  | cons i rest ih =>
    rw [List.findSome?_cons, run_cons]
    rcases decided s i with ⟨e, ends, stops⟩ | ⟨s', goes, ok⟩
    · rw [ends, stops]
      exact Or.inl ⟨e, rfl, rfl⟩
    · rw [goes, ok]
      exact ih s'

end

end DhcpdPools.Machine
