import Mathlib

/-!
Machines that read a list of inputs and may stop: a run is a fold of the step.
Two results match when both stop for one reason or both go on in related states;
matching results stay so when both go on (`Match.bind`).
-/
namespace DhcpdPools.Machine
universe u

variable {ε σ τ ι κ : Type u}

/-- A result behind a bind has one in front of it. -/
theorem bind_ok {x : Except ε σ} {f : σ → Except ε τ} {t : τ} (went : (x >>= f) = .ok t) : ∃ s, x = .ok s ∧ f s = .ok t := by
  cases x with
  | error e => cases went
  | ok s => exact ⟨s, rfl, went⟩

theorem map_ok {x : Except ε σ} {f : σ → τ} {t : τ} (went : x.map f = .ok t) : ∃ s, x = .ok s ∧ f s = t := by
  cases x with
  | error e => cases went
  | ok s => exact ⟨s, rfl, Except.ok.inj went⟩

/-- Reading a list of inputs. -/
def run (step : σ → ι → Except ε σ) (s : σ) (inputs : List ι) : Except ε σ := inputs.foldlM step s

section run
variable (step : σ → ι → Except ε σ)

@[simp] theorem run_nil (s : σ) : run step s [] = .ok s := rfl

theorem run_cons (s : σ) (i : ι) (rest : List ι) :
    run step s (i :: rest) = (step s i >>= fun s' => run step s' rest) := rfl

theorem run_append (s : σ) (first rest : List ι) :
    run step s (first ++ rest) = (run step s first >>= fun s' => run step s' rest) :=
  List.foldlM_append

theorem run_ok {s s' : σ} {i : ι} (ok : step s i = .ok s') (rest : List ι) :
    run step s (i :: rest) = run step s' rest := by
  rw [run_cons, ok]
  rfl

theorem run_one (s : σ) (i : ι) : run step s [i] = step s i := by
  rw [run_cons]
  cases step s i <;> rfl

/-- A run that goes through a state that is known. -/
theorem run_through {s s' : σ} {first : List ι} (ok : run step s first = .ok s') (rest : List ι) :
    run step s (first ++ rest) = run step s' rest := by
  rw [run_append, ok]
  rfl

end run

/-- Both stop for one reason, or both go on in related states. -/
def Match (R : σ → τ → Prop) : Except ε σ → Except ε τ → Prop
  | .ok s, .ok t => R s t
  | .error e, .error e' => e = e'
  | _, _ => False

theorem Match.bind {σ' τ' : Type u} {R : σ → τ → Prop} {R' : σ' → τ' → Prop} {x : Except ε σ} {y : Except ε τ}
    {f : σ → Except ε σ'} {g : τ → Except ε τ'} (first : Match R x y)
    (rest : ∀ s t, R s t → Match R' (f s) (g t)) : Match R' (x >>= f) (y >>= g) := by
  cases x with
  | error e =>
    cases y with
    | error e' => exact first
    | ok t => exact first.elim
  | ok s =>
    cases y with
    | error e' => exact first.elim
    | ok t => exact rest s t first

theorem Match.mono {R R' : σ → τ → Prop} {x : Except ε σ} {y : Except ε τ} (weaker : ∀ s t, R s t → R' s t)
    (matched : Match R x y) : Match R' x y := by
  cases x with
  | error e =>
    cases y with
    | error e' => exact matched
    | ok t => exact matched.elim
  | ok s =>
    cases y with
    | error e' => exact matched.elim
    | ok t => exact weaker s t matched

theorem Match.of_ok {R : σ → τ → Prop} {x : Except ε σ} {t : τ} (matched : Match R x (.ok t)) : ∃ s, x = .ok s ∧ R s t := by
  cases x with
  | error e => exact matched.elim
  | ok s => exact ⟨s, rfl, matched⟩

/-- What matches one result through a function matches it. -/
theorem Match.map_eq {α : Type u} {f : σ → α} {g : τ → α} {x : Except ε σ} {y : Except ε τ}
    (matched : Match (fun s t => f s = g t) x y) : x.map f = y.map g := by
  cases x with
  | error e =>
    cases y with
    | error e' => exact congrArg Except.error matched
    | ok t => exact matched.elim
  | ok s =>
    cases y with
    | error e' => exact matched.elim
    | ok t => exact congrArg Except.ok matched

/-- Both stop, or both go on in related states. -/
def Both (R : σ → τ → Prop) : Except ε σ → Except ε τ → Prop
  | .ok s, .ok t => R s t
  | .error _, .error _ => True
  | _, _ => False

/-- Each step of a run meets a condition. -/
def Always (step : σ → ι → Except ε σ) (P : σ → ι → Prop) : σ → List ι → Prop
  | _, [] => True
  | s, i :: rest =>
    P s i ∧ match step s i with
      | .error _ => True
      | .ok s' => Always step P s' rest

instance decidableAlways (step : σ → ι → Except ε σ) (P : σ → ι → Prop) [∀ s i, Decidable (P s i)] :
    ∀ (s : σ) (inputs : List ι), Decidable (Always step P s inputs)
  | _, [] => isTrue trivial
  | s, i :: rest => by
    have later : ∀ x : Except ε σ, Decidable (match x with
        | .error _ => True
        | .ok s' => Always step P s' rest) := fun x =>
      match x with
      | .error _ => isTrue trivial
      | .ok s' => decidableAlways step P s' rest
    exact @instDecidableAnd _ _ _ (later (step s i))

/-- Two runs stay related when their steps do, as long as the first one meets the condition. -/
theorem Both.run {step : σ → ι → Except ε σ} {step' : τ → ι → Except ε τ} {R : σ → τ → Prop} {P : σ → ι → Prop}
    (steps : ∀ s t i, R s t → P s i → Both R (step s i) (step' t i)) (inputs : List ι) : ∀ {s : σ} {t : τ},
    R s t → Always step P s inputs → Both R (run step s inputs) (run step' t inputs) := by
  induction inputs with
  | nil => exact fun related _ => related
  | cons i rest ih =>
    intro s t related always
    obtain ⟨here, later⟩ := always
    have stepped := steps s t i related here
    rw [run_cons, run_cons]
    cases first : step s i with
    | error e =>
      rw [first] at stepped
      cases second : step' t i with
      | error e' => exact trivial
      | ok t' =>
        rw [second] at stepped
        exact stepped.elim
    | ok s' =>
      rw [first] at stepped later
      cases second : step' t i with
      | error e' =>
        rw [second] at stepped
        exact stepped.elim
      | ok t' =>
        rw [second] at stepped
        exact ih stepped later

end DhcpdPools.Machine
