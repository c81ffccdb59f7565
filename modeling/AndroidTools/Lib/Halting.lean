/-
Machines that stop.

A machine is a partial step function, and it stops in a state without a step. Three rules are
enough for the loops of this development. One step changes nothing about whether a machine stops;
a set of states that every step stays in, and none of which is without a step, is never left; and
a machine seen through a map that takes its steps to the steps of another one stops where that one
does.

A machine that may go on for ever has no result that could be computed. `steps` takes a bounded
number of steps instead: what each of them keeps holds behind them, and where a measure goes down
as many as it counts come to the end.
-/
import Mathlib.Computability.StateTransition

set_option autoImplicit false

namespace AndroidTools.Halting

open StateTransition Relation

variable {σ τ : Type*} {step : σ → Option σ}

/-- From `s` the machine comes to a state without a step. -/
def Halts (step : σ → Option σ) (s : σ) : Prop := ∃ t, Reaches step s t ∧ step t = none

theorem halts_of_none {s : σ} (h : step s = none) : Halts step s := ⟨s, ReflTransGen.refl, h⟩

theorem halts_iff_of_step {s t : σ} (h : step s = some t) : Halts step s ↔ Halts step t := by
  constructor
  · rintro ⟨u, hreach, hu⟩
    rcases ReflTransGen.cases_head hreach with rfl | ⟨t', ht', hrest⟩
    · rw [h] at hu
      cases hu
    · rw [Option.mem_def, h, Option.some.injEq] at ht'
      exact ⟨u, ht' ▸ hrest, hu⟩
  · rintro ⟨u, hreach, hu⟩
    exact ⟨u, ReflTransGen.head h hreach, hu⟩

/-- What holds where the machine stops, and before every step behind which it holds, holds
wherever the machine stops in the end. It is the induction from the end of a run to its beginning.
-/
theorem Halts.induction {motive : σ → Prop} {s : σ} (h : Halts step s)
    (stop : ∀ t, step t = none → motive t)
    (next : ∀ t u, step t = some u → motive u → motive t) : motive s := by
  obtain ⟨u, hreach, hu⟩ := h
  induction hreach using ReflTransGen.head_induction_on with
  | refl => exact stop u hu
  | head hstep _ ih => exact next _ _ hstep ih

/-- Where every step leads back into a set, and there always is one, the machine goes on for ever.
-/
theorem not_halts_of_invariant {I : σ → Prop} (h : ∀ s, I s → ∃ t, step s = some t ∧ I t) {s : σ}
    (hs : I s) : ¬ Halts step s := by
  intro hhalt
  refine hhalt.induction (motive := fun s => ¬ I s) ?_ ?_ hs
  · intro t hnone ht
    obtain ⟨u, hu, -⟩ := h t ht
    rw [hnone] at hu
    cases hu
  · intro t u hstep hu ht
    obtain ⟨u', hu', hin⟩ := h t ht
    rw [hstep, Option.some.injEq] at hu'
    exact hu (hu' ▸ hin)

theorem halts_iff_dom (step : σ → Option σ) (s : σ) : Halts step s ↔ (eval step s).Dom := by
  simp only [Halts, Part.dom_iff_mem, mem_eval]

/-- A machine stops where the one it is mapped to does. A memory, say, can so be forgotten for the
few numbers that the steps depend on. -/
theorem halts_map_iff {step' : τ → Option τ} {f : σ → τ}
    (h : ∀ s, (step s).map f = step' (f s)) (s : σ) : Halts step s ↔ Halts step' (f s) := by
  have hrespects : Respects step step' fun s t => f s = t := by
    rw [fun_respects]
    intro s
    have hs := h s
    cases hstep : step s with
    | none =>
      rw [hstep] at hs
      exact hs.symm
    | some t =>
      rw [hstep] at hs
      exact TransGen.single hs.symm
  rw [halts_iff_dom, halts_iff_dom]
  exact (tr_eval_dom hrespects rfl).symm

/-! ## A bounded number of steps

`Halts` is a property and cannot be evaluated. `steps` runs the machine for a number of
steps, so a bound on their number, from a measure that each step makes smaller, gives both
the end and a way to compute it.
-/

/-- At most `n` steps, fewer if the machine stops. -/
def steps (step : σ → Option σ) : ℕ → σ → σ
  | 0, s => s
  | n + 1, s => ((step s).map (steps step n)).getD s

theorem steps_succ (n : ℕ) {s t : σ} (h : step s = some t) :
    steps step (n + 1) s = steps step n t := by
  rw [steps, h]
  rfl

theorem steps_of_none (n : ℕ) {s : σ} (h : step s = none) : steps step n s = s := by
  cases n with
  | zero => rfl
  | succ n =>
    rw [steps, h]
    rfl

/-- What every step keeps holds behind any number of them. -/
theorem steps_invariant {I : σ → Prop} (hstep : ∀ s t, I s → step s = some t → I t) (n : ℕ) {s : σ}
    (hs : I s) : I (steps step n s) := by
  induction n generalizing s with
  | zero => exact hs
  | succ n ih =>
    cases ht : step s with
    | none => rwa [steps_of_none _ ht]
    | some t =>
      rw [steps_succ _ ht]
      exact ih (hstep s t hs ht)

/-- Where every step makes a measure smaller, as many steps as it counts lead to the end. -/
theorem steps_stopped {I : σ → Prop} {size : σ → ℕ}
    (hstep : ∀ s t, I s → step s = some t → I t ∧ size t < size s) (n : ℕ) {s : σ} (hs : I s)
    (hn : size s ≤ n) : step (steps step n s) = none := by
  induction n generalizing s with
  | zero =>
    cases ht : step s with
    | none => exact ht
    | some t =>
      have hlt := (hstep s t hs ht).2
      omega
  | succ n ih =>
    cases ht : step s with
    | none => rwa [steps_of_none _ ht]
    | some t =>
      obtain ⟨hI, hlt⟩ := hstep s t hs ht
      rw [steps_succ _ ht]
      exact ih hI (by omega)

end AndroidTools.Halting
