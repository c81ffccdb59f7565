/-
Procedures with a state, exceptions, and fuel for their recursion.

A recursive procedure over a file system or a store need not end, so its model gets fuel. A
procedure that runs out of it has no result at all; an exception, in contrast, is a result, and it
leaves the state in which it was raised. This is what a language with mutable state does, and it
keeps running for ever apart from being stopped.

`EndsAt I m s` says that `m` ends from `s` and leaves a state with `I`. Its rules follow the shape
of the procedure: one for every way to build it, and one for a loop over a list. A procedure with
more fuel `Extends` the one with less, so a result does not depend on how much there was.
-/
import Mathlib.Tactic

set_option autoImplicit false

namespace AndroidTools

/-- A procedure that returns an `α`, raises an `ε`, or runs out of fuel. -/
def Proc (ε σ α : Type) : Type := σ → Option (Except ε α × σ)

namespace Proc

variable {ε σ α β : Type}

instance : Monad (Proc ε σ) where
  pure a := fun s => some (.ok a, s)
  bind m f := fun s =>
    match m s with
    | none => none
    | some (.error e, s) => some (.error e, s)
    | some (.ok a, s) => f a s

/-- The procedure that runs out of fuel, whatever the state. -/
def diverge : Proc ε σ α := fun _ => none

def raise (e : ε) : Proc ε σ α := fun s => some (.error e, s)

/-- The procedure that reads the state and leaves it as it is. -/
def state : Proc ε σ σ := fun s => some (.ok s, s)

def modify (g : σ → σ) : Proc ε σ Unit := fun s => some (.ok (), g s)

section Sequence

variable {m : Proc ε σ α} {s t : σ}

theorem bind_of_ok {a : α} (h : m s = some (.ok a, t)) (f : α → Proc ε σ β) :
    (m >>= f) s = f a t := by
  simp only [Bind.bind, h]

theorem bind_of_error {e : ε} (h : m s = some (.error e, t)) (f : α → Proc ε σ β) :
    (m >>= f) s = some (.error e, t) := by
  simp only [Bind.bind, h]

theorem bind_of_none (h : m s = none) (f : α → Proc ε σ β) : (m >>= f) s = none := by
  simp only [Bind.bind, h]

end Sequence

/-! ## Procedures that end

Running out of fuel is no result, so ending has to be proved. `EndsAt` is the rule for it,
with an invariant that holds in every state a procedure leaves, also by an exception; a
recursion whose depth is bounded by the invariant then ends by induction on the bound.
-/

/-- From `s` the procedure ends, by returning or by an exception, and the state it leaves has `I`.
-/
def EndsAt (I : σ → Prop) (m : Proc ε σ α) (s : σ) : Prop :=
  ∃ r s', m s = some (r, s') ∧ I s'

section Ends

variable {I : σ → Prop} {s : σ}

theorem endsAt_pure (a : α) (hs : I s) : EndsAt I (pure a : Proc ε σ α) s :=
  ⟨.ok a, s, rfl, hs⟩

theorem endsAt_raise (e : ε) (hs : I s) : EndsAt I (raise e : Proc ε σ α) s :=
  ⟨.error e, s, rfl, hs⟩

theorem endsAt_modify {g : σ → σ} (hs : I (g s)) : EndsAt I (modify g : Proc ε σ Unit) s :=
  ⟨.ok (), g s, rfl, hs⟩

/-- Sequencing: if the first of two procedures ends, and from every state with `I` the second
does, then so does the sequence. An exception of the first one is an end as well. -/
theorem EndsAt.bind {m : Proc ε σ α} {f : α → Proc ε σ β} (hm : EndsAt I m s)
    (hf : ∀ a t, I t → EndsAt I (f a) t) : EndsAt I (m >>= f) s := by
  obtain ⟨r, t, hr, ht⟩ := hm
  cases r with
  | error e => exact ⟨.error e, t, bind_of_error hr f, ht⟩
  | ok a =>
    obtain ⟨r', t', hr', ht'⟩ := hf a t ht
    exact ⟨r', t', (bind_of_ok hr f).trans hr', ht'⟩

/-- What follows a look at the state may use which state it is. -/
theorem endsAt_state {f : σ → Proc ε σ β} (h : EndsAt I (f s) s) :
    EndsAt I (state >>= f) s := h

theorem endsAt_foldlM {f : β → α → Proc ε σ β} {l : List α} (b : β)
    (hf : ∀ a ∈ l, ∀ b t, I t → EndsAt I (f b a) t) (hs : I s) : EndsAt I (l.foldlM f b) s := by
  induction l generalizing b s with
  | nil => exact endsAt_pure b hs
  | cons a l ih =>
    rw [List.foldlM_cons]
    refine (hf a List.mem_cons_self b s hs).bind fun c t ht => ?_
    exact ih c (fun x hx => hf x (List.mem_cons_of_mem _ hx)) ht

end Ends

/-! ## More fuel

A procedure with more fuel is the same where the first one had enough. So a result does not
depend on how much fuel was given, and "enough fuel" can be chosen separately for each call.
-/

/-- The order of procedures by their fuel: the second ends wherever the first does, and in the
same way. -/
def Extends (m m' : Proc ε σ α) : Prop := ∀ s r, m s = some r → m' s = some r

theorem Extends.refl (m : Proc ε σ α) : Extends m m := fun _ _ h => h

theorem Extends.bind {m m' : Proc ε σ α} {f f' : α → Proc ε σ β} (hm : Extends m m')
    (hf : ∀ a, Extends (f a) (f' a)) : Extends (m >>= f) (m' >>= f') := by
  intro s r h
  cases hms : m s with
  | none =>
    rw [bind_of_none hms] at h
    cases h
  | some q =>
    have hms' := hm s q hms
    obtain ⟨e | a, t⟩ := q
    · rw [bind_of_error hms] at h
      rw [bind_of_error hms', h]
    · rw [bind_of_ok hms] at h
      rw [bind_of_ok hms']
      exact hf a t r h

theorem Extends.foldlM {f f' : β → α → Proc ε σ β} (hf : ∀ b a, Extends (f b a) (f' b a))
    (l : List α) (b : β) : Extends (l.foldlM f b) (l.foldlM f' b) := by
  induction l generalizing b with
  | nil => exact Extends.refl _
  | cons a l ih =>
    rw [List.foldlM_cons, List.foldlM_cons]
    exact (hf b a).bind ih

end Proc

end AndroidTools
