/-
Loops over a list with a pass number, whose passes may fail.

A pass takes its number, its element and the state, and returns the next state or an error; the
first error ends the loop. Two rules carry the proofs about such loops. What every pass keeps
holds at the end (`passes_invariant`), and the loop ends in an error exactly if one of the passes
it comes to does (`passes_ne_error_iff`); `bind_ne_error_iff` is the second rule for a sequence of
two computations.

The second rule is stated for one error at a time. A loop may have several reasons to stop, and a
condition is often about one of them only; `passes_returns` puts the two rules together for a loop
that can stop for no other reason.
-/
import Mathlib.Tactic

set_option autoImplicit false

namespace AndroidTools.Passes

section Sequence

universe u

variable {ε : Type*} {α β : Type u} {x : Except ε α} {f : α → Except ε β}

theorem ok_bind (a : α) (f : α → Except ε β) : ((Except.ok a : Except ε α) >>= f) = f a := rfl

theorem ok_ne_error (a : α) (e : ε) : (Except.ok a : Except ε α) ≠ .error e := by
  rintro ⟨⟩

theorem error_ne_error {e' e : ε} (h : e' ≠ e) : (Except.error e' : Except ε α) ≠ .error e :=
  fun heq => h (Except.error.inj heq)

/-- A successful sequence had a successful first step. -/
theorem bind_ok {b : β} (h : (x >>= f) = .ok b) : ∃ a, x = .ok a ∧ f a = .ok b := by
  cases x with
  | error e => cases h
  | ok a => exact ⟨a, rfl, h⟩

/-- Where `x.map g` has a result, `x` has one, and it is the one that `g` was applied to. -/
theorem except_map_ok {g : α → β} {b : β} (h : x.map g = .ok b) : ∃ a, x = .ok a ∧ g a = b := by
  cases x with
  | error e => cases h
  | ok a => exact ⟨a, rfl, Except.ok.inj h⟩

/-- Renaming the errors of a computation does not touch a result it has. -/
theorem mapError_ok {ε' : Type*} {g : ε → ε'} {a : α} (h : x.mapError g = .ok a) : x = .ok a := by
  cases x with
  | error e => cases h
  | ok b => exact congrArg Except.ok (Except.ok.inj h)

/-- A sequence does not end in `e` exactly if none of its two parts does. -/
theorem bind_ne_error_iff {e : ε} :
    (x >>= f) ≠ .error e ↔ x ≠ .error e ∧ ∀ a, x = .ok a → f a ≠ .error e := by
  cases x with
  | error e' =>
    constructor
    · intro h
      refine ⟨?_, fun a ha => nomatch ha⟩
      rintro ⟨rfl⟩
      exact h rfl
    · rintro ⟨h, -⟩ ⟨rfl⟩
      exact h rfl
  | ok a =>
    constructor
    · intro h
      refine ⟨ok_ne_error a e, fun b hb => ?_⟩
      cases hb
      exact h
    · exact fun h => h.2 a rfl

/-- A successful `mapM` had a successful call for every element. -/
theorem mapM_ok {γ : Type*} {g : γ → Except ε β} {l : List γ} {bs : List β}
    (h : l.mapM g = .ok bs) : List.Forall₂ (fun c b => g c = .ok b) l bs := by
  induction l generalizing bs with
  | nil =>
    cases h
    exact .nil
  | cons c l ih =>
    rw [List.mapM_cons] at h
    obtain ⟨b, hb, h⟩ := bind_ok h
    obtain ⟨bs', hbs', h⟩ := bind_ok h
    cases h
    exact .cons hb (ih hbs')

theorem mapM_eq_map {γ : Type*} {g : γ → Except ε β} {k : γ → β} {l : List γ}
    (h : ∀ c ∈ l, g c = .ok (k c)) : l.mapM g = .ok (l.map k) := by
  induction l with
  | nil => rfl
  | cons c l ih =>
    rw [List.forall_mem_cons] at h
    rw [List.mapM_cons, h.1, ok_bind, ih h.2, List.map_cons]
    rfl

theorem mapM_total {γ : Type*} {g : γ → Except ε β} {l : List γ}
    (h : ∀ c ∈ l, ∃ b, g c = .ok b) : ∃ bs, l.mapM g = .ok bs := by
  induction l with
  | nil => exact ⟨[], rfl⟩
  | cons c l ih =>
    rw [List.forall_mem_cons] at h
    obtain ⟨b, hb⟩ := h.1
    obtain ⟨bs, hbs⟩ := ih h.2
    exact ⟨b :: bs, by rw [List.mapM_cons, hb, ok_bind, hbs]; rfl⟩

end Sequence

variable {ε σ α : Type*} (step : ℕ → α → σ → Except ε σ)

/-- A loop over a list that counts its passes: the passes from number `j` on, each in the state
that the one before has left, and the first error ends the loop. -/
def passes : ℕ → List α → σ → Except ε σ
  | _, [], s => .ok s
  | j, a :: as, s => step j a s >>= passes (j + 1) as

theorem passes_cons (j : ℕ) (a : α) (as : List α) (s : σ) :
    passes step j (a :: as) s = step j a s >>= passes step (j + 1) as := rfl

variable {step}

/-- The invariant rule. What holds before pass `j` and is kept by every pass holds, with the
number of the next pass, when the loop ends. -/
theorem passes_invariant (I : ℕ → σ → Prop) {as : List α} {j : ℕ} {s s' : σ}
    (hstep : ∀ i a t t', as[i]? = some a → I (j + i) t → step (j + i) a t = .ok t' →
      I (j + i + 1) t')
    (hs : I j s) (h : passes step j as s = .ok s') : I (j + as.length) s' := by
  induction as generalizing j s with
  | nil =>
    cases h
    exact hs
  | cons a as ih =>
    rw [passes_cons] at h
    obtain ⟨t, ht, h⟩ := bind_ok h
    have h0 : I (j + 1) t := hstep 0 a s t rfl hs ht
    have hlen : j + (a :: as).length = j + 1 + as.length := by
      rw [List.length_cons]
      omega
    rw [hlen]
    -- the rest begins one pass later
    refine ih (fun i b u u' hb hI hu => ?_) h0 h
    have hidx : j + 1 + i = j + (i + 1) := by omega
    rw [hidx] at hI hu ⊢
    exact hstep (i + 1) b u u' hb hI hu

/-- In a loop that ends without an error every element of the list had a pass that succeeded. -/
theorem passes_pass {as : List α} {j : ℕ} {s s' : σ} (h : passes step j as s = .ok s') {a : α}
    (ha : a ∈ as) : ∃ i t t', step i a t = .ok t' := by
  induction as generalizing j s with
  | nil => exact absurd ha List.not_mem_nil
  | cons b as ih =>
    rw [passes_cons] at h
    obtain ⟨t, ht, h⟩ := bind_ok h
    rcases List.mem_cons.mp ha with rfl | ha
    · exact ⟨j, s, t, ht⟩
    · exact ih h ha

/-- The error rule. The loop ends in `e` exactly if a pass does that it comes to, that is, one all
of whose earlier passes succeed. -/
theorem passes_ne_error_iff {e : ε} {as : List α} {j : ℕ} {s : σ} :
    passes step j as s ≠ .error e ↔
      ∀ i a t, as[i]? = some a → passes step j (as.take i) s = .ok t →
        step (j + i) a t ≠ .error e := by
  induction as generalizing j s with
  | nil => exact iff_of_true (fun h => nomatch h) fun i a t ha => nomatch ha
  | cons b as ih =>
    rw [passes_cons, bind_ne_error_iff]
    constructor
    · rintro ⟨hfirst, hrest⟩ i a t ha hrun
      -- the first pass, or one of the rest
      cases i with
      | zero =>
        cases ha
        cases hrun
        exact hfirst
      | succ i =>
        rw [List.take_succ_cons, passes_cons] at hrun
        obtain ⟨u, hu, hrun⟩ := bind_ok hrun
        have hidx : j + 1 + i = j + (i + 1) := by omega
        rw [← hidx]
        exact ih.mp (hrest u hu) i a t ha hrun
    · intro h
      refine ⟨h 0 b s rfl rfl, fun u hu => ih.mpr fun i a t ha hrun => ?_⟩
      have hidx : j + 1 + i = j + (i + 1) := by omega
      rw [hidx]
      refine h (i + 1) a t ha ?_
      rw [List.take_succ_cons, passes_cons, hu]
      exact hrun

/-- If the loop does not end in `e`, then neither does it when it is stopped after its first
passes. -/
theorem passes_take_ne_error {e : ε} {as : List α} {j : ℕ} {s : σ}
    (h : passes step j as s ≠ .error e) (i : ℕ) : passes step j (as.take i) s ≠ .error e := by
  rw [passes_ne_error_iff] at h ⊢
  intro i' a t ha hrun
  rw [List.getElem?_take] at ha
  split_ifs at ha with hlt
  rw [List.take_take, Nat.min_eq_left hlt.le] at hrun
  exact h i' a t ha hrun

/-- A loop whose passes keep an invariant and return, unless they end in `e`. -/
theorem passes_returns (I : ℕ → σ → Prop) {e : ε} {as : List α} {j : ℕ} {s : σ}
    (hstep : ∀ i a t, as[i]? = some a → I (j + i) t → step (j + i) a t ≠ .error e →
      ∃ t', step (j + i) a t = .ok t' ∧ I (j + i + 1) t')
    (hs : I j s) (h : passes step j as s ≠ .error e) :
    ∃ s', passes step j as s = .ok s' ∧ I (j + as.length) s' := by
  induction as generalizing j s with
  | nil => exact ⟨s, rfl, hs⟩
  | cons a as ih =>
    rw [passes_cons, bind_ne_error_iff] at h
    obtain ⟨t, ht, hI⟩ := hstep 0 a s rfl hs h.1
    have hlen : j + (a :: as).length = j + 1 + as.length := by
      rw [List.length_cons]
      omega
    rw [passes_cons, hlen]
    rw [Nat.add_zero] at ht hI
    rw [ht]
    refine ih (fun i b u hb hu hne => ?_) hI (h.2 t ht)
    have hidx : j + 1 + i = j + (i + 1) := by omega
    rw [hidx] at hu hne ⊢
    exact hstep (i + 1) b u hb hu hne

end AndroidTools.Passes
