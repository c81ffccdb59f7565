/-
Answers remembered in a dictionary.

A computation may look an answer up before it computes it, and may note what it has computed. What
is to be shown of it is that the dictionary makes no difference to what it returns.
`Answers` says this of one computation: from every state with the invariant the result is the
same, and the invariant holds again. The rules follow the shape of the computation, so `Answers`
goes through returning a value, lifting a computation without a state and sequencing.

`answers_eq_map` then carries it through a whole list of requests, where a request that stops with
an exception leaves the state as it is by then and the next one starts from there. The invariant a
dictionary needs is `Sound`, and `Sound.set` says that noting a right answer keeps it.
-/
import AndroidTools.Lib.Dict
import AndroidTools.Lib.Passes

set_option autoImplicit false

namespace AndroidTools.Memo

open Dict

/-! ## Computations that answer from any sound state

The state of such a computation is a dictionary of earlier answers, which must not show.
`Answers` says this of one computation: from any state with the invariant it gives one and
the same answer and leaves a state with the invariant. It composes, so the rule for `bind`
is all that a program built from such steps needs.
-/

section Answers

variable {σ ε α β : Type}

/-- From every state with the invariant `x` answers `r` and leaves such a state. -/
def Answers (I : σ → Prop) (x : ExceptT ε (StateM σ) α) (r : Except ε α) : Prop :=
  ∀ s, I s → (x.run.run s).1 = r ∧ I (x.run.run s).2

variable {I : σ → Prop}

theorem Answers.pure (a : α) : Answers (ε := ε) I (Pure.pure a) (.ok a) := fun _ hs => ⟨rfl, hs⟩

theorem Answers.lift (r : Except ε α) :
    Answers I (liftM r : ExceptT ε (StateM σ) α) r := fun _ hs => ⟨rfl, hs⟩

theorem run_bind (x : ExceptT ε (StateM σ) α) (f : α → ExceptT ε (StateM σ) β) (s : σ) :
    (x >>= f).run.run s = match x.run.run s with
      | (.ok a, s') => (f a).run.run s'
      | (.error e, s') => (.error e, s') := by
  simp only [ExceptT.run_bind, StateT.run_bind]
  cases x.run.run s with
  | mk r s' => cases r <;> rfl

theorem Answers.bind {x : ExceptT ε (StateM σ) α} {r : Except ε α}
    {f : α → ExceptT ε (StateM σ) β} {g : α → Except ε β} (hx : Answers I x r)
    (hf : ∀ a, Answers I (f a) (g a)) : Answers I (x >>= f) (r >>= g) := by
  intro s hs
  obtain ⟨hr, hs'⟩ := hx s hs
  rw [run_bind]
  generalize x.run.run s = rs at hr hs'
  obtain ⟨r', s'⟩ := rs
  cases hr
  cases r' with
  | error e => exact ⟨rfl, hs'⟩
  | ok a => exact hf a s' hs'

/-- The answers to a list of requests, one after the other, each in the state that the requests
before it have left. -/
def answers : List (ExceptT ε (StateM σ) α) → σ → List (Except ε α)
  | [], _ => []
  | x :: xs, s => (x.run.run s).1 :: answers xs (x.run.run s).2

theorem answers_eq_map {xs : List β} {x : β → ExceptT ε (StateM σ) α} {r : β → Except ε α}
    (h : ∀ b, Answers I (x b) (r b)) {s : σ} (hs : I s) :
    answers (xs.map x) s = xs.map r := by
  induction xs generalizing s with
  | nil => rfl
  | cons b xs ih =>
    obtain ⟨hr, hs'⟩ := h b s hs
    rw [List.map_cons, answers, hr, ih hs', List.map_cons]

end Answers

/-! ## The dictionary

The invariant for a dictionary in front of a function `f`: what it holds are values of `f`.
It is true of the empty one and stays true when a value of `f` is stored, whoever decides
whether it is.
-/

section Sound

variable {κ α ε : Type} [DecidableEq κ] {f : κ → Except ε α}

/-- A dictionary is sound for `f` if whatever it holds is an answer of `f`: then looking a key up
can only give what computing it would have given. -/
def Sound (f : κ → Except ε α) (d : List (κ × α)) : Prop :=
  ∀ k a, dictGet d k = some a → f k = .ok a

theorem sound_nil : Sound f [] := by
  intro k a h
  cases h

theorem Sound.set {d : List (κ × α)} (h : Sound f d) {k : κ} {a : α} (hk : f k = .ok a) :
    Sound f (dictSet d (k, a)) := by
  intro k' a' hget
  rw [dictGet_dictSet] at hget
  split_ifs at hget with heq
  · cases hget
    rw [heq, hk]
  · exact h k' a' hget

end Sound

end AndroidTools.Memo
