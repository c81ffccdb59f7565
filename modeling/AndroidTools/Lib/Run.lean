/-
Runs of a script that may leave through `sys.exit`.

A script works on a state (the files it opens) and stops early by exiting; what it did before that
stays done. `Run` keeps the state in both cases, so one can say what an aborted run has already
written. `each` is a `for` loop whose body may exit.

The loop rules are the ones every proof about such a loop uses: `each_append` cuts a loop in two,
`each_filter` and `each_filterMap` take out the elements that a body skips, and `each_invariant`
carries an invariant of the state through the iterations, whether the loop ends or exits.

`Logs` is the specification of a run that does nothing but add to a log, and it is compositional:
a sequence and a loop of such runs log what the parts log before which no part leaves.
-/
import Mathlib.Tactic

set_option autoImplicit false

namespace AndroidTools

/-- A run that goes on (`done`) or has left through `sys.exit` (`exit`), with
the state it leaves behind. -/
inductive Run (σ : Type*) where
  | done (s : σ)
  | exit (s : σ)
  deriving Repr, DecidableEq

namespace Run

variable {σ τ α : Type*}

/-- The state left behind, whether the run has exited or not. -/
def state : Run σ → σ
  | done s => s
  | exit s => s

/-- The state of a run that did not exit; an exited run has none. -/
def result? : Run σ → Option σ
  | done s => some s
  | exit _ => none

/-- Go on with `k` unless the run has exited. -/
def bind (r : Run σ) (k : σ → Run σ) : Run σ :=
  match r with
  | done s => k s
  | exit s => exit s

/-- The run seen through `f`. -/
def map (f : σ → τ) : Run σ → Run τ
  | done s => done (f s)
  | exit s => exit (f s)

/-- `for a in l: body`, from the left, stopping at the first exit. -/
def each (body : σ → α → Run σ) : List α → σ → Run σ
  | [], s => done s
  | a :: as, s => (body s a).bind (each body as)

/-- The loop comes to `a`, and the state is `t` when it does: the elements before `a` have had
their turns and none of them has exited. -/
def Turn (body : σ → α → Run σ) (l : List α) (s : σ) (a : α) (t : σ) : Prop :=
  ∃ as bs, l = as ++ a :: bs ∧ each body as s = done t

/-! ## Equations

A run that has exited stays as it is, so sequencing is associative and a sequence that went
on had a first part that did.
-/

@[simp] theorem state_done (s : σ) : (done s).state = s := rfl

@[simp] theorem state_exit (s : σ) : (exit s).state = s := rfl

@[simp] theorem result?_done (s : σ) : (done s).result? = some s := rfl

@[simp] theorem result?_exit (s : σ) : (exit s : Run σ).result? = none := rfl

@[simp] theorem bind_done (s : σ) (k : σ → Run σ) : (done s).bind k = k s := rfl

@[simp] theorem bind_exit (s : σ) (k : σ → Run σ) : (exit s).bind k = exit s := rfl

@[simp] theorem map_done (f : σ → τ) (s : σ) : (done s).map f = done (f s) := rfl

@[simp] theorem map_exit (f : σ → τ) (s : σ) : (exit s).map f = exit (f s) := rfl

@[simp] theorem each_nil (body : σ → α → Run σ) (s : σ) : each body [] s = done s := rfl

@[simp] theorem each_cons (body : σ → α → Run σ) (a : α) (as : List α) (s : σ) :
    each body (a :: as) s = (body s a).bind (each body as) := rfl

theorem bind_assoc (r : Run σ) (k l : σ → Run σ) :
    (r.bind k).bind l = r.bind fun s => (k s).bind l := by
  cases r with
  | done s => rfl
  | exit s => rfl

theorem bind_eq_done {r : Run σ} {k : σ → Run σ} {t : σ} :
    r.bind k = done t ↔ ∃ s, r = done s ∧ k s = done t := by
  cases r with
  | done s => simp
  | exit s => simp

/-! ## Loop rules

The usual rules for a loop that can be left from inside: an invariant holds when the loop
stops, however it does; a loop none of whose iterations exits ends normally; a loop with an
iteration that exits exits. They ask for the body only in states that the invariant allows.
-/

/-- A loop over two lists in a row is two loops, of which the second starts where the first ends.
-/
theorem each_append (body : σ → α → Run σ) (l m : List α) (s : σ) :
    each body (l ++ m) s = (each body l s).bind (each body m) := by
  induction l generalizing s with
  | nil => rfl
  | cons a as ih =>
    rw [List.cons_append, each_cons, each_cons, bind_assoc]
    congr 1
    funext t
    exact ih t

/-- A loop whose body does nothing for some of the elements is a loop over the others. -/
theorem each_filter (body : σ → α → Run σ) (p : α → Bool) (l : List α) (s : σ) :
    each (fun t a => if p a then body t a else done t) l s = each body (l.filter p) s := by
  induction l generalizing s with
  | nil => rfl
  | cons a as ih =>
    rw [each_cons, List.filter_cons]
    by_cases ha : p a = true
    · rw [if_pos ha, if_pos ha, each_cons]
      congr 1
      funext t
      exact ih t
    · rw [if_neg ha, if_neg ha, bind_done, ih]

/-- A loop that looks something up for each element is one over what is found. -/
theorem each_filterMap {β : Type*} {body : σ → α → Run σ} {body' : σ → β → Run σ}
    {f : α → Option β} (hnone : ∀ a, f a = none → ∀ s, body s a = done s)
    (hsome : ∀ a b, f a = some b → ∀ s, body s a = body' s b) (l : List α) (s : σ) :
    each body l s = each body' (l.filterMap f) s := by
  induction l generalizing s with
  | nil => rfl
  | cons a as ih =>
    rw [each_cons, List.filterMap_cons]
    cases hf : f a with
    | none =>
      rw [hnone a hf, bind_done]
      exact ih s
    | some b =>
      rw [hsome a b hf, each_cons]
      congr 1
      funext t
      exact ih t

/-- An invariant of the state kept by every iteration holds when the loop stops,
by running out of elements or by an exit. -/
theorem each_invariant {body : σ → α → Run σ} {l : List α} (I : σ → Prop)
    (hstep : ∀ a ∈ l, ∀ s, I s → I (body s a).state) {s : σ} (hs : I s) :
    I (each body l s).state := by
  induction l generalizing s with
  | nil => exact hs
  | cons a as ih =>
    have ha := hstep a (by simp) s hs
    rw [each_cons]
    cases hb : body s a with
    | done t =>
      rw [hb] at ha
      exact ih (fun b hmem => hstep b (by simp [hmem])) ha
    | exit t =>
      rw [hb] at ha
      exact ha

/-- A loop none of whose iterations exits, in the states the invariant allows,
ends normally. -/
theorem each_done {body : σ → α → Run σ} {l : List α} (I : σ → Prop)
    (hstep : ∀ a ∈ l, ∀ s, I s → ∃ t, body s a = done t ∧ I t) {s : σ} (hs : I s) :
    ∃ t, each body l s = done t ∧ I t := by
  induction l generalizing s with
  | nil => exact ⟨s, rfl, hs⟩
  | cons a as ih =>
    obtain ⟨t, ht, hIt⟩ := hstep a (by simp) s hs
    rw [each_cons, ht, bind_done]
    exact ih (fun b hmem => hstep b (by simp [hmem])) hIt

/-- A loop with an element whose iteration always exits, in the states the invariant
allows, exits. -/
theorem each_exits {body : σ → α → Run σ} {l : List α} (I : σ → Prop)
    (hstep : ∀ a ∈ l, ∀ s t, I s → body s a = done t → I t) {a : α} (ha : a ∈ l)
    (hexit : ∀ s, I s → ∃ t, body s a = exit t) {s : σ} (hs : I s) :
    ∃ t, each body l s = exit t := by
  induction l generalizing s with
  | nil => cases ha
  | cons b as ih =>
    rw [each_cons]
    cases hb : body s b with
    | exit t => exact ⟨t, rfl⟩
    | done t =>
      rw [bind_done]
      rcases List.mem_cons.mp ha with rfl | ha
      · obtain ⟨u, hu⟩ := hexit s hs
        rw [hb] at hu
        cases hu
      · exact ih (fun c hc => hstep c (by simp [hc])) ha (hstep b (by simp) s t hs hb)

/-! ## Turns

`Turn` speaks of the state a loop is in when it comes to one of its elements. A property of
one element's iteration can so be stated with the state before it, without taking the loop
apart.
-/

theorem turn_cons {body : σ → α → Run σ} {b : α} {l : List α} {s t : σ} {a : α} :
    Turn body (b :: l) s a t ↔
      (a = b ∧ t = s) ∨ ∃ u, body s b = done u ∧ Turn body l u a t := by
  constructor
  · rintro ⟨as, bs, hl, hrun⟩
    cases as with
    | nil =>
      obtain ⟨rfl, -⟩ := List.cons.inj hl
      exact Or.inl ⟨rfl, (Run.done.inj hrun).symm⟩
    | cons c as =>
      obtain ⟨rfl, htail⟩ := List.cons.inj hl
      obtain ⟨u, hu, hrun⟩ := bind_eq_done.mp hrun
      exact Or.inr ⟨u, hu, as, bs, htail, hrun⟩
  · rintro (⟨rfl, rfl⟩ | ⟨u, hu, as, bs, rfl, hrun⟩)
    · exact ⟨[], l, rfl, rfl⟩
    · exact ⟨b :: as, bs, rfl, by rw [each_cons, hu, bind_done, hrun]⟩

/-! ## Runs that add to a log

The state is a log that only grows, and what is added does not depend on what it holds
already. Such a run is described by two things alone, whether it leaves early and which
entries it adds, and the two are said once for a sequence and once for a loop.
-/

/-- What a run does that only adds to a log, whatever the log already holds: whether it leaves
early, and which entries it adds before it ends or leaves. -/
structure Logs {β : Type*} (run : List β → Run (List β)) (leaves : Prop) (adds : β → Prop) :
    Prop where
  exit_iff : ∀ log, (∃ s, run log = exit s) ↔ leaves
  mem_state_iff : ∀ log x, x ∈ (run log).state ↔ x ∈ log ∨ adds x

namespace Logs

variable {β : Type*} {run run' : List β → Run (List β)} {leaves leaves' : Prop}
  {adds adds' : β → Prop}

/-- A run that adds the entries of a list and goes on logs these entries and does not leave. -/
theorem append (l : List β) : Logs (fun log => done (log ++ l)) False (· ∈ l) where
  exit_iff log := by simp
  mem_state_iff log x := List.mem_append

/-- A run that leaves at once logs nothing. -/
theorem leave : Logs (β := β) exit True fun _ => False where
  exit_iff log := by simp
  mem_state_iff log x := by simp

/-- A run that does nothing logs nothing and does not leave. -/
theorem skip : Logs (β := β) done False fun _ => False where
  exit_iff log := by simp
  mem_state_iff log x := by simp

theorem congr (h : Logs run leaves adds) (hleaves : leaves ↔ leaves')
    (hadds : ∀ x, adds x ↔ adds' x) : Logs run leaves' adds' where
  exit_iff log := (h.exit_iff log).trans hleaves
  mem_state_iff log x := by rw [h.mem_state_iff, hadds]

/-- What follows counts only where the first run does not leave. -/
theorem bind (h : Logs run leaves adds) (h' : Logs run' leaves' adds') :
    Logs (fun log => (run log).bind run') (leaves ∨ leaves')
      fun x => adds x ∨ ¬ leaves ∧ adds' x where
  exit_iff log := by
    have hrun := h.exit_iff log
    cases hlog : run log with
    | done s =>
      have hstay : ¬ leaves := fun hl => by simpa [hlog] using hrun.mpr hl
      rw [bind_done, h'.exit_iff, or_iff_right hstay]
    | exit s =>
      exact iff_of_true ⟨s, rfl⟩ (Or.inl (hrun.mp ⟨s, hlog⟩))
  mem_state_iff log x := by
    have hrun := h.exit_iff log
    have hmem := h.mem_state_iff log x
    cases hlog : run log with
    | done s =>
      have hstay : ¬ leaves := fun hl => by simpa [hlog] using hrun.mpr hl
      rw [hlog, state_done] at hmem
      rw [bind_done, h'.mem_state_iff, hmem, and_iff_right hstay, or_assoc]
    | exit s =>
      have hleave : leaves := hrun.mp ⟨s, hlog⟩
      rw [hlog, state_exit] at hmem
      have hnot : ¬ (¬ leaves ∧ adds' x) := fun hx => hx.1 hleave
      rw [bind_exit, state_exit, hmem, or_iff_left hnot]

/-- A loop leaves if an iteration does, and adds what the iterations add before which none
leaves. -/
theorem each {body : List β → α → Run (List β)} {leaves : α → Prop} {adds : α → β → Prop}
    {l : List α} (h : ∀ a ∈ l, Logs (fun log => body log a) (leaves a) (adds a)) :
    Logs (each body l) (∃ a ∈ l, leaves a) fun x =>
      ∃ before a after, l = before ++ a :: after ∧ (∀ b ∈ before, ¬ leaves b) ∧ adds a x := by
  induction l with
  | nil => exact skip.congr (by simp) (by simp)
  | cons a as ih =>
    have hstep := (h a List.mem_cons_self).bind
      (ih fun b hb => h b (List.mem_cons_of_mem a hb))
    refine hstep.congr (by simp) fun x => ?_
    constructor
    · rintro (hx | ⟨hstay, before, b, after, rfl, hbefore, hx⟩)
      · exact ⟨[], a, as, rfl, by simp, hx⟩
      · refine ⟨a :: before, b, after, rfl, fun c hc => ?_, hx⟩
        rcases List.mem_cons.mp hc with rfl | hc
        · exact hstay
        · exact hbefore c hc
    · rintro ⟨before, b, after, hl, hbefore, hx⟩
      cases before with
      | nil =>
        obtain ⟨rfl, -⟩ := List.cons.inj hl
        exact Or.inl hx
      | cons c before =>
        obtain ⟨rfl, htail⟩ := List.cons.inj hl
        exact Or.inr ⟨hbefore a List.mem_cons_self, before, b, after, htail,
          fun d hd => hbefore d (List.mem_cons_of_mem a hd), hx⟩

end Logs

end Run

end AndroidTools
