/-
The replacement loop, child by child.

Between two turns the child list is `front ++ back`: what the index has passed, and the children
it has not come to. `position` is one ahead of the index, less one for every rejection. So new
elements go where their element is as long as there has been one rejection at most, and before
that place after two. An accepted element without results goes away under the index, which then
steps over the next child.

This module follows the loop from one such point to the next. `GoesOn` is a run from there to its
end, `goes_on_cons` says what its next turn can do, and the rules behind it say where the run goes
on after each of the three outcomes. Nothing here says which of them is right; that is for the
modules that compare the end of the loop with its start.
-/
import AndroidTools.Checksparse.Replace

set_option autoImplicit false

namespace AndroidTools.Checksparse

variable {genfile : Answers}

/-! ## Rules for the loop

The loop ends because a turn either moves the index on or takes a marked element away.
`replace` is defined by that measure; these lemmas are what the rest uses of it, an
invariant rule and one step at a time.
-/

section Rules

variable {s s' t : LoopState} {i : ℕ} {n : Node}

theorem replace_end (h : s.children.length ≤ i) : replace genfile i s = some s := by
  rw [replace]
  split
  · rfl
  · rename_i n hn
    rw [List.getElem?_eq_none h] at hn
    cases hn

/-- A run that ends has made the turn at `i`. -/
theorem replace_turn (hn : s.children[i]? = some n) (h : replace genfile i s = some t) :
    ∃ s', Turn genfile s i n s' ∧ replace genfile (i + 1) s' = some t := by
  rw [replace] at h
  split at h
  · rename_i hnone
    rw [hn] at hnone
    cases hnone
  · rename_i m hm
    obtain rfl : n = m := Option.some.inj (hn.symm.trans hm)
    split at h
    · cases h
    · rename_i s' hs'
      exact ⟨s', visit_eq_some.mp hs', h⟩

/-- The loop with a bound on its turns, to run it on an example. -/
def turns (genfile : Answers) : ℕ → ℕ → LoopState → Option LoopState
  | 0, _, _ => none
  | k + 1, i, s =>
    match s.children[i]? with
    | none => some s
    | some n => (visit genfile s i n).bind (turns genfile k (i + 1))

theorem replace_of_turns {k : ℕ} (h : turns genfile k i s = some t) :
    replace genfile i s = some t := by
  induction k generalizing i s with
  | zero => cases h
  | succ k ih =>
    rw [turns] at h
    rw [replace]
    -- the loop that counts its turns and the one that does not look at the same child
    split at h
    · rename_i hn
      split
      · exact h
      · rename_i hm
        rw [hn] at hm
        cases hm
    · rename_i n hn
      obtain ⟨s', hvisit, h⟩ := Option.bind_eq_some_iff.mp h
      split
      · rename_i hm
        rw [hn] at hm
        cases hm
      · rename_i m hm
        obtain rfl : n = m := Option.some.inj (hn.symm.trans hm)
        split
        · rename_i hnone
          rw [hvisit] at hnone
          cases hnone
        · rename_i s'' hsome
          rw [hvisit] at hsome
          rw [← Option.some.inj hsome]
          exact ih h

/-- What every turn keeps, the run keeps. -/
theorem replace_invariant {P : LoopState → Prop}
    (hturn : ∀ s i n s', s.children[i]? = some n → Turn genfile s i n s' → P s → P s')
    (hs : P s) (h : replace genfile i s = some t) : P t := by
  fun_induction replace genfile i s with
  | case1 i s hn =>
    cases h
    exact hs
  | case2 i s n hn hvisit => cases h
  | case3 i s n hn s' hvisit ih => exact ih (hturn s i n s' hn (visit_eq_some.mp hvisit) hs) h

/-- `genfile` is called for one element after the other, so the calls of a run begin with those
made so far. -/
theorem calls_prefix (h : replace genfile i s = some t) : s.calls <+: t.calls := by
  refine @replace_invariant genfile s t i (fun u => s.calls <+: u.calls) ?_
    (List.prefix_refl _) h
  intro u j m u' _ hturn hu
  cases hturn with
  | other _ => exact hu
  | rejected _ _ _ _ => exact hu.trans (List.prefix_append _ _)
  | accepted _ _ _ _ _ => exact hu.trans (List.prefix_append _ _)

/-- Elements that are not marked are passed by: the index and `position` move on together. -/
theorem replace_unmarked {front mid back : List Node} {position num : ℕ} {calls : List NodeId}
    (hmid : ∀ m ∈ mid, ¬ m.Marked)
    (h : replace genfile front.length ⟨front ++ mid ++ back, position, num, calls⟩ = some t) :
    replace genfile (front ++ mid).length
      ⟨front ++ mid ++ back, position + mid.length, num, calls⟩ = some t := by
  induction mid generalizing front position with
  | nil => simpa using h
  | cons m mid ih =>
    have hget : (front ++ m :: mid ++ back)[front.length]? = some m := by simp
    obtain ⟨s', hturn, h⟩ := replace_turn (s := ⟨front ++ m :: mid ++ back, position, num, calls⟩)
      hget h
    have hm := hmid m (by simp)
    cases hturn with
    | rejected _ hn _ _ => exact absurd hn hm
    | accepted _ _ hn _ _ => exact absurd hn hm
    | other _ =>
      have h' := @ih (front ++ [m]) (position + 1) (fun x hx => hmid x (by simp [hx]))
        (by simpa using h)
      rw [List.append_cons, List.length_cons, Nat.add_comm mid.length 1, ← Nat.add_assoc]
      exact h'

end Rules

/-! ## What becomes of a child

A child is of one of four kinds, read off its attributes and the answer of `genfile`. The
loop does something different for each of them, and nothing else about the child matters.
-/

/-- What the loop finds a child to be: not marked, with an image that is rejected, with one that
is accepted and has these results, or one at which the script ends. -/
inductive Kind where
  | other
  | rejected
  | accepted (results : List Result)
  | ends
  deriving DecidableEq, Repr

/-- The element as `genfile` is called for it. -/
def Node.edited (n : Node) : XmlElement := (without_sparse n.element).getD n.element

def Node.kind (genfile : Answers) (n : Node) : Kind :=
  if n.Marked then
    match genfile n.id n.edited with
    | .ok results => .accepted results
    | .error .rejected => .rejected
    | .error .raised => .ends
  else .other

theorem edited_of_without_sparse {n : Node} {e : XmlElement}
    (h : without_sparse n.element = some e) : n.edited = e := by
  rw [Node.edited, h]
  rfl

theorem kind_of_rejected {n : Node} {e : XmlElement} (hn : n.Marked)
    (he : without_sparse n.element = some e) (h : genfile n.id e = .error .rejected) :
    n.kind genfile = .rejected := by
  rw [Node.kind, if_pos hn, edited_of_without_sparse he, h]

theorem kind_of_accepted {n : Node} {e : XmlElement} {results : List Result} (hn : n.Marked)
    (he : without_sparse n.element = some e) (h : genfile n.id e = .ok results) :
    n.kind genfile = .accepted results := by
  rw [Node.kind, if_pos hn, edited_of_without_sparse he, h]

theorem kind_of_not_marked {n : Node} (hn : ¬ n.Marked) : n.kind genfile = .other := by
  rw [Node.kind, if_neg hn]

theorem not_marked_of_found {n : Node} (h : found_sparse n.element = some false) : ¬ n.Marked := by
  rw [Node.Marked, h]
  simp

/-- The nodes that stand for a child in the end, if all goes well. -/
def Node.replacement (genfile : Answers) (n : Node) : List Node :=
  match n.kind genfile with
  | .accepted results => new_nodes n.id n.edited results
  | _ => [n]

theorem copy_ne (source : NodeId) (i : ℕ) : NodeId.copy source i ≠ source := by
  intro h
  have hsize := congrArg sizeOf h
  rw [NodeId.copy.sizeOf_spec] at hsize
  omega

/-! ## Between two turns

Between two turns the list is `front ++ back`, with the index at the border. `goes_on_cons`
says what becomes of this form in one turn: the border moves by one, or the child goes away
under the index and the border moves over the next one. `position` is one more than the
index, less the rejections so far, since a rejection moves the index alone.
-/

/-- The state between two turns: `front` has been passed with `r` rejections, `back` is still to
come. -/
def between (front back : List Node) (r num : ℕ) (calls : List NodeId) : LoopState :=
  ⟨front ++ back, front.length + 1 - r, num, calls⟩

/-- The run goes on from the state between `front` and `back`, and ends in `t`. -/
def GoesOn (genfile : Answers) (front back : List Node) (r num : ℕ) (calls : List NodeId)
    (t : LoopState) : Prop :=
  replace genfile front.length (between front back r num calls) = some t

section Between

variable {t : LoopState} {front back : List Node} {n : Node} {r num : ℕ} {calls : List NodeId}

theorem goes_on_nil (h : GoesOn genfile front [] r num calls t) :
    t = between front [] r num calls := by
  rw [GoesOn, replace_end (by simp [between])] at h
  exact (Option.some.inj h).symm

/-- The list after an accepted element: the new nodes stand where `position` is, and the
element is gone. -/
theorem accepted_children (hn : ∀ m ∈ front, m.id ≠ n.id) (e : XmlElement) (results : List Result) :
    (((front ++ n :: back).set front.length ⟨n.id, e⟩).take (front.length + 1 - r)
        ++ new_nodes n.id e results
        ++ ((front ++ n :: back).set front.length ⟨n.id, e⟩).drop (front.length + 1 - r)).eraseP
          (fun m => m.id = n.id)
      = front.take (front.length + 1 - r) ++ new_nodes n.id e results
          ++ front.drop (front.length + 1 - r) ++ back := by
  have hset : (front ++ n :: back).set front.length ⟨n.id, e⟩ = front ++ ⟨n.id, e⟩ :: back := by
    simp
  have hnew : ∀ m ∈ new_nodes n.id e results, ¬ (decide (m.id = n.id) = true) := by
    intro m hm
    obtain ⟨i, result, rfl⟩ := mem_new_nodes hm
    simpa using copy_ne n.id i
  have hkeep : ∀ l : List Node, (∀ m ∈ l, m ∈ front) →
      ∀ m ∈ l, ¬ (decide (m.id = n.id) = true) := by
    intro l hl m hm
    simpa using hn m (hl m hm)
  rw [hset]
  rcases Nat.eq_zero_or_pos r with rfl | hr
  · -- behind the element
    have htake : (front ++ ⟨n.id, e⟩ :: back).take (front.length + 1 - 0)
        = front ++ [⟨n.id, e⟩] := by
      rw [Nat.sub_zero, List.take_append, List.take_of_length_le (by omega),
        Nat.add_sub_cancel_left]
      rfl
    have hdrop : (front ++ ⟨n.id, e⟩ :: back).drop (front.length + 1 - 0) = back := by
      rw [Nat.sub_zero, List.drop_append, List.drop_eq_nil_of_le (by omega),
        Nat.add_sub_cancel_left]
      rfl
    rw [htake, hdrop, List.take_of_length_le (by omega), List.drop_eq_nil_of_le (by omega),
      List.append_nil, List.append_assoc, List.append_assoc,
      List.eraseP_append_right _ (hkeep front fun m hm => hm), List.singleton_append,
      List.eraseP_cons_of_pos (by simp), List.append_assoc]
  · -- before it
    have hle : front.length + 1 - r ≤ front.length := by omega
    rw [List.take_append_of_le_length hle, List.drop_append_of_le_length hle, List.append_assoc,
      List.eraseP_append_right _ (hkeep _ fun m hm => List.mem_of_mem_take hm),
      List.eraseP_append_right _ hnew,
      List.eraseP_append_right _ (hkeep _ fun m hm => List.mem_of_mem_drop hm),
      List.eraseP_cons_of_pos (by simp)]
    simp only [List.append_assoc]

/-- **One child.** It is not marked and is passed by, or its image is rejected and it stays as it
was edited, one place further from `position`, or its image is accepted and the results are put
in. -/
theorem goes_on_cons (hr : r ≤ front.length) (hn : ∀ m ∈ front, m.id ≠ n.id)
    (h : GoesOn genfile front (n :: back) r num calls t) :
    (¬ n.Marked ∧ GoesOn genfile (front ++ [n]) back r num calls t) ∨
    (n.Marked ∧ n.kind genfile = .rejected ∧ without_sparse n.element = some n.edited ∧
      GoesOn genfile (front ++ [⟨n.id, n.edited⟩]) back (r + 1) num (calls ++ [n.id]) t) ∨
    (n.Marked ∧ ∃ results, n.kind genfile = .accepted results ∧
      without_sparse n.element = some n.edited ∧
      replace genfile (front.length + 1)
        ⟨front.take (front.length + 1 - r) ++ new_nodes n.id n.edited results
            ++ front.drop (front.length + 1 - r) ++ back,
          front.length + 1 - r + 1, num + 1, calls ++ [n.id]⟩ = some t) := by
  have hget : (front ++ n :: back)[front.length]? = some n := by simp
  obtain ⟨s', hturn, h⟩ := replace_turn (s := between front (n :: back) r num calls) hget h
  -- the index has passed `n`; where new elements go depends on the ones rejected so far
  cases hturn with
  | other hfound =>
    refine Or.inl ⟨not_marked_of_found hfound, ?_⟩
    rw [GoesOn, between, List.length_append, List.length_singleton, List.append_assoc,
      List.singleton_append, (by omega : front.length + 1 + 1 - r = front.length + 1 - r + 1)]
    exact h
  | rejected e hmarked he hanswer =>
    refine Or.inr (Or.inl ⟨hmarked, kind_of_rejected hmarked he hanswer, ?_, ?_⟩)
    · rw [edited_of_without_sparse he, he]
    rw [GoesOn, between, List.length_append, List.length_singleton, List.append_assoc,
      List.singleton_append, edited_of_without_sparse he, Nat.add_sub_add_right]
    rw [between] at h
    simpa using h
  | accepted e results hmarked he hanswer =>
    refine Or.inr (Or.inr ⟨hmarked, results, kind_of_accepted hmarked he hanswer, ?_, ?_⟩)
    · rw [edited_of_without_sparse he, he]
    rw [between] at h
    dsimp only at h
    rw [accepted_children hn] at h
    rw [edited_of_without_sparse he]
    exact h

theorem new_nodes_not_marked {e : XmlElement} (he : without_sparse n.element = some e)
    (results : List Result) : ∀ m ∈ new_nodes n.id e results, ¬ m.Marked := by
  intro m hm
  obtain ⟨i, result, rfl⟩ := mem_new_nodes hm
  rw [Node.Marked, found_sparse_new_element he]
  simp

/-- With one rejection at most the new nodes stand where their element stood, and are passed by.
-/
theorem goes_on_results {results : List Result} (hr : r ≤ 1) (hres : results ≠ [])
    (he : without_sparse n.element = some n.edited)
    (h : replace genfile (front.length + 1)
      ⟨front.take (front.length + 1 - r) ++ new_nodes n.id n.edited results
          ++ front.drop (front.length + 1 - r) ++ back,
        front.length + 1 - r + 1, num + 1, calls ++ [n.id]⟩ = some t) :
    GoesOn genfile (front ++ new_nodes n.id n.edited results) back r (num + 1) (calls ++ [n.id])
      t := by
  have hmarked := new_nodes_not_marked he results
  have hlen : (new_nodes n.id n.edited results).length = results.length := List.length_mapIdx
  rw [List.take_of_length_le (by omega), List.drop_eq_nil_of_le (by omega), List.append_nil] at h
  -- the index stands behind the first new element; the others have no mark
  cases hnew : new_nodes n.id n.edited results with
  | nil =>
    rw [hnew] at hlen
    exact absurd (List.eq_nil_of_length_eq_zero hlen.symm) hres
  | cons x mid =>
    rw [hnew] at h hmarked
    rw [List.append_cons] at h
    have hlength : front.length + 1 = (front ++ [x]).length := by simp
    rw [hlength] at h
    have hpass := replace_unmarked (fun m hm => hmarked m (List.mem_cons_of_mem _ hm)) h
    rw [GoesOn, between, List.append_cons]
    have hposition : (front ++ [x]).length - r + 1 + mid.length
        = (front ++ [x] ++ mid).length + 1 - r := by
      simp only [List.length_append, List.length_singleton]
      omega
    rw [hposition] at hpass
    exact hpass

/-- Without results the element goes away under the index, and the next child is stepped over. -/
theorem goes_on_no_results {m : Node} (hr : r ≤ front.length)
    (h : replace genfile (front.length + 1)
      ⟨front.take (front.length + 1 - r) ++ new_nodes n.id n.edited []
          ++ front.drop (front.length + 1 - r) ++ m :: back,
        front.length + 1 - r + 1, num + 1, calls ++ [n.id]⟩ = some t) :
    GoesOn genfile (front ++ [m]) back r (num + 1) (calls ++ [n.id]) t := by
  rw [new_nodes, List.mapIdx_nil, List.append_nil, List.take_append_drop] at h
  rw [GoesOn, between, List.length_append, List.length_singleton, List.append_assoc,
    List.singleton_append, (by omega : front.length + 1 + 1 - r = front.length + 1 - r + 1)]
  exact h

/-- Without results and without a next child the loop ends. -/
theorem no_results_end
    (h : replace genfile (front.length + 1)
      ⟨front.take (front.length + 1 - r) ++ new_nodes n.id n.edited []
          ++ front.drop (front.length + 1 - r) ++ [],
        front.length + 1 - r + 1, num + 1, calls ++ [n.id]⟩ = some t) :
    t = ⟨front, front.length + 1 - r + 1, num + 1, calls ++ [n.id]⟩ := by
  rw [new_nodes, List.mapIdx_nil, List.append_nil, List.append_nil, List.take_append_drop,
    replace_end (by simp)] at h
  exact (Option.some.inj h).symm

end Between

end AndroidTools.Checksparse
