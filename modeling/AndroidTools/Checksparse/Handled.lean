/-
Which runs of the replacement loop handle every sparse element once.

`InStep` says that the loop never gets out of step with the list: no marked child follows an
accepted one without results, and at most one child has been rejected before an accepted one with
results. Otherwise a child is stepped over, or new elements end up in front of an element that
they should follow. Both are lasting: a child that was stepped over is not the next one `genfile`
is called for (`not_called_next`), and what was put in too far to the front stays there
(`misplaced`).

Children are compared by their identity, and copies by their attributes as well (`Node.view`),
because the loop edits an element where it stands. `goes_on_iff` is the induction: from a point
between two turns on, child by child, everything goes well exactly if the children to come are
orderly.
-/
import AndroidTools.Checksparse.LiveList
import AndroidTools.Lib.Skip

set_option autoImplicit false

namespace AndroidTools.Checksparse

open AndroidTools.Skip

variable {genfile : Answers}

/-! ## What is compared

What counts is identity: a child that was in the list must be replaced by copies that
stand for its results, in its place and in document order. So nodes are compared by who they
are, and the copies by their attributes. `InStep` is the condition, said of neighbours in
the list that was read, without running the loop.
-/

/-- An element that was there keeps its identity, a new one has its attributes as well. -/
def Node.view (n : Node) : NodeId × Option XmlElement :=
  match n.id with
  | .copy source i => (.copy source i, some n.element)
  | id => (id, none)

/-- Every marked child has been passed to `genfile` once, its results stand in its place,
and every other child is where it was. -/
def HandledOnce (genfile : Answers) (children : List XmlElement) (t : LoopState) : Prop :=
  t.children.map Node.view
      = (comments ++ (child_nodes children).flatMap (Node.replacement genfile)).map Node.view ∧
    ∀ n ∈ child_nodes children, n.Marked → t.calls.count n.id = 1

/-- `genfile` has been called for the marked children in the order they stand in. -/
def CalledInOrder (children : List XmlElement) (t : LoopState) : Prop :=
  t.calls = ((child_nodes children).filter fun n => n.Marked).map Node.id

/-- The loop stays in step with the list, said of the places of the list: no marked child directly
follows one without results, and before a child with results at most one has been rejected. -/
structure InStep (genfile : Answers) (nodes : List Node) : Prop where
  /-- No marked child is stepped over. -/
  not_skipped : ∀ a n m b, nodes = a ++ n :: m :: b → n.kind genfile = .accepted [] → ¬ m.Marked
  /-- New elements come where their element is. -/
  in_place : ∀ a n b results, nodes = a ++ n :: b → n.kind genfile = .accepted results →
    results ≠ [] → (a.countP fun m => m.kind genfile = .rejected) ≤ 1

/-- `InStep` told child by child, where `r` counts the rejections so far, as the induction along
the loop needs it. -/
def Orderly (genfile : Answers) : ℕ → List Node → Prop
  | _, [] => True
  | r, n :: ns =>
    match n.kind genfile with
    | .rejected => Orderly genfile (r + 1) ns
    | .accepted [] => (∀ m, ns.head? = some m → ¬ m.Marked) ∧ Orderly genfile r ns
    | .accepted (_ :: _) => r ≤ 1 ∧ Orderly genfile r ns
    | _ => Orderly genfile r ns

/-- No two nodes are the same, and a node whose copies are there is gone. -/
structure Distinct (l : List Node) : Prop where
  nodup : (l.map Node.id).Nodup
  copies : ∀ o j, NodeId.copy o j ∈ l.map Node.id → (∃ i, o = .child i) ∧ o ∉ l.map Node.id

theorem view_fst (n : Node) : n.view.1 = n.id := by
  rw [Node.view]
  split
  · rename_i h
    rw [h]
  · rfl

theorem map_fst_view (l : List Node) : (l.map Node.view).map Prod.fst = l.map Node.id := by
  rw [List.map_map]
  exact List.map_congr_left fun n _ => view_fst n

theorem view_of_child {n : Node} {i : ℕ} (h : n.id = .child i) (e : XmlElement) :
    Node.view ⟨n.id, e⟩ = n.view := by
  rw [Node.view, Node.view]
  simp [h]

theorem id_of_new_node {source : NodeId} {e : XmlElement} {results : List Result} {id : NodeId}
    (h : id ∈ (new_nodes source e results).map Node.id) : ∃ j, id = .copy source j := by
  obtain ⟨m, hm, rfl⟩ := List.mem_map.mp h
  obtain ⟨j, result, rfl⟩ := mem_new_nodes hm
  exact ⟨j, rfl⟩

theorem nodup_new_nodes (source : NodeId) (e : XmlElement) (results : List Result) :
    ((new_nodes source e results).map Node.id).Nodup := by
  rw [List.Nodup, List.pairwise_iff_getElem]
  intro i j hi hj hij
  simp only [new_nodes, List.getElem_map, List.getElem_mapIdx, ne_eq, NodeId.copy.injEq, true_and]
  omega

/-- After a replacement the nodes are distinct again. -/
theorem Distinct.replaced {front back : List Node} {n : Node} {i : ℕ} (hn : n.id = .child i)
    (h : Distinct (front ++ n :: back)) (e : XmlElement) (results : List Result) :
    Distinct (front ++ new_nodes n.id e results ++ back) := by
  have hnodup := h.nodup
  rw [List.map_append, List.map_cons, List.nodup_append] at hnodup
  obtain ⟨hfront, hback, hapart⟩ := hnodup
  rw [List.nodup_cons] at hback
  -- the copies are new
  have hnew : ∀ id ∈ (new_nodes n.id e results).map Node.id,
      id ∉ (front ++ n :: back).map Node.id := by
    intro id hid hin
    obtain ⟨j, rfl⟩ := id_of_new_node hid
    exact (h.copies _ _ hin).2 (by simp)
  have hnfront : n.id ∉ front.map Node.id := fun hin => hapart _ hin n.id (by simp) rfl
  constructor
  · rw [List.map_append, List.map_append, List.nodup_append, List.nodup_append]
    refine ⟨⟨hfront, nodup_new_nodes _ _ _, ?_⟩, hback.2, ?_⟩
    · rintro a ha b hb rfl
      exact hnew a hb (by rw [List.map_append]; exact List.mem_append_left _ ha)
    · rintro a ha b hb rfl
      rcases List.mem_append.mp ha with ha | ha
      · exact hapart a ha a (List.mem_cons_of_mem _ hb) rfl
      · exact hnew a ha (by
          rw [List.map_append, List.map_cons]
          exact List.mem_append_right _ (List.mem_cons_of_mem _ hb))
  · intro o j hin
    rw [List.map_append, List.map_append, List.mem_append, List.mem_append] at hin ⊢
    have hout : ∀ c, o = .child c → o ∉ (new_nodes n.id e results).map Node.id := by
      rintro c rfl hin
      obtain ⟨j, hj⟩ := id_of_new_node hin
      cases hj
    by_cases hcopy : .copy o j ∈ (new_nodes n.id e results).map Node.id
    · -- one of the new copies
      obtain ⟨j', hj'⟩ := id_of_new_node hcopy
      obtain rfl : o = n.id := (NodeId.copy.inj hj').1
      have := hout i hn
      have := hback.1
      exact ⟨⟨i, hn⟩, by tauto⟩
    · -- a copy that was there before
      obtain ⟨⟨c, hc⟩, ho⟩ := h.copies o j (by
        rw [List.map_append, List.map_cons, List.mem_append, List.mem_cons]
        tauto)
      rw [List.map_append, List.map_cons, List.mem_append, List.mem_cons] at ho
      have := hout c hc
      exact ⟨⟨c, hc⟩, by tauto⟩

theorem Distinct.not_in_front {front back : List Node} {n : Node}
    (h : Distinct (front ++ n :: back)) : ∀ m ∈ front, m.id ≠ n.id := by
  have hnodup := h.nodup
  rw [List.map_append, List.map_cons, List.nodup_append] at hnodup
  exact fun m hm => hnodup.2.2 m.id (List.mem_map_of_mem hm) n.id (by simp)

/-! ## Out of step

Two things can go wrong, and each leaves something that no later turn repairs. A marked
child that was stepped over is never handed to `genfile`, and copies that were put in too
far to the front stay there. Both follow from what a turn can do to the order of the nodes.
-/

/-- The next element `genfile` is called for is one of those to come. -/
theorem next_call {front back : List Node} {r num : ℕ} {calls : List NodeId} {t : LoopState}
    (hr : r ≤ front.length) (hd : Distinct (front ++ back))
    (h : GoesOn genfile front back r num calls t) :
    t.calls = calls ∨ ∃ m ∈ back, calls ++ [m.id] <+: t.calls := by
  induction back generalizing front with
  | nil =>
    rw [goes_on_nil h]
    exact Or.inl rfl
  | cons n back ih =>
    rcases goes_on_cons hr hd.not_in_front h with ⟨-, h⟩ | ⟨-, -, -, h⟩ | ⟨-, results, -, -, h⟩
    · rcases @ih (front ++ [n]) (by rw [List.length_append]; omega) (by simpa using hd) h with
        h | ⟨m, hm, h⟩
      · exact Or.inl h
      · exact Or.inr ⟨m, List.mem_cons_of_mem _ hm, h⟩
    · exact Or.inr ⟨n, by simp, calls_prefix h⟩
    · exact Or.inr ⟨n, by simp, calls_prefix h⟩

/-- A marked child that was stepped over is not the next one `genfile` is called for. -/
theorem not_called_next {front back : List Node} {n : Node} {r num : ℕ} {calls more : List NodeId}
    {t : LoopState} (hr : r ≤ front.length) (hd : Distinct (front ++ n :: back))
    (h : GoesOn genfile (front ++ [n]) back r num calls t) : t.calls ≠ calls ++ n.id :: more := by
  intro heq
  have hd' : Distinct (front ++ [n] ++ back) := by simpa using hd
  rcases next_call (by rw [List.length_append]; omega) hd' h with hnone | ⟨m, hm, hcalls⟩
  · have hlen := congrArg List.length (hnone.symm.trans heq)
    rw [List.length_append, List.length_cons] at hlen
    omega
  · have hfront : calls ++ [n.id] <+: t.calls := ⟨more, by rw [heq]; simp⟩
    have hsame : calls ++ [m.id] = calls ++ [n.id] :=
      (List.prefix_of_prefix_length_le hcalls hfront (by simp)).eq_of_length (by simp)
    have hid : m.id = n.id := by simpa using hsame
    have hnodup := hd.nodup
    rw [List.map_append, List.map_cons, List.nodup_append] at hnodup
    exact (List.nodup_cons.mp hnodup.2.1).1 (hid ▸ List.mem_map_of_mem hm)

/-- Nodes that are there are never put in again, so among them there is only going. -/
theorem order_kept {K : List NodeId} {s t : LoopState} {i : ℕ} {A : List NodeId}
    (hmarked : ∀ m ∈ s.children, m.Marked → m.id ∈ A)
    (hK : ∀ o j, NodeId.copy o j ∈ K → o ∉ A) (h : replace genfile i s = some t) :
    ((t.children.map Node.id).filter (· ∈ K)).Sublist
      ((s.children.map Node.id).filter (· ∈ K)) := by
  have hinv := @replace_invariant genfile s t i (fun u =>
    ((u.children.map Node.id).filter (· ∈ K)).Sublist ((s.children.map Node.id).filter (· ∈ K)) ∧
      ∀ m ∈ u.children, m.Marked → m.id ∈ A) ?_ ⟨List.Sublist.refl _, hmarked⟩ h
  · exact hinv.1
  rintro u j n u' hn hturn ⟨hsub, hu⟩
  obtain ⟨hj, rfl⟩ := List.getElem?_eq_some_iff.mp hn
  -- editing a node keeps its place and its identity
  have hids : ∀ e,
      (u.children.set j ⟨u.children[j].id, e⟩).map Node.id = u.children.map Node.id := by
    intro e
    refine List.ext_getElem (by simp) fun i _ _ => ?_
    by_cases hij : j = i
    · simp [hij]
    · simp [List.getElem_set_ne hij]
  have hset : ∀ e, ¬ (Node.mk u.children[j].id e).Marked →
      ∀ m ∈ u.children.set j ⟨u.children[j].id, e⟩, m.Marked → m.id ∈ A := by
    intro e he m hm hmark
    rcases List.mem_or_eq_of_mem_set hm with hm | rfl
    · exact hu m hm hmark
    · exact absurd hmark he
  cases hturn with
  | other _ => exact ⟨hsub, hu⟩
  | rejected e hmark he _ =>
    have hedited : ¬ (Node.mk u.children[j].id e).Marked := by
      rw [Node.Marked, found_sparse_edited hmark he]
      simp
    exact ⟨by dsimp only; rw [hids]; exact hsub, hset e hedited⟩
  | accepted e results hmark he _ =>
    have hedited : ¬ (Node.mk u.children[j].id e).Marked := by
      rw [Node.Marked, found_sparse_edited hmark he]
      simp
    have hA := hu _ (List.getElem_mem hj) hmark
    have hnone : ((new_nodes u.children[j].id e results).map Node.id).filter (· ∈ K) = [] := by
      rw [List.filter_eq_nil_iff]
      intro id hid
      obtain ⟨k, rfl⟩ := id_of_new_node hid
      simp only [decide_eq_true_eq]
      exact fun hin => hK _ _ hin hA
    constructor
    · refine ((List.eraseP_sublist.map _).filter _).trans ?_
      rw [List.map_append, List.map_append, List.filter_append, List.filter_append, hnone,
        List.append_nil, ← List.filter_append, ← List.map_append, List.take_append_drop, hids]
      exact hsub
    · intro m hm hmk
      have hm := List.mem_of_mem_eraseP hm
      rw [List.mem_append, List.mem_append] at hm
      rcases hm with (hm | hm) | hm
      · exact hset e hedited m (List.mem_of_mem_take hm) hmk
      · exact absurd hmk (new_nodes_not_marked he results m hm)
      · exact hset e hedited m (List.mem_of_mem_drop hm) hmk

/-- What is put in front of an old element does not come behind it by taking elements away. -/
theorem not_sublist_of_put_in {α : Type*} [DecidableEq α] {front new back more : List α} {p : ℕ}
    (hp : p < front.length) (hnew : new ≠ []) (hapart : ∀ a ∈ front, ∀ b ∈ new, a ≠ b)
    (hback : ∀ a ∈ back, a ∉ front ++ new) :
    ¬ ((front ++ new ++ more).filter (· ∈ front ++ new)).Sublist
      ((front.take p ++ new ++ front.drop p ++ back).filter (· ∈ front ++ new)) := by
  intro hsub
  have hparts : front.take p ++ front.drop p = front := List.take_append_drop p front
  have hall : ∀ l : List α, (∀ a ∈ l, a ∈ front ++ new) → l.filter (· ∈ front ++ new) = l :=
    fun l hl => List.filter_eq_self.mpr fun a ha => decide_eq_true (hl a ha)
  have hnone : back.filter (· ∈ front ++ new) = [] :=
    List.filter_eq_nil_iff.mpr fun a ha => by simpa using hback a ha
  have hold : ∀ a ∈ front.take p ++ new ++ front.drop p, a ∈ front ++ new := by
    intro a ha
    rw [← hparts]
    simp only [List.mem_append] at ha ⊢
    tauto
  rw [List.filter_append, hall _ fun a ha => ha, @List.filter_append _ _ _ back, hnone,
    List.append_nil, hall _ hold] at hsub
  -- the lengths leave no room for more
  have hlen := hsub.length_le
  have hcount := congrArg List.length hparts
  simp only [List.length_append] at hlen hcount
  have hmore := List.eq_nil_of_length_eq_zero
    (by omega : (more.filter (· ∈ front ++ new)).length = 0)
  rw [hmore, List.append_nil] at hsub
  have hsame : front ++ new = front.take p ++ new ++ front.drop p :=
    hsub.eq_of_length (by simp only [List.length_append]; omega)
  -- one starts with an old element behind `p`, the other with a new one
  conv_lhs at hsame => rw [← hparts]
  rw [List.append_assoc, List.append_assoc, List.append_cancel_left_eq] at hsame
  obtain ⟨a, old, hold⟩ := List.exists_cons_of_ne_nil
    (List.ne_nil_of_length_pos (by rw [List.length_drop]; omega) : front.drop p ≠ [])
  obtain ⟨b, fresh, hfresh⟩ := List.exists_cons_of_ne_nil hnew
  rw [hold, hfresh] at hsame
  refine hapart a ?_ b ?_ (List.cons.inj hsame).1
  · exact List.mem_of_mem_drop (hold ▸ List.mem_cons_self)
  · rw [hfresh]
    exact List.mem_cons_self

/-- New nodes that were put in too far to the front stay there. -/
theorem misplaced {front back : List Node} {n : Node} {i : ℕ} (hn : n.id = .child i)
    (hd : Distinct (front ++ n :: back)) {e : XmlElement} {results : List Result}
    (hres : results ≠ []) {p idx position num : ℕ} {calls : List NodeId} (hp : p < front.length)
    {t : LoopState}
    (h : replace genfile idx ⟨front.take p ++ new_nodes n.id e results ++ front.drop p ++ back,
      position, num, calls⟩ = some t) (more : List (NodeId × Option XmlElement)) :
    t.children.map Node.view
      ≠ front.map Node.view ++ (new_nodes n.id e results).map Node.view ++ more := by
  intro heq
  have hd' := hd.replaced hn e results
  have hnodup := hd'.nodup
  rw [List.map_append, List.map_append, List.nodup_append, List.nodup_append] at hnodup
  obtain ⟨⟨-, -, hapart⟩, -, hback⟩ := hnodup
  have hids : t.children.map Node.id
      = front.map Node.id ++ (new_nodes n.id e results).map Node.id ++ more.map Prod.fst := by
    rw [← map_fst_view, heq, List.map_append, List.map_append, map_fst_view, map_fst_view]
  -- the nodes in front and the new ones keep their order
  have hmarked : ∀ m ∈ front.take p ++ new_nodes n.id e results ++ front.drop p ++ back, m.Marked →
      m.id ∈ (front ++ new_nodes n.id e results ++ back).map Node.id := by
    intro m hm _
    refine List.mem_map_of_mem ?_
    have hparts : m ∈ front ↔ m ∈ front.take p ∨ m ∈ front.drop p := by
      rw [← List.mem_append, List.take_append_drop]
    simp only [List.mem_append] at hm ⊢
    tauto
  have hcopies : ∀ o j, NodeId.copy o j ∈ front.map Node.id ++ (new_nodes n.id e results).map
      Node.id → o ∉ (front ++ new_nodes n.id e results ++ back).map Node.id := by
    intro o j hin
    refine (hd'.copies o j ?_).2
    rw [List.map_append, List.map_append]
    exact List.mem_append_left _ hin
  have hkept := order_kept hmarked hcopies h
  rw [hids, List.map_append, List.map_append, List.map_append, List.map_take, List.map_drop]
    at hkept
  refine not_sublist_of_put_in (by rwa [List.length_map]) ?_ hapart
    (fun a ha hin => hback a hin a ha rfl) hkept
  rw [ne_eq, List.map_eq_nil_iff, new_nodes, List.mapIdx_eq_nil_iff]
  exact hres

/-! ## In step

The equivalence is proved from a point between two turns, by induction on the children still
to come; `front` holds what has been passed, with at most one rejection. Each kind of child
has a lemma that says what is left to be shown behind it.
-/

theorem orderly_of_other {n : Node} {ns : List Node} {r : ℕ} (hn : ¬ n.Marked) :
    Orderly genfile r (n :: ns) ↔ Orderly genfile r ns := by
  rw [Orderly, kind_of_not_marked hn]

section EndsWell

variable {front back : List Node} {n : Node} {calls : List NodeId} {t : LoopState}

/-- From a point between two turns on everything goes well: the children to come are handled once
each, and in order. -/
def EndsWell (genfile : Answers) (front back : List Node) (calls : List NodeId) (t : LoopState) :
    Prop :=
  t.children.map Node.view
      = front.map Node.view ++ (back.flatMap (Node.replacement genfile)).map Node.view ∧
    t.calls = calls ++ (back.filter fun n => n.Marked).map Node.id

theorem ends_well_of_other (hn : ¬ n.Marked) :
    EndsWell genfile front (n :: back) calls t ↔ EndsWell genfile (front ++ [n]) back calls t := by
  have hrep : n.replacement genfile = [n] := by
    rw [Node.replacement, kind_of_not_marked hn]
  rw [EndsWell, EndsWell, List.flatMap_cons, hrep, List.filter_cons_of_neg (by simpa using hn)]
  simp

theorem ends_well_of_rejected {i : ℕ} (hi : n.id = .child i) (hn : n.Marked)
    (hkind : n.kind genfile = .rejected) :
    EndsWell genfile front (n :: back) calls t ↔
      EndsWell genfile (front ++ [⟨n.id, n.edited⟩]) back (calls ++ [n.id]) t := by
  have hrep : n.replacement genfile = [n] := by
    rw [Node.replacement, hkind]
  rw [EndsWell, EndsWell, List.map_append, List.map_singleton, view_of_child hi, List.flatMap_cons,
    hrep, List.filter_cons_of_pos (by simpa using hn)]
  simp

theorem ends_well_of_accepted {results : List Result} (hn : n.Marked)
    (hkind : n.kind genfile = .accepted results) :
    EndsWell genfile front (n :: back) calls t ↔
      EndsWell genfile (front ++ new_nodes n.id n.edited results) back (calls ++ [n.id]) t := by
  have hrep : n.replacement genfile = new_nodes n.id n.edited results := by
    rw [Node.replacement, hkind]
  rw [EndsWell, EndsWell, List.flatMap_cons, hrep, List.filter_cons_of_pos (by simpa using hn)]
  simp

end EndsWell

/-- **From a point between two turns on**: everything goes well exactly if the children
to come are orderly. -/
theorem goes_on_iff {front back : List Node} {r num : ℕ} {calls : List NodeId} {t : LoopState}
    (hback : ∀ n ∈ back, ∃ i, n.id = .child i) (hr : r ≤ front.length)
    (hd : Distinct (front ++ back)) (h : GoesOn genfile front back r num calls t) :
    EndsWell genfile front back calls t ↔ Orderly genfile r back := by
  -- a turn that does not look at the next child goes on with the one after it
  induction hl : back.length using Nat.strong_induction_on
    generalizing front back r num calls with
  | _ len ih =>
    cases back with
    | nil =>
      rw [goes_on_nil h]
      simp [EndsWell, between, Orderly]
    | cons n ns =>
      obtain ⟨i, hi⟩ := hback n (by simp)
      have hns : ∀ m ∈ ns, ∃ i, m.id = .child i := fun m hm => hback m (List.mem_cons_of_mem _ hm)
      rw [List.length_cons] at hl
      rcases goes_on_cons hr hd.not_in_front h with ⟨hmark, h⟩ | ⟨hmark, hkind, -, h⟩
        | ⟨hmark, results, hkind, he, h⟩
      · -- not marked
        rw [ends_well_of_other hmark, orderly_of_other hmark]
        exact ih ns.length (by omega) hns (by rw [List.length_append]; omega) (by simpa using hd) h
          rfl
      · -- rejected
        have hd' : Distinct (front ++ [⟨n.id, n.edited⟩] ++ ns) := by
          constructor
          · simpa using hd.nodup
          · simpa using hd.copies
        rw [ends_well_of_rejected hi hmark hkind, Orderly, hkind]
        exact ih ns.length (by omega) hns
          (by rw [List.length_append, List.length_singleton]; omega) hd' h rfl
      · rw [ends_well_of_accepted hmark hkind, Orderly, hkind]
        have hd' := hd.replaced hi n.edited results
        cases results with
        | nil =>
          have hnone : front ++ new_nodes n.id n.edited [] = front := List.append_nil front
          rw [hnone] at hd' ⊢
          dsimp only
          cases ns with
          | nil =>
            rw [no_results_end h]
            simp [EndsWell, Orderly]
          | cons m ms =>
            have h := goes_on_no_results hr h
            by_cases hm : m.Marked
            · -- stepped over
              constructor
              · rintro ⟨-, hcalls⟩
                rw [List.filter_cons_of_pos (by simpa using hm), List.map_cons] at hcalls
                exact absurd hcalls (not_called_next hr hd' h)
              · rintro ⟨hno, -⟩
                exact absurd hm (hno m rfl)
            · have hno : ∀ m', some m = some m' → ¬ m'.Marked := by
                rintro m' ⟨⟩
                exact hm
              rw [List.head?_cons, and_iff_right hno, ends_well_of_other hm, orderly_of_other hm]
              exact ih ms.length (by rw [List.length_cons] at hl; omega)
                (fun x hx => hns x (List.mem_cons_of_mem _ hx))
                (by rw [List.length_append]; omega) (by simpa using hd') h rfl
        | cons res results =>
          dsimp only
          by_cases hone : r ≤ 1
          · rw [and_iff_right hone]
            exact ih ns.length (by omega) hns (by rw [List.length_append]; omega) hd'
              (goes_on_results hone (by simp) he h) rfl
          · -- the new nodes come too far to the front
            refine iff_of_false ?_ fun hle => hone hle.1
            rintro ⟨hchildren, -⟩
            rw [List.map_append] at hchildren
            exact misplaced hi hd (by simp) (by omega) h _ hchildren

/-! ## The whole loop

The induction speaks of a list cut in two, the condition of the places in it. What is left
is to translate the one into the other, and to bring the loop past the two comments that
`main` inserts.
-/

/-- Being orderly, said of the places in the list. -/
theorem orderly_iff (r : ℕ) (nodes : List Node) :
    Orderly genfile r nodes ↔
      (∀ a n m b, nodes = a ++ n :: m :: b → n.kind genfile = .accepted [] → ¬ m.Marked) ∧
      ∀ a n b results, nodes = a ++ n :: b → n.kind genfile = .accepted results → results ≠ [] →
        r + (a.countP fun m => m.kind genfile = .rejected) ≤ 1 := by
  -- both are about a place in the list
  have hplace : (∀ a n m b, nodes = a ++ n :: m :: b → n.kind genfile = .accepted [] →
        ¬ m.Marked) ↔
      ∀ a n b, nodes = a ++ n :: b → n.kind genfile = .accepted [] →
        ∀ m, b.head? = some m → ¬ m.Marked := by
    constructor
    · intro h a n b heq hn m hm
      obtain ⟨b, rfl⟩ := List.head?_eq_some_iff.mp hm
      exact h a n m b heq hn
    · exact fun h a n m b heq hn => h a n (m :: b) heq hn m rfl
  have hcount : (∀ a n b results, nodes = a ++ n :: b → n.kind genfile = .accepted results →
        results ≠ [] → r + (a.countP fun m => m.kind genfile = .rejected) ≤ 1) ↔
      ∀ a n b, nodes = a ++ n :: b → ∀ results, n.kind genfile = .accepted results →
        results ≠ [] → r + (a.countP fun m => m.kind genfile = .rejected) ≤ 1 :=
    ⟨fun h a n b heq results => h a n b results heq, fun h a n b results heq => h a n b heq results⟩
  rw [hplace, hcount]
  clear hplace hcount
  induction nodes generalizing r with
  | nil => simp [Orderly]
  | cons x xs ih =>
    rw [forall_split_cons, forall_split_cons, Orderly]
    simp only [List.countP_cons, List.countP_nil, decide_eq_true_eq, Nat.add_zero]
    cases hkind : x.kind genfile with
    | other => simp [ih]
    | ends => simp [ih]
    | rejected => simp [ih, Nat.add_assoc, Nat.add_comm 1]
    | accepted results =>
      cases results with
      | nil => simp [ih, and_assoc]
      | cons res results =>
        have hres : ∀ q : Prop, (∀ results', res :: results = results' → results' ≠ [] → q) ↔ q :=
          fun q => ⟨fun h => h _ rfl (List.cons_ne_nil _ _), fun h _ _ _ => h⟩
        simp only [ih, hres, reduceCtorEq, if_false, Nat.add_zero, false_implies, true_and,
          Kind.accepted.injEq]
        exact and_left_comm

theorem in_step_iff (nodes : List Node) : InStep genfile nodes ↔ Orderly genfile 0 nodes := by
  rw [orderly_iff]
  simp only [Nat.zero_add]
  exact ⟨fun h => ⟨h.not_skipped, h.in_place⟩, fun h => ⟨h.1, h.2⟩⟩

theorem id_of_child_node {children : List XmlElement} :
    ∀ n ∈ child_nodes children, ∃ i, n.id = .child i := by
  intro n hn
  obtain ⟨i, hi, rfl⟩ := List.mem_mapIdx.mp hn
  exact ⟨i, rfl⟩

theorem nodup_child_nodes (children : List XmlElement) :
    ((child_nodes children).map Node.id).Nodup := by
  rw [List.Nodup, List.pairwise_iff_getElem]
  intro i j hi hj hij
  simp only [child_nodes, List.getElem_map, List.getElem_mapIdx, ne_eq, NodeId.child.injEq]
  omega

theorem distinct_child_nodes (children : List XmlElement) :
    Distinct (comments ++ child_nodes children) := by
  have hchild : ∀ id ∈ (child_nodes children).map Node.id, ∃ i, id = .child i := by
    intro id hid
    obtain ⟨n, hn, rfl⟩ := List.mem_map.mp hid
    exact id_of_child_node n hn
  constructor
  · rw [List.map_append, List.nodup_append]
    refine ⟨by decide, nodup_child_nodes children, ?_⟩
    rintro a ha b hb rfl
    obtain ⟨i, rfl⟩ := hchild a hb
    simp [comments] at ha
  · intro o j hin
    rw [List.map_append, List.mem_append] at hin
    rcases hin with hin | hin
    · simp [comments] at hin
    · obtain ⟨i, hi⟩ := hchild _ hin
      cases hi

/-- The loop comes past the comments to the children. -/
theorem goes_on_of_main_loop {children : List XmlElement} {t : LoopState}
    (h : main_loop genfile children = some t) :
    GoesOn genfile comments (child_nodes children) 0 0 [] t := by
  have hcomments : ∀ m ∈ comments, ¬ m.Marked := by decide
  exact @replace_unmarked genfile t [] comments (child_nodes children) 1 0 [] hcomments h

/-- **Every sparse element is handled once, in order, exactly if the loop stays in step.** The
condition is on the children before the loop and on what `genfile` answers for each of them. -/
theorem handled_in_order_iff {children : List XmlElement} {t : LoopState}
    (h : main_loop genfile children = some t) :
    HandledOnce genfile children t ∧ CalledInOrder children t
      ↔ InStep genfile (child_nodes children) := by
  have hiff := goes_on_iff id_of_child_node (Nat.zero_le _) (distinct_child_nodes children)
    (goes_on_of_main_loop h)
  rw [in_step_iff, ← hiff, EndsWell, HandledOnce, CalledInOrder, List.map_append, List.nil_append]
  constructor
  · rintro ⟨⟨hview, -⟩, hcalls⟩
    exact ⟨hview, hcalls⟩
  · rintro ⟨hview, hcalls⟩
    refine ⟨⟨hview, fun n hn hmark => ?_⟩, hcalls⟩
    rw [hcalls]
    refine List.count_eq_one_of_mem ?_ (List.mem_map_of_mem ?_)
    · exact (List.filter_sublist.map _).nodup (nodup_child_nodes children)
    · exact List.mem_filter.mpr ⟨hn, by simpa using hmark⟩

/-! ## Two sparse images

The same two elements with two sets of answers: where both images have a run, everything is
replaced; where the first has none, the second is stepped over.
-/

def sparse_program (filename : String) : XmlElement :=
  ⟨"program", [("filename", filename), ("num_partition_sectors", "8"), ("size_in_KB", "4"),
    ("sparse", "true"), ("start_sector", "40")]⟩

def two_sparse : List XmlElement := [sparse_program "system.img", sparse_program "userdata.img"]

/-- The first image has no RAW chunk and so no results, the second one has a run. -/
def first_is_empty : Answers := fun id _ =>
  if id = .child 0 then .ok [] else .ok [⟨"userdata_1.img", 1, 40⟩]

/-- Both images have a run, so `genfile` answers with one result for each. -/
def both_have_one : Answers := fun id _ =>
  .ok [⟨if id = .child 0 then "system_1.img" else "userdata_1.img", 1, 40⟩]

theorem handled_in_order_both :
    ∃ t, main_loop both_have_one two_sparse = some t ∧
      (HandledOnce both_have_one two_sparse t ∧ CalledInOrder two_sparse t
        ↔ InStep both_have_one (child_nodes two_sparse)) := by
  obtain ⟨t, ht⟩ : ∃ t, turns both_have_one 5 0 ⟨comments ++ child_nodes two_sparse, 1, 0, []⟩
      = some t := Option.isSome_iff_exists.mp (by decide +kernel)
  exact ⟨t, replace_of_turns ht, handled_in_order_iff (replace_of_turns ht)⟩

/-- The child after an image without results is never passed to `genfile`. -/
theorem second_not_handled :
    ∃ t, main_loop first_is_empty two_sparse = some t ∧
      ¬ HandledOnce first_is_empty two_sparse t := by
  refine ⟨⟨comments ++ [⟨.child 1, sparse_program "userdata.img"⟩], 4, 1, [.child 0]⟩,
    @replace_of_turns _ _ _ _ 4 (by decide +kernel), ?_⟩
  rintro ⟨-, hcalls⟩
  have hone := hcalls ⟨.child 1, sparse_program "userdata.img"⟩ (by decide) (by decide)
  exact absurd hone (by decide)

end AndroidTools.Checksparse
