/-
`RbTreeWalker` (rb_tree.py): the red-black trees of the kernel.

`_walk` calls itself for the left child, passes the node to `func`, and calls itself for
the right child, each child only if its address was not seen before. The null address is
remembered like any other; the root is not, as it is nobody's child.

The recursion goes as deep as the interpreter lets it; `recursion_limit` is what is left. An
exception ends all the calls at once, but the nodes passed to `func` stay passed, so a walk
that stops keeps its state too.

`rb_walk_any` is about every dump: the depth is bounded by the words there can be, and no
child is passed twice, whether the walk ends or stops. `rb_walk_tree` is about a dump that
holds a tree: its nodes are passed from left to right, so a search tree in the order of its
keys.
-/
import AndroidTools.Lib.Passes
import AndroidTools.Ramdump.LinkedList
import Mathlib.Data.Tree.Basic

set_option autoImplicit false

namespace AndroidTools.Ramdump

open AndroidTools.Passes AndroidTools.Unseen

/-- What ends a walk early: a node without an address, or a recursion that is too deep. -/
inductive RbStop where
  | type_error
  | recursion_error
  deriving Repr, DecidableEq

/-- The addresses seen, and the nodes passed to `func`. -/
abbrev RbState := List (Option ℕ) × List ℕ

/-- A walk that ended, or that an exception stopped, with the state it leaves behind. -/
abbrev RbWalk := Except (RbStop × RbState) RbState

/-- The state left behind, whichever way the walk ended. -/
def RbWalk.state : RbWalk → RbState
  | .ok s => s
  | .error (_, s) => s

/-- The `in` of the walk compares addresses. -/
local instance seen_lawful : @LawfulBEq (Option ℕ) (@Option.instBEq ℕ instBEqOfDecidableEq) :=
  Option.instLawfulBEq ℕ

section Walker

variable (read_word : ℕ → Option ℕ) (left_offset right_offset : ℕ)

/-- `_walk`, with what is left of the recursion limit. -/
def rb_walk : ℕ → Option ℕ → RbState → RbWalk
  | 0, _, s => .error (.recursion_error, s)
  | _ + 1, none, s => .error (.type_error, s)
  | recursion_limit + 1, some node, s =>
    if node = 0 then .ok s
    else do
      let left_node := read_word (node + left_offset)
      let s ← if left_node ∈ s.1 then .ok s
        else rb_walk recursion_limit left_node (s.1 ++ [left_node], s.2)
      let right_node := read_word (node + right_offset)
      let s : RbState := (s.1, s.2 ++ [node])
      if right_node ∈ s.1 then .ok s
        else rb_walk recursion_limit right_node (s.1 ++ [right_node], s.2)

end Walker

section Walks

variable {read_word : ℕ → Option ℕ} {left_offset right_offset : ℕ}

/-- The part of `_walk` for one child: nothing, if its address was seen before. -/
def rb_child (read_word : ℕ → Option ℕ) (left_offset right_offset recursion_limit : ℕ)
    (child : Option ℕ) (s : RbState) : RbWalk :=
  if child ∈ s.1 then .ok s
  else rb_walk read_word left_offset right_offset recursion_limit child (s.1 ++ [child], s.2)

theorem rb_walk_zero (node : Option ℕ) (s : RbState) :
    rb_walk read_word left_offset right_offset 0 node s = .error (.recursion_error, s) := by
  rw [rb_walk]

theorem rb_walk_none (limit : ℕ) (s : RbState) :
    rb_walk read_word left_offset right_offset (limit + 1) none s = .error (.type_error, s) := by
  rw [rb_walk]

theorem rb_walk_null (limit : ℕ) (s : RbState) :
    rb_walk read_word left_offset right_offset (limit + 1) (some 0) s = .ok s := by
  rw [rb_walk, if_pos rfl]

/-- A walk at a node: the left child, the node, the right child. -/
theorem rb_walk_node {node : ℕ} (h : node ≠ 0) (limit : ℕ) (s : RbState) :
    rb_walk read_word left_offset right_offset (limit + 1) (some node) s
      = rb_child read_word left_offset right_offset limit (read_word (node + left_offset)) s >>=
          fun s => rb_child read_word left_offset right_offset limit
            (read_word (node + right_offset)) (s.1, s.2 ++ [node]) := by
  rw [rb_walk, if_neg h]
  dsimp only [rb_child]
  by_cases hseen : read_word (node + left_offset) ∈ s.1
  · rw [if_pos hseen, if_pos hseen]
  · rw [if_neg hseen, if_neg hseen]

/-! ## On any dump

`RbDone` compares what a walk leaves behind with what it found: the addresses that were seen
on the way are new and different, and the nodes passed are among them. It composes, so the
walk of a node follows from the walks of its children.
-/

/-- What a walk has done: the addresses it has seen are new and different, and each of the
nodes it passed to `func` is where it began or one of them, once. -/
structure RbDone (begin : List (Option ℕ)) (s s' : RbState) (seen : List (Option ℕ))
    (called : List ℕ) : Prop where
  seen_nodes : s'.1 = s.1 ++ seen
  distinct : seen.Nodup
  fresh : ∀ x ∈ seen, x ∉ s.1
  called_nodes : s'.2 = s.2 ++ called
  once : (called.map some).Subperm (begin ++ seen)

/-- A walk that has done nothing yet has passed nothing. -/
theorem RbDone.refl (begin : List (Option ℕ)) (s : RbState) : RbDone begin s s [] [] :=
  ⟨(List.append_nil _).symm, List.nodup_nil, by simp, (List.append_nil _).symm,
    List.nil_subperm⟩

/-- What is passed to `func` may also begin elsewhere. -/
theorem RbDone.begins {begin begin' : List (Option ℕ)} {s s' : RbState}
    {seen : List (Option ℕ)} {called : List ℕ} (h : RbDone begin s s' seen called)
    (hsub : begin.Subperm begin') : RbDone begin' s s' seen called :=
  { h with once := h.once.trans (hsub.append (List.Subperm.refl _)) }

/-- One walk after the other: what is seen and passed is put together. -/
theorem RbDone.trans {begin : List (Option ℕ)} {s t u : RbState} {seen seen' : List (Option ℕ)}
    {called called' : List ℕ} {a : ℕ} (h : RbDone [] s t seen called)
    (h' : RbDone [] (t.1, t.2 ++ [a]) u seen' called') (hbegin : some a ∈ begin) :
    RbDone begin s u (seen ++ seen') (called ++ a :: called') := by
  refine ⟨?_, ?_, ?_, ?_, ?_⟩
  · rw [h'.seen_nodes, h.seen_nodes, List.append_assoc]
  · refine List.nodup_append.mpr ⟨h.distinct, h'.distinct, fun x hx y hy heq => ?_⟩
    exact h'.fresh y hy (by rw [h.seen_nodes, ← heq]; exact List.mem_append_right _ hx)
  · intro x hx
    rcases List.mem_append.mp hx with hx | hx
    · exact h.fresh x hx
    · exact fun hmem => h'.fresh x hx (by rw [h.seen_nodes]; exact List.mem_append_left _ hmem)
  · rw [h'.called_nodes, h.called_nodes, List.append_assoc, List.append_assoc,
      List.singleton_append]
  · have hleft := h.once
    have hright := h'.once
    rw [List.nil_append] at hleft hright
    have hnode : [some a].Subperm begin :=
      (List.singleton_sublist.mpr hbegin).subperm
    have hall := hnode.append (hleft.append hright)
    refine List.Subperm.trans (List.Perm.subperm ?_) hall
    rw [List.map_append, List.map_cons, List.singleton_append]
    exact List.perm_middle

/-- A child, when the walk below it is as it should be. -/
theorem rb_child_done {limit : ℕ} {child : Option ℕ} {s : RbState}
    (hwalk : ∃ seen called, RbDone [child] (s.1 ++ [child], s.2)
      (rb_walk read_word left_offset right_offset limit child (s.1 ++ [child], s.2)).state
      seen called) :
    ∃ seen called, RbDone [] s
      (rb_child read_word left_offset right_offset limit child s).state seen called := by
  rw [rb_child]
  split_ifs with hseen
  · exact ⟨[], [], RbDone.refl _ _⟩
  · obtain ⟨seen, called, hdone⟩ := hwalk
    refine ⟨child :: seen, called, ?_, ?_, ?_, hdone.called_nodes, ?_⟩
    · rw [hdone.seen_nodes, List.append_assoc, List.singleton_append]
    · refine List.nodup_cons.mpr ⟨fun hmem => hdone.fresh child hmem ?_, hdone.distinct⟩
      exact List.mem_append_right _ (List.mem_singleton_self _)
    · intro x hx
      rcases List.mem_cons.mp hx with rfl | hx
      · exact hseen
      · exact fun hmem => hdone.fresh x hx (List.mem_append_left _ hmem)
    · exact hdone.once

/-- Every walk, also one that is stopped. Where the left child stops it, the node itself and
the right child are not come to. -/
theorem rb_walk_done (limit : ℕ) (node : Option ℕ) (s : RbState) :
    ∃ seen called, RbDone [node] s
      (rb_walk read_word left_offset right_offset limit node s).state seen called := by
  induction limit generalizing node s with
  | zero =>
    rw [rb_walk_zero]
    exact ⟨[], [], RbDone.refl _ _⟩
  | succ limit ih =>
    cases node with
    | none =>
      rw [rb_walk_none]
      exact ⟨[], [], RbDone.refl _ _⟩
    | some a =>
      by_cases hzero : a = 0
      · subst hzero
        rw [rb_walk_null]
        exact ⟨[], [], RbDone.refl _ _⟩
      · rw [rb_walk_node hzero]
        obtain ⟨seen, called, hdone⟩ := rb_child_done
          (ih (read_word (a + left_offset)) (s.1 ++ [read_word (a + left_offset)], s.2))
        cases hleft : rb_child read_word left_offset right_offset limit
            (read_word (a + left_offset)) s with
        | error stop =>
          rw [hleft] at hdone
          exact ⟨seen, called, hdone.begins List.nil_subperm⟩
        | ok t =>
          rw [hleft] at hdone
          obtain ⟨seen', called', hdone'⟩ := rb_child_done (s := (t.1, t.2 ++ [a]))
            (ih (read_word (a + right_offset)) (t.1 ++ [read_word (a + right_offset)], t.2 ++ [a]))
          exact ⟨_, _, hdone.trans hdone' (List.mem_singleton_self _)⟩

/-- With a limit above what there is to be seen, the recursion is not too deep. -/
theorem rb_walk_deep {bits : ℕ} (hword : ∀ addr v, read_word addr = some v → v < 2 ^ bits)
    {limit : ℕ} {node : Option ℕ} {s : RbState}
    (hlimit : unseen (possible_links bits) s.1 < limit) (u : RbState) :
    rb_walk read_word left_offset right_offset limit node s ≠ .error (.recursion_error, u) := by
  induction limit generalizing node s with
  | zero => omega
  | succ limit ih =>
    have hchild : ∀ (addr : ℕ) (t : RbState), s.1 ⊆ t.1 →
        rb_child read_word left_offset right_offset limit (read_word addr) t
          ≠ .error (.recursion_error, u) := by
      intro addr t hsub
      rw [rb_child]
      split_ifs with hseen
      · exact ok_ne_error _ _
      · refine ih ?_
        have hless := unseen_append_lt (read_word_possible hword addr) hseen
        have hmono : unseen (possible_links bits) t.1 ≤ unseen (possible_links bits) s.1 :=
          unseen_mono hsub
        dsimp only
        omega
    cases node with
    | none =>
      rw [rb_walk_none]
      exact error_ne_error fun heq => RbStop.noConfusion (Prod.mk.inj heq).1
    | some a =>
      by_cases hzero : a = 0
      · subst hzero
        rw [rb_walk_null]
        exact ok_ne_error _ _
      · rw [rb_walk_node hzero, bind_ne_error_iff]
        refine ⟨hchild _ s (List.Subset.refl _), fun t ht => hchild _ _ ?_⟩
        have hleft : ∃ seen called, RbDone [] s (rb_child read_word left_offset right_offset limit
            (read_word (a + left_offset)) s).state seen called :=
          rb_child_done (rb_walk_done limit _ _)
        obtain ⟨seen, called, hdone⟩ := hleft
        have hseen : t.1 = s.1 ++ seen := by
          rw [ht] at hdone
          exact hdone.seen_nodes
        rw [hseen]
        exact List.subset_append_left _ _

/-- **The walk on any dump** is at most as deep as there are words, so it ends or meets a
missing word; and whichever it does, it has passed none but the first of its nodes to `func`
twice. -/
theorem rb_walk_any {bits : ℕ} (hword : ∀ addr v, read_word addr = some v → v < 2 ^ bits)
    {limit : ℕ} (hlimit : 2 ^ bits + 1 < limit) (node : Option ℕ) :
    ∃ seen called,
      (rb_walk read_word left_offset right_offset limit node ([], []) = .ok (seen, called) ∨
        rb_walk read_word left_offset right_offset limit node ([], [])
          = .error (.type_error, seen, called)) ∧
      seen.Nodup ∧ (called.map some).Subperm (node :: seen) := by
  have hcard : (possible_links bits).card ≤ 2 ^ bits + 1 := by
    refine (Finset.card_insert_le _ _).trans (Nat.succ_le_succ ?_)
    exact Finset.card_image_le.trans (Finset.card_range _).le
  have hunseen := unseen_le_card (possible_links bits) ([] : List (Option ℕ))
  have hdeep : ∀ u, rb_walk read_word left_offset right_offset limit node ([], [])
      ≠ .error (.recursion_error, u) :=
    rb_walk_deep hword (lt_of_le_of_lt (hunseen.trans hcard) hlimit)
  obtain ⟨seen, called, hdone⟩ :=
    @rb_walk_done read_word left_offset right_offset limit node ([], [])
  have hseen : (rb_walk read_word left_offset right_offset limit node ([], [])).state.1 = seen :=
    hdone.seen_nodes
  have hcalled : (rb_walk read_word left_offset right_offset limit node ([], [])).state.2
      = called := hdone.called_nodes
  refine ⟨seen, called, ?_, hdone.distinct, hdone.once⟩
  cases h : rb_walk read_word left_offset right_offset limit node ([], []) with
  | error stop =>
    obtain ⟨why, u⟩ := stop
    rw [h] at hseen hcalled
    cases why with
    | type_error => exact .inr (by rw [← hseen, ← hcalled]; rfl)
    | recursion_error => exact absurd h (hdeep u)
  | ok u =>
    rw [h] at hseen hcalled
    exact .inl (by rw [← hseen, ← hcalled]; rfl)

/-! ## Over a tree

By induction over the tree that the dump holds. None of its nodes has been seen before its
walk, and so no child is left out.
-/

/-- The values of a tree from left to right. -/
def inorder {α : Type*} : BinaryTree α → List α
  | .nil => []
  | .node a l r => inorder l ++ a :: inorder r

/-- The dump holds the tree at an address: its words at the two offsets are the addresses of the
children. -/
def HoldsTree (read_word : ℕ → Option ℕ) (left_offset right_offset : ℕ) :
    BinaryTree ℕ → Option ℕ → Prop
  | .nil, addr => addr = some 0
  | .node a l r, addr => addr = some a ∧ a ≠ 0 ∧
      HoldsTree read_word left_offset right_offset l (read_word (a + left_offset)) ∧
      HoldsTree read_word left_offset right_offset r (read_word (a + right_offset))

theorem HoldsTree.ne_zero {t : BinaryTree ℕ} {addr : Option ℕ}
    (h : HoldsTree read_word left_offset right_offset t addr) : ∀ a ∈ inorder t, a ≠ 0 := by
  induction t generalizing addr with
  | nil => simp [inorder]
  | node a l r ihl ihr =>
    obtain ⟨-, hzero, hleft, hright⟩ := h
    rw [inorder, List.forall_mem_append, List.forall_mem_cons]
    exact ⟨ihl hleft, hzero, ihr hright⟩

/-- A part of `_walk` over a subtree: its nodes are passed from left to right, and none but
they and the null address have been seen in addition. -/
def WalksTree (walk : RbState → RbWalk) (t : BinaryTree ℕ) (s : RbState) : Prop :=
  ∃ seen, walk s = .ok (seen, s.2 ++ inorder t) ∧
    ∀ x ∈ seen, x ∈ s.1 ∨ x = some 0 ∨ ∃ a ∈ inorder t, x = some a

/-- From the walks over both children to the walk over their node. -/
theorem walks_node {a : ℕ} {l r : BinaryTree ℕ} {limit : ℕ} {s : RbState} (hzero : a ≠ 0)
    (hnodup : (inorder (.node a l r)).Nodup) (hnonzero : ∀ b ∈ inorder r, b ≠ 0)
    (hnew : ∀ b ∈ inorder l ++ inorder r, some b ∉ s.1)
    (hleft : ∀ s : RbState, (∀ b ∈ inorder l, some b ∉ s.1) → WalksTree
      (rb_child read_word left_offset right_offset limit (read_word (a + left_offset))) l s)
    (hright : ∀ s : RbState, (∀ b ∈ inorder r, some b ∉ s.1) → WalksTree
      (rb_child read_word left_offset right_offset limit (read_word (a + right_offset))) r s) :
    WalksTree (rb_walk read_word left_offset right_offset (limit + 1) (some a)) (.node a l r)
      s := by
  rw [inorder] at hnodup
  obtain ⟨-, -, hapart⟩ := List.nodup_append.mp hnodup
  obtain ⟨seen, hrunl, hseenl⟩ := hleft s fun b hb => hnew b (List.mem_append_left _ hb)
  have hnewr : ∀ b ∈ inorder r, some b ∉ seen := by
    intro b hb hmem
    rcases hseenl _ hmem with hmem | hmem | ⟨c, hc, heq⟩
    · exact hnew b (List.mem_append_right _ hb) hmem
    · exact hnonzero b hb (Option.some.inj hmem)
    · exact hapart c hc b (List.mem_cons_of_mem _ hb) (Option.some.inj heq).symm
  obtain ⟨seen', hrunr, hseenr⟩ := hright (seen, s.2 ++ inorder l ++ [a]) hnewr
  refine ⟨seen', ?_, fun x hx => ?_⟩
  · rw [rb_walk_node hzero, hrunl, ok_bind]
    dsimp only
    rw [hrunr, inorder]
    dsimp only
    rw [List.append_assoc, List.append_assoc, List.singleton_append]
  · have hin : ∀ b, b ∈ inorder l ∨ b ∈ inorder r → b ∈ inorder (.node a l r) := by
      intro b hb
      rw [inorder, List.mem_append, List.mem_cons]
      exact hb.imp_right .inr
    rcases hseenr x hx with hx | hx | ⟨b, hb, rfl⟩
    · rcases hseenl x hx with hx | hx | ⟨b, hb, rfl⟩
      · exact .inl hx
      · exact .inr (.inl hx)
      · exact .inr (.inr ⟨b, hin b (.inl hb), rfl⟩)
    · exact .inr (.inl hx)
    · exact .inr (.inr ⟨b, hin b (.inr hb), rfl⟩)

/-- A subtree none of whose nodes has been seen is walked. -/
theorem rb_child_tree {t : BinaryTree ℕ} {limit : ℕ} {child : Option ℕ} {s : RbState}
    (htree : HoldsTree read_word left_offset right_offset t child)
    (hnodup : (inorder t).Nodup) (hnew : ∀ a ∈ inorder t, some a ∉ s.1)
    (hlimit : t.height < limit) :
    WalksTree (rb_child read_word left_offset right_offset limit child) t s := by
  induction t generalizing limit child s with
  | nil =>
    obtain rfl : child = some 0 := htree
    obtain ⟨limit, rfl⟩ := Nat.exists_eq_succ_of_ne_zero (by omega : limit ≠ 0)
    rw [WalksTree, rb_child, rb_walk_null, inorder, List.append_nil]
    split_ifs with hseen
    · exact ⟨s.1, rfl, fun x hx => .inl hx⟩
    · refine ⟨s.1 ++ [some 0], rfl, fun x hx => ?_⟩
      rcases List.mem_append.mp hx with hx | hx
      · exact .inl hx
      · exact .inr (.inl (List.mem_singleton.mp hx))
  | node a l r ihl ihr =>
    obtain ⟨rfl, hzero, hleft, hright⟩ := htree
    obtain ⟨limit, rfl⟩ := Nat.exists_eq_succ_of_ne_zero (by omega : limit ≠ 0)
    rw [BinaryTree.height] at hlimit
    have hlimitl : l.height < limit := by omega
    have hlimitr : r.height < limit := by omega
    have hnodup' := hnodup
    rw [inorder] at hnodup hnew
    obtain ⟨hl, har, hapart⟩ := List.nodup_append.mp hnodup
    obtain ⟨ha, hr⟩ := List.nodup_cons.mp har
    -- the node itself is seen now, and is none of those below it
    have hbelow : ∀ b ∈ inorder l ++ inorder r, some b ∉ s.1 ++ [some a] := by
      intro b hb hmem
      rcases List.mem_append.mp hmem with hmem | hmem
      · rcases List.mem_append.mp hb with hb | hb
        · exact hnew b (List.mem_append_left _ hb) hmem
        · exact hnew b (List.mem_append_right _ (List.mem_cons_of_mem _ hb)) hmem
      · have hba : b = a := Option.some.inj (List.mem_singleton.mp hmem)
        rcases List.mem_append.mp hb with hb | hb
        · exact hapart b hb a List.mem_cons_self hba
        · exact ha (hba ▸ hb)
    obtain ⟨seen, hrun, hseen⟩ := walks_node (s := (s.1 ++ [some a], s.2)) hzero hnodup'
      hright.ne_zero hbelow (fun u hu => ihl hleft hl hu hlimitl)
      (fun u hu => ihr hright hr hu hlimitr)
    refine ⟨seen, ?_, fun x hx => ?_⟩
    · rw [rb_child, if_neg (hnew a (List.mem_append_right _ List.mem_cons_self)), hrun]
    · rcases hseen x hx with hx | hx
      · rcases List.mem_append.mp hx with hx | hx
        · exact .inl hx
        · refine .inr (.inr ⟨a, ?_, List.mem_singleton.mp hx⟩)
          rw [inorder]
          exact List.mem_append_right _ List.mem_cons_self
      · exact .inr hx

/-- A search tree for the keys: everything to the left of a node comes before it, and everything
to the right behind it. -/
def Ordered {κ : Type*} [Preorder κ] (key : ℕ → κ) : BinaryTree ℕ → Prop
  | .nil => True
  | .node a l r => Ordered key l ∧ Ordered key r ∧ (∀ b ∈ inorder l, key b ≤ key a) ∧
      ∀ b ∈ inorder r, key a ≤ key b

theorem Ordered.sorted {κ : Type*} [Preorder κ] {key : ℕ → κ} {t : BinaryTree ℕ}
    (h : Ordered key t) : (inorder t).Pairwise fun a b => key a ≤ key b := by
  induction t with
  | nil => exact .nil
  | node a l r ihl ihr =>
    obtain ⟨hl, hr, hbelow, habove⟩ := h
    rw [inorder, List.pairwise_append, List.pairwise_cons]
    refine ⟨ihl hl, ⟨habove, ihr hr⟩, fun b hb c hc => ?_⟩
    rcases List.mem_cons.mp hc with rfl | hc
    · exact hbelow b hb
    · exact (hbelow b hb).trans (habove c hc)

/-- **The walk over a tree** passes its nodes from left to right, each once; those of a search
tree in the order of their keys. -/
theorem rb_walk_tree {t : BinaryTree ℕ} {limit : ℕ} {root : Option ℕ}
    (htree : HoldsTree read_word left_offset right_offset t root)
    (hnodup : (inorder t).Nodup) (hlimit : t.height < limit) {κ : Type*} [Preorder κ]
    (key : ℕ → κ) :
    ∃ seen, rb_walk read_word left_offset right_offset limit root ([], []) = .ok (seen, inorder t) ∧
      (Ordered key t → (inorder t).Pairwise fun a b => key a ≤ key b) := by
  obtain ⟨limit, rfl⟩ := Nat.exists_eq_succ_of_ne_zero (by omega : limit ≠ 0)
  cases t with
  | nil =>
    obtain rfl : root = some 0 := htree
    exact ⟨[], rb_walk_null limit _, fun h => h.sorted⟩
  | node a l r =>
    obtain ⟨rfl, hzero, hleft, hright⟩ := htree
    rw [BinaryTree.height] at hlimit
    have hlimitl : l.height < limit := by omega
    have hlimitr : r.height < limit := by omega
    have hnodup' := hnodup
    rw [inorder] at hnodup'
    obtain ⟨hl, har, -⟩ := List.nodup_append.mp hnodup'
    obtain ⟨seen, hrun, -⟩ := walks_node (s := ([], [])) hzero hnodup hright.ne_zero (by simp)
      (fun u hu => rb_child_tree hleft hl hu hlimitl)
      (fun u hu => rb_child_tree hright (List.nodup_cons.mp har).2 hu hlimitr)
    exact ⟨seen, hrun, fun h => h.sorted⟩

end Walks

/-- The words of a dump with a tree of three nodes. -/
def three_nodes (addr : ℕ) : Option ℕ :=
  [(0x1008, 0x3000), (0x1010, 0x2000), (0x2008, 0), (0x2010, 0), (0x3008, 0),
    (0x3010, 0)].lookup addr

theorem three_nodes_words (addr v : ℕ) (h : three_nodes addr = some v) : v < 2 ^ 64 := by
  have hall : ∀ p ∈ [(0x1008, 0x3000), (0x1010, 0x2000), (0x2008, 0), (0x2010, 0), (0x3008, 0),
      (0x3010, 0)], p.2 < 2 ^ 64 := by decide
  obtain ⟨before, behind, heq, -⟩ := List.lookup_eq_some_iff.mp h
  exact hall (addr, v) (by rw [heq]; simp)

/-- The words of a dump with these three nodes, in which the left child of the last one is
missing. -/
def torn_nodes (addr : ℕ) : Option ℕ := if addr = 0x3010 then none else three_nodes addr

theorem torn_nodes_words (addr v : ℕ) (h : torn_nodes addr = some v) : v < 2 ^ 64 := by
  rw [torn_nodes] at h
  split_ifs at h
  exact three_nodes_words addr v h

/-- Two of the three nodes are passed to `func` before the missing word stops the walk. -/
example : rb_walk torn_nodes 16 8 5 (some 0x1000) ([], [])
    = .error (.type_error, [some 0x2000, some 0, some 0x3000, none], [0x2000, 0x1000]) := rfl

theorem rb_walk_any_torn_nodes : ∃ seen called,
    (rb_walk torn_nodes 16 8 (2 ^ 64 + 2) (some 0x1000) ([], []) = .ok (seen, called) ∨
      rb_walk torn_nodes 16 8 (2 ^ 64 + 2) (some 0x1000) ([], [])
        = .error (.type_error, seen, called)) ∧
    seen.Nodup ∧ (called.map some).Subperm (some 0x1000 :: seen) :=
  rb_walk_any torn_nodes_words (Nat.lt_succ_self _) _

/-- The left child is at the higher address. -/
theorem rb_walk_tree_three_nodes :
    ∃ seen, rb_walk three_nodes 16 8 3 (some 0x1000) ([], [])
      = .ok (seen, [0x2000, 0x1000, 0x3000]) := by
  have htree : HoldsTree three_nodes 16 8
      (.node 0x1000 (.node 0x2000 .nil .nil) (.node 0x3000 .nil .nil)) (some 0x1000) := by
    simp only [HoldsTree]
    decide
  obtain ⟨seen, hrun, -⟩ := rb_walk_tree htree (by decide) (by decide : _ < 3) id
  exact ⟨seen, hrun⟩

end AndroidTools.Ramdump
