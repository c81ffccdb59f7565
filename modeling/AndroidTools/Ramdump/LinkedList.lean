/-
`ListWalker` (linux_list.py): lists of the kernel.

A walk passes the element at a node to `func` and follows the link in the dump, until the
link leads to the node the walker was made for, to 0, or to a node the walker has seen
before. The nodes seen belong to the walker and not to the walk, and the node a walk
begins at is not among them.

In a dump anything can be behind a link. `list_walk_ends` is about every dump: the walk
comes to an end, and what it has passed to `func` is the path along the links, without a
repetition behind its first node. `list_walks_ring` is about dumps that hold a ring: the
elements are passed in its order, or in the reverse order.
-/
import AndroidTools.Lib.Halting
import AndroidTools.Lib.Unseen
import Mathlib.Tactic

set_option autoImplicit false

namespace AndroidTools.Ramdump

open AndroidTools.Halting AndroidTools.Unseen StateTransition Relation

/-- A `ListWalker`, without the dump. A missing word is seen like any other. -/
structure ListWalker where
  list_elem_offset : ℕ
  last_node : ℕ
  seen_nodes : List (Option ℕ)
  deriving Repr, DecidableEq

/-- How a walk ends: at a null link, back at the node of the walker, with the warning that
the list is corrupted, or in the exception that a missing word raises. -/
inductive WalkEnd where
  | null
  | back
  | corrupted
  | type_error
  deriving Repr, DecidableEq

/-- A walk at a node, or at its end; `called` are the elements passed to `func`. -/
inductive WalkState where
  | going (node_addr : Option ℕ) (seen_nodes : List (Option ℕ)) (called : List ℤ)
  | ended (how : WalkEnd) (seen_nodes : List (Option ℕ)) (called : List ℤ)
  deriving Repr, DecidableEq

section Walker

variable (read_word : ℕ → Option ℕ)

/-- `is_empty`: the list begins and ends at its head, by the link at the offset of `next`. -/
def is_empty (w : ListWalker) (next_offset : ℕ) : Bool :=
  read_word (w.last_node + next_offset) = some w.last_node

/-- One turn of the loop of `walk` and of `walk_prev`, with the offset of their link. -/
def walk_step (w : ListWalker) (link_offset : ℕ) : WalkState → Option WalkState
  | .ended _ _ _ => none
  | .going none seen called => some (.ended .type_error seen called)
  | .going (some node_addr) seen called =>
    if node_addr = 0 then some (.ended .null seen called)
    else
      let called := called ++ [(node_addr : ℤ) - w.list_elem_offset]
      let next_node := read_word (node_addr + link_offset)
      if next_node = some w.last_node then some (.ended .back seen called)
      else if next_node ∈ seen then some (.ended .corrupted seen called)
      else some (.going next_node (seen ++ [next_node]) called)

/-- `walk`: where the loop begins; nothing is done for an empty list. -/
def walk (w : ListWalker) (next_offset : ℕ) (node_addr : Option ℕ) : Option WalkState :=
  if is_empty read_word w next_offset then none else some (.going node_addr w.seen_nodes [])

/-- `walk_prev`, which begins at the node before the one it is given. -/
def walk_prev (w : ListWalker) (next_offset prev_offset : ℕ) (node_addr : ℕ) :
    Option WalkState :=
  if is_empty read_word w next_offset then none
  else some (.going (read_word (node_addr + prev_offset)) w.seen_nodes [])

end Walker

/-! ## On any dump

The invariant, `WalkDone`, is about the path behind the walk: which nodes were seen, what
was passed to `func`, and that nothing behind the first node was seen before. As there are
only so many words a link can be, a walk cannot go on for ever.
-/

section Walks

variable {read_word : ℕ → Option ℕ} {w : ListWalker} {link_offset : ℕ}

/-- The argument of `func` for a node: the address of the element around it. -/
def element (w : ListWalker) (node_addr : ℕ) : ℤ := (node_addr : ℤ) - w.list_elem_offset

/-- The elements at the links of a path, in its order. -/
def elements (w : ListWalker) (links : List (Option ℕ)) : List ℤ :=
  links.filterMap fun x => x.bind fun a => if a = 0 then none else some (element w a)

/-- The link of a node is followed to the next one. -/
def Follows (read_word : ℕ → Option ℕ) (w : ListWalker) (link_offset : ℕ) (x y : Option ℕ) :
    Prop :=
  ∃ a, x = some a ∧ a ≠ 0 ∧ read_word (a + link_offset) = y ∧ y ≠ some w.last_node

/-- A path along the links on which nothing behind the first node was seen before. -/
structure WalkPath (read_word : ℕ → Option ℕ) (w : ListWalker) (link_offset : ℕ)
    (start : Option ℕ) (links : List (Option ℕ)) : Prop where
  begins : links.head? = some start
  follows : links.IsChain (Follows read_word w link_offset)
  distinct : links.tail.Nodup
  fresh : ∀ x ∈ links.tail, x ∉ w.seen_nodes

/-- Why a walk ends at the last link of its path. -/
def EndsBy (read_word : ℕ → Option ℕ) (w : ListWalker) (link_offset : ℕ)
    (links : List (Option ℕ)) : WalkEnd → Prop
  | .null => links.getLast? = some (some 0)
  | .type_error => links.getLast? = some none
  | .back => ∃ a, links.getLast? = some (some a) ∧ a ≠ 0 ∧
      read_word (a + link_offset) = some w.last_node
  | .corrupted => ∃ a, links.getLast? = some (some a) ∧ a ≠ 0 ∧
      read_word (a + link_offset) ≠ some w.last_node ∧
      (read_word (a + link_offset) ∈ w.seen_nodes ∨ read_word (a + link_offset) ∈ links.tail)

/-- What a walk has done in a state. -/
def WalkDone (read_word : ℕ → Option ℕ) (w : ListWalker) (link_offset : ℕ) (start : Option ℕ) :
    WalkState → Prop
  | .going node_addr seen called => ∃ links,
      WalkPath read_word w link_offset start (links ++ [node_addr]) ∧
      seen = w.seen_nodes ++ (links ++ [node_addr]).tail ∧ called = elements w links
  | .ended how seen called => ∃ links,
      WalkPath read_word w link_offset start links ∧ seen = w.seen_nodes ++ links.tail ∧
      called = elements w links ∧ EndsBy read_word w link_offset links how

theorem elements_concat (w : ListWalker) (links : List (Option ℕ)) {a : ℕ} (ha : a ≠ 0) :
    elements w (links ++ [some a]) = elements w links ++ [element w a] := by
  rw [elements, List.filterMap_append]
  simp [elements, ha]

/-- One turn of the loop keeps what a walk has done. -/
theorem walk_step_done {start : Option ℕ} {s t : WalkState}
    (hstep : walk_step read_word w link_offset s = some t)
    (hs : WalkDone read_word w link_offset start s) :
    WalkDone read_word w link_offset start t := by
  cases s with
  | ended how seen called => cases hstep
  | going node_addr seen called =>
    obtain ⟨links, hpath, hseen, hcalled⟩ := hs
    have hlast : (links ++ [node_addr]).getLast? = some node_addr := List.getLast?_concat
    cases node_addr with
    | none =>
      cases hstep
      refine ⟨_, hpath, hseen, ?_, hlast⟩
      rw [hcalled, elements, elements, List.filterMap_append]
      simp
    | some a =>
      rw [walk_step] at hstep
      dsimp only at hstep
      split_ifs at hstep with hzero hback hcycle
      · cases hstep
        subst hzero
        refine ⟨_, hpath, hseen, ?_, hlast⟩
        rw [hcalled, elements, elements, List.filterMap_append]
        simp
      · cases hstep
        refine ⟨_, hpath, hseen, ?_, a, hlast, hzero, hback⟩
        rw [elements_concat w links hzero, hcalled, element]
      · cases hstep
        refine ⟨_, hpath, hseen, ?_, a, hlast, hzero, hback, ?_⟩
        · rw [elements_concat w links hzero, hcalled, element]
        · rw [hseen] at hcycle
          exact List.mem_append.mp hcycle
      · cases hstep
        rw [hseen, List.mem_append, not_or] at hcycle
        have htail : (links ++ [some a] ++ [read_word (a + link_offset)]).tail
            = (links ++ [some a]).tail ++ [read_word (a + link_offset)] :=
          List.tail_append_of_ne_nil (by simp)
        refine ⟨links ++ [some a], ⟨?_, ?_, ?_, ?_⟩, ?_, ?_⟩
        · rw [List.head?_append, hpath.begins, Option.some_or]
        · refine List.IsChain.append hpath.follows (List.isChain_singleton _) ?_
          intro x hx y hy
          rw [hlast, Option.mem_some] at hx
          rw [List.head?_cons, Option.mem_some] at hy
          subst hx hy
          exact ⟨a, rfl, hzero, rfl, hback⟩
        · rw [htail]
          exact List.nodup_append.mpr ⟨hpath.distinct, List.nodup_singleton _,
            fun x hx y hy => by
              rw [List.mem_singleton.mp hy]
              exact fun heq => hcycle.2 (heq ▸ hx)⟩
        · rw [htail]
          intro x hx
          rcases List.mem_append.mp hx with hx | hx
          · exact hpath.fresh x hx
          · rw [List.mem_singleton.mp hx]
            exact hcycle.1
        · rw [htail, hseen, List.append_assoc]
        · rw [elements_concat w links hzero, hcalled, element]

/-- The links there can be in words of so many bits. -/
def possible_links (bits : ℕ) : Finset (Option ℕ) :=
  insert none ((Finset.range (2 ^ bits)).image some)

theorem read_word_possible {bits : ℕ} (hword : ∀ addr v, read_word addr = some v → v < 2 ^ bits)
    (addr : ℕ) : read_word addr ∈ possible_links bits := by
  rw [possible_links, Finset.mem_insert]
  cases h : read_word addr with
  | none => exact .inl rfl
  | some v => exact .inr (Finset.mem_image_of_mem some (Finset.mem_range.mpr (hword addr v h)))

/-- Every turn that goes on has seen another link, so a walk comes to an end. -/
theorem walk_halts {bits : ℕ} (hword : ∀ addr v, read_word addr = some v → v < 2 ^ bits)
    (s : WalkState) : Halts (walk_step read_word w link_offset) s := by
  cases s with
  | ended how seen called => exact halts_of_none rfl
  | going node_addr seen called =>
    induction hm : unseen (possible_links bits) seen using Nat.strong_induction_on
      generalizing node_addr seen called with
    | h m ih =>
      cases hs : walk_step read_word w link_offset (.going node_addr seen called) with
      | none => exact halts_of_none hs
      | some t =>
        rw [halts_iff_of_step hs]
        cases t with
        | ended how seen' called' => exact halts_of_none rfl
        | going next seen' called' =>
          cases node_addr with
          | none => cases hs
          | some a =>
            rw [walk_step] at hs
            dsimp only at hs
            split_ifs at hs with hzero hback hcycle
            · cases hs
            · cases hs
            · cases hs
            · cases hs
              refine ih _ ?_ _ _ _ rfl
              rw [← hm]
              exact unseen_append_lt (read_word_possible hword _) hcycle

/-- **Every walk ends.** What is passed to `func` are the elements along the links from where
the walk begins, none of them twice, the first one apart; and the walk ends where there is
no link to follow, back at the node of the walker, or at a node that was seen. -/
theorem list_walk_ends {bits : ℕ} (hword : ∀ addr v, read_word addr = some v → v < 2 ^ bits)
    (w : ListWalker) (link_offset : ℕ) (start : Option ℕ) :
    ∃ how seen called, Reaches (walk_step read_word w link_offset)
        (.going start w.seen_nodes []) (.ended how seen called) ∧
      WalkDone read_word w link_offset start (.ended how seen called) := by
  have hbegin : WalkDone read_word w link_offset start (.going start w.seen_nodes []) :=
    ⟨[], ⟨rfl, List.isChain_singleton _, List.nodup_nil, by simp⟩, by simp, rfl⟩
  have hkeep : ∀ t, Reaches (walk_step read_word w link_offset)
      (.going start w.seen_nodes []) t → WalkDone read_word w link_offset start t := by
    intro t ht
    induction ht with
    | refl => exact hbegin
    | tail _ hstep ih => exact walk_step_done hstep ih
  obtain ⟨t, ht, hnone⟩ : Halts (walk_step read_word w link_offset)
      (.going start w.seen_nodes []) := walk_halts hword _
  cases t with
  | ended how seen called => exact ⟨how, seen, called, ht, hkeep _ ht⟩
  | going node_addr seen called =>
    -- a walk at a node has another turn
    cases node_addr with
    | none => cases hnone
    | some a =>
      rw [walk_step] at hnone
      dsimp only at hnone
      split_ifs at hnone

/-! ## Over a ring

In a dump that holds a ring the path is the ring, and the walk ends where it began. A walk
back is a walk forth over the same nodes in reverse, with the offsets of the two links
exchanged.
-/

/-- Along a path of new nodes that leads back to the node of the walker. -/
theorem walk_along {a : ℕ} {rest : List ℕ} {seen : List (Option ℕ)} {called : List ℤ}
    (hnonzero : ∀ x ∈ a :: rest, x ≠ 0)
    (hchain : (a :: rest ++ [w.last_node]).IsChain
      fun x y => read_word (x + link_offset) = some y)
    (hlast : w.last_node ∉ rest) (hnodup : rest.Nodup) (hseen : ∀ x ∈ rest, some x ∉ seen) :
    Reaches (walk_step read_word w link_offset) (.going (some a) seen called)
      (.ended .back (seen ++ rest.map some) (called ++ (a :: rest).map (element w))) := by
  induction rest generalizing a seen called with
  | nil =>
    have hback : read_word (a + link_offset) = some w.last_node := by
      simpa using hchain
    refine ReflTransGen.single ?_
    rw [Option.mem_def, walk_step, if_neg (hnonzero a List.mem_cons_self)]
    dsimp only
    rw [if_pos hback, List.map_nil, List.append_nil, List.map_singleton, element]
  | cons b rest ih =>
    rw [List.cons_append, List.cons_append, List.isChain_cons_cons] at hchain
    obtain ⟨hnext, hchain⟩ := hchain
    rw [List.mem_cons, not_or] at hlast
    rw [List.nodup_cons] at hnodup
    have hnew := hseen b List.mem_cons_self
    have hstep : walk_step read_word w link_offset (.going (some a) seen called)
        = some (.going (some b) (seen ++ [some b]) (called ++ [element w a])) := by
      rw [walk_step, if_neg (hnonzero a List.mem_cons_self)]
      dsimp only
      rw [hnext, if_neg (fun heq => hlast.1 (Option.some.inj heq).symm), if_neg hnew, element]
    have hrest := @ih b (seen ++ [some b]) (called ++ [element w a])
      (fun x hx => hnonzero x (List.mem_cons_of_mem _ hx)) hchain hlast.2 hnodup.2
      (fun x hx hmem => by
        rcases List.mem_append.mp hmem with hmem | hmem
        · exact hseen x (List.mem_cons_of_mem _ hx) hmem
        · have hxb : x = b := Option.some.inj (List.mem_singleton.mp hmem)
          exact hnodup.1 (hxb ▸ hx))
    rw [List.append_assoc, List.singleton_append, ← List.map_cons, List.append_assoc,
      List.singleton_append, ← List.map_cons] at hrest
    exact ReflTransGen.head hstep hrest

/-- The dump holds a ring of the head and its nodes, linked both ways. -/
structure HoldsRing (read_word : ℕ → Option ℕ) (next_offset prev_offset head : ℕ)
    (nodes : List ℕ) : Prop where
  distinct : (head :: nodes).Nodup
  nonzero : ∀ x ∈ nodes, x ≠ 0
  next : (head :: nodes ++ [head]).IsChain fun x y => read_word (x + next_offset) = some y
  prev : (head :: nodes ++ [head]).IsChain fun x y => read_word (y + prev_offset) = some x

/-- A ring is a ring in either direction, with the two offsets exchanged. -/
theorem HoldsRing.backwards {next_offset prev_offset head : ℕ} {nodes : List ℕ}
    (h : HoldsRing read_word next_offset prev_offset head nodes) :
    HoldsRing read_word prev_offset next_offset head nodes.reverse := by
  have hreverse : (head :: nodes ++ [head]).reverse = head :: nodes.reverse ++ [head] := by
    simp
  refine ⟨?_, fun x hx => h.nonzero x (List.mem_reverse.mp hx), ?_, ?_⟩
  · rw [List.nodup_cons, List.mem_reverse, List.nodup_reverse]
    exact List.nodup_cons.mp h.distinct
  · rw [← hreverse, List.isChain_reverse]
    exact h.prev
  · rw [← hreverse, List.isChain_reverse]
    exact h.next

theorem HoldsRing.walk_nodes {next_offset prev_offset head : ℕ} {nodes : List ℕ}
    (h : HoldsRing read_word next_offset prev_offset head nodes) (hne : nodes ≠ [])
    (hlast : w.last_node = head) (hseen : w.seen_nodes = []) :
    Reaches (walk_step read_word w next_offset)
      (.going (read_word (head + next_offset)) w.seen_nodes [])
      (.ended .back (nodes.tail.map some) (nodes.map (element w))) := by
  obtain ⟨a, rest, rfl⟩ := List.exists_cons_of_ne_nil hne
  obtain ⟨hhead, hnodup⟩ := List.nodup_cons.mp h.distinct
  have hchain := h.next
  rw [List.cons_append, List.cons_append, List.isChain_cons_cons] at hchain
  rw [hchain.1, hseen]
  exact walk_along h.nonzero (hlast ▸ hchain.2)
    (by rw [hlast]; exact fun hmem => hhead (List.mem_cons_of_mem _ hmem))
    (List.nodup_cons.mp hnodup).2 (by simp)

/-- **Walks over a ring.** A new walker passes the nodes of the ring in order, and
`walk_prev` passes them in the reverse order. A walker that has walked over a ring of two
nodes or more passes only the first one again, and warns that the list is corrupted. -/
theorem list_walks_ring {next_offset prev_offset head : ℕ} {nodes : List ℕ}
    (h : HoldsRing read_word next_offset prev_offset head nodes) (hne : nodes ≠ [])
    (hlast : w.last_node = head) (hseen : w.seen_nodes = []) :
    (∃ s, walk read_word w next_offset (read_word (head + next_offset)) = some s ∧
      Reaches (walk_step read_word w next_offset) s
        (.ended .back (nodes.tail.map some) (nodes.map (element w)))) ∧
    (∃ s, walk_prev read_word w next_offset prev_offset head = some s ∧
      Reaches (walk_step read_word w prev_offset) s
        (.ended .back (nodes.reverse.tail.map some) (nodes.reverse.map (element w)))) ∧
    ∀ a b rest, nodes = a :: b :: rest →
      ∃ s, walk read_word { w with seen_nodes := nodes.tail.map some } next_offset
          (read_word (head + next_offset)) = some s ∧
        Reaches (walk_step read_word { w with seen_nodes := nodes.tail.map some } next_offset) s
          (.ended .corrupted (nodes.tail.map some) [element w a]) := by
  obtain ⟨a, rest, hnodes⟩ := List.exists_cons_of_ne_nil hne
  have hchain := h.next
  rw [hnodes, List.cons_append, List.cons_append, List.isChain_cons_cons] at hchain
  obtain ⟨hfirst, hchain⟩ := hchain
  have hhead := (List.nodup_cons.mp h.distinct).1
  have hempty : ∀ seen : List (Option ℕ),
      is_empty read_word { w with seen_nodes := seen } next_offset = false := by
    intro seen
    rw [is_empty, hlast, hfirst, decide_eq_false_iff_not, Option.some.injEq]
    intro heq
    exact hhead (by rw [hnodes, heq]; exact List.mem_cons_self)
  have hempty' : is_empty read_word w next_offset = false := hempty w.seen_nodes
  refine ⟨⟨_, ?_, h.walk_nodes hne hlast hseen⟩, ⟨_, ?_, h.backwards.walk_nodes
    (fun hnil => hne (List.reverse_eq_nil_iff.mp hnil)) hlast hseen⟩, fun a' b rest' hcons => ?_⟩
  · rw [walk, hempty', if_neg Bool.false_ne_true]
  · rw [walk_prev, hempty', if_neg Bool.false_ne_true]
  · rw [hnodes] at hcons
    obtain ⟨rfl, rfl⟩ := List.cons.inj hcons
    rw [List.cons_append, List.isChain_cons_cons] at hchain
    have hb : b ≠ head := by
      rintro rfl
      exact hhead (by rw [hnodes]; simp)
    have ha : a ≠ 0 := h.nonzero a (by rw [hnodes]; exact List.mem_cons_self)
    refine ⟨_, by rw [walk, hempty, if_neg Bool.false_ne_true], ReflTransGen.single ?_⟩
    rw [hfirst, hnodes, Option.mem_def, walk_step, if_neg ha]
    dsimp only
    rw [hchain.1, if_neg (by rw [hlast]; exact fun heq => hb (Option.some.inj heq)),
      if_pos (by simp), List.nil_append, element]

end Walks

/-- The words of a dump with a ring of two nodes. -/
def two_nodes (addr : ℕ) : Option ℕ :=
  [(0x1000, 0x2000), (0x2000, 0x3000), (0x3000, 0x1000), (0x1004, 0x3000), (0x2004, 0x1000),
    (0x3004, 0x2000)].lookup addr

theorem two_nodes_ring : HoldsRing two_nodes 0 4 0x1000 [0x2000, 0x3000] := by
  refine ⟨by decide, by decide, ?_, ?_⟩
  · simp only [List.cons_append, List.nil_append, List.isChain_cons_cons,
      List.isChain_singleton, and_true]
    decide
  · simp only [List.cons_append, List.nil_append, List.isChain_cons_cons,
      List.isChain_singleton, and_true]
    decide

theorem two_nodes_words (addr v : ℕ) (h : two_nodes addr = some v) : v < 2 ^ 32 := by
  have hall : ∀ p ∈ [(0x1000, 0x2000), (0x2000, 0x3000), (0x3000, 0x1000), (0x1004, 0x3000),
      (0x2004, 0x1000), (0x3004, 0x2000)], p.2 < 2 ^ 32 := by decide
  obtain ⟨before, behind, heq, -⟩ := List.lookup_eq_some_iff.mp h
  exact hall (addr, v) (by rw [heq]; simp)

theorem list_walk_ends_two_nodes : ∃ how seen called,
    Reaches (walk_step two_nodes ⟨0, 0x1000, []⟩ 0) (.going (some 0x2000) [] [])
      (.ended how seen called) ∧
    WalkDone two_nodes ⟨0, 0x1000, []⟩ 0 (some 0x2000) (.ended how seen called) :=
  list_walk_ends two_nodes_words ⟨0, 0x1000, []⟩ 0 (some 0x2000)

theorem list_walks_ring_two_nodes :
    (∃ s, walk two_nodes ⟨8, 0x1000, []⟩ 0 (some 0x2000) = some s ∧
      Reaches (walk_step two_nodes ⟨8, 0x1000, []⟩ 0) s
        (.ended .back [some 0x3000] [0x1FF8, 0x2FF8])) ∧
    ∃ s, walk_prev two_nodes ⟨8, 0x1000, []⟩ 0 4 0x1000 = some s ∧
      Reaches (walk_step two_nodes ⟨8, 0x1000, []⟩ 4) s
        (.ended .back [some 0x2000] [0x2FF8, 0x1FF8]) := by
  obtain ⟨hwalk, hprev, -⟩ := @list_walks_ring two_nodes ⟨8, 0x1000, []⟩ 0 4 0x1000
    [0x2000, 0x3000] two_nodes_ring (by decide) rfl rfl
  exact ⟨hwalk, hprev⟩

end AndroidTools.Ramdump
