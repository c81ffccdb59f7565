/-
The loop of `checksparse.py`'s `main` over a rawprogram file.

`iter()` goes through the live child list by index, while the loop inserts elements into that list
and removes others from it. `position` is kept by hand: it starts one ahead, for the root that
`iter()` comes to first, and `continue` leaves it behind when `genfile` returns -1. Elements are
told apart by identity, as `remove` does; an element is edited where it stands. So a child is a
`Node`, an identity with the element as it is now.

What `genfile` answers is a parameter: one answer for each element it is asked about. `Turn` is
the inversion of one turn, stated once with all a turn can do, and every invariant of the loop is
proved from it. The loop ends because a turn leaves fewer marked elements or moves on in a list
that stays as it is (`Turn.progress`).
-/
import AndroidTools.Checksparse.Genfile
import AndroidTools.Lib.Text
import AndroidTools.Xml

set_option autoImplicit false

namespace AndroidTools.Checksparse

/-! ## Children

`main` removes and inserts objects and compares none, so a child is an identity with
attributes: one of the two comments, a child that was read, or the copy for a result of one.
-/

/-- Which object a child is: one of the two comments, a child that was read, or a copy
(`deepcopy`) of another. -/
inductive NodeId where
  | comment (k : ℕ)
  | child (i : ℕ)
  | copy (source : NodeId) (i : ℕ)
  deriving DecidableEq, Repr

structure Node where
  id : NodeId
  element : XmlElement
  deriving DecidableEq, Repr

/-- The condition of the loop; `none` where `attrib['filename']` raises. -/
def found_sparse (e : XmlElement) : Option Bool :=
  if e.tag = "program" then
    (e.get? "filename").map fun filename =>
      filename ≠ "" && (e.get? "sparse").any fun sparse =>
        sparse.toList.map Char.toLower = "true".toList
  else some false

/-- The attributes `main` deletes; `none` where `del attrib['size_in_KB']` raises. -/
def without_sparse (e : XmlElement) : Option XmlElement :=
  let e := e.del "sparse"
  (e.get? "size_in_KB").map fun _ => (e.del "size_in_KB").del "start_byte_hex"

/-- A copy of the element (`deepcopy`) with the file name, the start sector and the size of a
result. -/
def new_element (e : XmlElement) (result : Result) : XmlElement :=
  ((e.set "filename" result.filename).set "num_partition_sectors"
    (toString result.num_partition_sectors)).set "start_sector" (toString result.start_sector)

/-- The copies for a result list. -/
def new_nodes (source : NodeId) (e : XmlElement) (results : List Result) : List Node :=
  results.mapIdx fun i result => ⟨.copy source i, new_element e result⟩

/-! ## The loop

`for child in root.iter()` over a list that is changed while it is gone through: the
iterator holds an index, and `position` is a second one that `main` keeps by hand. Both are
part of the state. The condition of a marked element may raise, for a missing attribute, and
then the script ends.
-/

/-- `genfile`'s answer for an element: a list, -1, or an exit of the script. -/
abbrev Answers := NodeId → XmlElement → Except Stop (List Result)

/-- The child list, `position`, `num_sparse_files` and the elements `genfile` was called
for. -/
structure LoopState where
  children : List Node
  position : ℕ
  num_sparse_files : ℕ
  calls : List NodeId
  deriving DecidableEq, Repr

/-- `insert(i, x)`: at the end where `i` is past it. -/
def insert_at {α : Type*} (l : List α) (i : ℕ) (x : α) : List α := l.take i ++ x :: l.drop i

/-- `for i in range(len(results))`: one insertion after the other, from `position` on. -/
def insert_nodes (position : ℕ) (nodes l : List Node) : List Node :=
  match nodes with
  | [] => l
  | x :: nodes => insert_nodes (position + 1) nodes (insert_at l position x)

/-- One turn, at the child with index `i`; `none` where the script ends in it. -/
def visit (genfile : Answers) (s : LoopState) (i : ℕ) (node : Node) : Option LoopState :=
  (found_sparse node.element).bind fun found =>
    if found then
      (without_sparse node.element).bind fun e =>
        let s := { s with children := s.children.set i ⟨node.id, e⟩, calls := s.calls ++ [node.id] }
        match genfile node.id e with
        | .error .raised => none
        -- `continue` goes past `position = position + 1`
        | .error .rejected => some s
        | .ok results =>
          let children := insert_nodes s.position (new_nodes node.id e results) s.children
          some {
            children := children.eraseP fun n => n.id = node.id
            position := s.position + 1
            num_sparse_files := s.num_sparse_files + 1
            calls := s.calls }
    else some { s with position := s.position + 1 }

/-! ## Elements that are not marked any more

The copies and the edited element have lost the attribute that marks them, whatever they
stand for, so the loop passes them by when it comes to them.
-/

/-- The loop takes the child for a sparse image: it is a `<program>` with a file name and
`sparse="true"`. -/
def Node.Marked (n : Node) : Prop := found_sparse n.element = some true

instance (n : Node) : Decidable n.Marked := inferInstanceAs (Decidable (_ = _))

section Elements

variable {e e' : XmlElement} {n : Node}

theorem get?_without_sparse (h : without_sparse e = some e') :
    e'.get? "sparse" = none ∧ e'.get? "filename" = e.get? "filename" ∧ e'.tag = e.tag ∧
      e'.get? "start_sector" = e.get? "start_sector" := by
  rw [without_sparse, Option.map_eq_some_iff] at h
  obtain ⟨size, -, rfl⟩ := h
  refine ⟨?_, ?_, rfl, ?_⟩
  · rw [XmlElement.get?_del_of_ne _ (by decide), XmlElement.get?_del_of_ne _ (by decide),
      XmlElement.get?_del_self]
  · rw [XmlElement.get?_del_of_ne _ (by decide), XmlElement.get?_del_of_ne _ (by decide),
      XmlElement.get?_del_of_ne _ (by decide)]
  · rw [XmlElement.get?_del_of_ne _ (by decide), XmlElement.get?_del_of_ne _ (by decide),
      XmlElement.get?_del_of_ne _ (by decide)]

theorem found_sparse_of_no_attribute {filename : String} (hsparse : e.get? "sparse" = none)
    (hname : e.get? "filename" = some filename) : found_sparse e = some false := by
  rw [found_sparse, hname, hsparse]
  simp

theorem filename_of_marked (h : n.Marked) :
    ∃ filename, n.element.get? "filename" = some filename := by
  rw [Node.Marked, found_sparse] at h
  split_ifs at h with htag
  · obtain ⟨filename, hname, -⟩ := Option.map_eq_some_iff.mp h
    exact ⟨filename, hname⟩
  · cases h

/-- An element whose marks were deleted is not found again. -/
theorem found_sparse_edited (hn : n.Marked) (h : without_sparse n.element = some e) :
    found_sparse e = some false := by
  obtain ⟨filename, hname⟩ := filename_of_marked hn
  obtain ⟨hsparse, hfile, -, -⟩ := get?_without_sparse h
  exact found_sparse_of_no_attribute hsparse (hfile.trans hname)

/-- A copy of an edited element is not found either, whatever the result it stands for. -/
theorem found_sparse_new_element (h : without_sparse n.element = some e) (result : Result) :
    found_sparse (new_element e result) = some false := by
  obtain ⟨hsparse, -⟩ := get?_without_sparse h
  refine @found_sparse_of_no_attribute _ result.filename ?_ ?_
  · rw [new_element, XmlElement.get?_set_of_ne _ _ (by decide),
      XmlElement.get?_set_of_ne _ _ (by decide), XmlElement.get?_set_of_ne _ _ (by decide), hsparse]
  · rw [new_element, XmlElement.get?_set_of_ne _ _ (by decide),
      XmlElement.get?_set_of_ne _ _ (by decide), XmlElement.get?_set_self]

theorem mem_new_nodes {source : NodeId} {results : List Result} {m : Node}
    (hm : m ∈ new_nodes source e results) :
    ∃ i result, m = ⟨.copy source i, new_element e result⟩ := by
  obtain ⟨i, hi, rfl⟩ := List.mem_mapIdx.mp hm
  exact ⟨i, _, rfl⟩

end Elements

/-! ## A turn

`Turn` lists what a turn can do, with everything it leaves; `visit_eq_some` says that the
list is complete. All that follows about the loop cites the turns and does not open `visit`
again.
-/

/-- The turns of the loop, each with what it leaves. A child that is not marked is left alone, a
rejected one is edited where it stands, and an accepted one is removed and the results are
inserted. -/
inductive Turn (genfile : Answers) (s : LoopState) (i : ℕ) (n : Node) : LoopState → Prop where
  | other (h : found_sparse n.element = some false) :
    Turn genfile s i n { s with position := s.position + 1 }
  | rejected (e : XmlElement) (hn : n.Marked) (he : without_sparse n.element = some e)
    (h : genfile n.id e = .error .rejected) :
    Turn genfile s i n
      { s with children := s.children.set i ⟨n.id, e⟩, calls := s.calls ++ [n.id] }
  | accepted (e : XmlElement) (results : List Result) (hn : n.Marked)
    (he : without_sparse n.element = some e) (h : genfile n.id e = .ok results) :
    Turn genfile s i n {
      children := ((s.children.set i ⟨n.id, e⟩).take s.position ++ new_nodes n.id e results
        ++ (s.children.set i ⟨n.id, e⟩).drop s.position).eraseP fun m => m.id = n.id
      position := s.position + 1
      num_sparse_files := s.num_sparse_files + 1
      calls := s.calls ++ [n.id] }

theorem insert_nodes_eq (position : ℕ) (nodes l : List Node) :
    insert_nodes position nodes l = l.take position ++ nodes ++ l.drop position := by
  induction nodes generalizing position l with
  | nil => rw [insert_nodes, List.append_nil, List.take_append_drop]
  | cons x nodes ih =>
    -- a position behind the end is the end, as for `list.insert`
    have htake : (insert_at l position x).take (position + 1) = l.take position ++ [x] := by
      rw [insert_at, List.take_append, List.length_take]
      rcases Nat.le_total position l.length with hle | hle
      · rw [List.take_of_length_le (by rw [List.length_take]; omega), Nat.min_eq_left hle,
          Nat.add_sub_cancel_left]
        rfl
      · rw [List.take_of_length_le (by rw [List.length_take]; omega), List.drop_eq_nil_of_le hle,
          List.take_of_length_le hle, Nat.min_eq_right hle]
        rw [List.take_of_length_le (by rw [List.length_singleton]; omega)]
    have hdrop : (insert_at l position x).drop (position + 1) = l.drop position := by
      rw [insert_at, List.drop_append, List.length_take]
      rcases Nat.le_total position l.length with hle | hle
      · rw [List.drop_eq_nil_of_le (by rw [List.length_take]; omega), Nat.min_eq_left hle,
          Nat.add_sub_cancel_left]
        rfl
      · rw [List.drop_eq_nil_of_le (by rw [List.length_take]; omega), List.drop_eq_nil_of_le hle]
        rw [List.drop_eq_nil_of_le (by rw [List.length_singleton]; omega)]
        rfl
    rw [insert_nodes, ih, htake, hdrop, List.append_assoc, List.append_assoc, List.append_assoc]
    rfl

/-- **What a turn can do.** `visit` leaves a state exactly if there is a turn of one of these
kinds to it. -/
theorem visit_eq_some {genfile : Answers} {s s' : LoopState} {i : ℕ} {n : Node} :
    visit genfile s i n = some s' ↔ Turn genfile s i n s' := by
  rw [visit]
  constructor
  · intro h
    rw [Option.bind_eq_some_iff] at h
    obtain ⟨found, hfound, h⟩ := h
    -- each way through the body is one constructor of `Turn`
    cases found with
    | false =>
      cases h
      exact .other hfound
    | true =>
      rw [if_pos rfl, Option.bind_eq_some_iff] at h
      obtain ⟨e, he, h⟩ := h
      dsimp only at h
      cases hanswer : genfile n.id e with
      | error stop =>
        rw [hanswer] at h
        cases stop with
        | raised => cases h
        | rejected =>
          cases h
          exact .rejected e hfound he hanswer
      | ok results =>
        rw [hanswer] at h
        dsimp only at h
        rw [insert_nodes_eq] at h
        cases h
        exact .accepted e results hfound he hanswer
  · intro h
    cases h with
    | other h => rw [h]; rfl
    | rejected e hn he h => rw [hn, Option.bind_some, if_pos rfl, he, Option.bind_some, h]
    | accepted e results hn he h =>
      rw [hn, Option.bind_some, if_pos rfl, he, Option.bind_some, h]
      dsimp only
      rw [insert_nodes_eq]

/-- The number of marked elements in a child list, which is the measure by which the loop ends. -/
def marked_count (l : List Node) : ℕ := l.countP fun n => n.Marked

theorem marked_count_append (l m : List Node) :
    marked_count (l ++ m) = marked_count l + marked_count m := List.countP_append

theorem marked_count_eq_zero {l : List Node} (h : ∀ n ∈ l, ¬ n.Marked) : marked_count l = 0 := by
  rw [marked_count, List.countP_eq_zero]
  intro n hn
  simpa using h n hn

/-- A turn leaves the list as it is and moves on inside it, or it leaves fewer marked elements. -/
theorem Turn.progress {genfile : Answers} {s s' : LoopState} {i : ℕ} {n : Node}
    (hn : s.children[i]? = some n) (h : Turn genfile s i n s') :
    marked_count s'.children < marked_count s.children ∨
      s'.children = s.children ∧ i < s.children.length := by
  obtain ⟨hi, rfl⟩ := List.getElem?_eq_some_iff.mp hn
  -- to lose its mark is to lower the count, whatever the position
  have hset : ∀ e, s.children[i].Marked → without_sparse s.children[i].element = some e →
      marked_count (s.children.set i ⟨s.children[i].id, e⟩) < marked_count s.children := by
    intro e hmarked he
    have hedited : ¬ (Node.mk s.children[i].id e).Marked := by
      rw [Node.Marked, found_sparse_edited hmarked he]
      simp
    have hsplit : s.children = s.children.take i ++ s.children[i] :: s.children.drop (i + 1) := by
      rw [← List.drop_eq_getElem_cons hi, List.take_append_drop]
    rw [List.set_eq_take_append_cons_drop, if_pos hi]
    conv_rhs => rw [hsplit]
    rw [marked_count, marked_count, List.countP_append, List.countP_append,
      List.countP_cons_of_neg (by simpa using hedited),
      List.countP_cons_of_pos (by simpa using hmarked)]
    omega
  cases h with
  | other h => exact Or.inr ⟨rfl, hi⟩
  | rejected e hmarked he h => exact Or.inl (hset e hmarked he)
  | accepted e results hmarked he h =>
    refine Or.inl (lt_of_le_of_lt ?_ (hset e hmarked he))
    -- the elements inserted have no mark, so they do not raise it again
    have hnew : marked_count (new_nodes s.children[i].id e results) = 0 := by
      refine marked_count_eq_zero fun m hm => ?_
      obtain ⟨j, result, rfl⟩ := mem_new_nodes hm
      rw [Node.Marked, found_sparse_new_element he]
      simp
    refine le_trans List.eraseP_sublist.countP_le (le_of_eq ?_)
    change marked_count _ = marked_count _
    rw [marked_count_append, marked_count_append, hnew, Nat.add_zero, ← marked_count_append,
      List.take_append_drop]

/-- The loop from index `i` on, until `iter()` has come to the end of the list. -/
def replace (genfile : Answers) (i : ℕ) (s : LoopState) : Option LoopState :=
  match _hn : s.children[i]? with
  | none => some s
  | some n =>
    match _hs : visit genfile s i n with
    | none => none
    | some s' => replace genfile (i + 1) s'
termination_by (marked_count s.children, s.children.length - i)
decreasing_by
  rcases (visit_eq_some.mp _hs).progress _hn with hlt | ⟨heq, hlt⟩
  · exact Prod.Lex.left _ _ hlt
  · rw [heq]
    exact Prod.Lex.right _ (by omega)

/-- The two comments that are inserted at the front. -/
def comments : List Node := [⟨.comment 0, ⟨"!--", []⟩⟩, ⟨.comment 1, ⟨"!--", []⟩⟩]

/-- The children of `<data>`. -/
def child_nodes (children : List XmlElement) : List Node :=
  children.mapIdx fun i e => ⟨.child i, e⟩

/-- The loop of `main`. Its first turn is for the root, which is no `<program>`. -/
def main_loop (genfile : Answers) (children : List XmlElement) : Option LoopState :=
  replace genfile 0 ⟨comments ++ child_nodes children, 1, 0, []⟩

/-- The elements of the file `main` writes; there is none unless an image was taken apart. -/
def written_elements (s : LoopState) : Option (List XmlElement) :=
  if 0 < s.num_sparse_files then some (s.children.map Node.element) else none

end AndroidTools.Checksparse
