/-
Elements whose sparse image `genfile` rejects.

The attributes that mark an element are deleted before its image is looked at, and a rejection
leaves the element where it is without them. Only an element that the loop steps over keeps its
mark. As long as nothing has been rejected the loop steps over every other one of the elements
that have no results and stand in a row, and over what follows such a row of odd length.

`genfile` rejects a file for its magic, before it takes it for a sparse image at all, and for
anything that is wrong in a sparse image. Only the files with the right magic can be flashed
raw by mistake, so the result is stated twice: of all elements with a rejected file, and of
those with the right magic where the loop steps over the others. Where it looks at one of the
others the insert position falls behind the loop, and what it has stepped over may come back
in front of it.
-/
import AndroidTools.Checksparse.Handled
import AndroidTools.Lib.Skip

set_option autoImplicit false

namespace AndroidTools.Checksparse

open Msp Text Bytes Skip

variable {genfile : Answers}

/-- A marked child whose image has no RAW chunk. It is removed and nothing takes its place, so
that a loop that comes to it steps over the child after it. -/
def Node.no_results (genfile : Answers) (n : Node) : Bool := n.kind genfile = .accepted []

/-- Every child of the class `concerns` whose image is rejected is written, in its place, as it
was read. -/
def RejectedUnchanged (genfile : Answers) (concerns : XmlElement → Prop)
    (children : List XmlElement) (t : LoopState) (elements : List XmlElement) : Prop :=
  ∀ n ∈ child_nodes children, n.kind genfile = .rejected → concerns n.element →
    ∃ j : ℕ, (t.children.map Node.id)[j]? = some n.id ∧ elements[j]? = some n.element

/-- Every such child directly follows a row of children without results of odd length. -/
def RejectedSteppedOver (genfile : Answers) (concerns : XmlElement → Prop)
    (children : List XmlElement) : Prop :=
  ∀ a n b, child_nodes children = a ++ n :: b → n.kind genfile = .rejected →
    concerns n.element → Skip.run_before (Node.no_results genfile) a % 2 = 1

/-- The file has the elements of the child list, so a child is in it as it was read exactly if
it is still in the list as it was read. -/
theorem rejected_unchanged_iff_mem {concerns : XmlElement → Prop}
    {children elements : List XmlElement} {t : LoopState}
    (hwritten : written_elements t = some elements) :
    RejectedUnchanged genfile concerns children t elements
      ↔ ∀ n ∈ child_nodes children, n.kind genfile = .rejected → concerns n.element →
        n ∈ t.children := by
  rw [written_elements] at hwritten
  split_ifs at hwritten
  cases hwritten
  refine forall₄_congr fun n _ _ _ => ?_
  simp only [List.getElem?_map, Option.map_eq_some_iff]
  constructor
  · rintro ⟨j, ⟨m, hm, hid⟩, m', hm', helement⟩
    obtain rfl : m = m' := Option.some.inj (hm.symm.trans hm')
    have hsame : m = n := by
      cases m
      cases n
      simp_all
    exact hsame ▸ List.mem_of_getElem? hm
  · intro hn
    obtain ⟨j, hj⟩ := List.mem_iff_getElem?.mp hn
    exact ⟨j, ⟨n, hj, rfl⟩, n, hj, rfl⟩

/-! ## Following the loop until a rejection

An element whose image is rejected is left edited in the list, unless the loop never looked
at it. So the question is whether the loop comes to it, and up to the first rejection that
is easy to follow: children without results come in rows, and the loop looks at every other
one of a row and then at what is behind it.
-/

/-- A marked element that is gone, or is not marked any more, does not come back. -/
theorem not_mem_kept {s t : LoopState} {i : ℕ} {n : Node} (hn : n.Marked) (hs : n ∉ s.children)
    (h : replace genfile i s = some t) : n ∉ t.children := by
  refine @replace_invariant genfile s t i (fun u => n ∉ u.children) ?_ hs h
  intro u j m u' _ hturn hu hin
  have hedited : ∀ e, without_sparse m.element = some e → m.Marked →
      n ∉ u.children.set j ⟨m.id, e⟩ := by
    intro e he hm hin
    rcases List.mem_or_eq_of_mem_set hin with hin | rfl
    · exact hu hin
    · rw [Node.Marked, found_sparse_edited hm he] at hn
      cases hn
  cases hturn with
  | other _ => exact hu hin
  | rejected e hm he _ => exact hedited e he hm hin
  | accepted e results hm he _ =>
    have hin := List.mem_of_mem_eraseP hin
    rw [List.mem_append, List.mem_append] at hin
    rcases hin with (hin | hin) | hin
    · exact hedited e he hm (List.mem_of_mem_take hin)
    · exact new_nodes_not_marked he results n hin hn
    · exact hedited e he hm (List.mem_of_mem_drop hin)

/-- The loop looks at a child whose image is rejected and which has the property `q`. -/
def LooksAtRejected (genfile : Answers) (q : Node → Prop) (nodes : List Node) : Prop :=
  ∃ a n b, nodes = a ++ n :: b ∧ (n.kind genfile = .rejected ∧ q n) ∧
    Skip.looks (Node.no_results genfile) true a = true

section LooksAt

variable {q : Node → Prop} {n m : Node} {ns : List Node}

theorem looks_at_rejected_nil : ¬ LooksAtRejected genfile q [] := by
  rintro ⟨a, n, b, heq, -⟩
  exact absurd heq (by simp)

/-- A child that is kept, or has results, does not matter. -/
theorem looks_at_rejected_cons (hn : n.kind genfile ≠ .rejected)
    (hres : n.kind genfile ≠ .accepted []) :
    LooksAtRejected genfile q (n :: ns) ↔ LooksAtRejected genfile q ns := by
  have hgo : Node.no_results genfile n = false := decide_eq_false hres
  rw [LooksAtRejected, exists_split_cons, or_iff_right fun h => hn h.1.1]
  simp only [looks_cons, hgo, Bool.and_false, Bool.not_false]
  rfl

/-- Behind a child without results there may be nothing: the last child is never one that is
looked at behind it. -/
theorem looks_at_rejected_last (hn : n.kind genfile = .accepted []) :
    ¬ LooksAtRejected genfile q [n] := by
  rw [LooksAtRejected, exists_split_cons]
  rintro (⟨⟨hrej, -⟩, -⟩ | ⟨a, m, b, heq, -⟩)
  · rw [hn] at hrej
    cases hrej
  · exact absurd heq (by simp)

/-- The child after one without results does not matter either, whatever it is. -/
theorem looks_at_rejected_skip (hn : n.kind genfile = .accepted []) :
    LooksAtRejected genfile q (n :: m :: ns) ↔ LooksAtRejected genfile q ns := by
  have hskip : Node.no_results genfile n = true := decide_eq_true hn
  have hfirst : n.kind genfile ≠ .rejected := by
    rw [hn]
    exact fun h => nomatch h
  rw [LooksAtRejected, exists_split_cons, or_iff_right fun h => hfirst h.1.1, exists_split_cons,
    or_iff_right fun h => by simp [hskip] at h]
  simp only [looks_cons, hskip, Bool.and_true, Bool.not_true, Bool.false_and, Bool.not_false]
  rfl

end LooksAt

/-- What a loop does that begins before the first rejection: it looks at a rejected child and
leaves it edited, or it looks at none of them and all of them stay. -/
def MeetsOrPasses (genfile : Answers) (front back : List Node) (t : LoopState) : Prop :=
  LooksAtRejected genfile (fun n => n ∉ t.children) back ∨
    ¬ LooksAtRejected genfile (fun _ => True) back ∧ ∃ rest, t.children = front ++ rest ∧
      ∀ n ∈ back, n.kind genfile = .rejected → n ∈ rest

/-- What is found out about the children `ms` behind `n` holds of all of them, if `n` and what
is left out of `ms` are not looked at for a rejected image. -/
theorem MeetsOrPasses.lift {front added ms ns : List Node} {n : Node} {t : LoopState}
    (hiff : ∀ q, LooksAtRejected genfile q (n :: ns) ↔ LooksAtRejected genfile q ms)
    (hcover : ∀ m ∈ n :: ns, m.kind genfile = .rejected → m ∈ added ∨ m ∈ ms)
    (h : MeetsOrPasses genfile (front ++ added) ms t) :
    MeetsOrPasses genfile front (n :: ns) t := by
  rw [MeetsOrPasses, hiff, hiff]
  rcases h with hlooks | ⟨hno, rest, hchildren, hin⟩
  · exact Or.inl hlooks
  · refine Or.inr ⟨hno, added ++ rest, by rw [hchildren, List.append_assoc], ?_⟩
    intro m hm hrej
    rcases hcover m hm hrej with hm | hm
    · exact List.mem_append_left _ hm
    · exact List.mem_append_right _ (hin m hm hrej)

/-- The edited element stands in the place of a rejected one. -/
theorem rejected_gone {front ns : List Node} {n : Node} {r num : ℕ} {calls : List NodeId}
    {t : LoopState} (hd : Distinct (front ++ n :: ns)) (hmark : n.Marked)
    (he : without_sparse n.element = some n.edited)
    (h : GoesOn genfile (front ++ [⟨n.id, n.edited⟩]) ns r num calls t) : n ∉ t.children := by
  refine not_mem_kept hmark ?_ h
  rw [between]
  dsimp only
  have hnodup := hd.nodup
  rw [List.map_append, List.map_cons, List.nodup_append] at hnodup
  intro hin
  rw [List.append_assoc, List.mem_append, List.singleton_append, List.mem_cons] at hin
  rcases hin with hin | hin | hin
  · exact hd.not_in_front n hin rfl
  · -- it is not marked any more
    have hfound := found_sparse_edited hmark he
    have helement : n.element = n.edited := congrArg Node.element hin
    rw [Node.Marked, helement, hfound] at hmark
    cases hmark
  · exact (List.nodup_cons.mp hnodup.2.1).1 (List.mem_map_of_mem hin)

/-- **From a point before the first rejection on**, child by child; one without results takes
the next one with it. -/
theorem goes_on_rejected {front back : List Node} {num : ℕ} {calls : List NodeId} {t : LoopState}
    (hback : ∀ n ∈ back, ∃ i, n.id = .child i) (hd : Distinct (front ++ back))
    (h : GoesOn genfile front back 0 num calls t) : MeetsOrPasses genfile front back t := by
  induction hl : back.length using Nat.strong_induction_on generalizing front back num calls with
  | _ len ih =>
    cases back with
    | nil => exact Or.inr ⟨looks_at_rejected_nil, [], by rw [goes_on_nil h]; rfl, by simp⟩
    | cons n ns =>
      obtain ⟨i, hi⟩ := hback n (by simp)
      have hns : ∀ m ∈ ns, ∃ i, m.id = .child i := fun m hm => hback m (List.mem_cons_of_mem _ hm)
      rw [List.length_cons] at hl
      rcases goes_on_cons (Nat.zero_le _) hd.not_in_front h with ⟨hmark, h⟩ | ⟨hmark, hkind, he, h⟩
        | ⟨hmark, results, hkind, he, h⟩
      · -- not marked: it stays
        have hother := @kind_of_not_marked genfile n hmark
        have hrest := ih ns.length (by omega) hns (by simpa using hd) h rfl
        refine hrest.lift
          (fun _ => looks_at_rejected_cons (by rw [hother]; simp) (by rw [hother]; simp)) ?_
        intro m hm hrej
        exact (List.mem_cons.mp hm).imp_left fun h => by simp [h]
      · -- rejected
        exact Or.inl ⟨[], n, ns, rfl, ⟨hkind, rejected_gone hd hmark he h⟩, rfl⟩
      · -- accepted: it is not there any more
        have hnot : n.kind genfile ≠ .rejected := by
          rw [hkind]
          exact fun h => nomatch h
        cases results with
        | nil =>
          cases ns with
          | nil =>
            refine Or.inr ⟨looks_at_rejected_last hkind, [],
              by rw [no_results_end h, List.append_nil], ?_⟩
            intro m hm hrej
            rw [List.mem_singleton.mp hm] at hrej
            exact absurd hrej hnot
          | cons m ms =>
            have hdm : Distinct (front ++ m :: ms) := by
              simpa [new_nodes] using hd.replaced hi n.edited []
            have hrest := ih ms.length (by rw [List.length_cons] at hl; omega)
              (fun x hx => hns x (List.mem_cons_of_mem _ hx)) (by simpa using hdm)
              (goes_on_no_results (Nat.zero_le _) h) rfl
            refine hrest.lift (fun _ => looks_at_rejected_skip hkind) ?_
            intro x hx hrej
            rcases List.mem_cons.mp hx with rfl | hx
            · exact absurd hrej hnot
            · exact (List.mem_cons.mp hx).imp_left fun h => by simp [h]
        | cons res results =>
          have hrest := ih ns.length (by omega) hns (hd.replaced hi n.edited _)
            (goes_on_results (Nat.zero_le _) (by simp) he h) rfl
          refine hrest.lift
            (fun _ => looks_at_rejected_cons hnot (by rw [hkind]; simp)) ?_
          intro m hm hrej
          rcases List.mem_cons.mp hm with rfl | hm
          · exact absurd hrej hnot
          · exact Or.inr hm

/-- Of a class of elements, if the loop steps over the rejected ones outside it. -/
theorem rejected_unchanged_of_class {concerns : XmlElement → Prop}
    {children elements : List XmlElement} {t : LoopState}
    (h : main_loop genfile children = some t) (hwritten : written_elements t = some elements)
    (hothers : RejectedSteppedOver genfile (fun e => ¬ concerns e) children) :
    RejectedUnchanged genfile concerns children t elements ↔
      RejectedSteppedOver genfile concerns children := by
  -- an odd number of elements without results in front is one that is stepped over
  have hodd : ∀ a, Skip.run_before (Node.no_results genfile) a % 2 = 1 ↔
      ¬ Skip.looks (Node.no_results genfile) true a = true := by
    intro a
    rw [Skip.looks_iff]
    omega
  rw [rejected_unchanged_iff_mem hwritten]
  simp only [RejectedSteppedOver, hodd] at hothers ⊢
  rcases goes_on_rejected id_of_child_node (distinct_child_nodes children) (goes_on_of_main_loop h)
    with ⟨a, n, b, heq, ⟨hn, hgone⟩, hlooks⟩ | ⟨hno, rest, hchildren, hin⟩
  · -- the first rejected child that is looked at is of the class
    have hclass : concerns n.element := by
      by_contra hnot
      exact hothers a n b heq hn hnot hlooks
    constructor
    · intro hall
      exact absurd (hall n (by rw [heq]; simp) hn hclass) hgone
    · intro hall
      exact absurd hlooks (hall a n b heq hn hclass)
  · constructor
    · intro _ a n b heq hn _ hlooks
      exact hno ⟨a, n, b, heq, ⟨hn, trivial⟩, hlooks⟩
    · intro _ n hn hrej _
      rw [hchildren]
      exact List.mem_append_right _ (hin n hn hrej)

/-- **A rejected image is flashed raw unless its element is stepped over.** All elements with a
rejected file are unchanged exactly if the loop steps over each of them; and the elements with
the right magic are, where those with a wrong magic are stepped over or there are none,
exactly if the loop steps over each of these. -/
theorem rejected_unchanged_iff {children elements : List XmlElement} {t : LoopState}
    (h : main_loop genfile children = some t) (hwritten : written_elements t = some elements) :
    (RejectedUnchanged genfile (fun _ => True) children t elements ↔
        RejectedSteppedOver genfile (fun _ => True) children) ∧
      ∀ has_magic : XmlElement → Prop,
        RejectedSteppedOver genfile (fun e => ¬ has_magic e) children →
          (RejectedUnchanged genfile has_magic children t elements ↔
            RejectedSteppedOver genfile has_magic children) := by
  refine ⟨rejected_unchanged_of_class h hwritten ?_, fun _ hothers =>
    rejected_unchanged_of_class h hwritten hothers⟩
  intro a n b _ _ hnot
  exact absurd trivial hnot

/-! ## `genfile` on files

The answers as they come from files: `find_file` looks through the search paths, and
`genfile` is run on what it finds. The class of the elements whose file has the magic number
is stated here, since the loop itself does not know about files.
-/

/-- `os.path.join`. -/
def path_join (path filename : String) : String :=
  if filename.toList.head? = some '/' then filename
  else if path = "" ∨ path.toList.getLast? = some '/' then path ++ filename
  else path ++ "/" ++ filename

/-- `find_file`: the first of the search paths that has the file, and else the current
directory. -/
def find_file (store : Store) (search_paths : List String) (filename : String) : Option String :=
  ((search_paths.map fun x => path_join x filename) ++ [filename]).find? fun path =>
    (store path).isSome

/-- `os.path.splitext` of a file name without directories. -/
def splitext (name : List Char) : List Char × List Char :=
  let ext := (name.reverse.takeWhile (· ≠ '.')).reverse
  let root := name.take (name.length - ext.length - 1)
  -- dots at the front do not start an extension
  if '.' ∈ name ∧ root.any (· ≠ '.') then (root, '.' :: ext) else (name, [])

/-- `os.path.basename`. -/
def basename (path : String) : List Char := (path.toList.reverse.takeWhile (· ≠ '/')).reverse

/-- What `main` gets for an element: it exits where the file is not found. -/
def file_answers (search_paths : List String) (store : Store) : Answers := fun _ e =>
  match e.get? "filename", (e.get? "start_sector").bind int_of_text with
  | some filename, some start_sector =>
    match find_file store search_paths filename with
    | none => .error .raised
    | some path =>
      let (file_name, file_ext) := splitext (basename path)
      match Checksparse.genfile (String.ofList file_name) (String.ofList file_ext)
          ((store path).getD []) start_sector store with
      | .error e => .error e
      | .ok out => .ok out.results
  | _, _ => .error .raised

/-- The file of an element begins with the magic of a sparse image. -/
def HasMagic (search_paths : List String) (store : Store) (e : XmlElement) : Prop :=
  (((e.get? "filename").bind (find_file store search_paths)).bind store).any
    (fun bytes => bytes.take 4 = leBytes 4 SPARSE_HEADER_MAGIC) = true

instance (search_paths : List String) (store : Store) (e : XmlElement) :
    Decidable (HasMagic search_paths store e) := inferInstanceAs (Decidable (_ = true))

/-- A sparse image of major version 2 and one of version 1 without chunks. Both have the right
magic; the first is rejected, and the second is accepted with no results. -/
def two_images : Store := fun path =>
  if path = "system.img" then
    some (leBytes 4 SPARSE_HEADER_MAGIC ++ leBytes 2 2 ++ leBytes 2 0 ++ leBytes 2 28
      ++ leBytes 2 12 ++ leBytes 4 4096 ++ leBytes 4 0 ++ leBytes 4 0 ++ leBytes 4 0)
  else if path = "userdata.img" then
    some (leBytes 4 SPARSE_HEADER_MAGIC ++ leBytes 2 1 ++ leBytes 2 0 ++ leBytes 2 28
      ++ leBytes 2 12 ++ leBytes 4 4096 ++ leBytes 4 0 ++ leBytes 4 0 ++ leBytes 4 0)
  else none

/-- The loop ends on these two images, writes a file, and the first element is not in its list as
it was read. -/
theorem two_images_run : ∃ t elements,
    main_loop (file_answers [] two_images) two_sparse = some t ∧
      written_elements t = some elements ∧
      ⟨.child 0, sparse_program "system.img"⟩ ∉ t.children := by
  have hrun : (turns (file_answers [] two_images) 5 0
      ⟨comments ++ child_nodes two_sparse, 1, 0, []⟩).any (fun t =>
        (written_elements t).isSome && ⟨.child 0, sparse_program "system.img"⟩ ∉ t.children)
      = true := by
    decide +kernel
  obtain ⟨t, ht, hwritten⟩ := (Option.any_eq_true _ _).mp hrun
  rw [Bool.and_eq_true, decide_eq_true_eq] at hwritten
  obtain ⟨elements, helements⟩ := Option.isSome_iff_exists.mp hwritten.1
  exact ⟨t, elements, replace_of_turns ht, helements, hwritten.2⟩

theorem system_rejected : (Node.mk (.child 0) (sparse_program "system.img")).kind
    (file_answers [] two_images) = .rejected := by decide +kernel

/-- Both files have the magic, so there is no rejected one of another class. -/
theorem two_images_have_magic : RejectedSteppedOver (file_answers [] two_images)
    (fun e => ¬ HasMagic [] two_images e) two_sparse := by
  intro a n b heq _ hnot
  have hall : ∀ n ∈ child_nodes two_sparse, HasMagic [] two_images n.element := by decide +kernel
  exact absurd (hall n (by rw [heq]; simp)) hnot

theorem rejected_unchanged_two_images :
    ∃ t elements, main_loop (file_answers [] two_images) two_sparse = some t ∧
      written_elements t = some elements ∧
      (RejectedUnchanged (file_answers [] two_images) (fun _ => True) two_sparse t elements ↔
        RejectedSteppedOver (file_answers [] two_images) (fun _ => True) two_sparse) ∧
      (RejectedUnchanged (file_answers [] two_images) (HasMagic [] two_images) two_sparse t
          elements ↔
        RejectedSteppedOver (file_answers [] two_images) (HasMagic [] two_images)
          two_sparse) := by
  obtain ⟨t, elements, hloop, hwritten, -⟩ := two_images_run
  have hiff := rejected_unchanged_iff hloop hwritten
  exact ⟨t, elements, hloop, hwritten, hiff.1, hiff.2 _ two_images_have_magic⟩

/-- The first image has the magic and is rejected, and its element is written without its
mark. -/
theorem system_not_unchanged :
    ∃ t elements, main_loop (file_answers [] two_images) two_sparse = some t ∧
      written_elements t = some elements ∧
      ¬ RejectedUnchanged (file_answers [] two_images) (HasMagic [] two_images) two_sparse t
        elements := by
  obtain ⟨t, elements, hloop, hwritten, hgone⟩ := two_images_run
  have hmagic : HasMagic [] two_images (sparse_program "system.img") := by decide +kernel
  refine ⟨t, elements, hloop, hwritten, fun hall => hgone ?_⟩
  exact (rejected_unchanged_iff_mem hwritten).mp hall _ (by decide) system_rejected hmagic

end AndroidTools.Checksparse
