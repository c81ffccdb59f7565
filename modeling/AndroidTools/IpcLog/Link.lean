/-
`sortAndLink` (ipc_logging.py): the pages of a log in the order in which they were written.

The pages come in the order of their numbers, and the log begins on one of them and goes around.
In version 0 that one is the first that is not full. From version 1 on it is the one that was
ended longest ago, or, where reading has left that one, the one that was started longest ago.
`Begins` states this for each version in its own terms.

The source finds the page with a loop over two variables. `find_min_eq_iff` says what it finds, by
way of the general fact on the first of the least elements, and `sortAndLink_full` says that the
sorted pages are the ring turned to that page. `sortAndLink_partial` leaves the order as it is.
-/
import AndroidTools.IpcLog.Page
import AndroidTools.Lib.FirstLeast
import Mathlib.Data.List.Rotate

set_option autoImplicit false

namespace AndroidTools.IpcLog

open AndroidTools.FirstLeast

/-! ## The first page

Two functions of the source look for the page on which a log begins, each with a loop over a
best time and a best place. They are one loop with the time as a parameter; 0 stands for no
time, and the comparison is strict, so that the first of several equal times is kept.
-/

/-- The turn of the loops of `find_min_end_position` and of `find_min_position`; a time of 0 is
none. -/
def find_min_turn (s : Option ℕ × ℕ) (cur : ℕ × ℕ) : Option ℕ × ℕ :=
  let (cur_time, n) := cur
  if cur_time = 0 then s
  else match s.1 with
    | none => (some cur_time, n)
    | some min_time => if cur_time < min_time then (some cur_time, n) else s

/-- The loops of `find_min_end_position` and of `find_min_position`, over the times of the pages:
the place they have found, and 0 if no time counts. -/
def find_min (times : List ℕ) : ℕ := (times.zipIdx.foldl find_min_turn (none, 0)).2

def find_min_end_position (lstPages : List LogPage) : ℕ :=
  find_min (lstPages.map LogPage.end_time)

/-- How far the page at a place of the list has been read. -/
def read_offset_at (lstPages : List LogPage) (k : ℕ) : ℕ :=
  (lstPages[k]?.map LogPage.read_offset).getD 0

def find_min_position (lstPages : List LogPage) (min_position : ℕ) : ℕ :=
  if read_offset_at lstPages min_position = 0 then
    let min_start_position := find_min (lstPages.map LogPage.start_time)
    if read_offset_at lstPages min_start_position ≠ 0 then min_start_position else min_position
  else min_position

/-! ## `sortAndLink`

Version 0 looks for the first page that is not full and turns the list to it. The later
versions look at the end times and, where reading has left the page they find, at the start
times. Both then check that the pages are as many as the highest number says.
-/

/-- The loop of version 0: a full page goes to the end of the list. -/
def rotate_full : ℕ → List LogPage → List LogPage
  | n + 1, p :: rest =>
    if p.write_offset ≠ FULL_PAGE_WRITE_OFFSET then p :: rest else rotate_full n (rest ++ [p])
  | _, lstPages => lstPages

/-- The check of the links: the pages are as many as the highest number says. -/
def link (lstPages : List LogPage) : Except IpcError (List LogPage) :=
  let nMaxPage := lstPages.foldl (fun n p => max n p.page_num) 0
  if nMaxPage + 1 = lstPages.length then .ok lstPages
  else .error (.missing_log_pages nMaxPage lstPages.length)

/-- A page that counts as not iterated. -/
def LogPage.forget (p : LogPage) : LogPage := { p with iterated := false }

/-- `sortAndLink` of `LogPage_v0`, which also forgets which pages were iterated. -/
def LogPage_v0.sortAndLink (lstPages : List LogPage) (bSort : Bool) :
    Except IpcError (List LogPage) :=
  let lstPages := if bSort then rotate_full lstPages.length lstPages else lstPages
  if bSort ∧ (lstPages.head?.map LogPage.write_offset).getD FULL_PAGE_WRITE_OFFSET
      = FULL_PAGE_WRITE_OFFSET then .error .no_starting_page
  else link (lstPages.map LogPage.forget)

/-- `sortAndLink` of `LogPage_v1`, which the later versions inherit. -/
def LogPage_v1.sortAndLink (lstPages : List LogPage) (bSort : Bool) :
    Except IpcError (List LogPage) :=
  if bSort then
    link (lstPages.rotate (find_min_position lstPages (find_min_end_position lstPages)))
  else link lstPages

/-- `sortAndLink` of the class of a page. -/
def LogPageClass.sortAndLink : LogPageClass → List LogPage → Bool → Except IpcError (List LogPage)
  | v0 => LogPage_v0.sortAndLink
  | v1 | v2 | v3 => LogPage_v1.sortAndLink

/-! ## The least time

What the loop finds is an instance of the library's first of the least: of the times that
count, the least one, and of its places the first. The two ways of writing it down, with 0
or with nothing for no time, are brought together here.
-/

/-- A time that counts; 0 is none. -/
def nonzero (time : ℕ) : Option ℕ := if time = 0 then none else some time

/-- The first of the least times that count, or 0 where none does. -/
def FirstTime (times : List ℕ) (i : ℕ) : Prop :=
  (∃ t, IsFirstLeast (times.map nonzero) i t) ∨ (i = 0 ∧ ∀ t ∈ times, t = 0)

/-- What the loops keep of the best place and time, in the form in which they keep it. -/
def kept (best : Option (ℕ × ℕ)) : Option ℕ × ℕ :=
  (best.map Prod.snd, (best.map Prod.fst).getD 0)

theorem find_min_turn_kept (best : Option (ℕ × ℕ)) (cur n : ℕ) :
    find_min_turn (kept best) (cur, n) = kept (scan_turn best (nonzero cur, n)) := by
  by_cases hcur : cur = 0
  · rw [find_min_turn, nonzero, if_pos hcur]
    cases best with
    | none => simp [hcur, scan_turn]
    | some p => simp [hcur, scan_turn]
  · rw [find_min_turn, nonzero, if_neg hcur, if_neg hcur]
    cases best with
    | none => rfl
    | some p =>
      obtain ⟨i, b⟩ := p
      rw [scan_turn_some, kept]
      dsimp only [Option.map]
      split_ifs
      · rfl
      · rfl

theorem foldl_find_min_turn (times : List ℕ) :
    times.zipIdx.foldl find_min_turn (none, 0) = kept (scan (times.map nonzero)) := by
  induction times using List.reverseRecOn with
  | nil => rfl
  | append_singleton times cur ih =>
    rw [List.zipIdx_append, List.foldl_append, ih, List.map_append, List.map_singleton,
      scan_concat, List.length_map, ← find_min_turn_kept]
    simp

theorem scan_nonzero_eq_none_iff {times : List ℕ} :
    scan (times.map nonzero) = none ↔ ∀ t ∈ times, t = 0 := by
  rw [scan_eq_none_iff]
  constructor
  · intro h t ht
    by_contra hne
    exact h t (List.mem_map.mpr ⟨t, ht, by rw [nonzero, if_neg hne]⟩)
  · intro h b hb
    obtain ⟨t, ht, htb⟩ := List.mem_map.mp hb
    rw [nonzero, if_pos (h t ht)] at htb
    cases htb

/-- **The loops find the first of the least times**, of those that count, and 0 where none does.
-/
theorem find_min_eq_iff {times : List ℕ} {i : ℕ} : find_min times = i ↔ FirstTime times i := by
  rw [find_min, foldl_find_min_turn, kept]
  constructor
  · rintro rfl
    cases hscan : scan (times.map nonzero) with
    | none => exact .inr ⟨rfl, scan_nonzero_eq_none_iff.mp hscan⟩
    | some p => exact .inl ⟨p.2, scan_eq_some_iff.mp hscan⟩
  · rintro (⟨t, hleast⟩ | ⟨rfl, hzero⟩)
    · rw [scan_eq_some_iff.mpr hleast]
      rfl
    · rw [scan_nonzero_eq_none_iff.mpr hzero]
      rfl

/-! ## Where a log begins

`Begins` states for each version, in its own terms, on which page a log begins, and
`sortAndLink_full` says that this page is first in the ring afterwards. The pages are
numbered from 0 in the order of the list; the ring is that order, turned.
-/

/-- In version 0, on the first page that is not full. -/
def BeginsV0 (lstPages : List LogPage) (i : ℕ) : Prop :=
  (∃ p, lstPages[i]? = some p ∧ p.write_offset ≠ FULL_PAGE_WRITE_OFFSET) ∧
    ∀ j p, j < i → lstPages[j]? = some p → p.write_offset = FULL_PAGE_WRITE_OFFSET

/-- From version 1 on, on the page that was ended first; but where reading is at the front of
that one, and not at the front of the one that was started first, on the latter. -/
def BeginsV1 (lstPages : List LogPage) (i : ℕ) : Prop :=
  ∃ e s, FirstTime (lstPages.map LogPage.end_time) e ∧
    FirstTime (lstPages.map LogPage.start_time) s ∧
    ((read_offset_at lstPages e = 0 ∧ read_offset_at lstPages s ≠ 0 ∧ i = s) ∨
      (¬ (read_offset_at lstPages e = 0 ∧ read_offset_at lstPages s ≠ 0) ∧ i = e))

def LogPageClass.Begins : LogPageClass → List LogPage → ℕ → Prop
  | v0 => BeginsV0
  | v1 | v2 | v3 => BeginsV1

theorem find_min_position_eq {lstPages : List LogPage} {i : ℕ} (h : BeginsV1 lstPages i) :
    find_min_position lstPages (find_min_end_position lstPages) = i := by
  obtain ⟨e, s, he, hs, hcases⟩ := h
  rw [find_min_position, find_min_end_position, find_min_eq_iff.mpr he, find_min_eq_iff.mpr hs]
  rcases hcases with ⟨hzero, hnonzero, rfl⟩ | ⟨hnot, rfl⟩
  · rw [if_pos hzero, if_pos hnonzero]
  · by_cases hzero : read_offset_at lstPages i = 0
    · rw [if_pos hzero, if_neg (fun hnonzero => hnot ⟨hzero, hnonzero⟩)]
    · rw [if_neg hzero]

theorem rotate_full_eq {lstPages : List LogPage} {i : ℕ} (h : BeginsV0 lstPages i) {n : ℕ}
    (hn : i < n) : rotate_full n lstPages = lstPages.rotate i := by
  induction n generalizing lstPages i with
  | zero => omega
  | succ n ih =>
    obtain ⟨⟨p, hp, hactive⟩, hfull⟩ := h
    obtain ⟨hi, -⟩ := List.getElem?_eq_some_iff.mp hp
    cases lstPages with
    | nil => simp at hi
    | cons q rest =>
      cases i with
      | zero =>
        cases hp
        rw [rotate_full, if_pos hactive, List.rotate_zero]
      | succ i =>
        have hq := hfull 0 q (Nat.succ_pos i) rfl
        rw [rotate_full, if_neg (not_not.mpr hq), List.rotate_cons_succ]
        rw [List.length_cons] at hi
        refine ih ⟨⟨p, ?_, hactive⟩, ?_⟩ (by omega)
        · rw [List.getElem?_append_left (by omega)]
          exact hp
        · intro j r hj hr
          rw [List.getElem?_append_left (by omega)] at hr
          exact hfull (j + 1) r (by omega) hr

/-- The pages are numbered from 0 in the order of the list, so that no page is missing. -/
def Numbered (lstPages : List LogPage) : Prop :=
  lstPages.map LogPage.page_num = List.range lstPages.length

theorem foldl_max_range (n : ℕ) : (List.range (n + 1)).foldl max 0 = n := by
  induction n with
  | zero => rfl
  | succ n ih =>
    rw [List.range_succ, List.foldl_append, ih]
    exact Nat.max_eq_right (Nat.le_succ n)

/-- Linking needs only that all numbers are there, in any order. -/
theorem link_of_perm {lstPages ring : List LogPage} (hne : lstPages ≠ [])
    (h : (ring.map LogPage.page_num).Perm (List.range lstPages.length)) : link ring = .ok ring := by
  obtain ⟨n, hn⟩ := Nat.exists_eq_succ_of_ne_zero (List.length_pos_iff.mpr hne).ne'
  have hlen : ring.length = n + 1 := by
    have := h.length_eq
    rwa [List.length_map, List.length_range, hn] at this
  have hmax : ring.foldl (fun n p => max n p.page_num) 0 = n := by
    rw [hn] at h
    rw [← List.foldl_map (f := LogPage.page_num) (g := max), h.foldl_eq, foldl_max_range]
  rw [link, hmax, if_pos hlen.symm]

/-- What `sortAndLink` does to the pages of a list: version 0 forgets. -/
def LogPageClass.linked : LogPageClass → LogPage → LogPage
  | v0, p => p.forget
  | v1, p | v2, p | v3, p => p

theorem link_map_linked {lstPages ring : List LogPage} (v : LogPageClass) (hne : lstPages ≠ [])
    (hnum : Numbered lstPages) (h : ring.Perm lstPages) :
    link (ring.map v.linked) = .ok (ring.map v.linked) := by
  refine link_of_perm hne ?_
  rw [← hnum, List.map_map]
  have hsame : LogPage.page_num ∘ v.linked = LogPage.page_num := by
    funext p
    cases v <;> rfl
  rw [hsame]
  exact h.map LogPage.page_num

/-- **A full log.** Sorted, its pages are a ring from the one on which it begins. -/
theorem sortAndLink_full {v : LogPageClass} {lstPages : List LogPage} {i : ℕ}
    (hne : lstPages ≠ []) (hnum : Numbered lstPages) (h : v.Begins lstPages i) :
    v.sortAndLink lstPages true = .ok ((lstPages.rotate i).map v.linked) := by
  have hlink := link_map_linked v hne hnum (List.rotate_perm lstPages i)
  have hone : BeginsV1 lstPages i → LogPage_v1.sortAndLink lstPages true
      = link (lstPages.rotate i) := by
    intro hbegins
    rw [LogPage_v1.sortAndLink, if_pos rfl, find_min_position_eq hbegins]
  cases v with
  | v0 =>
    obtain ⟨⟨p, hp, hactive⟩, -⟩ := id h
    obtain ⟨hi, -⟩ := List.getElem?_eq_some_iff.mp hp
    have hhead : ((lstPages.rotate i).head?.map LogPage.write_offset).getD FULL_PAGE_WRITE_OFFSET
        ≠ FULL_PAGE_WRITE_OFFSET := by
      rw [List.head?_rotate hi, hp]
      exact hactive
    rw [LogPageClass.sortAndLink, LogPage_v0.sortAndLink, if_pos rfl, rotate_full_eq h hi,
      if_neg (fun hand => hhead hand.2)]
    exact hlink
  | v1 => exact (hone h).trans ((congrArg link (List.map_id _)).symm.trans hlink)
  | v2 => exact (hone h).trans ((congrArg link (List.map_id _)).symm.trans hlink)
  | v3 => exact (hone h).trans ((congrArg link (List.map_id _)).symm.trans hlink)

/-- A partial log is linked in the order of its numbers, without looking for where it begins. -/
theorem sortAndLink_partial {v : LogPageClass} {lstPages : List LogPage} (hne : lstPages ≠ [])
    (hnum : Numbered lstPages) :
    v.sortAndLink lstPages false = .ok (lstPages.map v.linked) := by
  have hlink := link_map_linked v hne hnum (List.Perm.refl lstPages)
  cases v with
  | v0 => exact hlink
  | v1 => exact (congrArg link (List.map_id _)).symm.trans hlink
  | v2 => exact (congrArg link (List.map_id _)).symm.trans hlink
  | v3 => exact (congrArg link (List.map_id _)).symm.trans hlink

end AndroidTools.IpcLog
