/-
The loop that builds `WriteSorted`.

The loop goes through `WriteArray` again and again and takes an element whenever its start sector
is `PartitionStartSector[Count]`. `order_pass` and `order_loop` are the loop with everything that
could go wrong: an index past the end of `PartitionStartSector` raises, and a loop that takes
nothing more goes on for ever. Neither happens, and what the loop ends with is `write_sorted`, so
the rest of the model can use that.

The argument is about lists with keys and is made in the library: each run of equal keys takes up
at most one round, wherever in the list its elements stand. What is left here is that the loop of
the source is such a scan.
-/
import AndroidTools.Msp.Main

set_option autoImplicit false

namespace AndroidTools.Msp

open AndroidTools.KeyOrder

/-! ## The loop

The source compares the element at hand with the start sector at an index that moves when
one is taken. Behind the last start sector that index is out of range, and what saves the
loop is that it is left as soon as as many elements are taken as there are start sectors.
Passes and indices are kept here, with `none` for the `IndexError`.
-/

/-- How the loop is left: it ends with a list, it raises an `IndexError`, or it is still running
when the passes are used up. -/
inductive OrderRun where
  | running
  | index_error
  | ended (write_sorted : List Entry)
  deriving Repr, DecidableEq

/-- One `for` loop over `WriteArray`; `none` is an `IndexError`. -/
def order_pass (starts : List ℤ) : List Entry → List Entry → Option (List Entry)
  | [], sorted => some sorted
  | w :: ws, sorted =>
    if w.filename = "" then order_pass starts ws sorted
    else
      match starts[sorted.length]? with
      | none => none
      | some start_sector =>
        if w.start_sector = start_sector then
          if (sorted ++ [w]).length = starts.length then some (sorted ++ [w])
          else order_pass starts ws (sorted ++ [w])
        else order_pass starts ws sorted

/-- `while 1`, followed for at most `fuel` passes. -/
def order_loop (starts : List ℤ) (ws : List Entry) : ℕ → List Entry → OrderRun
  | 0, _ => .running
  | fuel + 1, sorted =>
    match order_pass starts ws sorted with
    | none => .index_error
    | some sorted =>
      if sorted.length = starts.length then .ended sorted else order_loop starts ws fuel sorted

/-- The sort keys, unless an element with a file is marked sparse: then the script exits. -/
def collect_start_sectors (ws : List Entry) : Option (List ℤ) :=
  if (named_writes ws).any is_sparse then none else some (partition_start_sector ws)

/-! ## One pass

A pass takes the elements whose start sector is next, so while there is one left it does not
raise. A pass over elements without a file compares nothing.
-/

/-- While there is a key to compare with, a pass does not raise. -/
theorem order_pass_eq {starts : List ℤ} {ws sorted : List Entry}
    (h : sorted.length < starts.length) :
    order_pass starts ws sorted = some (sort_pass starts ws sorted) := by
  induction ws generalizing sorted with
  | nil => rfl
  | cons w ws ih =>
    have hkey : starts[sorted.length]? = some starts[sorted.length] :=
      List.getElem?_eq_getElem h
    unfold order_pass sort_pass
    rw [hkey, List.length_append, List.length_singleton]
    by_cases hname : w.filename = ""
    · rw [if_pos hname, if_pos hname]
      exact ih h
    rw [if_neg hname, if_neg hname]
    dsimp only
    by_cases hnext : w.start_sector = starts[sorted.length]
    · rw [if_pos hnext, if_pos (congrArg some hnext.symm)]
      by_cases hfull : sorted.length + 1 = starts.length
      · rw [if_pos hfull, if_pos hfull]
      · -- there is one more key than elements taken
        rw [if_neg hfull, if_neg hfull]
        apply ih
        rw [List.length_append, List.length_singleton]
        omega
    · rw [if_neg hnext, if_neg fun heq => hnext (Option.some.inj heq).symm]
      exact ih h

/-- A pass over elements without a file compares nothing and takes nothing. -/
theorem order_pass_unnamed {starts : List ℤ} {ws : List Entry} (h : named_writes ws = [])
    (sorted : List Entry) : order_pass starts ws sorted = some sorted := by
  induction ws with
  | nil => rfl
  | cons w ws ih =>
    have hnames := List.filter_eq_nil_iff.mp h
    have hname : w.filename = "" := by simpa using hnames w List.mem_cons_self
    rw [order_pass, if_pos hname]
    apply ih
    exact List.filter_eq_nil_iff.mpr fun v hv => hnames v (List.mem_cons_of_mem _ hv)

/-! ## All passes

The loop is the library's scan over as many rounds as there are elements, and one round more
finds nothing to do. So it ends, and without an index error.
-/

/-- If the scan takes as many elements as there are keys, the loop ends with them. -/
theorem order_loop_eq {starts : List ℤ} {ws : List Entry} {fuel : ℕ} {sorted : List Entry}
    (h : sorted.length < starts.length)
    (hall : (sort_loop starts ws fuel sorted).length = starts.length) :
    order_loop starts ws fuel sorted = .ended (sort_loop starts ws fuel sorted) := by
  induction fuel generalizing sorted with
  | zero =>
    rw [sort_loop] at hall
    omega
  | succ fuel ih =>
    rw [order_loop, order_pass_eq h]
    rw [sort_loop] at hall ⊢
    dsimp only at hall ⊢
    by_cases hfull : (sort_pass starts ws sorted).length = starts.length
    · rw [if_pos hfull, if_pos hfull]
    · rw [if_neg hfull] at hall ⊢
      rw [if_neg hfull]
      refine ih ?_ hall
      -- a pass takes no more than there are keys
      have hle := length_scan_le Entry.start_sector starts (named_writes ws) h.le
      rw [← sort_pass_eq] at hle
      omega

theorem length_partition_start_sector (ws : List Entry) :
    (partition_start_sector ws).length = (named_writes ws).length := by
  rw [partition_start_sector, List.length_insertionSort, List.length_map]

/-- One pass more than there are elements is enough for the loop to end. -/
theorem order_loop_ends (ws : List Entry) :
    order_loop (partition_start_sector ws) ws (ws.length + 1) [] = .ended (write_sorted ws) := by
  have hlen := (write_sorted_spec ws).1.length_eq
  rw [← length_partition_start_sector] at hlen
  by_cases hnone : named_writes ws = []
  · -- no keys: the first pass compares nothing
    have hkeys : (partition_start_sector ws).length = 0 := by
      rw [length_partition_start_sector, hnone]
      rfl
    have hsorted : write_sorted ws = [] := List.eq_nil_of_length_eq_zero (hlen.trans hkeys)
    rw [order_loop, order_pass_unnamed hnone, hsorted]
    exact if_pos hkeys.symm
  · have hpos : 0 < (partition_start_sector ws).length := by
      rw [length_partition_start_sector]
      exact List.length_pos_of_ne_nil hnone
    exact order_loop_eq hpos hlen

/-- **The loop ends**, without an index error, with the elements to program in the order of their
start sectors. Start sectors may occur any number of times. -/
theorem ordering_loop_sorts (ws : List Entry) (starts : List ℤ)
    (hguard : collect_start_sectors ws = some starts) :
    ∃ fuel sorted, order_loop starts ws fuel [] = .ended sorted ∧
      sorted.Perm (ws.filter fun w => w.filename ≠ "") ∧
      sorted.Pairwise fun v w => v.start_sector ≤ w.start_sector := by
  unfold collect_start_sectors at hguard
  by_cases hsparse : (named_writes ws).any is_sparse = true
  · rw [if_pos hsparse] at hguard
    cases hguard
  · rw [if_neg hsparse] at hguard
    obtain rfl := Option.some.inj hguard
    obtain ⟨hperm, hsorted⟩ := write_sorted_spec ws
    exact ⟨_, _, order_loop_ends ws, hperm, hsorted⟩

/-- An element with a file, or with the empty name for none. -/
def write_at (filename : String) (start_sector : ℤ) : Entry :=
  ⟨filename, 0, 0, 0, "false", start_sector, false, 0, 0, 0, 0, 4, none⟩

/-- Two elements for one sector, before and behind one for an earlier sector. -/
def unsorted_writes : List Entry :=
  [write_at "system.img" 64, write_at "" 8, write_at "boot.img" 34, write_at "patch.img" 64]

theorem ordering_loop_sorts_unsorted :
    ∃ fuel sorted, order_loop [34, 64, 64] unsorted_writes fuel [] = .ended sorted ∧
      sorted.Perm (unsorted_writes.filter fun w => w.filename ≠ "") ∧
      sorted.Pairwise fun v w => v.start_sector ≤ w.start_sector :=
  ordering_loop_sorts unsorted_writes [34, 64, 64] (by decide +kernel)

end AndroidTools.Msp
