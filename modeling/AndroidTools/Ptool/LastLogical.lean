/-
The last logical partition of an MBR call.

`cursor_at_last` is where the call is before its last pass: the boot record is written, the EBRs
are reserved, and all logical partitions but the last are placed. The patches for the size are
emitted with the start this cursor has, and the record is written with the start `last_start`
makes of it, so how far the partition is moved in between decides whether the two belong together.

`LastPass` collects what a completed call owes to that pass: the partition and where it was put,
the start of the extended partition, and the patches of the document. Everything said about the
last partition later is said from these equations.
-/
import AndroidTools.Ptool.EbrChain

set_option autoImplicit false

namespace AndroidTools.Ptool

open AndroidTools.Bytes AndroidTools.BootRecord AndroidTools.Passes

/-! ## Before the last pass

The cursor before the pass for the last logical partition, and the place of its record, as
functions of the list. The patches for the size are emitted with these numbers.
-/

/-- Where the extended partition begins: behind the boot record and the three primary partitions.
-/
def extended_begins (st : MbrSettings) (ps : List MbrPartition) : ℤ :=
  1 + ((ps.take 3).map fun p => convert_kb_to_sectors st.toSettings p.size_in_kb).sum

/-- The cursor of a call for more than four partitions before the pass for the last one. -/
def cursor_at_last (st : MbrSettings) (k : ℕ) (ps : List MbrPartition) :
    Except Ended MbrCursor := do
  let s ← create_master_boot_record st k ps.length (ps.take 3)
  let hash_w ← or_raise (update_wp_hash st.toSettings s.cursor.hash_w s.cursor.first_lba
    (ps.drop 3).length)
  let t ← add_logicals st k ps.length s.cursor.first_lba 3 (ps.drop 3).dropLast
    (extended_state st k (ps.drop 3).length s hash_w)
  return t.cursor

/-- How far the last partition is moved, from where the cursor was to where it is put. -/
def last_move (st : MbrSettings) (p : MbrPartition) (c : MbrCursor) : ℤ :=
  last_start st p c - c.first_lba

/-- The byte of the EBR array at which the record of the last partition is. -/
def last_record (n : ℕ) : ℕ := 0x200 * (n - 4) + 0x1BE

section Primaries

variable {st : MbrSettings} {k n : ℕ}

/-- The passes for the primary partitions move the cursor by the sizes of these. -/
theorem add_primaries_cursor {ps : List MbrPartition} {j : ℕ} {s s' : MbrState}
    (hs : s.cursor.last_lba = s.cursor.first_lba) (h : add_primaries st k n j ps s = .ok s') :
    s'.cursor.first_lba = s.cursor.first_lba
      + (ps.map fun p => convert_kb_to_sectors st.toSettings p.size_in_kb).sum := by
  induction ps generalizing j s with
  | nil =>
    cases h
    simp
  | cons p ps ih =>
    obtain ⟨t, ht, h⟩ := bind_ok h
    obtain ⟨hash_w, -, -, rfl⟩ := add_primary_spec ht
    rw [ih rfl h, List.map_cons, List.sum_cons, ← hs]
    ring

theorem create_master_boot_record_cursor {ps : List MbrPartition} {s : MbrState}
    (h : create_master_boot_record st k n ps = .ok s) :
    s.cursor.first_lba
      = 1 + (ps.map fun p => convert_kb_to_sectors st.toSettings p.size_in_kb).sum := by
  obtain ⟨mbr, -, h⟩ := create_master_boot_record_spec h
  exact add_primaries_cursor rfl h

end Primaries

/-! ## The last pass

The pass moves the partition after the patches for it were emitted. `last_pass` has what it
starts with and what it leaves, side by side.
-/

/-- What a call does for the last partition `p`, put at `x`, from cursor `c` on. -/
structure LastPass (st : MbrSettings) (k : ℕ) (ps : List MbrPartition) (out : MbrTables)
    (c : MbrCursor) (p : MbrPartition) (x : MbrPlaced) : Prop where
  cursor_eq : cursor_at_last st k ps = .ok c
  partition : ps.getLast? = some p
  placed : out.placed.getLast? = some x
  start_eq : x.first_lba = last_start st p c
  begins_eq : out.extended_partition_begins = extended_begins st ps
  patches_eq : out.patches = extended_patches st k out.extended_partition_begins
    ++ last_logical_patches st k (ps.length - 3) out.extended_partition_begins c.first_lba
  begins_le : (∀ q ∈ ps, 0 ≤ q.size_in_kb) →
    out.extended_partition_begins + (ps.length - 3 : ℕ) ≤ c.first_lba
  begins_pos : (∀ q ∈ ps, 0 ≤ q.size_in_kb) → 1 ≤ out.extended_partition_begins
  moved_up : c.first_lba ≤ x.first_lba
  behind : ∀ y, out.placed[ps.length - 2]? = some y → c.first_lba = y.first_lba + y.sectors

/-- After a pass for a logical partition the cursor is behind that partition. -/
theorem cursor_behind {st : MbrSettings} {k n : ℕ} {begins : ℤ} {ps : List MbrPartition} {j : ℕ}
    {s s' : MbrState} (hne : ps ≠ []) (h : add_logicals st k n begins j ps s = .ok s') :
    ∃ y, s'.placed.getLast? = some y ∧ s'.cursor.first_lba = y.first_lba + y.sectors := by
  induction ps generalizing j s with
  | nil => exact absurd rfl hne
  | cons p ps ih =>
    obtain ⟨t, ht, h⟩ := bind_ok h
    obtain ⟨x, c, hplace, -, -, heq⟩ := add_logical_spec ht
    by_cases hps : ps = []
    · subst hps
      cases h
      rw [heq]
      exact ⟨x, by simp, (place_logical_spec hplace).first_eq⟩
    · exact ih hps h

/-- **The last pass of a call.** For more than four partitions there is one, with the cursor it
starts from, and the patches and the placed partition come from it. -/
theorem last_pass {st : MbrSettings} {k : ℕ} {ps : List MbrPartition} {out : MbrTables}
    (hn : 4 < ps.length) (hout : create_mbr_partition_table st k ps = .ok out) :
    ∃ c p x, LastPass st k ps out c p x := by
  obtain ⟨s, s', hs, hs', rfl⟩ := create_mbr_partition_table_many hn hout
  obtain ⟨hash_w, hhash, -, hrun⟩ := create_extended_boot_records_spec hs'
  obtain ⟨mbr, -, hprimaries⟩ := create_master_boot_record_spec hs
  have hdrop : (ps.drop 3).length = ps.length - 3 := List.length_drop
  have hne : ps.drop 3 ≠ [] := by
    intro h
    rw [h] at hdrop
    simp at hdrop
    omega
  obtain ⟨t, p, x, c', ht, hp, hplace, hplaced, hpatches⟩ :=
    add_logicals_last hne (by rw [hdrop]; omega) hrun
  have hspec := place_logical_spec hplace
  -- neither loop emits patches before its last pass
  have hnone : s.patches = [] := by
    rw [add_primaries_patches (by rw [List.length_take]; omega) hprimaries]
    rfl
  have hsizes : (∀ q ∈ ps, 0 ≤ q.size_in_kb) → ∀ y ∈ s'.placed, 0 ≤ y.sectors := by
    intro hsize
    have hfirst := add_primaries_sizes (fun q hq => hsize q (List.mem_of_mem_take hq))
      (fun y hy => absurd hy (List.not_mem_nil)) hprimaries
    refine add_logicals_sizes (fun q hq => hsize q (List.mem_of_mem_drop hq)) ?_ hrun
    exact hfirst
  have hcursor : cursor_at_last st k ps = .ok t.cursor := by
    rw [cursor_at_last, hs]
    simp only [Except.bind, bind, hhash, or_raise, Except.mapError, ht]
    rfl
  have hlen : t.placed.length = ps.length - 1 := by
    obtain ⟨ys, hys, hyplaced, -⟩ := add_logicals_shape ht
    have hkeep : (extended_state st k (ps.drop 3).length s hash_w).placed = s.placed := rfl
    rw [hyplaced, hkeep, List.length_append, (create_master_boot_record_shape hs).1, hys,
      List.length_take, List.length_dropLast, hdrop]
    omega
  refine ⟨t.cursor, p, x, ⟨hcursor, ?_, ?_, hspec.last_start_eq,
    create_master_boot_record_cursor hs, ?_, ?_, ?_, hspec.first_ge, ?_⟩⟩
  · rw [← hp, List.getLast?_drop, if_neg (by omega)]
  · dsimp only
    rw [hplaced, List.getLast?_append]
    rfl
  · dsimp only
    rw [hpatches]
    simp only [extended_state, hnone, List.nil_append]
  · intro hsize
    have hup := (first_lba_of_logical ht fun y hy =>
      hsizes hsize y (by rw [hplaced]; exact List.mem_append_left _ hy)).1
    simp only [extended_state, hdrop] at hup
    exact hup
  · intro hsize
    refine first_lba_after_primaries hs fun y hy => hsizes hsize y ?_
    obtain ⟨ys, -, hyplaced, -⟩ := add_logicals_shape hrun
    rw [hyplaced]
    exact List.mem_append_left _ hy
  · intro y hy
    obtain ⟨z, hz, hbehind⟩ := cursor_behind (by
      rw [ne_eq, ← List.length_eq_zero_iff, List.length_dropLast, hdrop]
      omega) ht
    rw [hbehind]
    dsimp only at hy
    rw [hplaced, List.getElem?_append_left (by omega)] at hy
    rw [List.getLast?_eq_getElem?, hlen, show ps.length - 1 - 1 = ps.length - 2 by omega, hy] at hz
    cases hz
    rfl

end AndroidTools.Ptool
