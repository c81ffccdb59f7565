/-
Divisions by a boundary.

The guards of `ptool.py` compare the kilobytes of a boundary with zero, and the divisors are its
whole sectors: a boundary of less than a sector passes a guard and is divided by. The loops of
`UpdateWPhash` divide by it in their first pass at the latest, so a boundary without sectors ends
them in an exception and any other one makes them end.

A pass that raises is reported once for all loops by `passes_ne_error_iff`; what is left is which
pass divides by which boundary. Other errors come in between: a call that stops for another
reason, before it comes to a division, has not divided by zero. So the conditions are about the
passes that are reached, and the lemmas about passes that return say where nothing else can stop
the call.
-/
import AndroidTools.Ptool.Space

set_option autoImplicit false

namespace AndroidTools.Ptool

open AndroidTools.Boundary AndroidTools.Bytes AndroidTools.Passes

/-- A boundary that is used has at least one whole sector. -/
def HasSector (st : Settings) (boundary_in_kb : ℤ) : Prop :=
  0 < boundary_in_kb → 0 < convert_kb_to_sectors st boundary_in_kb

/-- The cursor of a pass without alignment, before the move for the write protection. -/
def measured_cursor (st : Settings) (c : Cursor) : Cursor :=
  if 0 < st.write_protect_boundary_in_kb then
    { c with sectors_till_next_boundary := tillBoundary (wp_sectors st) c.first_lba }
  else c

/-- What a pass of the GPT loop divides by is not zero. A global performance boundary without
alignment ends the pass before its first division. -/
def PassDivides (st : Settings) (p : Partition) (c : Cursor) : Prop :=
  (0 < st.performance_boundary_in_kb ∧ st.align_partitions_to_performance_boundary = false) ∨
    HasSector st st.write_protect_boundary_in_kb ∧
      (st.align_partitions_to_performance_boundary = true ∨
          (move_first_lba p (measured_cursor st c)).first_lba % p.performance_boundary_in_kb = 0 →
        HasSector st p.performance_boundary_in_kb)

/-- Every division of the layout of a GPT is one by a boundary that has a sector. -/
def GptDivides (st : Settings) (k : ℕ) (ps : List Partition) (rand : ℕ → ℕ) : Prop :=
  (st.write_protect_gpt_partition_table = true →
      HasSector st st.write_protect_boundary_in_kb) ∧
    ∀ h j p s, starting_wp_hash st = .ok h → ps[j]? = some p →
      add_partitions st k ps.length rand 0 (ps.take j) (starting_state st h) = .ok s →
      PassDivides st p s.cursor

/-- What a logical partition is aligned to has a sector. The last one is never read-only. -/
def LogicalDivides (st : MbrSettings) (last : Bool) (p : MbrPartition) : Prop :=
  (last = true ∨ p.readonly = false) → p.align = true →
    HasSector st.toSettings st.align_boundary_in_kb

/-- Every division of the layout of an MBR; a partition whose type is no byte ends it. -/
def MbrDivides (st : MbrSettings) (ps : List MbrPartition) : Prop :=
  (ps ≠ [] → HasSector st.toSettings st.write_protect_boundary_in_kb) ∧
    (4 < ps.length → ∀ (j : ℕ) p, 3 ≤ j → ps[j]? = some p → (∀ q ∈ ps.take j, q.type ≤ 255) →
      LogicalDivides st (decide (j + 1 = ps.length)) p)

/-! ## The functions that divide

For each function with a division in it, when that division is by zero. Most of them divide
by a boundary in sectors under a guard on the same boundary in kilobytes, so the answer is
the same everywhere: when the boundary is used and has no whole sector.
-/

section Divisions

variable {st : Settings}

theorem return_num_sectors_till_boundary_divides {boundary_in_kb : ℤ} (current_lba : ℤ) :
    return_num_sectors_till_boundary st current_lba boundary_in_kb ≠ .error .zeroDivisionError ↔
      HasSector st boundary_in_kb := by
  constructor
  · intro h hpos
    have hnonneg := convert_kb_to_sectors_nonneg st hpos.le
    by_contra hzero
    apply h
    rw [return_num_sectors_till_boundary, if_pos hpos, if_pos (by omega)]
  · intro hsector
    obtain ⟨d, hd⟩ := return_num_sectors_till_boundary_total current_lba hsector
    rw [hd]
    exact ok_ne_error _ _

/-- The body of a growing loop divides only by the boundary. -/
theorem update_wp_hash_divides (hsector : HasSector st st.write_protect_boundary_in_kb)
    (h : WPHash) (start size : ℤ) :
    update_wp_hash st h start size ≠ .error .zeroDivisionError := by
  obtain ⟨h', hh'⟩ := update_wp_hash_total h start size fun hpos => hsector (by exact_mod_cast hpos)
  rw [hh']
  exact ok_ne_error _ _

theorem wp_sectors_eq_zero (hno : ¬ HasSector st st.write_protect_boundary_in_kb) :
    0 < st.write_protect_boundary_in_kb ∧ wp_sectors st = 0 := by
  rw [HasSector, Classical.not_imp] at hno
  obtain ⟨hpos, hzero⟩ := hno
  have hnonneg := wp_sectors_nonneg st
  rw [wp_sectors] at hnonneg ⊢
  omega

/-- An update that opens a region divides by the boundary, and raises if it has no sector. -/
theorem update_wp_hash_new_region {h : WPHash} {start size : ℤ}
    (hno : ¬ HasSector st st.write_protect_boundary_in_kb)
    (hnew : h.current.end_sector < start - 1) :
    update_wp_hash st h start size = .error .zeroDivisionError := by
  obtain ⟨hpos, hw⟩ := wp_sectors_eq_zero hno
  rw [update_wp_hash]
  dsimp only
  rw [if_neg (by omega), if_neg (by omega), if_pos hw]

theorem align_to_performance_boundary_divides {p : Partition} {c : Cursor} :
    align_to_performance_boundary st p c ≠ .error .zeroDivisionError ↔
      (st.align_partitions_to_performance_boundary = true →
        HasSector st p.performance_boundary_in_kb) := by
  rw [align_to_performance_boundary]
  by_cases halign : st.align_partitions_to_performance_boundary = true
  · rw [if_pos halign, forall_prop_of_true halign,
      ← return_num_sectors_till_boundary_divides c.first_lba]
    cases return_num_sectors_till_boundary st c.first_lba p.performance_boundary_in_kb with
    | error e => simp only [ne_eq, Except.error.injEq]
    | ok d => exact iff_of_true (ok_ne_error _ _) (ok_ne_error _ _)
  · rw [if_neg halign]
    exact iff_of_true (ok_ne_error _ _) fun h => absurd h halign

theorem measure_write_protect_boundary_divides {c : Cursor} :
    measure_write_protect_boundary st c ≠ .error .zeroDivisionError ↔
      HasSector st st.write_protect_boundary_in_kb := by
  rw [measure_write_protect_boundary]
  by_cases hkb : 0 < st.write_protect_boundary_in_kb
  · rw [if_pos hkb, ← return_num_sectors_till_boundary_divides c.first_lba]
    cases return_num_sectors_till_boundary st c.first_lba st.write_protect_boundary_in_kb with
    | error e => simp only [ne_eq, Except.error.injEq]
    | ok d => exact iff_of_true (ok_ne_error _ _) (ok_ne_error _ _)
  · rw [if_neg hkb]
    exact iff_of_true (ok_ne_error _ _) fun h => absurd (by exact_mod_cast h) hkb

theorem measure_write_protect_boundary_eq {c : Cursor}
    (hsector : HasSector st st.write_protect_boundary_in_kb) :
    measure_write_protect_boundary st c = .ok (measured_cursor st c) := by
  rw [measure_write_protect_boundary, measured_cursor]
  by_cases hkb : 0 < st.write_protect_boundary_in_kb
  · have hkb' : 0 < (st.write_protect_boundary_in_kb : ℤ) := by exact_mod_cast hkb
    obtain ⟨d, hd⟩ := return_num_sectors_till_boundary_total c.first_lba hsector
    obtain ⟨-, rfl⟩ := return_num_sectors_till_boundary_pos hd hkb'
    rw [if_pos hkb, if_pos hkb, hd]
    rfl
  · rw [if_neg hkb, if_neg hkb]

theorem report_performance_boundary_divides {p : Partition} {c : Cursor} :
    report_performance_boundary st p c ≠ .error .zeroDivisionError ↔
      (c.first_lba % p.performance_boundary_in_kb = 0 →
        HasSector st p.performance_boundary_in_kb) := by
  rw [report_performance_boundary]
  split_ifs with hzero
  · obtain ⟨hpos, haligned, hzero⟩ := hzero
    refine iff_of_false (fun h => h rfl) fun h => ?_
    have := h haligned hpos
    omega
  · refine iff_of_true (ok_ne_error _ _) fun haligned hpos => ?_
    have hnonneg := convert_kb_to_sectors_nonneg st hpos.le
    by_contra hno
    exact hzero ⟨hpos, haligned, by omega⟩

end Divisions

/-! ## One pass of the GPT loop

A pass of the loop places a partition and writes its entry. Only placing divides, and a pass
may end with another error before it comes to a division.
-/

section GptPass

variable {st : Settings} {p : Partition}

/-- A pass divides by the boundary of the write protection, and by the performance boundary
if it aligns to it or finds itself on it. -/
theorem place_partition_divides (last : Bool) (c : Cursor) :
    place_partition st last p c ≠ .error .zeroDivisionError ↔ PassDivides st p c := by
  by_cases hname : 0 < st.performance_boundary_in_kb ∧
      ¬ st.align_partitions_to_performance_boundary
  · -- the text is printed first
    have hraise : place_partition st last p c = .error .nameError := by
      rw [place_partition, check_performance_setting, if_pos hname]
      rfl
    rw [hraise]
    refine iff_of_true (error_ne_error (by decide)) (.inl ⟨hname.1, ?_⟩)
    exact Bool.eq_false_iff.mpr hname.2
  · have hcheck : check_performance_setting st = .ok () := if_neg hname
    have hdivides : PassDivides st p c ↔ HasSector st st.write_protect_boundary_in_kb ∧
        (st.align_partitions_to_performance_boundary = true ∨
            (move_first_lba p (measured_cursor st c)).first_lba % p.performance_boundary_in_kb = 0 →
          HasSector st p.performance_boundary_in_kb) := by
      refine or_iff_right fun h => hname ⟨h.1, ?_⟩
      rw [h.2]
      exact Bool.false_ne_true
    rw [hdivides, place_partition, hcheck, ok_bind, bind_ne_error_iff,
      align_to_performance_boundary_divides]
    -- each division is one by the cursor the checks before it leave
    constructor
    · rintro ⟨hperf, hrest⟩
      by_cases halign : st.align_partitions_to_performance_boundary = true
      · obtain ⟨d, hd⟩ := return_num_sectors_till_boundary_total c.first_lba (hperf halign)
        have hmeasure := hrest _ (by
          rw [align_to_performance_boundary, if_pos halign, hd])
        rw [bind_ne_error_iff, measure_write_protect_boundary_divides] at hmeasure
        exact ⟨hmeasure.1, fun _ => hperf halign⟩
      · have hmeasure := hrest c (if_neg halign)
        rw [bind_ne_error_iff, measure_write_protect_boundary_divides] at hmeasure
        obtain ⟨hwp, hreport⟩ := hmeasure
        have hreport := hreport _ (measure_write_protect_boundary_eq hwp)
        rw [bind_ne_error_iff, report_performance_boundary_divides] at hreport
        exact ⟨hwp, fun h => hreport.1 (h.resolve_left halign)⟩
    · rintro ⟨hwp, hperf⟩
      refine ⟨fun halign => hperf (.inl halign), fun c₁ h₁ => ?_⟩
      rw [bind_ne_error_iff, measure_write_protect_boundary_divides]
      refine ⟨hwp, fun c₂ h₂ => ?_⟩
      rw [bind_ne_error_iff, report_performance_boundary_divides]
      refine ⟨fun hon => hperf ?_, fun _ _ => ?_⟩
      · -- without alignment the report is about the measured cursor
        by_cases halign : st.align_partitions_to_performance_boundary = true
        · exact .inl halign
        · rw [align_to_performance_boundary, if_neg halign] at h₁
          cases h₁
          rw [measure_write_protect_boundary_eq hwp] at h₂
          cases h₂
          exact .inr hon
      · split_ifs with hro
        · rw [bind_ne_error_iff]
          exact ⟨update_wp_hash_divides hwp _ _ _, fun _ _ => ok_ne_error _ _⟩
        · exact ok_ne_error _ _

theorem set_bytes_divides (img : List UInt8) (i : ℕ) (vs : List UInt8) :
    set_bytes img i vs ≠ .error .zeroDivisionError := by
  rw [set_bytes]
  split_ifs
  · exact ok_ne_error _ _
  · exact error_ne_error (by decide)

theorem table_crc32_divides (array : List UInt8) (len : ℕ) :
    table_crc32 array len ≠ .error .zeroDivisionError := by
  rw [table_crc32]
  split
  · exact ok_ne_error _ _
  · exact error_ne_error (by decide)

theorem write_gpt_divides (st : Settings) (wide : List ℕ) :
    write_gpt st wide ≠ .error .zeroDivisionError := by
  rw [write_gpt]
  split_ifs
  · exact ok_ne_error _ _
  · exact error_ne_error (by decide)

/-- A pass divides by zero exactly where its placing does; writing the entry divides by nothing.
-/
theorem add_partition_divides (k n : ℕ) (rand : ℕ → ℕ) (j : ℕ) (s : TableState) :
    add_partition st k n rand j p s ≠ .error .zeroDivisionError ↔ PassDivides st p s.cursor := by
  rw [add_partition, bind_ne_error_iff, place_partition_divides]
  refine and_iff_left fun c _ => ?_
  rw [bind_ne_error_iff]
  exact ⟨set_bytes_divides _ _ _, fun _ _ => ok_ne_error _ _⟩

/-- The loop divides by zero exactly if a pass it comes to does. -/
theorem add_partitions_divides (k n : ℕ) (rand : ℕ → ℕ) (ps : List Partition) (s : TableState) :
    add_partitions st k n rand 0 ps s ≠ .error .zeroDivisionError ↔
      ∀ i p t, ps[i]? = some p → add_partitions st k n rand 0 (ps.take i) s = .ok t →
        PassDivides st p t.cursor := by
  rw [add_partitions_eq_passes, passes_ne_error_iff]
  simp only [add_partition_divides, add_partitions_eq_passes]

end GptPass

/-! ## The call for a GPT

What comes before and behind the loop divides by nothing, apart from the region for the
table itself. So the call ends in a division by zero exactly if a pass does that it comes
to.
-/

theorem write_protective_mbr_divides (st : Settings) (img : List UInt8) :
    write_protective_mbr st img ≠ .error .zeroDivisionError := by
  rw [write_protective_mbr, bind_ne_error_iff]
  refine ⟨set_bytes_divides _ _ _, fun _ _ => ?_⟩
  rw [bind_ne_error_iff]
  exact ⟨set_bytes_divides _ _ _, fun _ _ => ok_ne_error _ _⟩

theorem write_primary_header_divides (st : Settings) (n : ℕ) (img : List UInt8) :
    write_primary_header st n img ≠ .error .zeroDivisionError := by
  rw [write_primary_header, bind_ne_error_iff]
  refine ⟨set_bytes_divides _ _ _, fun _ _ => ?_⟩
  rw [bind_ne_error_iff]
  refine ⟨table_crc32_divides _ _, fun _ _ => ?_⟩
  rw [bind_ne_error_iff]
  refine ⟨set_bytes_divides _ _ _, fun _ _ => ?_⟩
  rw [bind_ne_error_iff]
  exact ⟨table_crc32_divides _ _, fun _ _ => set_bytes_divides _ _ _⟩

theorem make_backup_gpt_divides (st : Settings) (img : List UInt8) :
    make_backup_gpt st img ≠ .error .zeroDivisionError := by
  rw [make_backup_gpt, bind_ne_error_iff]
  refine ⟨set_bytes_divides _ _ _, fun _ _ => ?_⟩
  rw [bind_ne_error_iff]
  refine ⟨set_bytes_divides _ _ _, fun _ _ => ?_⟩
  rw [bind_ne_error_iff]
  exact ⟨table_crc32_divides _ _, fun _ _ => set_bytes_divides _ _ _⟩

/-- A region for the table itself begins behind the initial one. -/
theorem starting_wp_hash_divides (st : Settings) :
    starting_wp_hash st ≠ .error .zeroDivisionError ↔
      (st.write_protect_gpt_partition_table = true →
        HasSector st st.write_protect_boundary_in_kb) := by
  rw [starting_wp_hash]
  by_cases hwp : st.write_protect_gpt_partition_table = true
  · rw [if_pos hwp, forall_prop_of_true hwp]
    refine ⟨fun h => ?_, fun h => update_wp_hash_divides h _ _ _⟩
    by_contra hno
    -- the first region is empty, so the table lies behind it
    refine h (update_wp_hash_new_region hno ?_)
    have hw := (wp_sectors_eq_zero hno).2
    rw [initial_wp_hash]
    split_ifs
    · decide
    · dsimp only
      omega
  · rw [if_neg hwp]
    exact iff_of_true (ok_ne_error _ _) fun h => absurd h hwp

/-- The call divides by zero exactly if one of its divisors is zero. -/
theorem create_gpt_partition_table_divides (st : Settings) (k : ℕ) (ps : List Partition)
    (rand : ℕ → ℕ) :
    create_gpt_partition_table st k ps rand ≠ .error .zeroDivisionError ↔
      GptDivides st k ps rand := by
  rw [create_gpt_partition_table, bind_ne_error_iff, starting_wp_hash_divides, GptDivides]
  refine and_congr_right fun _ => ?_
  constructor
  · intro hne h j p s hh hp hs
    have hloop := (bind_ne_error_iff.mp (hne h hh)).1
    exact (add_partitions_divides k _ rand ps _).mp hloop j p s hp hs
  · intro hall h hh
    rw [bind_ne_error_iff]
    refine ⟨(add_partitions_divides k _ rand ps _).mpr fun j p s => hall h j p s hh,
      fun s _ => ?_⟩
    -- nothing after the loop divides
    rw [bind_ne_error_iff]
    refine ⟨write_protective_mbr_divides _ _, fun _ _ => ?_⟩
    rw [bind_ne_error_iff]
    refine ⟨write_primary_header_divides _ _ _, fun _ _ => ?_⟩
    rw [bind_ne_error_iff]
    refine ⟨make_backup_gpt_divides _ _, fun _ _ => ?_⟩
    rw [bind_ne_error_iff]
    exact ⟨write_gpt_divides _ _, fun _ _ => ok_ne_error _ _⟩

/-! ## One pass of the MBR loops

Writing a record divides by nothing. The passes for the primary partitions print an
alignment; those for the logical ones move to two boundaries.
-/

section MbrPass

variable {st : MbrSettings}

theorem or_raise_ne_error_iff {α : Type} {x : Except PyError α} {e : PyError} :
    or_raise x ≠ .error (.raised e) ↔ x ≠ .error e := by
  cases x with
  | error e' => simp only [or_raise, Except.mapError, ne_eq, Except.error.injEq, Ended.raised.injEq]
  | ok a => exact iff_of_true (ok_ne_error _ _) (ok_ne_error _ _)

theorem or_set_bytes_divides (img : List UInt8) (i : ℕ) (vs : List UInt8) :
    or_raise (set_bytes img i vs) ≠ .error (.raised .zeroDivisionError) :=
  or_raise_ne_error_iff.mpr (set_bytes_divides img i vs)

/-- Writing a record divides by nothing. -/
theorem update_partition_table_divides (bootable : Bool) (type : ℕ) (start_sector size : ℤ)
    (offset : ℕ) (record : List UInt8) :
    update_partition_table bootable type start_sector size offset record
      ≠ .error (.raised .zeroDivisionError) := by
  rw [update_partition_table, bind_ne_error_iff]
  constructor
  · rw [validate_type]
    split_ifs
    · exact ok_ne_error _ _
    · exact error_ne_error (by decide)
  · intro _ _
    rw [bind_ne_error_iff]
    refine ⟨or_set_bytes_divides _ _ _, fun _ _ => ?_⟩
    rw [bind_ne_error_iff]
    refine ⟨or_set_bytes_divides _ _ _, fun _ _ => ?_⟩
    rw [bind_ne_error_iff]
    exact ⟨or_set_bytes_divides _ _ _, fun _ _ => or_set_bytes_divides _ _ _⟩

theorem write_ebr_divides (p : MbrPartition) (last : Bool) (j : ℕ) (start_sector size : ℤ)
    (offset : ℕ) (ebr : List UInt8) :
    write_ebr p last j start_sector size offset ebr ≠ .error (.raised .zeroDivisionError) := by
  rw [write_ebr, bind_ne_error_iff]
  refine ⟨update_partition_table_divides _ _ _ _ _ _, fun _ _ => ?_⟩
  rw [bind_ne_error_iff]
  constructor
  · rw [write_link]
    split_ifs
    · exact update_partition_table_divides _ _ _ _ _ _
    · exact update_partition_table_divides _ _ _ _ _ _
  · intro _ _
    rw [bind_ne_error_iff]
    refine ⟨update_partition_table_divides _ _ _ _ _ _, fun _ _ => ?_⟩
    rw [bind_ne_error_iff]
    exact ⟨update_partition_table_divides _ _ _ _ _ _, fun _ _ => or_set_bytes_divides _ _ _⟩

theorem print_alignment_divides (hsector : HasSector st.toSettings st.write_protect_boundary_in_kb)
    (first_lba : ℤ) : print_alignment st first_lba ≠ .error .zeroDivisionError := by
  rw [print_alignment, if_neg]
  · exact ok_ne_error _ _
  · rintro ⟨hpos, -, hzero⟩
    have := hsector (by exact_mod_cast hpos)
    rw [wp_sectors] at hzero
    omega

theorem add_primary_divides (hsector : HasSector st.toSettings st.write_protect_boundary_in_kb)
    (k n j : ℕ) (p : MbrPartition) (s : MbrState) :
    add_primary st k n j p s ≠ .error (.raised .zeroDivisionError) := by
  rw [add_primary, bind_ne_error_iff, or_raise_ne_error_iff]
  refine ⟨print_alignment_divides hsector _, fun _ _ => ?_⟩
  rw [bind_ne_error_iff, or_raise_ne_error_iff]
  refine ⟨update_wp_hash_divides hsector _ _ _, fun _ _ => ?_⟩
  rw [bind_ne_error_iff]
  exact ⟨update_partition_table_divides _ _ _ _ _ _, fun _ _ => ok_ne_error _ _⟩

/-- Two boundaries are divided by, the second for a partition that is aligned. -/
theorem move_logical_divides {p : MbrPartition} (till first_lba end_sector : ℤ) :
    move_logical st p till first_lba end_sector ≠ .error .zeroDivisionError ↔
      (p.readonly = false → p.align = true → HasSector st.toSettings st.align_boundary_in_kb) := by
  rw [move_logical]
  by_cases hro : p.readonly = true
  · rw [if_pos hro]
    refine iff_of_true ?_ fun h => absurd hro (Bool.eq_false_iff.mp h)
    split_ifs
    · exact ok_ne_error _ _
    · exact ok_ne_error _ _
  · rw [if_neg hro, forall_prop_of_true (Bool.eq_false_iff.mpr hro)]
    by_cases halign : p.align = true
    · rw [if_pos halign, forall_prop_of_true halign,
        ← return_num_sectors_till_boundary_divides first_lba]
      cases return_num_sectors_till_boundary st.toSettings first_lba st.align_boundary_in_kb with
      | error e => simp only [ne_eq, Except.error.injEq]
      | ok d => exact iff_of_true (ok_ne_error _ _) (ok_ne_error _ _)
    · rw [if_neg halign]
      refine iff_of_true ?_ fun h => absurd h halign
      split_ifs
      · exact ok_ne_error _ _
      · exact ok_ne_error _ _

theorem unlock_last_readonly (last : Bool) (p : MbrPartition) :
    (unlock_last last p).readonly = false ↔ last = true ∨ p.readonly = false := by
  cases last <;> simp [unlock_last]

theorem add_logical_divides (hsector : HasSector st.toSettings st.write_protect_boundary_in_kb)
    (k n : ℕ) (begins : ℤ) (j : ℕ) (p : MbrPartition) (s : MbrState) :
    add_logical st k n begins j p s ≠ .error (.raised .zeroDivisionError) ↔
      LogicalDivides st (decide (j + 1 = n)) p := by
  have hplace : place_logical st (decide (j + 1 = n)) p s.cursor ≠ .error .zeroDivisionError ↔
      LogicalDivides st (decide (j + 1 = n)) p := by
    obtain ⟨till, htill⟩ := return_num_sectors_till_boundary_total s.cursor.first_lba hsector
    rw [place_logical, htill, ok_bind, bind_ne_error_iff, move_logical_divides,
      unlock_last_readonly]
    refine and_iff_left fun first_lba _ => ?_
    rw [bind_ne_error_iff]
    refine ⟨print_alignment_divides hsector _, fun _ _ => ?_⟩
    rw [bind_ne_error_iff]
    refine ⟨?_, fun _ _ => ok_ne_error _ _⟩
    rw [protect_logical]
    split_ifs
    · exact update_wp_hash_divides hsector _ _ _
    · exact ok_ne_error _ _
  rw [add_logical, bind_ne_error_iff, or_raise_ne_error_iff, hplace]
  refine and_iff_left fun x _ => ?_
  rw [bind_ne_error_iff]
  exact ⟨write_ebr_divides _ _ _ _ _ _ _, fun _ _ => ok_ne_error _ _⟩

end MbrPass

/-! ## Passes that return

Which passes the loop comes to depends on the earlier ones returning. For the MBR this can
be said outright: where a boundary has no sector, sectors are so large that every record has
room, and a pass whose divisions are right returns.
-/

section Returns

variable {st : MbrSettings}

/-- A boundary without a sector is one of a large sector. -/
theorem large_sector {st : Settings} {boundary_in_kb : ℤ} (hno : ¬ HasSector st boundary_in_kb) :
    1024 < st.sector_size_in_bytes := by
  rw [HasSector, Classical.not_imp] at hno
  obtain ⟨hpos, hzero⟩ := hno
  have hs : (0 : ℤ) < st.sector_size_in_bytes := by exact_mod_cast st.sector_size_pos
  have hnonneg := convert_kb_to_sectors_nonneg st hpos.le
  have hlt := Int.lt_ediv_add_one_mul_self (boundary_in_kb * 1024) hs
  rw [convert_kb_to_sectors] at hzero hnonneg
  have h0 : boundary_in_kb * 1024 / st.sector_size_in_bytes = 0 := by omega
  rw [h0] at hlt
  omega

theorem set_bytes_returns (img vs : List UInt8) (i : ℕ) (h : i + vs.length ≤ img.length) :
    ∃ img', set_bytes img i vs = .ok img' ∧ img'.length = img.length :=
  ⟨_, set_bytes_of_le h, length_overwrite_of_le h⟩

theorem length_set_slice_of_le {img vs : List UInt8} {i : ℕ} (h : i + vs.length ≤ img.length) :
    (set_slice img i vs).length = img.length := by
  rw [set_slice_of_le h, length_overwrite_of_le h]

theorem update_partition_table_returns (bootable : Bool) {type : ℕ} (start_sector size : ℤ)
    {offset : ℕ} {record : List UInt8} (htype : type ≤ 255)
    (hroom : offset + 16 ≤ record.length) :
    ∃ record', update_partition_table bootable type start_sector size offset record
      = .ok record' ∧ record'.length = record.length := by
  have hbyte : ∀ b : UInt8, ([b] : List UInt8).length = 1 := fun _ => rfl
  have hzeros : ([0, 0, 0] : List UInt8).length = 3 := rfl
  obtain ⟨r₁, h₁, l₁⟩ := set_bytes_returns record
    [if bootable then 0x80 else 0x00] offset (by rw [hbyte]; omega)
  have l₂ : (set_slice r₁ (offset + 1) [0, 0, 0]).length = record.length := by
    rw [length_set_slice_of_le (by rw [hzeros]; omega), l₁]
  obtain ⟨r₃, h₃, l₃⟩ := set_bytes_returns (set_slice r₁ (offset + 1) [0, 0, 0])
    [type.toUInt8] (offset + 4) (by rw [hbyte]; omega)
  have l₄ : (set_slice r₃ (offset + 5) [0, 0, 0]).length = record.length := by
    rw [length_set_slice_of_le (by rw [hzeros]; omega), l₃, l₂]
  obtain ⟨r₅, h₅, l₅⟩ := set_bytes_returns (set_slice r₃ (offset + 5) [0, 0, 0])
    (leBytes 4 start_sector) (offset + 8) (by rw [length_leBytes]; omega)
  obtain ⟨r₆, h₆, l₆⟩ := set_bytes_returns r₅ (leBytes 4 size) (offset + 12)
    (by rw [length_leBytes]; omega)
  refine ⟨r₆, ?_, by rw [l₆, l₅, l₄]⟩
  rw [update_partition_table, validate_type, if_pos htype, h₁]
  have hok : ∀ r : List UInt8, or_raise (.ok r) = .ok r := fun _ => rfl
  simp only [h₃, h₅, h₆, hok, ok_bind]

theorem print_alignment_returns (hsector : HasSector st.toSettings st.write_protect_boundary_in_kb)
    (first_lba : ℤ) : print_alignment st first_lba = .ok () := by
  rw [print_alignment, if_neg]
  rintro ⟨hpos, -, hzero⟩
  have := hsector (by exact_mod_cast hpos)
  rw [wp_sectors] at hzero
  omega

theorem add_primary_returns (hsector : HasSector st.toSettings st.write_protect_boundary_in_kb)
    (k n : ℕ) {j : ℕ} {p : MbrPartition} {s : MbrState} (htype : p.type ≤ 255)
    (hroom : 0x1BE + j * 16 + 16 ≤ s.mbr.length) :
    ∃ s', add_primary st k n j p s = .ok s' ∧ s'.mbr.length = s.mbr.length := by
  obtain ⟨h, hh⟩ := update_wp_hash_total s.cursor.hash_w s.cursor.first_lba
    (convert_kb_to_sectors st.toSettings p.size_in_kb)
    fun hpos => hsector (by exact_mod_cast hpos)
  obtain ⟨mbr, hmbr, -⟩ := update_partition_table_returns p.bootable s.cursor.first_lba
    (convert_kb_to_sectors st.toSettings p.size_in_kb) htype hroom
  obtain ⟨s', hs'⟩ : ∃ s', add_primary st k n j p s = .ok s' := by
    rw [add_primary]
    dsimp only
    rw [print_alignment_returns hsector, hh]
    simp only [or_raise, Except.mapError, ok_bind, hmbr]
    exact ⟨_, rfl⟩
  obtain ⟨hash_w, -, -, rfl⟩ := add_primary_spec hs'
  refine ⟨_, hs', ?_⟩
  dsimp only
  rw [length_overwrite_of_le (by rw [length_record_bytes]; exact hroom)]

theorem write_ebr_returns {p : MbrPartition} (last : Bool) (j : ℕ) (start_sector size : ℤ)
    (offset : ℕ) (ebr : List UInt8) (htype : p.type ≤ 255) (hroom : offset + 0x200 ≤ ebr.length) :
    ∃ ebr', write_ebr p last j start_sector size offset ebr = .ok ebr' ∧
      ebr'.length = ebr.length := by
  obtain ⟨e₁, h₁, l₁⟩ := update_partition_table_returns p.bootable start_sector size htype
    (show offset + 0x1BE + 16 ≤ ebr.length by omega)
  obtain ⟨e₂, h₂, l₂⟩ : ∃ e₂, write_link last j (offset + 0x1BE + 16) e₁ = .ok e₂ ∧
      e₂.length = e₁.length := by
    rw [write_link]
    split_ifs
    · exact update_partition_table_returns _ _ _ (by decide) (by omega)
    · exact update_partition_table_returns _ _ _ (by decide) (by omega)
  obtain ⟨e₃, h₃, l₃⟩ := update_partition_table_returns false 0 0 (show 0 ≤ 255 by decide)
    (show offset + 0x1BE + 32 + 16 ≤ e₂.length by omega)
  obtain ⟨e₄, h₄, l₄⟩ := update_partition_table_returns false 0 0 (show 0 ≤ 255 by decide)
    (show offset + 0x1BE + 48 + 16 ≤ e₃.length by omega)
  have htwo : ([0x55, 0xAA] : List UInt8).length = 2 := rfl
  obtain ⟨e₅, h₅, l₅⟩ := set_bytes_returns e₄ [0x55, 0xAA] (offset + 0x1BE + 64)
    (by rw [htwo]; omega)
  refine ⟨e₅, ?_, by omega⟩
  rw [write_ebr, h₁, ok_bind, h₂, ok_bind, h₃, ok_bind, h₄, ok_bind, h₅]
  rfl

theorem place_logical_returns (hsector : HasSector st.toSettings st.write_protect_boundary_in_kb)
    {last : Bool} {p : MbrPartition} (c : MbrCursor) (hdivides : LogicalDivides st last p) :
    ∃ r, place_logical st last p c = .ok r := by
  obtain ⟨till, htill⟩ := return_num_sectors_till_boundary_total c.first_lba hsector
  obtain ⟨first_lba, hmove⟩ : ∃ first_lba, move_logical st (unlock_last last p) till c.first_lba
      c.hash_w.current.end_sector = .ok first_lba := by
    rw [move_logical]
    by_cases hro : (unlock_last last p).readonly = true
    · rw [if_pos hro]
      split_ifs <;> exact ⟨_, rfl⟩
    · rw [if_neg hro]
      by_cases halign : (unlock_last last p).align = true
      · -- only here is the align boundary divided by
        have hwritable := (unlock_last_readonly last p).mp (Bool.eq_false_iff.mpr hro)
        obtain ⟨d, hd⟩ := return_num_sectors_till_boundary_total c.first_lba
          (hdivides hwritable halign)
        rw [if_pos halign, hd]
        exact ⟨_, rfl⟩
      · rw [if_neg halign]
        split_ifs <;> exact ⟨_, rfl⟩
  obtain ⟨hash_w, hhash⟩ : ∃ hash_w, protect_logical st (unlock_last last p) c.hash_w first_lba
      (logical_size st last (unlock_last last p)) = .ok hash_w := by
    rw [protect_logical]
    split_ifs
    · exact update_wp_hash_total _ _ _ fun hpos => hsector (by exact_mod_cast hpos)
    · exact ⟨_, rfl⟩
  rw [place_logical, htill, ok_bind]
  dsimp only
  rw [hmove, ok_bind, print_alignment_returns hsector, ok_bind, hhash, ok_bind]
  exact ⟨_, rfl⟩

/-- A pass for a logical partition returns, if its divisions have sectors, and leaves room in the
array of the EBRs. -/
theorem add_logical_returns (hsector : HasSector st.toSettings st.write_protect_boundary_in_kb)
    (hlarge : 0x200 ≤ st.sector_size_in_bytes) (k n : ℕ) (begins : ℤ) {j : ℕ} {p : MbrPartition}
    {s : MbrState} (htype : p.type ≤ 255) (hroom : s.offset ≤ s.ebr.length)
    (hdivides : LogicalDivides st (decide (j + 1 = n)) p) :
    ∃ s', add_logical st k n begins j p s = .ok s' ∧ s'.offset ≤ s'.ebr.length := by
  obtain ⟨⟨x, c⟩, hplace⟩ := place_logical_returns hsector s.cursor hdivides
  obtain ⟨ebr, hebr, -⟩ := write_ebr_returns (decide (j + 1 = n)) j
    (x.first_lba - begins - s.ebr_offset) x.sectors s.offset
    (s.ebr ++ List.replicate st.sector_size_in_bytes 0) htype
    (by rw [List.length_append, List.length_replicate]; omega)
  obtain ⟨s', hs'⟩ : ∃ s', add_logical st k n begins j p s = .ok s' := by
    rw [add_logical]
    dsimp only
    rw [hplace]
    simp only [or_raise, Except.mapError, ok_bind, hebr]
    exact ⟨_, rfl⟩
  obtain ⟨x', c', hplace', -, hfit, rfl⟩ := add_logical_spec hs'
  refine ⟨_, hs', ?_⟩
  have hin := ebr_records_fit hfit p (decide (j + 1 = n)) j (x'.first_lba - begins - s.ebr_offset)
    x'.sectors
  dsimp only
  rw [length_overwrite_of_le hin, List.length_append, List.length_replicate]
  exact hfit

end Returns

/-! ## The call for an MBR

The passes put together, for up to four partitions and for more. The condition is on the
list alone, since every partition is come to whose predecessors have types of one byte.
-/

section MbrCall

variable {st : MbrSettings}

/-- With a boundary of no sectors the first partition is behind the empty region. -/
theorem create_master_boot_record_divides (k n : ℕ) (ps : List MbrPartition) :
    create_master_boot_record st k n ps ≠ .error (.raised .zeroDivisionError) ↔
      (ps ≠ [] → HasSector st.toSettings st.write_protect_boundary_in_kb) := by
  have hempty : empty_mbr st ≠ .error .zeroDivisionError := by
    rw [empty_mbr, bind_ne_error_iff]
    exact ⟨set_bytes_divides _ _ _, fun _ _ => ok_ne_error _ _⟩
  rw [create_master_boot_record, bind_ne_error_iff, or_raise_ne_error_iff]
  constructor
  · rintro ⟨-, hloop⟩ hne
    by_contra hno
    have hlarge := large_sector hno
    -- the first pass comes to `UpdateWPhash`, and that divides for its new region
    obtain ⟨p, ps, rfl⟩ := List.exists_cons_of_ne_nil hne
    obtain ⟨mbr, hmbr⟩ : ∃ mbr, empty_mbr st = .ok mbr := by
      rw [empty_mbr, set_bytes_of_le]
      · exact ⟨_, rfl⟩
      · rw [List.length_reverse, length_leBytes, List.length_replicate]
        omega
    have hloop := hloop mbr (by rw [hmbr]; rfl)
    rw [add_primaries_eq_passes, passes_cons, bind_ne_error_iff, add_primary,
      bind_ne_error_iff, or_raise_ne_error_iff] at hloop
    obtain ⟨⟨hprint, hupdate⟩, -⟩ := hloop
    have hprinted : or_raise (print_alignment st 1) = .ok () := by
      rw [print_alignment] at hprint ⊢
      split_ifs with hzero
      · exact absurd (if_pos hzero) hprint
      · rfl
    have hupdate := (bind_ne_error_iff.mp (hupdate () hprinted)).1
    rw [or_raise_ne_error_iff] at hupdate
    refine hupdate (update_wp_hash_new_region hno ?_)
    obtain ⟨hpos, hw⟩ := wp_sectors_eq_zero hno
    have hkb : ¬ (st.write_protect_boundary_in_kb = 0 ∨
        st.output_is_gpt = true ∧ ¬ st.write_protect_gpt_partition_table = true) := by
      rintro (h0 | ⟨hgpt, -⟩)
      · omega
      · rw [st.output_is_not_gpt] at hgpt
        exact absurd hgpt (by decide)
    dsimp only [initial_wp_hash]
    rw [if_neg hkb, hw]
    decide
  · intro hsector
    refine ⟨hempty, fun mbr _ => ?_⟩
    rw [add_primaries_eq_passes, passes_ne_error_iff]
    intro i p t hp _
    exact add_primary_divides (hsector fun hnil => by rw [hnil] at hp; cases hp) _ _ _ _ _

/-- Only a partition whose type is a byte has a record. -/
theorem create_master_boot_record_types {k n : ℕ} {ps : List MbrPartition} {s : MbrState}
    (h : create_master_boot_record st k n ps = .ok s) : ∀ p ∈ ps, p.type ≤ 255 := by
  intro p hp
  obtain ⟨mbr, -, h⟩ := create_master_boot_record_spec h
  rw [add_primaries_eq_passes] at h
  obtain ⟨i, t, t', hpass⟩ := passes_pass h hp
  unfold add_primary at hpass
  obtain ⟨-, -, hpass⟩ := bind_ok hpass
  obtain ⟨hash_w, -, hpass⟩ := bind_ok hpass
  obtain ⟨record, htable, hpass⟩ := bind_ok hpass
  exact (update_partition_table_spec htable).1

/-- With large sectors the boot record has room for the records, and the call returns. -/
theorem create_master_boot_record_returns
    (hsector : HasSector st.toSettings st.write_protect_boundary_in_kb)
    (hlarge : 1024 < st.sector_size_in_bytes) (k n : ℕ) {ps : List MbrPartition}
    (hfew : ps.length ≤ 4) (htypes : ∀ p ∈ ps, p.type ≤ 255) :
    ∃ s, create_master_boot_record st k n ps = .ok s ∧ 1024 < s.mbr.length ∧ s.offset = 0 := by
  obtain ⟨mbr, hmbr, hlen⟩ : ∃ mbr, empty_mbr st = .ok mbr ∧ 1024 < mbr.length := by
    obtain ⟨img, himg, hlen⟩ := set_bytes_returns
      (List.replicate st.sector_size_in_bytes 0) (leBytes 4 st.disk_signature).reverse 440
      (by rw [List.length_reverse, length_leBytes, List.length_replicate]; omega)
    rw [List.length_replicate] at hlen
    rw [empty_mbr, himg]
    refine ⟨_, rfl, ?_⟩
    have htwo : ([0x55, 0xAA] : List UInt8).length = 2 := rfl
    rw [length_set_slice_of_le (by rw [htwo]; omega), hlen]
    exact hlarge
  have hdivides : add_primaries st k n 0 ps (starting_mbr_state st mbr)
      ≠ .error (.raised .zeroDivisionError) := by
    rw [add_primaries_eq_passes, passes_ne_error_iff]
    exact fun _ _ _ _ _ => add_primary_divides hsector _ _ _ _ _
  rw [add_primaries_eq_passes] at hdivides
  -- the records of four partitions end before 1024
  have hstep : ∀ i p (t : MbrState), ps[i]? = some p → 1024 < t.mbr.length →
      add_primary st k n (0 + i) p t ≠ .error (.raised .zeroDivisionError) →
      ∃ t', add_primary st k n (0 + i) p t = .ok t' ∧ 1024 < t'.mbr.length := by
    intro i p t hp hI _
    have hi := (List.getElem?_eq_some_iff.mp hp).1
    have htype := htypes p (List.mem_of_getElem? hp)
    obtain ⟨t', ht', hlen'⟩ := add_primary_returns hsector k n htype
      (show 0x1BE + (0 + i) * 16 + 16 ≤ t.mbr.length by omega)
    exact ⟨t', ht', by omega⟩
  obtain ⟨s, hs, hroom⟩ := passes_returns (fun _ t => 1024 < t.mbr.length) hstep hlen hdivides
  rw [← add_primaries_eq_passes] at hs
  refine ⟨s, ?_, hroom, add_primaries_offset hs⟩
  rw [create_master_boot_record, hmbr]
  exact hs

section Extended

variable {k n : ℕ} {ps : List MbrPartition} {s : MbrState}
  (hsector : HasSector st.toSettings st.write_protect_boundary_in_kb)

include hsector

/-- The passes for the logical partitions divide by the align boundary only, beside the write
protection. -/
theorem create_extended_boot_records_divides
    (hall : ∀ i p, ps[i]? = some p → (∀ q ∈ ps.take i, q.type ≤ 255) →
      LogicalDivides st (decide (3 + i + 1 = n)) p) :
    create_extended_boot_records st k n ps s ≠ .error (.raised .zeroDivisionError) := by
  rw [create_extended_boot_records, bind_ne_error_iff]
  refine ⟨update_partition_table_divides _ _ _ _ _ _, fun _ _ => ?_⟩
  rw [bind_ne_error_iff, or_raise_ne_error_iff]
  refine ⟨update_wp_hash_divides hsector _ _ _, fun _ _ => ?_⟩
  rw [add_logicals_eq_passes, passes_ne_error_iff]
  intro i p t hp hrun
  rw [add_logical_divides hsector]
  refine hall i p hp fun q hq => ?_
  obtain ⟨i', u, u', hpass⟩ := passes_pass hrun hq
  obtain ⟨x, c, -, htype, -⟩ := add_logical_spec hpass
  exact htype

/-- A large sector has room for the EBRs, so every partition is come to. -/
theorem logical_divides_of_extended (hlarge : 1024 < st.sector_size_in_bytes)
    (hroom : 1024 < s.mbr.length) (hoffset : s.offset = 0)
    (hne : create_extended_boot_records st k n ps s ≠ .error (.raised .zeroDivisionError)) {i : ℕ}
    {p : MbrPartition} (hp : ps[i]? = some p) (htypes : ∀ q ∈ ps.take i, q.type ≤ 255) :
    LogicalDivides st (decide (3 + i + 1 = n)) p := by
  rw [create_extended_boot_records] at hne
  obtain ⟨mbr, hmbr, -⟩ := update_partition_table_returns false s.cursor.first_lba
    (extended_length st s.cursor.first_lba) (show 5 ≤ 255 by decide)
    (show 0x1EE + 16 ≤ s.mbr.length by omega)
  have hne := (bind_ne_error_iff.mp hne).2 mbr hmbr
  obtain ⟨hash_w, hhash⟩ := update_wp_hash_total s.cursor.hash_w s.cursor.first_lba ps.length
    fun hpos => hsector (by exact_mod_cast hpos)
  have hne := (bind_ne_error_iff.mp hne).2 hash_w (by rw [hhash]; rfl)
  rw [add_logicals_eq_passes] at hne
  -- the partitions before it have their EBRs
  have hstep : ∀ (i' : ℕ) q (t : MbrState), (ps.take i)[i']? = some q → t.offset ≤ t.ebr.length →
      add_logical st k n s.cursor.first_lba (3 + i') q t ≠ .error (.raised .zeroDivisionError) →
      ∃ t', add_logical st k n s.cursor.first_lba (3 + i') q t = .ok t' ∧
        t'.offset ≤ t'.ebr.length := by
    intro i' q t hq hI hpass
    have hdivides := (add_logical_divides hsector _ _ _ _ _ _).mp hpass
    exact add_logical_returns hsector (by omega) k n s.cursor.first_lba
      (htypes q (List.mem_of_getElem? hq)) hI hdivides
  obtain ⟨t, ht, -⟩ := passes_returns (fun _ t => t.offset ≤ t.ebr.length) hstep
    (by rw [hoffset]; exact Nat.zero_le _) (passes_take_ne_error hne i)
  exact (add_logical_divides hsector _ _ _ _ _ _).mp (passes_ne_error_iff.mp hne i p t hp ht)

end Extended

/-- The call divides by zero exactly if one of the boundaries it uses has no sector. -/
theorem create_mbr_partition_table_divides (st : MbrSettings) (k : ℕ) (ps : List MbrPartition) :
    create_mbr_partition_table st k ps ≠ .error (.raised .zeroDivisionError) ↔
      MbrDivides st ps := by
  have hnil : ps ≠ [] ↔ (if ps.length ≤ 4 then ps else ps.take 3) ≠ [] := by
    split_ifs with hn
    · exact Iff.rfl
    · rw [ne_eq, ne_eq, List.take_eq_nil_iff]
      simp
  rw [create_mbr_partition_table, MbrDivides]
  dsimp only
  rw [bind_ne_error_iff, create_master_boot_record_divides, ← hnil]
  refine and_congr_right fun hsector => ?_
  by_cases hn : ps.length ≤ 4
  · refine iff_of_true (fun s _ => ?_) fun hmany => absurd hmany (by omega)
    rw [if_pos hn]
    exact ok_ne_error _ _
  · have hmany : 4 < ps.length := by omega
    have hsector := hsector fun h => by
      rw [h] at hmany
      exact absurd hmany (by decide)
    have htake : ∀ i, ps.take (3 + i) = ps.take 3 ++ (ps.drop 3).take i := fun i => List.take_add
    rw [if_neg hn, forall_prop_of_true hmany]
    constructor
    · -- with a sector too large for the boundary everything before `j` returns
      intro hne j p hj hp htypes
      obtain ⟨i, rfl⟩ := Nat.exists_eq_add_of_le hj
      rw [htake] at htypes
      intro hwritable halign
      by_contra hno
      have hlarge := large_sector hno
      obtain ⟨s, hs, hroom, hoffset⟩ := create_master_boot_record_returns hsector hlarge k ps.length
        (show (ps.take 3).length ≤ 4 by rw [List.length_take]; omega)
        fun q hq => htypes q (List.mem_append_left _ hq)
      have hne := hne s hs
      rw [if_neg hn, bind_ne_error_iff] at hne
      refine hno (logical_divides_of_extended hsector hlarge hroom hoffset hne.1 (i := i) ?_
        (fun q hq => htypes q (List.mem_append_right _ hq)) hwritable halign)
      rw [List.getElem?_drop]
      exact hp
    · intro hall s hs
      rw [if_neg hn, bind_ne_error_iff]
      refine ⟨create_extended_boot_records_divides hsector fun i p hp htypes => ?_,
        fun _ _ => ok_ne_error _ _⟩
      rw [List.getElem?_drop] at hp
      refine hall (3 + i) p (by omega) hp fun q hq => ?_
      rw [htake] at hq
      rcases List.mem_append.mp hq with hq | hq
      · exact create_master_boot_record_types hs q hq
      · exact htypes q hq

end MbrCall

/-! ## The two tables

Both functions, and the loops of `UpdateWPhash`, in one statement. The example has a
boundary of half a sector, which passes every check on kilobytes.
-/

/-- A call of `UpdateWPhash` ends: it divides by a boundary without sectors, or it returns and
what its loop waited for has come about. -/
def UpdateEnds (st : Settings) (h : WPHash) (start size : ℤ) : Prop :=
  update_wp_hash st h start size = .error .zeroDivisionError ∨
    ∃ h', update_wp_hash st h start size = .ok h' ∧
      (0 < st.write_protect_boundary_in_kb → ¬ h'.current.end_sector < start + size - 1)

theorem update_wp_hash_ends (st : Settings) (h : WPHash) (start size : ℤ) :
    UpdateEnds st h start size := by
  by_cases hsector : HasSector st st.write_protect_boundary_in_kb
  · obtain ⟨h', hh'⟩ := update_wp_hash_total h start size
      fun hpos => hsector (by exact_mod_cast hpos)
    refine .inr ⟨h', hh', fun hpos => ?_⟩
    have hw : 0 < wp_sectors st := hsector (by exact_mod_cast hpos)
    obtain ⟨-, -, hgrown⟩ | ⟨-, -, hgrown⟩ := update_wp_hash_cases hh' hw
    · exact not_lt.mpr hgrown.reaches
    · exact not_lt.mpr hgrown.reaches
  · obtain ⟨hpos, hw⟩ := wp_sectors_eq_zero hsector
    rw [UpdateEnds, update_wp_hash]
    dsimp only
    rw [if_neg (by omega), if_pos hw, if_pos hw]
    -- without a sector the first pass divides, if there is one
    split_ifs with hcover hshort
    · exact .inl rfl
    · exact .inr ⟨h, rfl, fun _ => hshort⟩
    · exact .inl rfl

/-- **The layout divides by zero exactly if a boundary it divides by is less than a sector, and
the loops of the write protection end.** -/
theorem layout_finishes_iff (st : Settings) (mst : MbrSettings) (k : ℕ) (ps : List Partition)
    (mps : List MbrPartition) (rand : ℕ → ℕ) (h : WPHash) (start size : ℤ) :
    (create_gpt_partition_table st k ps rand ≠ .error .zeroDivisionError ↔
        GptDivides st k ps rand) ∧
      (create_mbr_partition_table mst k mps ≠ .error (.raised .zeroDivisionError) ↔
        MbrDivides mst mps) ∧
      UpdateEnds st h start size :=
  ⟨create_gpt_partition_table_divides st k ps rand, create_mbr_partition_table_divides mst k mps,
    update_wp_hash_ends st h start size⟩

/-- Sectors of 4096 bytes, and a boundary of 2 KB, which is half a sector. -/
def half_sector_settings : Settings :=
  { large_sector_settings with write_protect_boundary_in_kb := 2 }

/-- The distance to that boundary is a remainder by zero, and the call raises. -/
theorem half_sector_raises :
    create_gpt_partition_table half_sector_settings 0 [default_partition 0] (fun j => j)
      = .error .zeroDivisionError := by
  rfl

end AndroidTools.Ptool
