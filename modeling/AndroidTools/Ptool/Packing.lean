/-
The GPT layout is a packing.

A successful layout goes through the list with a cursor that never moves back: each range starts
at or after the cursor, and the cursor then stands one past the range. With sizes that are not
negative this makes the ranges consecutive and disjoint, whatever moves the boundaries cause.
`Packed` is that invariant, and `packed_step` the one pass.

The `<program>` elements of a partition follow its range: the one for an offset inside the
partition ends where the partition ends. Sizes and offsets are numbers of a document and may be
negative; for offsets the element is then written as it comes out, which is a distance from the
end of the disk where the sum is below zero. With a negative size the ranges may overlap.
-/
import AndroidTools.Ptool.GptImage
import AndroidTools.Ptool.Separation

set_option autoImplicit false

namespace AndroidTools.Ptool

open AndroidTools.Boundary

/-- The ranges placed so far come in order, from sector 34 on and without overlap, and the cursor
is behind them. -/
structure Packed (placed : List Extent) (c : Cursor) : Prop where
  first_ge : 34 ≤ c.first_lba
  till_nonneg : 0 ≤ c.sectors_till_next_boundary
  ordered : placed.Pairwise fun x y => x.last_lba < y.first_lba
  starts : ∀ x ∈ placed, 34 ≤ x.first_lba
  behind : ∀ x ∈ placed, x.last_lba < c.first_lba

/-- One pass adds a range after the others and leaves the cursor behind it. -/
theorem packed_step {st : Settings} {last : Bool} {p : Partition} {c m c' : Cursor}
    {placed : List Extent} (hI : Packed placed c) (hp : PlacedFrom st last p c m c')
    (hn : 0 ≤ convert_kb_to_sectors st (placed_size_in_kb st last p)) :
    Packed (placed ++ [c'.extent]) (next_partition c') := by
  have hfirst := hp.first_le
  have hlast := hp.last_eq
  have hge := hI.first_ge
  refine ⟨?_, ?_, ?_, ?_, ?_⟩
  · dsimp only [next_partition]
    omega
  · dsimp only [next_partition]
    rw [hp.till_kept]
    exact hp.till_nonneg
  -- all placed so far ends before the cursor, and the cursor does not move down
  · rw [List.pairwise_append]
    refine ⟨hI.ordered, List.pairwise_singleton _ _, fun x hx y hy => ?_⟩
    rw [List.mem_singleton.mp hy]
    exact (hI.behind x hx).trans_le hfirst
  · intro x hx
    rcases List.mem_append.mp hx with hx | hx
    · exact hI.starts x hx
    · rw [List.mem_singleton.mp hx]
      exact hge.trans hfirst
  · intro x hx
    dsimp only [next_partition]
    rcases List.mem_append.mp hx with hx | hx
    · have := hI.behind x hx
      omega
    · rw [List.mem_singleton.mp hx]
      dsimp only [Cursor.extent]
      omega

/-- Sizes that are not negative, that of a partition that grows left aside. -/
theorem placed_packed {st : Settings} {k : ℕ} {ps : List Partition} {rand : ℕ → ℕ}
    {out : GptTables} (hout : create_gpt_partition_table st k ps rand = .ok out)
    (hsize : ∀ j p, ps[j]? = some p → ¬ grown st ps.length j →
      0 ≤ convert_kb_to_sectors st p.size_in_kb) :
    ∃ c, Packed out.placed c := by
  obtain ⟨hash_w, s, img, -, hs, -, -, -, -, -, hplaced, -, -⟩ :=
    create_gpt_partition_table_spec hout
  refine ⟨s.cursor, ?_⟩
  rw [hplaced]
  refine add_partitions_invariant (fun _ t => Packed t.placed t.cursor)
    (fun i p t t' hp hI ht => ?_) ?_ hs
  · obtain ⟨c, hplace, -, rfl⟩ := add_partition_spec ht
    obtain ⟨m, hm⟩ := place_partition_spec hI.till_nonneg hplace
    apply packed_step hI hm
    rw [Nat.zero_add]
    by_cases hg : grown st ps.length i
    · rw [placed_size_of_grown hg, convert_kb_to_sectors_zero]
    · rw [placed_size_of_not_grown hg]
      exact hsize i p hp hg
  · exact ⟨le_rfl, le_rfl, List.Pairwise.nil, by simp [starting_state], by simp [starting_state]⟩

/-- A partition of fixed size has the sectors of its size. -/
theorem fixed_extent {st : Settings} {k : ℕ} {ps : List Partition} {rand : ℕ → ℕ}
    {out : GptTables} (hout : create_gpt_partition_table st k ps rand = .ok out) {j : ℕ}
    {p : Partition} {x : Extent} (hp : ps[j]? = some p) (hx : out.placed[j]? = some x)
    (hg : ¬ grown st ps.length j) :
    x.last_lba - x.first_lba + 1 = convert_kb_to_sectors st p.size_in_kb := by
  obtain ⟨hash_w, s, img, -, hs, -, -, -, -, -, hplaced, -, -⟩ :=
    create_gpt_partition_table_spec hout
  rw [hplaced] at hx
  obtain ⟨c, m, c', hm, rfl⟩ := add_partitions_placed hs hp hx
  have hlast := hm.last_eq
  rw [placed_size_of_not_grown hg] at hlast
  dsimp only [Cursor.extent]
  omega

/-- The two numbers of an element with a positive count. The sector is written as it is, or
counted from the end of the disk where it is negative. -/
theorem update_raw_program_get (st : Settings) (k : ℕ) (start_sector : ℤ) {num : ℤ} (offset : ℤ)
    (filename sparse label : String) (hn : 0 < num) :
    (update_raw_program st k start_sector offset num filename sparse label).get? "start_sector"
        = some (start_sector_text start_sector) ∧
      (update_raw_program st k start_sector offset num filename sparse label).get?
        "num_partition_sectors" = some (toString num) := by
  have h : ¬ num ≤ 0 := by omega
  simp only [update_raw_program, XmlElement.get?, if_neg h]
  exact ⟨rfl, rfl⟩

/-- A size of -5 KB, which `int()` accepts, moves the cursor back: the third range
overlaps the first. -/
theorem negative_size_overlaps : ∃ out,
    SettingsUsable plain_settings (sized_partitions [10, -5, 10]) ∧
      create_gpt_partition_table plain_settings 0 (sized_partitions [10, -5, 10]) (fun j => j)
        = .ok out ∧
      ¬ out.placed.Pairwise (fun x y => Disjoint x.sectors y.sectors) := by
  obtain ⟨out, hout⟩ := plain_run [10, -5, 10] (by decide)
  refine ⟨out, plain_settings_usable _, hout, ?_⟩
  have heval : layout_partitions plain_settings 3 0 (sized_partitions [10, -5, 10])
      ⟨34, 34, 0, ⟨[], empty_region⟩⟩
      = .ok (⟨64, 64, 0, ⟨[], empty_region⟩⟩, [⟨34, 53⟩, ⟨54, 43⟩, ⟨44, 63⟩]) := rfl
  rw [placed_of_layout hout rfl heval]
  intro hpair
  have hdisj := (List.pairwise_cons.mp hpair).1 ⟨44, 63⟩ (by simp)
  exact Set.disjoint_left.mp hdisj (show (44 : ℤ) ∈ Set.Icc 34 53 by decide)
    (show (44 : ℤ) ∈ Set.Icc 44 63 by decide)

/-- One partition of 10 KB with a file 40 sectors before its start. -/
def file_before_partition : List Partition :=
  [{ default_partition 0xEBD0A0A2 with
    size_in_kb := 10
    files := [⟨"boot.img", 0, -40, "false"⟩]
    files_ne_nil := List.cons_ne_nil _ _ }]

/-- An offset of -40 sectors, which `int()` accepts too, leaves the partition at sector 34 and
its element at the sixth sector before the end of the disk. -/
theorem negative_offset_from_end : ∃ out,
    SettingsUsable plain_settings file_before_partition ∧
      create_gpt_partition_table plain_settings 0 file_before_partition (fun j => j) = .ok out ∧
      ∃ p x f, file_before_partition[0]? = some p ∧ out.placed[0]? = some x ∧ f ∈ p.files ∧
        f.filepartitionoffset < convert_kb_to_sectors plain_settings p.size_in_kb ∧
        x.first_lba + f.filepartitionoffset = -6 ∧
        (program_element plain_settings 0 p x f).get? "start_sector"
          = some "NUM_DISK_SECTORS-6." := by
  have husable : SettingsUsable plain_settings file_before_partition :=
    ⟨fun h => absurd h (by decide), fun h => absurd h (by decide), by decide⟩
  obtain ⟨out, hout⟩ := create_gpt_partition_table_total (by decide) 0 (fun j => j) husable
    (by decide) (by decide)
  have heval : layout_partitions plain_settings 1 0 file_before_partition
      ⟨34, 34, 0, ⟨[], empty_region⟩⟩
      = .ok (⟨54, 54, 0, ⟨[], empty_region⟩⟩, [⟨34, 53⟩]) := rfl
  have hplaced := placed_of_layout hout rfl heval
  refine ⟨out, husable, hout, _, ⟨34, 53⟩, ⟨"boot.img", 0, -40, "false"⟩, rfl, by rw [hplaced]; rfl,
    by decide, by decide, by decide, rfl⟩

end AndroidTools.Ptool
