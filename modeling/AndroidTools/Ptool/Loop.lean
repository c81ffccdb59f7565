/-
Rules for the layout loop.

`add_partition_spec` is the one place where a pass of the loop is taken apart: a successful pass
placed the partition and wrote one entry inside the image. `add_partitions_invariant` is the
induction over the passes, and `add_partitions_shape` says what the loop appends to its lists: one
range for each partition, its `<program>` elements, and the patches of a last partition that
grows.

For a whole call the same is done once, in `create_gpt_partition_table_spec`. The later modules
start from these lemmas and never unfold the loop or the call: what is in the images, where the
partitions lie, and what the documents say are three separate readings of the same pass.
-/
import AndroidTools.Ptool.Table

set_option autoImplicit false

namespace AndroidTools.Ptool

open AndroidTools.Bytes AndroidTools.Crc32 AndroidTools.Passes

/-! ## One pass

A pass of the loop places the partition, makes its entry and writes the bytes of the entry
into the image. The last of these can fail, and `add_partition_spec` has what is known when
it did not.
-/

theorem set_bytes_ok {img img' vs : List UInt8} {i : ℕ} (h : set_bytes img i vs = .ok img') :
    i + vs.length ≤ img.length ∧ img' = overwrite img i vs := by
  unfold set_bytes at h
  split_ifs at h with hle
  cases h
  exact ⟨hle, rfl⟩

theorem set_bytes_of_le {img vs : List UInt8} {i : ℕ} (h : i + vs.length ≤ img.length) :
    set_bytes img i vs = .ok (overwrite img i vs) := if_pos h

theorem length_short_label (p : Partition) : (short_label p).length ≤ 36 := by
  rw [short_label, List.length_take]
  exact Nat.min_le_left _ _

@[simp] theorem length_label_bytes (p : Partition) : (label_bytes p).length = 72 := by
  have hlen := length_short_label p
  have hpairs : ∀ l : List Char,
      (l.flatMap (fun c => [c.toNat.toUInt8, 0])).length = 2 * l.length := by
    intro l
    induction l with
    | nil => rfl
    | cons c l ih =>
      rw [List.flatMap_cons, List.length_append, ih]
      simp only [List.length_cons, List.length_nil]
      omega
  rw [label_bytes, List.length_append, hpairs, List.length_replicate]
  omega

theorem length_partition_entry (p : Partition) (guid : ℕ) (x : Extent) :
    (partition_entry p guid x (label_bytes p)).length = 128 := by
  simp only [partition_entry, List.length_append, length_leBytes, length_label_bytes]

/-- All a successful pass does: the partition is placed, its entry is inside the image, and this
is the state it leaves. -/
theorem add_partition_spec {st : Settings} {k n j : ℕ} {rand : ℕ → ℕ} {p : Partition}
    {s s' : TableState} (h : add_partition st k n rand j p s = .ok s') :
    ∃ c, place_partition st (decide (j + 1 = n)) p s.cursor = .ok c ∧
      entry_offset st j s.i + 128 ≤ s.primary_gpt.length ∧
      s' = {
        cursor := next_partition c
        i := entry_offset st j s.i + 128
        primary_gpt := overwrite s.primary_gpt (entry_offset st j s.i)
          (partition_entry p (unique_partition_guid st rand j p) c.extent (label_bytes p))
        wide := s.wide ++ wide_positions p (entry_offset st j s.i)
        rawprogram := s.rawprogram ++ p.files.map (program_element st k p c.extent)
        patches := s.patches ++
          if decide (j + 1 = n) && st.grow_last_partition_to_fill_disk
          then last_partition_patches st k j p else []
        placed := s.placed ++ [c.extent]
        entry_offsets := s.entry_offsets ++ [entry_offset st j s.i] } := by
  unfold add_partition at h
  obtain ⟨c, hc, h⟩ := bind_ok h
  obtain ⟨img, himg, h⟩ := bind_ok h
  obtain ⟨hle, rfl⟩ := set_bytes_ok himg
  rw [length_partition_entry] at hle
  cases h
  exact ⟨c, hc, hle, rfl⟩

/-! ## The run

The loop is an instance of the library's loop of passes. What it appends to its lists
follows by that library's induction, from the state a pass leaves.
-/

/-- The layout loop as a loop of passes, for which the library has the rules. -/
theorem add_partitions_eq_passes {st : Settings} (k n : ℕ) (rand : ℕ → ℕ) (j : ℕ)
    (ps : List Partition) (s : TableState) :
    add_partitions st k n rand j ps s = passes (add_partition st k n rand) j ps s := by
  induction ps generalizing j s with
  | nil => rfl
  | cons p ps ih =>
    rw [add_partitions, passes_cons]
    exact bind_congr fun t => ih (j + 1) t

/-- An invariant kept by every pass holds when the loop ends. -/
theorem add_partitions_invariant {st : Settings} {k n : ℕ} {rand : ℕ → ℕ}
    (I : ℕ → TableState → Prop) {ps : List Partition} {j : ℕ} {s s' : TableState}
    (hstep : ∀ i p t t', ps[i]? = some p → I (j + i) t →
      add_partition st k n rand (j + i) p t = .ok t' → I (j + i + 1) t')
    (hs : I j s) (h : add_partitions st k n rand j ps s = .ok s') : I (j + ps.length) s' := by
  rw [add_partitions_eq_passes] at h
  exact passes_invariant I hstep hs h

/-- Pairing the list with one more range pairs the next partition with it. -/
theorem zip_concat {α β : Type*} {ps : List α} {xs : List β} {p : α} {x : β} {j : ℕ}
    (hp : ps[j]? = some p) (hx : xs.length = j) :
    ps.zip (xs ++ [x]) = ps.zip xs ++ [(p, x)] := by
  induction xs generalizing ps j with
  | nil =>
    cases ps with
    | nil => simp at hp
    | cons q qs =>
      subst hx
      simp at hp
      simp [hp]
  | cons y ys ih =>
    cases ps with
    | nil => simp at hp
    | cons q qs =>
      subst hx
      simp only [List.length_cons, List.getElem?_cons_succ] at hp
      simp [ih hp rfl]

/-- The patches a loop over the rest of the list emits. -/
def growing_patches (st : Settings) (k j : ℕ) (ps : List Partition) : List XmlElement :=
  match ps.getLast? with
  | some p =>
    if st.grow_last_partition_to_fill_disk
    then last_partition_patches st k (j + ps.length - 1) p else []
  | none => []

/-- The `<program>` elements of the partitions that were placed, in their order. -/
def program_elements (st : Settings) (k : ℕ) (placed : List (Partition × Extent)) :
    List XmlElement :=
  placed.flatMap fun px => px.1.files.map (program_element st k px.1 px.2)

/-- What the loop appends to its lists: ranges, `<program>` elements, and the patches of a last
partition that grows. -/
theorem add_partitions_shape {st : Settings} {k n : ℕ} {rand : ℕ → ℕ} {ps : List Partition}
    {j : ℕ} {s s' : TableState} (hn : j + ps.length = n)
    (h : add_partitions st k n rand j ps s = .ok s') :
    ∃ xs : List Extent, xs.length = ps.length ∧ s'.placed = s.placed ++ xs ∧
      s'.rawprogram = s.rawprogram ++ program_elements st k (ps.zip xs) ∧
      s'.patches = s.patches ++ growing_patches st k j ps := by
  induction ps generalizing j s with
  | nil =>
    cases h
    exact ⟨[], rfl, by simp, by simp [program_elements], by simp [growing_patches]⟩
  | cons p ps ih =>
    obtain ⟨t, ht, h⟩ := bind_ok h
    obtain ⟨c, -, -, rfl⟩ := add_partition_spec ht
    rw [List.length_cons] at hn
    obtain ⟨xs, hlen, hplaced, hraw, hpatch⟩ := ih (by omega) h
    refine ⟨c.extent :: xs, by simp [hlen], by simp [hplaced], ?_, ?_⟩
    · rw [hraw]
      simp [program_elements]
    · rw [hpatch, List.append_assoc]
      congr 1
      -- the patches come from the pass whose partition is the last one
      cases ps with
      | nil =>
        have hlast : j + 1 = n := by simpa using hn
        have hprev : n - 1 = j := by omega
        simp [growing_patches, hlast, hprev]
      | cons q qs =>
        have hmid : ¬ j + 1 = n := by
          rw [List.length_cons] at hn
          omega
        have hidx : j + 1 + (q :: qs).length - 1 = j + (p :: q :: qs).length - 1 := by
          simp only [List.length_cons]
          omega
        simp only [hmid, decide_false, Bool.false_and, if_false, List.nil_append, growing_patches,
          List.getLast?_cons_cons, hidx, Bool.false_eq_true]

/-- The cursor and the ranges are those of the layout alone. -/
theorem add_partitions_layout {st : Settings} {k n : ℕ} {rand : ℕ → ℕ} {ps : List Partition}
    {j : ℕ} {s s' : TableState} (h : add_partitions st k n rand j ps s = .ok s') :
    ∃ xs, layout_partitions st n j ps s.cursor = .ok (s'.cursor, xs) ∧
      s'.placed = s.placed ++ xs := by
  induction ps generalizing j s with
  | nil =>
    cases h
    exact ⟨[], rfl, by simp⟩
  | cons p ps ih =>
    obtain ⟨t, ht, h⟩ := bind_ok h
    obtain ⟨c, hplace, -, rfl⟩ := add_partition_spec ht
    obtain ⟨xs, hlayout, hplaced⟩ := ih h
    refine ⟨c.extent :: xs, ?_, by simp [hplaced]⟩
    rw [layout_partitions, hplace, ok_bind, hlayout]
    rfl

/-- Every range of the loop comes from a placement of its partition. -/
theorem add_partitions_placed {st : Settings} {k n : ℕ} {rand : ℕ → ℕ} {ps : List Partition}
    {h : WPHash} {s : TableState}
    (hs : add_partitions st k n rand 0 ps (starting_state st h) = .ok s) {j : ℕ} {p : Partition}
    {x : Extent} (hp : ps[j]? = some p) (hx : s.placed[j]? = some x) :
    ∃ c m c', PlacedFrom st (decide (j + 1 = n)) p c m c' ∧ x = c'.extent := by
  have hrun := add_partitions_invariant
    (fun i t => 0 ≤ t.cursor.sectors_till_next_boundary ∧ t.placed.length = i ∧
      ∀ j p x, ps[j]? = some p → t.placed[j]? = some x →
        ∃ c m c', PlacedFrom st (decide (j + 1 = n)) p c m c' ∧ x = c'.extent)
    (fun i q t t' hq hI ht => ?_) ?_ hs
  · exact hrun.2.2 j p x hp hx
  · rw [Nat.zero_add] at hI ht ⊢
    obtain ⟨htill, hlen, hI⟩ := hI
    obtain ⟨c, hplace, -, rfl⟩ := add_partition_spec ht
    obtain ⟨m, hm⟩ := place_partition_spec htill hplace
    refine ⟨by dsimp only [next_partition]; rw [hm.till_kept]; exact hm.till_nonneg,
      by simp [hlen], fun j p x hp hx => ?_⟩
    dsimp only at hx
    -- the entries before this pass, its own, and none behind
    rcases Nat.lt_trichotomy j i with hj | hj | hj
    · rw [List.getElem?_append_left (by omega)] at hx
      exact hI j p x hp hx
    · subst hj
      rw [List.getElem?_append_right (by omega), hlen, Nat.sub_self] at hx
      rw [hp] at hq
      cases hq
      cases hx
      exact ⟨t.cursor, m, c, hm, rfl⟩
    · have hout : (t.placed ++ [c.extent]).length ≤ j := by
        rw [List.length_append, hlen, List.length_singleton]
        omega
      rw [List.getElem?_eq_none hout] at hx
      cases hx
  · exact ⟨le_rfl, rfl, by simp [starting_state]⟩

/-! ## The call

The call begins with the cursor behind the table and goes on to the backup behind the last
partition. What it returns is put together from the state at the end of the loop.
-/

/-- What a successful call went through, step by step. -/
theorem create_gpt_partition_table_spec {st : Settings} {k : ℕ} {ps : List Partition}
    {rand : ℕ → ℕ} {out : GptTables} (h : create_gpt_partition_table st k ps rand = .ok out) :
    ∃ hash_w s img, starting_wp_hash st = .ok hash_w ∧
      add_partitions st k ps.length rand 0 ps (starting_state st hash_w) = .ok s ∧
      write_protective_mbr st s.primary_gpt = .ok img ∧
      write_primary_header st ps.length img = .ok out.primary_gpt ∧
      make_backup_gpt st out.primary_gpt = .ok out.backup_gpt ∧
      out.rawprogram = s.rawprogram ++ table_elements st k ∧
      out.patches = s.patches ++ header_patches st k ps.length ∧
      out.placed = s.placed ∧ out.entry_offsets = s.entry_offsets ∧
      out.hash_w = s.cursor.hash_w ∧ write_gpt st s.wide = .ok () := by
  unfold create_gpt_partition_table at h
  obtain ⟨hash_w, hhash, h⟩ := bind_ok h
  obtain ⟨s, hs, h⟩ := bind_ok h
  obtain ⟨img, himg, h⟩ := bind_ok h
  obtain ⟨primary, hprimary, h⟩ := bind_ok h
  obtain ⟨backup, hbackup, h⟩ := bind_ok h
  obtain ⟨⟨⟩, hwrite, h⟩ := bind_ok h
  cases h
  exact ⟨hash_w, s, img, hhash, hs, himg, hprimary, hbackup, rfl, rfl, rfl, rfl, rfl, hwrite⟩

theorem create_gpt_partition_table_layout {st : Settings} {k : ℕ} {ps : List Partition}
    {rand : ℕ → ℕ} {out : GptTables} (h : create_gpt_partition_table st k ps rand = .ok out) :
    ∃ hash_w c, starting_wp_hash st = .ok hash_w ∧
      layout_partitions st ps.length 0 ps ⟨34, 34, 0, hash_w⟩ = .ok (c, out.placed) ∧
      out.hash_w = c.hash_w := by
  obtain ⟨hash_w, s, img, hhash, hs, -, -, -, -, -, hplaced, -, hhw, -⟩ :=
    create_gpt_partition_table_spec h
  obtain ⟨xs, hlayout, hxs⟩ := add_partitions_layout hs
  rw [hplaced, hxs]
  exact ⟨hash_w, s.cursor, hhash, hlayout, hhw⟩

/-- The ranges of a call whose layout is known. -/
theorem placed_of_layout {st : Settings} {k : ℕ} {ps : List Partition} {rand : ℕ → ℕ}
    {out : GptTables} (hout : create_gpt_partition_table st k ps rand = .ok out) {h : WPHash}
    {c : Cursor} {placed : List Extent} (hhash : starting_wp_hash st = .ok h)
    (hlayout : layout_partitions st ps.length 0 ps ⟨34, 34, 0, h⟩ = .ok (c, placed)) :
    out.placed = placed := by
  obtain ⟨h', c', hhash', hlayout', -⟩ := create_gpt_partition_table_layout hout
  obtain rfl : h = h' := Except.ok.inj (hhash.symm.trans hhash')
  exact congrArg Prod.snd (Except.ok.inj (hlayout'.symm.trans hlayout))

/-- The documents of a call, from the ranges it printed. -/
theorem create_gpt_partition_table_shape {st : Settings} {k : ℕ} {ps : List Partition}
    {rand : ℕ → ℕ} {out : GptTables} (h : create_gpt_partition_table st k ps rand = .ok out) :
    out.placed.length = ps.length ∧
      out.rawprogram = program_elements st k (ps.zip out.placed) ++ table_elements st k ∧
      out.patches = growing_patches st k 0 ps ++ header_patches st k ps.length := by
  obtain ⟨hash_w, s, img, -, hs, -, -, -, hraw, hpatch, hplaced, -, -⟩ :=
    create_gpt_partition_table_spec h
  obtain ⟨xs, hlen, hxs, hsraw, hspatch⟩ := add_partitions_shape (by simp) hs
  have hxs' : out.placed = xs := by
    rw [hplaced, hxs]
    rfl
  refine ⟨by rw [hxs', hlen], ?_, ?_⟩
  · rw [hraw, hsraw, hxs']
    rfl
  · rw [hpatch, hspatch]
    rfl

end AndroidTools.Ptool
