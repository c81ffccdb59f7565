/-
The program of one image is a sealed program.

What `gpt_fields` does to one of the two images is: its fields that depend on the disk size, then
the seal of its header (`image_ops_eq`). The array CRC covers the array of that image, the header
CRC its own 92 bytes; so `sealed_field`, `sealed_body`, `sealed_header` and `sealed_rerun` say
what a pass of patches leaves in the image.

`patched` is the image after such a pass. Its numbers read back, its two CRCs are right for the
bytes that it ends with, and a second pass for another disk size leaves what it would have left on
the image as it came from `ptool.py`. That the seal is proper, with its checksums outside the body
and clear of each other, is the one thing that has to be looked up in the layout of the header.
-/
import AndroidTools.Lib.Sealed
import AndroidTools.Pipeline.GptPatches

set_option autoImplicit false

namespace AndroidTools.Pipeline

open AndroidTools.Bytes AndroidTools.Crc AndroidTools.FieldPatch AndroidTools.Ptool

/-! ## Fields and seal of an image

The same updates, sorted by image: first the numbers, in any order, and then the two
checksums in theirs. A header is in a different sector of each image, and so is the array.
-/

/-- The sector of the image that holds its header. -/
def GptImage.header_sector : GptImage → ℕ
  | main => 1
  | backup => 32

/-- The sector of the image at which its array begins. -/
def GptImage.array_sector : GptImage → ℕ
  | main => 2
  | backup => 0

/-- The end of the last entry, as a field of the image. -/
def GptImage.growing_field (st : Settings) (n : ℕ) (t : GptImage) : GptField where
  image := t
  sector := t.array_sector + (40 + (n - 1) * 128) / st.sector_size_in_bytes
  offset := (40 + (n - 1) * 128) % st.sector_size_in_bytes
  width := 8
  value := .from_end 34

/-- The sector numbers in the header of the image: `LastUsableLBA`, then the other
header's place, or the header's own place and that of its array. -/
def GptImage.header_numbers : GptImage → List GptField
  | main => [⟨.main, 1, 48, 8, .from_end 34⟩, ⟨.main, 1, 32, 8, .from_end 1⟩]
  | backup => [⟨.backup, 32, 48, 8, .from_end 34⟩, ⟨.backup, 32, 24, 8, .from_end 1⟩,
      ⟨.backup, 32, 72, 8, .from_end 33⟩]

/-- The fields of the image that depend on the disk size. -/
def GptImage.numbers (st : Settings) (n : ℕ) (t : GptImage) : List GptField :=
  (if st.grow_last_partition_to_fill_disk then [t.growing_field st n] else [])
    ++ t.header_numbers

/-- The seal of the image's header: the CRC of its array, and the CRC of its own bytes. -/
def GptImage.seal (st : Settings) (n : ℕ) (t : GptImage) : Seal where
  body := t.array_sector * st.sector_size_in_bytes
  body_length := num_partitions st n * size_of_partition_array
  body_field := t.header_sector * st.sector_size_in_bytes + 88
  header := t.header_sector * st.sector_size_in_bytes
  header_length := 92
  own_field := t.header_sector * st.sector_size_in_bytes + 16
  width := 4

section Program

variable {st : Settings} {n : ℕ} {last : ℕ → ℤ}

/-- The updates of one image, in their order, are its numbers and then its seal. -/
theorem image_ops_eq (t : GptImage) :
    ((gpt_ops st n last).filter (·.1 = t)).map (·.2)
      = (t.numbers st n).map (GptField.op st.sector_size_in_bytes last) ++ (t.seal st n).ops := by
  unfold gpt_ops gpt_fields GptImage.numbers
  cases t with
  | main =>
    split_ifs with hgrow
    · simp [growing_fields, header_updates, GptImage.growing_field, GptImage.header_numbers,
        GptImage.array_sector, GptImage.header_sector, GptImage.seal, Seal.ops, GptField.op]
    · simp [header_updates, GptImage.header_numbers, GptImage.array_sector,
        GptImage.header_sector, GptImage.seal, Seal.ops, GptField.op]
  | backup =>
    split_ifs with hgrow
    · simp [growing_fields, header_updates, GptImage.growing_field, GptImage.header_numbers,
        GptImage.array_sector, GptImage.header_sector, GptImage.seal, Seal.ops, GptField.op]
    · simp [header_updates, GptImage.header_numbers, GptImage.array_sector,
        GptImage.header_sector, GptImage.seal, Seal.ops, GptField.op]

theorem GptField.Inside.inBounds {f : GptField} (h : f.Inside st.sector_size_in_bytes) :
    (f.op st.sector_size_in_bytes last).InBounds (f.image.size st.sector_size_in_bytes) := by
  obtain ⟨image, sector, offset, width, value⟩ := f
  obtain ⟨hsector, hoffset, -, -, hvalue⟩ := h
  dsimp only at hsector hoffset hvalue
  have hin : (sector + 1) * st.sector_size_in_bytes ≤ image.sectors * st.sector_size_in_bytes :=
    Nat.mul_le_mul_right _ hsector
  rw [Nat.add_mul] at hin
  refine ⟨?_, ?_⟩
  · simp only [GptField.op, GptImage.size]
    omega
  · cases value with
    | from_end k => trivial
    | zero => trivial
    | crc a len =>
      obtain ⟨-, -, m, -, -, hlen, ha⟩ := hvalue
      have hread : (a + m) * st.sector_size_in_bytes ≤ image.sectors * st.sector_size_in_bytes :=
        Nat.mul_le_mul_right _ ha
      rw [Nat.add_mul] at hread
      simp only [GptField.op, GptImage.size]
      omega

variable (last) in
theorem gpt_ops_inBounds (hs : 512 ∣ st.sector_size_in_bytes) (hn : n ≤ 128) :
    ∀ op ∈ gpt_ops st n last, op.2.InBounds (op.1.size st.sector_size_in_bytes) := by
  intro op hop
  obtain ⟨f, hf, rfl⟩ := List.mem_map.mp hop
  exact (gpt_fields_inside hs hn f hf).inBounds

variable (last) in
theorem image_ops_inBounds (hs : 512 ∣ st.sector_size_in_bytes) (hn : n ≤ 128) (t : GptImage) :
    ∀ op ∈ (t.numbers st n).map (GptField.op st.sector_size_in_bytes last) ++ (t.seal st n).ops,
      op.InBounds (t.size st.sector_size_in_bytes) := by
  rw [← image_ops_eq]
  intro op hop
  obtain ⟨top, htop, rfl⟩ := List.mem_map.mp hop
  obtain ⟨hmem, htag⟩ := List.mem_filter.mp htop
  have hin := gpt_ops_inBounds last hs hn top hmem
  rwa [of_decide_eq_true htag] at hin

/-! ## The seal is proper

What the library asks of a seal: the checksums are outside the body and do not overlap, and
the fields are clear of both. With the offsets of a GPT header this is arithmetic.
-/

theorem seal_proper (hs : 512 ≤ st.sector_size_in_bytes) (hn : n ≤ 128) (t : GptImage) :
    (t.seal st n).Proper := by
  have hnp := num_partitions_le st hn
  have hlen : num_partitions st n * size_of_partition_array ≤ 32 * 512 := by
    rw [size_of_partition_array]
    omega
  cases t with
  | main =>
    refine ⟨Or.inr ?_, Or.inr ?_, Or.inr ?_⟩ <;>
      simp only [GptImage.seal, GptImage.header_sector, GptImage.array_sector] <;> omega
  | backup =>
    refine ⟨Or.inl ?_, Or.inl ?_, Or.inr ?_⟩ <;>
      simp only [GptImage.seal, GptImage.header_sector, GptImage.array_sector] <;> omega

variable (st n last) in
/-- The field for the end of the last entry, by its byte in the image. -/
theorem growing_field_dst (t : GptImage) :
    ((t.growing_field st n).op st.sector_size_in_bytes last).dst
      = t.array_sector * st.sector_size_in_bytes + (40 + (n - 1) * 128) := by
  simp only [GptImage.growing_field, GptField.op]
  rw [Nat.add_mul, Nat.add_assoc, Nat.div_add_mod']

theorem numbers_field (hs : 512 ≤ st.sector_size_in_bytes) (hn : n ≤ 128) (t : GptImage) :
    ∀ op ∈ (t.numbers st n).map (GptField.op st.sector_size_in_bytes last),
      (t.seal st n).Field op := by
  have hheader : ∀ f ∈ t.header_numbers,
      (t.seal st n).Field (f.op st.sector_size_in_bytes last) := by
    cases t with
    | main =>
      simp only [GptImage.header_numbers, List.forall_mem_cons, List.not_mem_nil, false_implies,
        implies_true, and_true]
      refine ⟨⟨⟨_, rfl⟩, Or.inl ?_, Or.inr ?_⟩, ⟨⟨_, rfl⟩, Or.inl ?_, Or.inr ?_⟩⟩ <;>
        simp only [GptField.op, GptImage.seal, GptImage.header_sector] <;> omega
    | backup =>
      simp only [GptImage.header_numbers, List.forall_mem_cons, List.not_mem_nil, false_implies,
        implies_true, and_true]
      refine ⟨⟨⟨_, rfl⟩, Or.inl ?_, Or.inr ?_⟩, ⟨⟨_, rfl⟩, Or.inl ?_, Or.inr ?_⟩,
        ⟨⟨_, rfl⟩, Or.inl ?_, Or.inr ?_⟩⟩ <;>
        simp only [GptField.op, GptImage.seal, GptImage.header_sector] <;> omega
  -- the entry that grows is in the array, away from the header
  have hgrowing : (t.seal st n).Field
      ((t.growing_field st n).op st.sector_size_in_bytes last) := by
    have hdst := growing_field_dst st n last t
    refine ⟨⟨_, rfl⟩, ?_, ?_⟩ <;> rw [hdst] <;> cases t
    · refine Or.inr ?_
      simp only [GptImage.seal, GptImage.header_sector, GptImage.array_sector]
      omega
    · refine Or.inl ?_
      simp only [GptField.op, GptImage.growing_field, GptImage.seal, GptImage.header_sector,
        GptImage.array_sector]
      omega
    · refine Or.inr ?_
      simp only [GptImage.seal, GptImage.header_sector, GptImage.array_sector]
      omega
    · refine Or.inl ?_
      simp only [GptField.op, GptImage.growing_field, GptImage.seal, GptImage.header_sector,
        GptImage.array_sector]
      omega
  intro op hop
  obtain ⟨f, hf, rfl⟩ := List.mem_map.mp hop
  rcases List.mem_append.mp hf with hf | hf
  · split_ifs at hf with hgrow
    · rw [List.mem_singleton.mp hf]
      exact hgrowing
    · cases hf
  · exact hheader f hf

/-- The fields for the numbers do not overlap. -/
theorem numbers_pairwise (hs : 512 ≤ st.sector_size_in_bytes) (hn : n ≤ 128) (t : GptImage) :
    ((t.numbers st n).map (GptField.op st.sector_size_in_bytes last)).Pairwise
      fun o o' => Apart o.dst o.width o'.dst o'.width := by
  have hheader : (t.header_numbers.map (GptField.op st.sector_size_in_bytes last)).Pairwise
      fun o o' => Apart o.dst o.width o'.dst o'.width := by
    cases t <;>
      simp only [GptImage.header_numbers, List.map_cons, List.map_nil, List.pairwise_cons,
        List.forall_mem_cons, List.not_mem_nil, false_implies, implies_true, and_true,
        List.Pairwise.nil, GptField.op, Apart] <;> omega
  rw [GptImage.numbers, List.map_append, List.pairwise_append]
  refine ⟨by split_ifs <;> simp, hheader, fun o ho o' ho' => ?_⟩
  split_ifs at ho with hgrow
  · rw [List.map_singleton, List.mem_singleton] at ho
    subst ho
    have hdst := growing_field_dst st n last t
    obtain ⟨f, hf, rfl⟩ := List.mem_map.mp ho'
    rw [hdst]
    -- the main array lies above its header, the backup array below
    cases t with
    | main =>
      refine Or.inr ?_
      simp only [GptImage.header_numbers, List.mem_cons, List.not_mem_nil, or_false] at hf
      rcases hf with rfl | rfl <;> simp only [GptField.op, GptImage.array_sector] <;> omega
    | backup =>
      refine Or.inl ?_
      simp only [GptImage.header_numbers, List.mem_cons, List.not_mem_nil, or_false] at hf
      rcases hf with rfl | rfl | rfl <;>
        simp only [GptField.op, GptImage.growing_field, GptImage.array_sector] <;> omega
  · simp at ho

/-! ## A patched image

`patched` as a function of the image and of the numbers that sectors counted from the end
have. Its lemmas say what every byte of it is, so no later proof runs the program.
-/

/-- The image `img` after a pass in which a sector counted from the end has the
number `last` gives it. -/
def patched (st : Settings) (n : ℕ) (last : ℕ → ℤ) (t : GptImage) (img : List UInt8) :
    List UInt8 :=
  runOps crc32 ((t.numbers st n).map (GptField.op st.sector_size_in_bytes last)
    ++ (t.seal st n).ops) img

/-- What is patched depends only on the sectors before the end of the disk, not on sector `N`
itself. -/
theorem patched_congr {last' : ℕ → ℤ} (h : ∀ j, 0 < j → last j = last' j) (t : GptImage)
    (img : List UInt8) : patched st n last t img = patched st n last' t img := by
  have hops : (t.numbers st n).map (GptField.op st.sector_size_in_bytes last)
      = (t.numbers st n).map (GptField.op st.sector_size_in_bytes last') := by
    apply List.map_congr_left
    intro f hf
    have hvalue : ∃ j, f.value = .from_end j ∧ 0 < j := by
      rcases List.mem_append.mp hf with hf | hf
      · split_ifs at hf with hgrow
        · rw [List.mem_singleton.mp hf]
          exact ⟨34, rfl, by decide⟩
        · cases hf
      · cases t <;>
          simp only [GptImage.header_numbers, List.mem_cons, List.not_mem_nil, or_false] at hf
        · rcases hf with rfl | rfl <;> exact ⟨_, rfl, by decide⟩
        · rcases hf with rfl | rfl | rfl <;> exact ⟨_, rfl, by decide⟩
    obtain ⟨j, hj, hpos⟩ := hvalue
    simp only [GptField.op, hj, h j hpos]
  rw [patched, patched, hops]

theorem runTagged_eq_patched (fs : GptImage → List UInt8) (t : GptImage) :
    runTagged crc32 (gpt_ops st n last) fs t = patched st n last t (fs t) := by
  rw [runTagged_apply, image_ops_eq, patched]

section Patched

variable (last) {t : GptImage} {img : List UInt8} (hs : 512 ∣ st.sector_size_in_bytes)
  (hn : n ≤ 128) (hlen : img.length = t.size st.sector_size_in_bytes)

include hs hn hlen

theorem length_patched : (patched st n last t img).length = img.length :=
  length_runOps crc32 (by rw [hlen]; exact image_ops_inBounds last hs hn t)

/-- In a patched image every number reads back. -/
theorem slice_patched_number {f : GptField} (hf : f ∈ t.numbers st n) {k : ℕ}
    (hk : f.value = .from_end k) :
    slice (patched st n last t img) (f.sector * st.sector_size_in_bytes + f.offset) f.width
      = leBytes f.width (last k) := by
  have h512 := Nat.le_of_dvd st.sector_size_pos hs
  refine sealed_field crc32 (numbers_field h512 hn t) (numbers_pairwise h512 hn t)
    (by rw [hlen]; exact image_ops_inBounds last hs hn t)
    (List.mem_map.mpr ⟨f, hf, rfl⟩ : f.op st.sector_size_in_bytes last ∈ _) ?_
  simp only [GptField.op, hk]

/-- In a patched image the array CRC is that of the array in it. -/
theorem slice_patched_array_crc :
    slice (patched st n last t img) (t.header_sector * st.sector_size_in_bytes + 88) 4
      = leBytes 4 (crc32 (slice (patched st n last t img)
          (t.array_sector * st.sector_size_in_bytes)
          (num_partitions st n * size_of_partition_array))) :=
  sealed_body crc32 (seal_proper (Nat.le_of_dvd st.sector_size_pos hs) hn t)
    (by rw [hlen]; exact image_ops_inBounds last hs hn t)

/-- In a patched image the header CRC is that of the header in it, with zeros in its own place. -/
theorem slice_patched_header_crc :
    slice (patched st n last t img) (t.header_sector * st.sector_size_in_bytes + 16) 4
      = leBytes 4 (crc32 ((t.seal st n).zeroed (patched st n last t img))) :=
  sealed_header crc32 (by rw [hlen]; exact image_ops_inBounds last hs hn t)

/-- What is neither a number nor a CRC is as in the image. -/
theorem slice_patched_of_apart {pos len : ℕ}
    (hnumbers : ∀ f ∈ t.numbers st n,
      Apart pos len (f.sector * st.sector_size_in_bytes + f.offset) f.width)
    (harray : Apart pos len (t.header_sector * st.sector_size_in_bytes + 88) 4)
    (hheader : Apart pos len (t.header_sector * st.sector_size_in_bytes + 16) 4) :
    slice (patched st n last t img) pos len = slice img pos len := by
  refine slice_runOps_of_disjoint crc32 (by rw [hlen]; exact image_ops_inBounds last hs hn t) ?_
  intro op hop
  rcases List.mem_append.mp hop with hop | hop
  · obtain ⟨f, hf, rfl⟩ := List.mem_map.mp hop
    exact hnumbers f hf
  · simp only [Seal.ops, GptImage.seal, List.mem_cons, List.not_mem_nil, or_false] at hop
    rcases hop with rfl | rfl | rfl
    · exact harray
    · exact hheader
    · exact hheader

/-- **A pass leaves no trace of an earlier one**, whatever size that was for. -/
theorem patched_patched (last' : ℕ → ℤ) :
    patched st n last t (patched st n last' t img) = patched st n last t img := by
  have h512 := Nat.le_of_dvd st.sector_size_pos hs
  refine sealed_rerun crc32 (seal_proper h512 hn t) (numbers_field h512 hn t) ?_
    (by rw [hlen]; exact image_ops_inBounds _ hs hn t)
    (by rw [hlen]; exact image_ops_inBounds _ hs hn t)
  rw [List.forall₂_map_left_iff, List.forall₂_map_right_iff, List.forall₂_same]
  exact fun f _ => ⟨rfl, rfl⟩

end Patched

end Program

end AndroidTools.Pipeline
