/-
`Armv7LPAEMMU`: translating an address through long-descriptor page tables.

The model of the class comes first, then the walk of the architecture, which works on table
addresses and indices. All lookups use the split `n` of the initial level, and an index wider than
its field runs over into bits that the table's base leaves zero, so every descriptor is read from
where the architecture reads it. What differs is the output address of a 2 MB block below a
first-level table: `initial_block_split` is 12 there, and bits 39:12 are stored above bit 21.

The class is modelled with its registers and fields, down to the assignment that does not mask its
operand. The proof goes level by level: the address of a descriptor first, then the leaf, then
what is made of the leaf, which is the only place where the two part.
-/
import AndroidTools.Ramdump.Register

set_option autoImplicit false

namespace AndroidTools.Ramdump

/-! ## The class

The constructor, the descriptors and the lookups as the source has them. A mapping keeps its
descriptor and the address it was given; the attributes are read from the descriptor.
-/

/-- An instance after its constructor. `read_dword addr virtual` is the descriptor
stored at an address, or `None`. -/
structure Armv7LPAEMMU where
  read_dword : ℕ → Bool → Option ℕ
  pgtbl : ℕ
  virt_for_fl : Bool
  initial_lkup_level : ℕ
  initial_block_split : ℕ
  input_addr_split : ℕ

/-- `__init__`; `none` is the `ValueError` about `txsz`. -/
def lpae_mmu (read_dword : ℕ → Bool → Option ℕ) (pgtbl : ℕ) (txsz : ℤ) (virt_for_fl : Bool) :
    Option Armv7LPAEMMU :=
  if 30 < 32 - txsz then
    let n := 5 - txsz
    if n = 4 ∨ n = 5 then some ⟨read_dword, pgtbl, virt_for_fl, 1, 12, n.toNat⟩ else none
  else
    let n := 14 - txsz
    if 7 ≤ n ∧ n < 13 then some ⟨read_dword, pgtbl, virt_for_fl, 2, 21, n.toNat⟩ else none

/-- `LeafMapping`: a descriptor with the size and the address of what it maps; the attributes are
fields of the descriptor. -/
structure LeafMapping where
  descriptor : ℕ
  page_size : ℕ
  phys : ℕ
  deriving Repr, DecidableEq

/-- `LeafMapping.__init__`, the descriptor's `output_address` being the field `out`. -/
def leaf_mapping (virt_r descriptor page_size n : ℕ) (out : BitRange) : LeafMapping :=
  let p := write_field 0 (39, n) (read_field descriptor out)
  let rest := read_field virt_r (n - 1, 0)
  let p := write_field p (n - 1, 0) (read_field p (n - 1, 0) ||| rest)
  ⟨descriptor, page_size, p⟩

/-- What the lookup at a level returns: a `LeafMapping` or a `TableMapping`. -/
inductive MappingInfo where
  | leaf (m : LeafMapping)
  | table (next_table_addr : ℕ)
  deriving Repr, DecidableEq

def sz_1g : ℕ := 0x40000000
def sz_2m : ℕ := 0x200000
def sz_4k : ℕ := 0x1000

/-- `FLBlockMapping`, of 1 GB. -/
def fl_block_mapping (virt_r descriptor : ℕ) (out : BitRange) : LeafMapping :=
  leaf_mapping virt_r descriptor sz_1g 30 out

/-- `SLBlockMapping`, of 2 MB. -/
def sl_block_mapping (virt_r descriptor : ℕ) (out : BitRange) : LeafMapping :=
  leaf_mapping virt_r descriptor sz_2m 21 out

/-- `TLPageMapping`, of 4 KB. -/
def tl_page_mapping (virt_r descriptor : ℕ) (out : BitRange) : LeafMapping :=
  leaf_mapping virt_r descriptor sz_4k 12 out

namespace Armv7LPAEMMU

variable (mmu : Armv7LPAEMMU)

/-- The address of the descriptor that `do_level_lookup` reads. -/
def descriptor_addr (table_base_address table_index : ℕ) : ℕ :=
  let n := mmu.input_addr_split
  let addr := write_field 0 (39, n) (read_field table_base_address (39, n))
  write_field addr (n - 1, 3) table_index

/-- `do_level_lookup`: the value of the descriptor, if it can be read. -/
def do_level_lookup (table_base_address table_index : ℕ) (virtual : Bool) : Option ℕ :=
  mmu.read_dword (mmu.descriptor_addr table_base_address table_index) virtual

/-- The field `dtype` of a descriptor, its two lowest bits. -/
def dtype (descriptor : ℕ) : ℕ := read_field descriptor (1, 0)

/-- `do_fl_sl_level_lookup`: a block descriptor (`inl`) or a table descriptor
(`inr`); `none` is `LookupExceptionFLSL`. -/
def do_fl_sl_level_lookup (table_base_address table_index : ℕ) (virtual : Bool) :
    Option (ℕ ⊕ ℕ) :=
  match mmu.do_level_lookup table_base_address table_index virtual with
  | none => none
  | some descriptor =>
    if dtype descriptor = 1 then some (.inl descriptor)
    else if dtype descriptor = 3 then some (.inr descriptor)
    else none

/-- `do_tl_level_lookup`; `none` is `LookupExceptionTL`. -/
def do_tl_level_lookup (table_base_address table_index : ℕ) : Option ℕ :=
  match mmu.do_level_lookup table_base_address table_index false with
  | none => none
  | some descriptor => if dtype descriptor = 3 then some descriptor else none

/-- `base.value`, with `next_level_base_addr_upper` in `base`. -/
def next_table_addr (descriptor : ℕ) : ℕ := write_field 0 (39, 12) (read_field descriptor (39, 12))

/-- `translate_first_level`: a block, a table, or nothing. -/
def translate_first_level (virt_r : ℕ) : Option MappingInfo :=
  let fl_index := read_field virt_r (mmu.input_addr_split + 26, 30)
  (mmu.do_fl_sl_level_lookup mmu.pgtbl fl_index mmu.virt_for_fl).map fun
    | .inl fl_desc => .leaf (fl_block_mapping virt_r fl_desc (39, 30))
    | .inr fl_desc => .table (next_table_addr fl_desc)

/-- `translate_second_level`, `sl_index` being the field `sl` of `virt_r`. -/
def translate_second_level (virt_r : ℕ) (sl : BitRange) (level2_table_addr : ℕ) :
    Option MappingInfo :=
  (mmu.do_fl_sl_level_lookup level2_table_addr (read_field virt_r sl) false).map fun
    | .inl sl_desc => .leaf (sl_block_mapping virt_r sl_desc (39, mmu.initial_block_split))
    | .inr sl_desc => .table (next_table_addr sl_desc)

/-- `translate_third_level`: a page, or nothing. -/
def translate_third_level (virt_r level3_table_addr : ℕ) : Option LeafMapping :=
  (mmu.do_tl_level_lookup level3_table_addr (read_field virt_r (20, 12))).map fun tl_desc =>
    tl_page_mapping virt_r tl_desc (39, 12)

/-- The second half of `translate`, from the lookup at the second level on. -/
def translate_from_second (virt_r : ℕ) (sl : BitRange) (level2_table_addr : ℕ) :
    Option LeafMapping :=
  match mmu.translate_second_level virt_r sl level2_table_addr with
  | none => none
  | some (.leaf m) => some m
  | some (.table level3_table_addr) => mmu.translate_third_level virt_r level3_table_addr

/-- `translate`. The constructor leaves 1 or 2 as the initial level. -/
def translate (virt : ℕ) : Option LeafMapping :=
  if mmu.initial_lkup_level = 1 then
    match mmu.translate_first_level virt with
    | none => none
    | some (.leaf m) => some m
    | some (.table level2_table_addr) =>
      mmu.translate_from_second virt (29, 21) level2_table_addr
  else mmu.translate_from_second virt (mmu.input_addr_split + 17, 21) mmu.pgtbl

end Armv7LPAEMMU

/-! ## The walk of the architecture

The stage-1 walk over memory, for a table base and an address. It begins at the first level
or at the second, which `TxSZ` decides, and it is written without the class and its
registers.
-/

/-- Bits `hi:lo` of a value, as the architecture counts them. -/
def bits (hi lo v : ℕ) : ℕ := v / 2 ^ lo % 2 ^ (hi + 1 - lo)

/-- A valid leaf: a 1 GB block, a 2 MB block or a 4 KB page with its descriptor. -/
inductive ArchLeaf where
  | block_1g (descriptor : ℕ)
  | block_2m (descriptor : ℕ)
  | page (descriptor : ℕ)
  deriving Repr, DecidableEq

/-- The output address with the low bits of the input address below it. -/
def ArchLeaf.output (virt : ℕ) : ArchLeaf → ℕ
  | block_1g d => bits 39 30 d * 2 ^ 30 + bits 29 0 virt
  | block_2m d => bits 39 21 d * 2 ^ 21 + bits 20 0 virt
  | page d => bits 39 12 d * 2 ^ 12 + bits 11 0 virt

section Walk

variable (mem : ℕ → Bool → Option ℕ)

/-- The third level of the walk, from a table at `table`. -/
def walk_third (table virt : ℕ) : Option ArchLeaf :=
  match mem (table + 8 * bits 20 12 virt) false with
  | none => none
  | some d => if bits 1 0 d = 3 then some (.page d) else none

/-- A second-level descriptor: block, table or invalid. -/
def walk_second_descriptor (virt d : ℕ) : Option ArchLeaf :=
  if bits 1 0 d = 1 then some (.block_2m d)
  else if bits 1 0 d = 3 then walk_third mem (bits 39 12 d * 2 ^ 12) virt
  else none

/-- The second level, from a table at `table` with the index `index`. -/
def walk_second (table index virt : ℕ) : Option ArchLeaf :=
  match mem (table + 8 * index) false with
  | none => none
  | some d => walk_second_descriptor mem virt d

def walk_first_descriptor (virt d : ℕ) : Option ArchLeaf :=
  if bits 1 0 d = 1 then some (.block_1g d)
  else if bits 1 0 d = 3 then walk_second mem (bits 39 12 d * 2 ^ 12) (bits 29 21 virt) virt
  else none

/-- The stage-1 walk from `pgtbl`. With `TxSZ` up to 1 it starts at the first level,
of which bits 39:n with `n = 5 - TxSZ` are the base, else at the second one with
`n = 14 - TxSZ`. Only the first-level table may lie at a virtual address. -/
def arch_walk (pgtbl : ℕ) (txsz : ℤ) (virt_for_fl : Bool) (virt : ℕ) : Option ArchLeaf :=
  if txsz ≤ 1 then
    let n := (5 - txsz).toNat
    match mem (bits 39 n pgtbl * 2 ^ n + 8 * bits (n + 26) 30 virt) virt_for_fl with
    | none => none
    | some d => walk_first_descriptor mem virt d
  else
    let n := (14 - txsz).toNat
    walk_second mem (bits 39 n pgtbl * 2 ^ n) (bits (n + 17) 21 virt) virt

end Walk

/-! ## Addresses

From where the class reads a descriptor. An index is assigned to a field of a register that
holds the table base, so one has to know that the two do not run into each other, also where
the field is narrower than the index.
-/

theorem read_field_bits (v hi lo : ℕ) : read_field v (hi, lo) = bits hi lo v := read_field_eq v _

theorem bits_lt (hi lo v : ℕ) : bits hi lo v < 2 ^ (hi + 1 - lo) := Nat.mod_lt _ (by positivity)

theorem next_table_addr_eq (d : ℕ) : Armv7LPAEMMU.next_table_addr d = bits 39 12 d * 2 ^ 12 := by
  rw [Armv7LPAEMMU.next_table_addr, write_field_zero, read_field_bits]

namespace Armv7LPAEMMU

variable {mmu : Armv7LPAEMMU}

theorem descriptor_addr_eq (hn : 0 < mmu.input_addr_split) (table index : ℕ) :
    mmu.descriptor_addr table index
      = bits 39 mmu.input_addr_split table <<< mmu.input_addr_split ||| index <<< 3 := by
  rw [descriptor_addr, write_field_zero, read_field_bits, write_field_multiple hn]

/-- In the initial table the index stays below the base, so the two do not run into each other. -/
theorem descriptor_addr_initial (hn : 3 < mmu.input_addr_split) {index : ℕ}
    (hindex : index < 2 ^ (mmu.input_addr_split - 3)) (table : ℕ) :
    mmu.descriptor_addr table index
      = bits 39 mmu.input_addr_split table * 2 ^ mmu.input_addr_split + 8 * index := by
  have hlt : index <<< 3 < 2 ^ mmu.input_addr_split := by
    have hpow : 2 ^ mmu.input_addr_split = 2 ^ (mmu.input_addr_split - 3) * 2 ^ 3 := by
      rw [← pow_add, Nat.sub_add_cancel hn.le]
    rw [Nat.shiftLeft_eq, hpow]
    exact Nat.mul_lt_mul_of_pos_right hindex (by norm_num)
  rw [descriptor_addr_eq (by omega), ← Nat.shiftLeft_add_eq_or_of_lt hlt, Nat.shiftLeft_eq,
    Nat.shiftLeft_eq]
  ring

/-- A following table is a multiple of 4096, so an index of nine bits fits below it
although the field `offset` may be narrower. -/
theorem descriptor_addr_next (hn : 3 < mmu.input_addr_split) (hn' : mmu.input_addr_split ≤ 12)
    {a index : ℕ} (ha : a < 2 ^ 28) (hindex : index < 512) :
    mmu.descriptor_addr (a * 2 ^ 12) index = a * 2 ^ 12 + 8 * index := by
  have hbase : bits 39 mmu.input_addr_split (a * 2 ^ 12) <<< mmu.input_addr_split = a <<< 12 := by
    obtain ⟨k, hk⟩ : ∃ k, 12 = mmu.input_addr_split + k := ⟨12 - mmu.input_addr_split, by omega⟩
    have hsplit : a * 2 ^ 12 = a * 2 ^ k * 2 ^ mmu.input_addr_split := by
      rw [hk, pow_add]
      ring
    have hfit : a * 2 ^ k < 2 ^ (39 + 1 - mmu.input_addr_split) := by
      have hexp : 39 + 1 - mmu.input_addr_split = 28 + k := by omega
      rw [hexp, pow_add]
      exact Nat.mul_lt_mul_of_pos_right ha (by positivity)
    rw [bits, hsplit, Nat.mul_div_cancel _ (by positivity), Nat.mod_eq_of_lt hfit,
      Nat.shiftLeft_eq, Nat.shiftLeft_eq, ← hsplit]
  have hlt : index <<< 3 < 2 ^ 12 := by
    rw [Nat.shiftLeft_eq]
    omega
  rw [descriptor_addr_eq (by omega), hbase, ← Nat.shiftLeft_add_eq_or_of_lt hlt,
    Nat.shiftLeft_eq, Nat.shiftLeft_eq]
  ring

end Armv7LPAEMMU

/-- What a constructor that does not raise leaves, in its two cases. -/
theorem lpae_mmu_spec {mem : ℕ → Bool → Option ℕ} {pgtbl : ℕ} {txsz : ℤ} {v : Bool}
    {mmu : Armv7LPAEMMU} (h : lpae_mmu mem pgtbl txsz v = some mmu) :
    (txsz ≤ 1 ∧ mmu = ⟨mem, pgtbl, v, 1, 12, (5 - txsz).toNat⟩ ∨
      ¬ txsz ≤ 1 ∧ mmu = ⟨mem, pgtbl, v, 2, 21, (14 - txsz).toNat⟩) ∧
    3 < mmu.input_addr_split ∧ mmu.input_addr_split ≤ 12 := by
  unfold lpae_mmu at h
  dsimp only at h
  split_ifs at h with h1 h2 h2
  · obtain rfl := Option.some.inj h
    refine ⟨.inl ⟨by omega, rfl⟩, ?_, ?_⟩ <;> dsimp only <;> omega
  · obtain rfl := Option.some.inj h
    refine ⟨.inr ⟨by omega, rfl⟩, ?_, ?_⟩ <;> dsimp only <;> omega

/-! ## Output addresses

What the class makes of a leaf, against the output address of the architecture. The three
kinds of leaf are compared in one lemma, which also names the one kind where the two can
differ.
-/

/-- The physical address is the output field above the offset in the page. -/
theorem leaf_mapping_phys (virt d page_size : ℕ) {n : ℕ} (hn : 0 < n) (out : BitRange) :
    (leaf_mapping virt d page_size n out).phys = read_field d out * 2 ^ n + virt % 2 ^ n := by
  rw [leaf_mapping]
  exact write_offset_eq hn _ _ _

/-- The mapping the code builds for a leaf, `split` being `initial_block_split`. -/
def ArchLeaf.mapping (split virt : ℕ) : ArchLeaf → LeafMapping
  | block_1g d => fl_block_mapping virt d (39, 30)
  | block_2m d => sl_block_mapping virt d (39, split)
  | page d => tl_page_mapping virt d (39, 12)

theorem bits_zero (n v : ℕ) : bits n 0 v = v % 2 ^ (n + 1) := by
  rw [bits, pow_zero, Nat.div_one, Nat.sub_zero]

/-- Bits 39:12 read as bits 39:21 give the same number only when all are zero. -/
theorem bits_39_12_eq_iff (d : ℕ) : bits 39 12 d = bits 39 21 d ↔ bits 39 12 d = 0 := by
  have hsplit : bits 39 12 d = 512 * bits 39 21 d + bits 20 12 d := by
    simp only [bits]
    omega
  omega

/-- The code's address of a leaf is the architecture's, 2 MB blocks of a first-level
table with a nonzero output address apart. -/
theorem mapping_phys_iff {split : ℕ} (hsplit : split = 12 ∨ split = 21) (virt : ℕ)
    (leaf : ArchLeaf) : (leaf.mapping split virt).phys = leaf.output virt ↔
      ¬ (split = 12 ∧ ∃ d, leaf = .block_2m d ∧ bits 39 12 d ≠ 0) := by
  cases leaf with
  | block_1g d =>
    simp only [ArchLeaf.mapping, fl_block_mapping, ArchLeaf.output, reduceCtorEq, false_and,
      exists_false, and_false, not_false_eq_true, iff_true]
    rw [leaf_mapping_phys _ _ _ (by norm_num), read_field_bits, bits_zero]
  | page d =>
    simp only [ArchLeaf.mapping, tl_page_mapping, ArchLeaf.output, reduceCtorEq, false_and,
      exists_false, and_false, not_false_eq_true, iff_true]
    rw [leaf_mapping_phys _ _ _ (by norm_num), read_field_bits, bits_zero]
  | block_2m d =>
    simp only [ArchLeaf.mapping, sl_block_mapping, ArchLeaf.output, ArchLeaf.block_2m.injEq,
      exists_eq_left']
    rw [leaf_mapping_phys _ _ _ (by norm_num), read_field_bits, bits_zero]
    -- the output field of a 2 MB block is the only one that depends on `split`
    have hiff := bits_39_12_eq_iff d
    rcases hsplit with rfl | rfl
    · constructor
      · intro h
        have heq : bits 39 12 d = bits 39 21 d := by omega
        exact fun hbad => hbad.2 (hiff.mp heq)
      · intro h
        have hzero : bits 39 12 d = 0 := by
          by_contra hne
          exact h ⟨rfl, hne⟩
        rw [hiff.mpr hzero]
    · simp

/-! ## The levels against the walk

From the third level to the first, `translate` reads the descriptors that the walk reads and
makes a mapping exactly where the walk has a leaf. What is left is the address, which is
known from the leaf.
-/

section Levels

open Armv7LPAEMMU

variable {mmu : Armv7LPAEMMU}

theorem dtype_eq (d : ℕ) : dtype d = bits 1 0 d := read_field_bits d 1 0

theorem translate_third_level_eq (hn : 3 < mmu.input_addr_split)
    (hn' : mmu.input_addr_split ≤ 12) (d virt split : ℕ) :
    mmu.translate_third_level virt (next_table_addr d)
      = (walk_third mmu.read_dword (bits 39 12 d * 2 ^ 12) virt).map
        (ArchLeaf.mapping split virt) := by
  have haddr := descriptor_addr_next hn hn' (bits_lt 39 12 d) (bits_lt 20 12 virt)
  rw [translate_third_level, do_tl_level_lookup, do_level_lookup, walk_third, next_table_addr_eq,
    read_field_bits, haddr]
  cases mmu.read_dword (bits 39 12 d * 2 ^ 12 + 8 * bits 20 12 virt) false with
  | none => rfl
  | some e =>
    dsimp only
    rw [dtype_eq]
    split_ifs <;> rfl

/-- The second level, once its descriptor address is known. -/
theorem translate_from_second_eq (hn : 3 < mmu.input_addr_split)
    (hn' : mmu.input_addr_split ≤ 12) {table base virt : ℕ} {sl : BitRange}
    (haddr : mmu.descriptor_addr table (read_field virt sl) = base + 8 * read_field virt sl) :
    mmu.translate_from_second virt sl table
      = (walk_second mmu.read_dword base (read_field virt sl) virt).map
          (ArchLeaf.mapping mmu.initial_block_split virt) := by
  rw [translate_from_second, translate_second_level, do_fl_sl_level_lookup, do_level_lookup,
    walk_second, haddr]
  cases mmu.read_dword (base + 8 * read_field virt sl) false with
  | none => rfl
  | some d =>
    dsimp only
    rw [dtype_eq, walk_second_descriptor]
    by_cases hblock : bits 1 0 d = 1
    · rw [if_pos hblock, if_pos hblock]
      rfl
    · rw [if_neg hblock, if_neg hblock]
      by_cases htable : bits 1 0 d = 3
      · rw [if_pos htable, if_pos htable]
        exact translate_third_level_eq hn hn' d virt _
      · rw [if_neg htable, if_neg htable]
        rfl

end Levels

/-- The index of the initial level fits below the base of its table. -/
theorem initial_index_lt {n : ℕ} (k virt : ℕ) (hk : n + k + 1 - (k + 4) = n - 3) :
    read_field virt (n + k, k + 4) < 2 ^ (n - 3) := by
  have h := read_field_lt virt (n + k, k + 4)
  dsimp only at h
  rwa [hk] at h

/-- `translate` finds the leaf of the walk, and makes of it what the class makes of such a
descriptor. -/
theorem translate_eq {mem : ℕ → Bool → Option ℕ} {pgtbl : ℕ} {txsz : ℤ} {v : Bool}
    {mmu : Armv7LPAEMMU} (h : lpae_mmu mem pgtbl txsz v = some mmu) (virt : ℕ) :
    mmu.translate virt = (arch_walk mem pgtbl txsz v virt).map
      (ArchLeaf.mapping mmu.initial_block_split virt) := by
  obtain ⟨⟨ht, rfl⟩ | ⟨ht, rfl⟩, hn, hn'⟩ := lpae_mmu_spec h
  -- `txsz` decides whether the walk begins at the first level
  · have haddr := Armv7LPAEMMU.descriptor_addr_initial hn
      (initial_index_lt 26 virt (by omega)) pgtbl
    rw [Armv7LPAEMMU.translate, if_pos rfl, Armv7LPAEMMU.translate_first_level,
      Armv7LPAEMMU.do_fl_sl_level_lookup, Armv7LPAEMMU.do_level_lookup, haddr, arch_walk, if_pos ht]
    dsimp only
    rw [read_field_bits]
    cases mem (bits 39 (5 - txsz).toNat pgtbl * 2 ^ (5 - txsz).toNat
        + 8 * bits ((5 - txsz).toNat + 26) 30 virt) v with
    | none => rfl
    | some d =>
      dsimp only
      rw [dtype_eq, walk_first_descriptor]
      by_cases hblock : bits 1 0 d = 1
      · rw [if_pos hblock, if_pos hblock]
        rfl
      · rw [if_neg hblock, if_neg hblock]
        by_cases htable : bits 1 0 d = 3
        · rw [if_pos htable, if_pos htable, ← read_field_bits virt 29 21]
          apply translate_from_second_eq hn hn'
          rw [next_table_addr_eq]
          exact Armv7LPAEMMU.descriptor_addr_next hn hn' (bits_lt 39 12 d)
            (read_field_lt virt (29, 21))
        · rw [if_neg htable, if_neg htable]
          rfl
  · have haddr := Armv7LPAEMMU.descriptor_addr_initial hn
      (initial_index_lt 17 virt (by omega)) pgtbl
    -- or at the second
    have hlevel : ¬ (2 : ℕ) = 1 := by decide
    rw [Armv7LPAEMMU.translate, if_neg hlevel, arch_walk, if_neg ht]
    dsimp only
    rw [← read_field_bits virt ((14 - txsz).toNat + 17) 21]
    exact translate_from_second_eq hn hn' haddr

/-- A mapping exactly when the walk reaches a leaf, and then at the address of its
descriptor. -/
def TranslatesAsWalk (mem : ℕ → Bool → Option ℕ) (pgtbl : ℕ) (txsz : ℤ) (v : Bool)
    (mmu : Armv7LPAEMMU) (virt : ℕ) : Prop :=
  (mmu.translate virt).map LeafMapping.phys
    = (arch_walk mem pgtbl txsz v virt).map (ArchLeaf.output virt)

/-- **Translation is the architecture's walk, 2 MB blocks below a first-level table apart.** For
every memory, every `txsz` that the constructor takes, and every address. -/
theorem translates_as_walk_iff {mem : ℕ → Bool → Option ℕ} {pgtbl : ℕ} {txsz : ℤ} {v : Bool}
    {mmu : Armv7LPAEMMU} (h : lpae_mmu mem pgtbl txsz v = some mmu) (virt : ℕ) :
    TranslatesAsWalk mem pgtbl txsz v mmu virt ↔
      ¬ (txsz ≤ 1 ∧ ∃ d, arch_walk mem pgtbl txsz v virt = some (.block_2m d) ∧
        bits 39 12 d ≠ 0) := by
  have hsplit : (txsz ≤ 1 ↔ mmu.initial_block_split = 12) ∧
      (mmu.initial_block_split = 12 ∨ mmu.initial_block_split = 21) := by
    obtain ⟨⟨ht, rfl⟩ | ⟨ht, rfl⟩, -⟩ := lpae_mmu_spec h
    · exact ⟨iff_of_true ht rfl, .inl rfl⟩
    · have hne : ¬ (21 : ℕ) = 12 := by decide
      exact ⟨iff_of_false ht hne, .inr rfl⟩
  rw [TranslatesAsWalk, translate_eq h, hsplit.1]
  cases arch_walk mem pgtbl txsz v virt with
  | none => simp
  | some leaf =>
    have hphys := mapping_phys_iff hsplit.2 virt leaf
    simp only [Option.map_some, Option.some.injEq]
    exact hphys

/-- A first-level table at 0x1000, in its second-level table a 2 MB block at
0x40000000 and then a table with one page at 0x50000000. -/
def block_memory : ℕ → Bool → Option ℕ := fun addr _ =>
  if addr = 0x1000 then some (0x2000 + 3)
  else if addr = 0x2000 then some (0x40000000 + 1)
  else if addr = 0x2008 then some (0x3000 + 3)
  else if addr = 0x3000 then some (0x50000000 + 3)
  else none

/-- The instance of `parse_long_form_tables` over this memory, but for its `virt_for_fl`. -/
def block_mmu : Armv7LPAEMMU := ⟨block_memory, 0x1000, false, 1, 12, 5⟩

theorem translates_as_walk_iff_page :
    TranslatesAsWalk block_memory 0x1000 0 false block_mmu 0x200123 := by
  apply (translates_as_walk_iff (rfl : lpae_mmu block_memory 0x1000 0 false = some block_mmu)
    0x200123).mpr
  rintro ⟨-, d, hd, -⟩
  have hwalk : arch_walk block_memory 0x1000 0 false 0x200123 = some (.page 0x50000003) := by
    decide +kernel
  rw [hwalk] at hd
  cases hd

/-- The block at 0x40000000 is translated as if it were at 0x8000000000. -/
theorem block_not_as_walk :
    (block_mmu.translate 0x1234).map LeafMapping.phys = some 0x8000001234 ∧
      (arch_walk block_memory 0x1000 0 false 0x1234).map (ArchLeaf.output 0x1234)
        = some 0x40001234 ∧
      ¬ TranslatesAsWalk block_memory 0x1000 0 false block_mmu 0x1234 := by
  have hcode : (block_mmu.translate 0x1234).map LeafMapping.phys = some 0x8000001234 := by
    decide +kernel
  have hwalk : (arch_walk block_memory 0x1000 0 false 0x1234).map (ArchLeaf.output 0x1234)
      = some 0x40001234 := by
    decide +kernel
  refine ⟨hcode, hwalk, ?_⟩
  rw [TranslatesAsWalk, hcode, hwalk]
  decide

end AndroidTools.Ramdump
