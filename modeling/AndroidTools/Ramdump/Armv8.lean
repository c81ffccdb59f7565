/-
`Armv8MMU`: translating an address through 4 KB-granule page tables.

The lookups of the second and the third level stand in `try` blocks that turn any exception into
`None`; the one of the first level does not. So the class returns what the walk of the
architecture finds, except that an address without a first-level descriptor ends in an exception,
where the walk has no translation like any other.

The class and the walk are compared level by level, each at a table and an index, so that a level
is opened once. Between two levels the class keeps the address of the next table in a register,
one of whose fields it assigns; `next_base_eq` says that what was in the register before does not
matter.
-/
import AndroidTools.Ramdump.Mmu

set_option autoImplicit false

namespace AndroidTools.Ramdump

/-! ## The class

The lookups of the three levels, with the two exceptions they raise and the `try` blocks
around two of them. The register that carries the address of the next table is modelled with
its fields.
-/

/-- What the class uses of the dump; `read_dword addr` is the descriptor stored at a
physical address, or `None`. -/
structure Armv8MMU where
  read_dword : ℕ → Option ℕ
  swapper_pg_dir_addr : ℕ
  phys_offset : ℕ

/-- The exceptions the lookups raise, with the descriptor and its address. -/
inductive InvalidTranslation where
  | first_or_second_level (descriptor : Option ℕ) (addr : ℕ)
  | third_level (descriptor : Option ℕ) (addr : ℕ)
  deriving Repr, DecidableEq

/-- A descriptor `do_fl_sl_level_lookup` returns; a block has the field `output_address`. -/
inductive LevelDescriptor where
  | block (value : ℕ) (output_address : BitRange)
  | table (value : ℕ)
  deriving Repr, DecidableEq

namespace Armv8MMU

variable (mmu : Armv8MMU)

/-- `self.ttbr`, the physical address of the first-level table. -/
def ttbr : ℕ := mmu.swapper_pg_dir_addr + mmu.phys_offset

/-- `do_level_lookup`: the value of the descriptor and its address. -/
def do_level_lookup (table_base_address table_index input_addr_split : ℕ) : Option ℕ × ℕ :=
  let descriptor_addr := write_field table_base_address (input_addr_split - 1, 3) table_index
  (mmu.read_dword descriptor_addr, descriptor_addr)

/-- The field `dtype` of a descriptor, its two lowest bits. -/
def dtype (descriptor : ℕ) : ℕ := read_field descriptor (1, 0)

/-- `do_fl_sl_level_lookup`. The field of a value that could not be read is `None`, of
neither type. -/
def do_fl_sl_level_lookup (table_base_address table_index input_addr_split block_split : ℕ) :
    Except InvalidTranslation LevelDescriptor :=
  let (descriptor, addr) := mmu.do_level_lookup table_base_address table_index input_addr_split
  match descriptor with
  | none => .error (.first_or_second_level none addr)
  | some d =>
    if dtype d = 1 then .ok (.block d (47, block_split))
    else if dtype d = 3 then .ok (.table d)
    else .error (.first_or_second_level (some d) addr)

/-- `do_sl_level_lookup`: a table, a block, or the exception. -/
def do_sl_level_lookup (table_base_address table_index : ℕ) :
    Except InvalidTranslation LevelDescriptor :=
  mmu.do_fl_sl_level_lookup table_base_address table_index 12 21

/-- `do_tl_level_lookup`: the descriptor, of which `output_address` is bits 47:12. -/
def do_tl_level_lookup (table_base_address table_index : ℕ) : Except InvalidTranslation ℕ :=
  let (descriptor, addr) := mmu.do_level_lookup table_base_address table_index 12
  match descriptor with
  | none => .error (.third_level none addr)
  | some d =>
    if dtype d = 3 then .ok d else .error (.third_level (some d) addr)

/-- `block_or_page_desc_2_phys`, from the field for the output address. -/
def block_or_page_desc_2_phys (desc : ℕ) (output_address : BitRange) (virt_r n : ℕ) : ℕ :=
  let phys := write_field 0 (47, n) (read_field desc output_address)
  let rest := read_field virt_r (n - 1, 0)
  write_field phys (n - 1, 0) (read_field phys (n - 1, 0) ||| rest)

/-- `page_table_walk` from the `try` around the third lookup on; an exception in it is `None`. -/
def third_level (base virt : ℕ) : Option ℕ :=
  match mmu.do_tl_level_lookup base (read_field virt (20, 12)) with
  | .error _ => none
  | .ok tl_desc => some (block_or_page_desc_2_phys tl_desc (47, 12) virt 12)

/-- `page_table_walk` from the `try` around the second lookup on. -/
def second_level (base virt : ℕ) : Option ℕ :=
  match mmu.do_sl_level_lookup base (read_field virt (29, 21)) with
  | .error _ => none
  | .ok (.block sl_desc out) => some (block_or_page_desc_2_phys sl_desc out virt 21)
  | .ok (.table sl_desc) =>
    mmu.third_level (write_field base (47, 12) (read_field sl_desc (47, 12))) virt

/-- `page_table_walk`, an error for an exception. -/
def page_table_walk (virt : ℕ) : Except InvalidTranslation (Option ℕ) :=
  match mmu.do_fl_sl_level_lookup mmu.ttbr (read_field virt (38, 30)) 12 30 with
  | .error e => .error e
  | .ok (.block fl_desc out) => .ok (some (block_or_page_desc_2_phys fl_desc out virt 30))
  | .ok (.table fl_desc) =>
    .ok (mmu.second_level (write_field 0 (47, 12) (read_field fl_desc (47, 12))) virt)

/-! ## The walk of the architecture

The same walk, from table addresses and indices, with no exceptions: what is not stored, or
is of no valid type, is no translation.
-/

section Walk

variable (mem : ℕ → Option ℕ)

/-- The third level of the walk: a page, or nothing. -/
def walk_third (table virt : ℕ) : Option ℕ :=
  match mem (table + 8 * bits 20 12 virt) with
  | none => none
  | some d =>
    if bits 1 0 d = 3 then some (bits 47 12 d * 2 ^ 12 + bits 11 0 virt) else none

/-- The second level: a 2 MB block, a table or nothing. -/
def walk_second (table virt : ℕ) : Option ℕ :=
  match mem (table + 8 * bits 29 21 virt) with
  | none => none
  | some d =>
    if bits 1 0 d = 1 then some (bits 47 21 d * 2 ^ 21 + bits 20 0 virt)
    else if bits 1 0 d = 3 then walk_third mem (bits 47 12 d * 2 ^ 12) virt
    else none

/-- The first level: a 1 GB block, a table or nothing. -/
def walk_first (table virt : ℕ) : Option ℕ :=
  match mem (table + 8 * bits 38 30 virt) with
  | none => none
  | some d =>
    if bits 1 0 d = 1 then some (bits 47 30 d * 2 ^ 30 + bits 29 0 virt)
    else if bits 1 0 d = 3 then walk_second mem (bits 47 12 d * 2 ^ 12) virt
    else none

end Walk

/-! ## The levels against the walk

From the last level to the first, each level of the class is the level of the walk. The
first one has no `try` around it, and `HasFirstLevel` is what has to hold for it to return.
-/

/-- An index of nine bits below a table on a page of its own. -/
theorem descriptor_addr_eq {table index : ℕ} (htable : 4096 ∣ table) (hindex : index < 512) :
    write_field table (12 - 1, 3) index = table + 8 * index := by
  obtain ⟨page, rfl⟩ := htable
  have hwrite := @write_field_eq 11 3 index (by norm_num) (4096 * page) (by omega)
  rw [show (12 - 1 : ℕ) = 11 from rfl, hwrite]
  omega

/-- The output field above the offset in the page or block. -/
theorem desc_2_phys_eq (d virt : ℕ) {n : ℕ} (hn : 0 < n) (out : BitRange) :
    block_or_page_desc_2_phys d out virt n = read_field d out * 2 ^ n + virt % 2 ^ n := by
  rw [block_or_page_desc_2_phys]
  exact write_offset_eq hn _ _ _

/-- The address of the next table is that of the descriptor, whatever `base` held before. -/
theorem next_base_eq {a : ℕ} (ha : a < 2 ^ 36) (d : ℕ) :
    write_field (a * 2 ^ 12) (47, 12) (read_field d (47, 12)) = bits 47 12 d * 2 ^ 12 := by
  have hold : a * 2 ^ 12 < 2 ^ 48 := by omega
  rw [write_field_eq (by norm_num) _ (read_field_lt d (47, 12)), read_field_bits,
    Nat.div_eq_of_lt hold, Nat.mul_mod_left, Nat.zero_mul, Nat.zero_add, Nat.add_zero]

theorem dtype_eq (d : ℕ) : dtype d = bits 1 0 d := read_field_bits d 1 0

section Levels

variable {mmu : Armv8MMU} {table : ℕ}

theorem third_level_eq (htable : 4096 ∣ table) (virt : ℕ) :
    mmu.third_level table virt = walk_third mmu.read_dword table virt := by
  have haddr := descriptor_addr_eq htable (bits_lt 20 12 virt)
  rw [third_level, do_tl_level_lookup, do_level_lookup, walk_third, read_field_bits, haddr]
  cases mmu.read_dword (table + 8 * bits 20 12 virt) with
  | none => rfl
  | some d =>
    dsimp only
    rw [dtype_eq]
    split_ifs with hpage
    · dsimp only
      rw [desc_2_phys_eq d virt (by norm_num), read_field_bits, bits_zero]
    · rfl

theorem second_level_eq {a : ℕ} (ha : a < 2 ^ 36) (virt : ℕ) :
    mmu.second_level (a * 2 ^ 12) virt = walk_second mmu.read_dword (a * 2 ^ 12) virt := by
  have haddr := descriptor_addr_eq (Dvd.intro_left a rfl : 4096 ∣ a * 2 ^ 12) (bits_lt 29 21 virt)
  rw [second_level, do_sl_level_lookup, do_fl_sl_level_lookup, do_level_lookup, walk_second,
    read_field_bits, haddr]
  cases mmu.read_dword (a * 2 ^ 12 + 8 * bits 29 21 virt) with
  | none => rfl
  | some d =>
    dsimp only
    rw [dtype_eq]
    split_ifs with hblock htable
    · dsimp only
      rw [desc_2_phys_eq d virt (by norm_num), read_field_bits, bits_zero]
    · dsimp only
      rw [next_base_eq ha]
      exact third_level_eq (Dvd.intro_left _ rfl) virt
    -- the exception of a descriptor of another type is caught
    · rfl

end Levels

/-- The first-level descriptor of an address is stored and of one of the two valid types. -/
def HasFirstLevel (mmu : Armv8MMU) (virt : ℕ) : Prop :=
  ∃ d, mmu.read_dword (mmu.ttbr + 8 * bits 38 30 virt) = some d ∧ (bits 1 0 d = 1 ∨ bits 1 0 d = 3)

/-- The class answers without an exception, and as the walk of the architecture does. -/
def AnswersAsWalk (mmu : Armv8MMU) (virt : ℕ) : Prop :=
  mmu.page_table_walk virt = .ok (walk_first mmu.read_dword mmu.ttbr virt)

/-- **The class answers as the walk does exactly where there is a first-level descriptor.** For
every memory and every address; the condition is on the one descriptor the first lookup reads. -/
theorem answers_as_walk_iff {mmu : Armv8MMU} (hpage : 4096 ∣ mmu.ttbr) (virt : ℕ) :
    mmu.AnswersAsWalk virt ↔ mmu.HasFirstLevel virt := by
  have haddr := descriptor_addr_eq hpage (bits_lt 38 30 virt)
  rw [AnswersAsWalk, HasFirstLevel, page_table_walk, do_fl_sl_level_lookup, do_level_lookup,
    walk_first, read_field_bits, haddr]
  cases mmu.read_dword (mmu.ttbr + 8 * bits 38 30 virt) with
  | none => simp
  | some d =>
    dsimp only
    rw [dtype_eq]
    simp only [Option.some.injEq, exists_eq_left']
    split_ifs with hblock htable
    · dsimp only
      rw [desc_2_phys_eq d virt (by norm_num), read_field_bits, bits_zero]
      exact iff_of_true rfl (Or.inl hblock)
    · dsimp only
      rw [write_field_zero, read_field_bits, second_level_eq (bits_lt 47 12 d)]
      exact iff_of_true rfl (Or.inr htable)
    -- no `try` stands around the first lookup
    · exact iff_of_false (by simp) (not_or.mpr ⟨hblock, htable⟩)

/-- In the first-level table at 0x1000 the entry 1 leads to a page at 0x50000000, and
every other one is zero. -/
def one_entry : Armv8MMU where
  read_dword := fun addr =>
    if addr = 0x1008 then some (0x2000 + 3)
    else if addr = 0x2000 then some (0x3000 + 3)
    else if addr = 0x3000 then some (0x50000000 + 3)
    else some 0
  swapper_pg_dir_addr := 0x1000
  phys_offset := 0

theorem one_entry_answers : one_entry.AnswersAsWalk 0x40000123 :=
  (answers_as_walk_iff (by decide) 0x40000123).mpr ⟨0x2003, rfl, Or.inr (by decide)⟩

/-- An address below an entry that is zero ends in the exception, where the walk finds
that nothing is mapped. -/
theorem one_entry_raises :
    one_entry.page_table_walk 0x123 = .error (.first_or_second_level (some 0) 0x1000) ∧
      walk_first one_entry.read_dword one_entry.ttbr 0x123 = none ∧
      ¬ one_entry.AnswersAsWalk 0x123 := by
  have hraise : one_entry.page_table_walk 0x123
      = .error (.first_or_second_level (some 0) 0x1000) := by
    decide +kernel
  refine ⟨hraise, by decide +kernel, fun h => ?_⟩
  rw [AnswersAsWalk, hraise] at h
  cases h

end Armv8MMU

end AndroidTools.Ramdump
