/-
Virtual memory, as the reads of a dump show it.

At the top stands a memory of bytes: the byte at a virtual address is what its own translation and
the files give. A read of a field translates once and takes its bytes from one file, in a row. The
two agree for fields at addresses divisible by their size, over the page tables of any of the
three MMUs, when the files are whole, apart and aligned. The answer 0 of `Armv7MMU` for a fault is
an address like any other, so there no file may hold address 0.

The reason is the same for the three: the smallest block that a table maps is a page, and a field
aligned to its size does not cross the border of one. So its bytes have one translation, in a row,
and the file that has the first of them has all. `choose_mmu` says which of the three a dump gets.
-/
import AndroidTools.Ramdump.Armv7
import AndroidTools.Ramdump.Tlb

set_option autoImplicit false

namespace AndroidTools.Ramdump

open Bytes Passes

/-! ## The MMU of a dump

One of three translators, each with its own exceptions, and the part of the constructor that
chooses one.
-/

/-- `self.mmu`, one of the three translators. -/
inductive Mmu where
  | armv7 (mmu : Armv7MMU)
  | lpae (mmu : Armv7LPAEMMU)
  | armv8 (mmu : Armv8MMU)

/-- `page_table_walk` of the translator, with its own exceptions. -/
def Mmu.page_table_walk : Mmu → PageTableWalk
  | armv7 mmu, virt => .ok (mmu.page_table_walk virt)
  | lpae mmu, virt => .ok ((mmu.translate virt).map LeafMapping.phys)
  | armv8 mmu, virt => (mmu.page_table_walk virt).mapError .invalid_translation

/-- The exceptions and exits of `RamDump.__init__` where it chooses the MMU. -/
inductive InitStop where
  | read (e : ReadStop)
  | invalid_phys_offset (page_offset : ℕ)
  | invalid_txsz
  | lpae_unknown
  deriving Repr, DecidableEq

/-- `t1sz`, and how far behind `swapper_pg_dir_addr` the table is. -/
def lpae_split (page_offset : ℕ) : Except InitStop (ℤ × ℕ) :=
  if page_offset = 0x40000000 then .ok (0, 0)
  else if page_offset = 0x80000000 then .ok (1, 0)
  else if page_offset = 0xc0000000 then .ok (2, 4096 * (1 + 3))
  else .error (.invalid_phys_offset page_offset)

namespace RamDump

variable (d : RamDump)

/-- `read_dword(addr, virtual=False)`, nothing where it raises. -/
def read_phys_dword (addr : ℕ) : Option ℕ :=
  match read_string_at d.ebi_files (some addr) .u64 with
  | .ok v => v.map Int.toNat
  | .error _ => none

/-- `read_word(addr, False)` of a 32-bit dump. -/
def read_phys_word (addr : ℕ) : Except ReadStop (Option ℕ) :=
  (read_string_at d.ebi_files (some addr) .u32).map (Option.map Int.toNat)

/-- `__init__` from `swapper_pg_dir_addr` and `kernel_text_offset` on, both counted from
`page_offset`: the translator that is made. -/
def choose_mmu (phys_offset page_offset swapper_pg_dir_addr kernel_text_offset : ℕ) :
    Except InitStop Mmu :=
  if d.arm64 then .ok (.armv8 ⟨d.read_phys_dword, swapper_pg_dir_addr, phys_offset⟩)
  else if (kernel_text_offset : ℤ) - swapper_pg_dir_addr = 0x4000 then
    match Armv7MMU.load_page_tables d.read_phys_word (phys_offset + swapper_pg_dir_addr) with
    | .ok mmu => .ok (.armv7 mmu)
    | .error e => .error (.read e)
  else if (kernel_text_offset : ℤ) - swapper_pg_dir_addr = 0x5000 then do
    let (t1sz, skip) ← lpae_split page_offset
    match lpae_mmu (fun addr _ => d.read_phys_dword addr)
        (phys_offset + 0x8000 - 0x5000 + skip) t1sz false with
    | some mmu => .ok (.lpae mmu)
    | none => .error .invalid_txsz
  else .error .lpae_unknown

end RamDump

/-! ## The memory of bytes

The view of a user of the dump: there is a byte at an address, or there is none. A field is
then the bytes one after the other, each translated by itself.
-/

/-- Files as they come from the memory of a phone: whole, apart, and a multiple of eight
bytes at a multiple of eight. -/
structure Segmented (ebi_files : List EbiFile) : Prop where
  whole : ∀ a ∈ ebi_files, a.start + a.contents.length = a.stop + 1
  aligned : ∀ a ∈ ebi_files, 8 ∣ a.start ∧ 8 ∣ a.stop + 1
  apart : ebi_files.Pairwise fun a b => a.stop < b.start ∨ b.stop < a.start

/-- The byte at a physical address, of the first file that has it. -/
def phys_byte (ebi_files : List EbiFile) (addr : ℕ) : Option UInt8 :=
  (ebi_files.find? fun a => a.Holds addr).bind fun a => a.contents[addr - a.start]?

/-- The byte at a virtual address, by its own translation. -/
def virt_byte (ebi_files : List EbiFile) (walk : PageTableWalk) (addr : ℕ) :
    Except ReadStop (Option UInt8) :=
  (walk addr).map fun phys => phys.bind (phys_byte ebi_files)

/-- The field of `format` over the bytes at `addr`; `none` where one is missing. -/
def virt_field (ebi_files : List EbiFile) (walk : PageTableWalk) (format : Format) (addr : ℕ) :
    Except ReadStop (Option ℤ) := do
  let s ← (List.range format.size).mapM fun i => virt_byte ebi_files walk (addr + i)
  pure ((s.mapM id).map format.value)

/-! ## A field of a file

At a physical address divisible by its size, a field lies within one file. So reading it in
a row gives the bytes one by one.
-/

theorem Format.size_dvd (f : Format) : f.size ∣ 8 := by
  cases f <;> decide

theorem Format.size_pos (f : Format) : 0 < f.size := by
  cases f <;> decide

/-- The file that holds an address is the one that is read. -/
theorem Segmented.find {ebi_files : List EbiFile} (h : Segmented ebi_files) {a : EbiFile}
    (ha : a ∈ ebi_files) {addr : ℕ} (hold : a.Holds addr) :
    ebi_files.find? (fun a => a.Holds addr) = some a := by
  cases hfind : ebi_files.find? (fun a => a.Holds addr) with
  | none =>
    have hnot := List.find?_eq_none.mp hfind a ha
    rw [decide_eq_true_eq] at hnot
    exact absurd hold hnot
  | some b =>
    have hb := List.mem_of_find?_eq_some hfind
    have hold' : b.Holds addr := by simpa using List.find?_some hfind
    by_contra hne
    have hba : b ≠ a := fun heq => hne (congrArg some heq)
    have hsymm : Std.Symm fun a b : EbiFile => a.stop < b.start ∨ b.stop < a.start :=
      ⟨fun _ _ hab => hab.symm⟩
    have hapart := h.apart.forall hb ha hba
    obtain ⟨hlow, hhigh⟩ := hold
    obtain ⟨hlow', hhigh'⟩ := hold'
    omega

/-- An aligned field does not run out of the file in which it begins. -/
theorem EbiFile.field_le {a : EbiFile} (hstop : 8 ∣ a.stop + 1) {n addr : ℕ} (hn : n ∣ 8)
    (haddr : n ∣ addr) (hle : addr ≤ a.stop) : addr + n ≤ a.stop + 1 := by
  obtain ⟨k, rfl⟩ := haddr
  obtain ⟨l, hl⟩ := hn.trans hstop
  have hlt : k < l := by
    by_contra hge
    have hmul : n * l ≤ n * k := Nat.mul_le_mul_left n (Nat.le_of_not_lt hge)
    omega
  calc n * k + n = n * (k + 1) := by ring
    _ ≤ n * l := Nat.mul_le_mul_left n hlt
    _ = a.stop + 1 := hl.symm

/-- The bytes of a list are the list of its bytes. -/
theorem map_range_getElem? {α : Type} {s : List α} {n : ℕ} (hlen : s.length = n) {f : ℕ → Option α}
    (h : ∀ i < n, f i = s[i]?) : ((List.range n).map f).mapM id = some s := by
  have hmap : (List.range n).map f = s.map some := by
    apply List.ext_getElem
    · rw [List.length_map, List.length_map, List.length_range, hlen]
    · intro i hi hi'
      rw [List.length_map] at hi'
      rw [List.getElem_map, List.getElem_map, List.getElem_range, h i (by omega),
        List.getElem?_eq_getElem hi']
  rw [hmap, List.mapM_map]
  exact List.mapM_pure.trans (by rw [List.map_id']; rfl)

/-- One missing byte at the front, and the field is missing. -/
theorem map_range_none {α : Type} {n : ℕ} (hn : 0 < n) {f : ℕ → Option α} (h : f 0 = none) :
    ((List.range n).map f).mapM id = none := by
  obtain ⟨k, rfl⟩ := Nat.exists_eq_succ_of_ne_zero (Nat.pos_iff_ne_zero.mp hn)
  rw [List.range_succ_eq_map, List.map_cons, List.mapM_cons, h]
  rfl

theorem read_string_at_eq {ebi_files : List EbiFile} (h : Segmented ebi_files) (format : Format)
    {addr : ℕ} (haddr : format.size ∣ addr) :
    read_string_at ebi_files (some addr) format
      = .ok ((((List.range format.size).map fun i => phys_byte ebi_files (addr + i)).mapM id).map
          format.value) := by
  rw [read_string_at, read_physical, Option.bind_some]
  cases hfind : ebi_files.find? (fun a => a.Holds addr) with
  | none =>
    rw [Option.map_none,
      map_range_none format.size_pos (by rw [phys_byte, Nat.add_zero, hfind]; rfl)]
    rfl
  | some a =>
    have ha := List.mem_of_find?_eq_some hfind
    have hold : a.Holds addr := by simpa using List.find?_some hfind
    have hend := EbiFile.field_le (h.aligned a ha).2 format.size_dvd haddr hold.2
    have hwhole := h.whole a ha
    have hpos := format.size_pos
    obtain ⟨hlow, hhigh⟩ := hold
    have hlen : (slice a.contents (addr - a.start) format.size).length = format.size :=
      length_slice_of_le (by omega)
    have hbytes : ∀ i < format.size, phys_byte ebi_files (addr + i)
        = (slice a.contents (addr - a.start) format.size)[i]? := by
      intro i hi
      have hsub : addr + i - a.start = addr - a.start + i := by omega
      rw [phys_byte, h.find ha ⟨by omega, by omega⟩, Option.bind_some, getElem?_slice, if_pos hi,
        hsub]
    have hne : slice a.contents (addr - a.start) format.size ≠ [] := by
      intro hnil
      rw [hnil, List.length_nil] at hlen
      omega
    rw [map_range_getElem? hlen hbytes, Option.map_some, Option.map_some]
    dsimp only
    rw [if_neg hne, if_pos hlen]

/-! ## Addresses of one page

All addresses of a page are translated in the same way: into one block, in a row, or not at
all. This is shown for each of the three translators, from its last level to its first.
-/

theorem bits_add {va i : ℕ} (h : va % 4096 + i < 4096) (hi : ℕ) {lo : ℕ} (hlo : 12 ≤ lo) :
    bits hi lo (va + i) = bits hi lo va := by
  obtain ⟨k, rfl⟩ := Nat.exists_eq_add_of_le hlo
  have hpage : (va + i) / 2 ^ 12 = va / 2 ^ 12 := by omega
  rw [bits, bits, pow_add, ← Nat.div_div_eq_div_mul, ← Nat.div_div_eq_div_mul, hpage]

theorem add_mod_page {va i n : ℕ} (h : va % 4096 + i < 4096) (hn : 12 ≤ n) :
    (va + i) % 2 ^ n = va % 2 ^ n + i := by
  obtain ⟨k, rfl⟩ := Nat.exists_eq_add_of_le hn
  have hpos : 0 < 2 ^ k := by positivity
  rw [pow_add, Nat.mod_mul, Nat.mod_mul]
  have hpage : (va + i) / 2 ^ 12 = va / 2 ^ 12 := by omega
  rw [hpage]
  omega

/-- The block or page an address is in: the output address of its start, divided by its
size, and the number of bits of an offset in it. -/
structure Block where
  base : ℕ
  split : ℕ
  large : 12 ≤ split

def Block.address (b : Block) (va : ℕ) : ℕ := b.base * 2 ^ b.split + va % 2 ^ b.split

theorem Block.address_add (b : Block) {va i : ℕ} (h : va % 4096 + i < 4096) :
    b.address (va + i) = b.address va + i := by
  rw [address, address, add_mod_page h b.large, Nat.add_assoc]

theorem Block.address_mod (b : Block) (va : ℕ) : b.address va % 4096 = va % 4096 := by
  obtain ⟨k, hk⟩ := Nat.exists_eq_add_of_le b.large
  have hsize : 2 ^ b.split = 4096 * 2 ^ k := by
    rw [hk, pow_add]
    norm_num
  rw [address, hsize, Nat.mul_left_comm, Nat.mul_add_mod, Nat.mod_mod_of_dvd _ ⟨2 ^ k, rfl⟩]

/-- The addresses of the page of `va` are in one block, or all without a translation. -/
def InBlock (walk : PageTableWalk) (va : ℕ) : Prop :=
  ∃ w : Except ReadStop (Option Block), ∀ i, va % 4096 + i < 4096 →
    walk (va + i) = w.map (Option.map fun b => b.address (va + i))

/-- The addresses of the page of `va` are all taken to 0. -/
def Faults (walk : PageTableWalk) (va : ℕ) : Prop :=
  ∀ i, va % 4096 + i < 4096 → walk (va + i) = .ok (some 0)

theorem read_field_add {va i : ℕ} (h : va % 4096 + i < 4096) (hi : ℕ) {lo : ℕ} (hlo : 12 ≤ lo) :
    read_field (va + i) (hi, lo) = read_field va (hi, lo) := by
  rw [read_field_bits, read_field_bits, bits_add h hi hlo]

namespace Armv8MMU

variable (mmu : Armv8MMU) (va : ℕ)

theorem third_level_block (base : ℕ) :
    ∃ w : Option Block, ∀ i, va % 4096 + i < 4096 →
      mmu.third_level base (va + i) = w.map fun b => b.address (va + i) := by
  cases hdesc : mmu.do_tl_level_lookup base (read_field va (20, 12)) with
  | error e =>
    refine ⟨none, fun i hi => ?_⟩
    rw [third_level, read_field_add hi 20 le_rfl, hdesc]
    rfl
  | ok d =>
    refine ⟨some ⟨read_field d (47, 12), 12, le_rfl⟩, fun i hi => ?_⟩
    rw [third_level, read_field_add hi 20 le_rfl, hdesc]
    exact congrArg some (desc_2_phys_eq d (va + i) (by norm_num) (47, 12))

theorem second_level_block (base : ℕ) :
    ∃ w : Option Block, ∀ i, va % 4096 + i < 4096 →
      mmu.second_level base (va + i) = w.map fun b => b.address (va + i) := by
  cases hdesc : mmu.do_sl_level_lookup base (read_field va (29, 21)) with
  | error e =>
    refine ⟨none, fun i hi => ?_⟩
    rw [second_level, read_field_add hi 29 (by norm_num), hdesc]
    rfl
  | ok desc =>
    cases desc with
    | block d out =>
      refine ⟨some ⟨read_field d out, 21, by norm_num⟩, fun i hi => ?_⟩
      rw [second_level, read_field_add hi 29 (by norm_num), hdesc]
      exact congrArg some (desc_2_phys_eq d (va + i) (by norm_num) out)
    | table d =>
      obtain ⟨w, hw⟩ :=
        mmu.third_level_block va (write_field base (47, 12) (read_field d (47, 12)))
      refine ⟨w, fun i hi => ?_⟩
      rw [second_level, read_field_add hi 29 (by norm_num), hdesc]
      exact hw i hi

theorem in_block : InBlock (Mmu.armv8 mmu).page_table_walk va := by
  cases hdesc : mmu.do_fl_sl_level_lookup mmu.ttbr (read_field va (38, 30)) 12 30 with
  | error e =>
    refine ⟨.error (.invalid_translation e), fun i hi => ?_⟩
    rw [Mmu.page_table_walk, page_table_walk, read_field_add hi 38 (by norm_num), hdesc]
    rfl
  | ok desc =>
    cases desc with
    | block d out =>
      refine ⟨.ok (some ⟨read_field d out, 30, by norm_num⟩), fun i hi => ?_⟩
      rw [Mmu.page_table_walk, page_table_walk, read_field_add hi 38 (by norm_num), hdesc]
      exact congrArg (fun p => Except.ok (some p)) (desc_2_phys_eq d (va + i) (by norm_num) out)
    | table d =>
      obtain ⟨w, hw⟩ :=
        mmu.second_level_block va (write_field 0 (47, 12) (read_field d (47, 12)))
      refine ⟨.ok w, fun i hi => ?_⟩
      rw [Mmu.page_table_walk, page_table_walk, read_field_add hi 38 (by norm_num), hdesc]
      exact congrArg Except.ok (hw i hi)

end Armv8MMU

namespace Armv7LPAEMMU

variable (mmu : Armv7LPAEMMU) (va : ℕ)

theorem translate_third_level_block (table : ℕ) :
    ∃ w : Option Block, ∀ i, va % 4096 + i < 4096 →
      (mmu.translate_third_level (va + i) table).map LeafMapping.phys
        = w.map fun b => b.address (va + i) := by
  cases hdesc : mmu.do_tl_level_lookup table (read_field va (20, 12)) with
  | none =>
    refine ⟨none, fun i hi => ?_⟩
    rw [translate_third_level, read_field_add hi 20 le_rfl, hdesc]
    rfl
  | some d =>
    refine ⟨some ⟨read_field d (39, 12), 12, le_rfl⟩, fun i hi => ?_⟩
    rw [translate_third_level, read_field_add hi 20 le_rfl, hdesc]
    exact congrArg some (leaf_mapping_phys (va + i) d sz_4k (by norm_num) (39, 12))

theorem translate_from_second_block (hi : ℕ) {lo : ℕ} (hlo : 12 ≤ lo) (table : ℕ) :
    ∃ w : Option Block, ∀ i, va % 4096 + i < 4096 →
      (mmu.translate_from_second (va + i) (hi, lo) table).map LeafMapping.phys
        = w.map fun b => b.address (va + i) := by
  cases hdesc : mmu.do_fl_sl_level_lookup table (read_field va (hi, lo)) false with
  | none =>
    refine ⟨none, fun i hpage => ?_⟩
    rw [translate_from_second, translate_second_level, read_field_add hpage hi hlo, hdesc]
    rfl
  | some desc =>
    cases desc with
    | inl d =>
      refine ⟨some ⟨read_field d (39, mmu.initial_block_split), 21, by norm_num⟩,
        fun i hpage => ?_⟩
      rw [translate_from_second, translate_second_level, read_field_add hpage hi hlo, hdesc]
      exact congrArg some (leaf_mapping_phys (va + i) d sz_2m (by norm_num) _)
    | inr d =>
      obtain ⟨w, hw⟩ := mmu.translate_third_level_block va (next_table_addr d)
      refine ⟨w, fun i hpage => ?_⟩
      rw [translate_from_second, translate_second_level, read_field_add hpage hi hlo, hdesc]
      exact hw i hpage

theorem in_block : InBlock (Mmu.lpae mmu).page_table_walk va := by
  by_cases hlevel : mmu.initial_lkup_level = 1
  · have hfl : ∀ i, va % 4096 + i < 4096 →
        read_field (va + i) (mmu.input_addr_split + 26, 30)
          = read_field va (mmu.input_addr_split + 26, 30) :=
      fun i hi => read_field_add hi _ (by norm_num)
    cases hdesc : mmu.do_fl_sl_level_lookup mmu.pgtbl
      (read_field va (mmu.input_addr_split + 26, 30)) mmu.virt_for_fl with
    | none =>
      refine ⟨.ok none, fun i hi => ?_⟩
      rw [Mmu.page_table_walk, translate, if_pos hlevel, translate_first_level, hfl i hi, hdesc]
      rfl
    | some desc =>
      cases desc with
      | inl d =>
        refine ⟨.ok (some ⟨read_field d (39, 30), 30, by norm_num⟩), fun i hi => ?_⟩
        rw [Mmu.page_table_walk, translate, if_pos hlevel, translate_first_level, hfl i hi, hdesc]
        exact congrArg (fun p => Except.ok (some p))
          (leaf_mapping_phys (va + i) d sz_1g (by norm_num) _)
      | inr d =>
        have hsl : 12 ≤ 21 := by norm_num
        obtain ⟨w, hw⟩ := mmu.translate_from_second_block va 29 hsl (next_table_addr d)
        refine ⟨.ok w, fun i hi => ?_⟩
        rw [Mmu.page_table_walk, translate, if_pos hlevel, translate_first_level, hfl i hi, hdesc]
        exact congrArg Except.ok (hw i hi)
  · have hsl : 12 ≤ 21 := by norm_num
    obtain ⟨w, hw⟩ := mmu.translate_from_second_block va (mmu.input_addr_split + 17) hsl mmu.pgtbl
    refine ⟨.ok w, fun i hi => ?_⟩
    rw [Mmu.page_table_walk, translate, if_neg hlevel]
    exact congrArg Except.ok (hw i hi)

end Armv7LPAEMMU

namespace Armv7MMU

/-- A leaf translates its addresses in a row, or it is a fault. -/
theorem leaf_address_block (leaf : ShortLeaf) :
    (∃ b : Block, ∀ va, leaf_address va leaf = b.address va) ∨
      ∀ va, leaf_address va leaf = 0 := by
  cases leaf with
  | fault => exact .inr fun _ => rfl
  | section_1m d | supersection d =>
    refine .inl ⟨⟨bits 31 20 d, 20, by norm_num⟩, fun va => ?_⟩
    exact congrArg (bits 31 20 d * 2 ^ 20 + ·) (bits_zero 19 va)
  | large_page d =>
    refine .inl ⟨⟨bits 31 16 d, 16, by norm_num⟩, fun va => ?_⟩
    exact congrArg (bits 31 16 d * 2 ^ 16 + ·) (bits_zero 15 va)
  | small_page d =>
    refine .inl ⟨⟨bits 31 12 d, 12, le_rfl⟩, fun va => ?_⟩
    exact congrArg (bits 31 12 d * 2 ^ 12 + ·) (bits_zero 11 va)

theorem in_block (mmu : Armv7MMU) (va : ℕ) : InBlock (Mmu.armv7 mmu).page_table_walk va ∨
    Faults (Mmu.armv7 mmu).page_table_walk va := by
  have hwalk : ∀ i, va % 4096 + i < 4096 → mmu.page_table_walk (va + i)
      = (mmu.find_leaf (bits 31 20 va) (bits 19 12 va)).map (leaf_address (va + i)) := by
    intro i hi
    rw [page_table_walk_leaf, bits_add hi 31 (by norm_num), bits_add hi 19 le_rfl]
  cases hleaf : mmu.find_leaf (bits 31 20 va) (bits 19 12 va) with
  | none =>
    refine .inl ⟨.ok none, fun i hi => ?_⟩
    rw [Mmu.page_table_walk, hwalk i hi, hleaf]
    rfl
  | some leaf =>
    rcases leaf_address_block leaf with ⟨b, hb⟩ | hzero
    · refine .inl ⟨.ok (some b), fun i hi => ?_⟩
      rw [Mmu.page_table_walk, hwalk i hi, hleaf, Option.map_some, hb]
      rfl
    · refine .inr fun i hi => ?_
      rw [Mmu.page_table_walk, hwalk i hi, hleaf, Option.map_some, hzero]

end Armv7MMU

/-! ## A field of virtual memory

A field at an address divisible by its size lies in one page, so the two parts above apply
to it. Where the page has no translation, all its bytes are missing, and so is the field.
-/

section Field

variable {ebi_files : List EbiFile} {walk : PageTableWalk}

/-- A list of bytes of which the first raises is an error, the same one. -/
theorem mapM_range_error {α : Type} {n : ℕ} (hn : 0 < n) {f : ℕ → Except ReadStop α} {e : ReadStop}
    (h : f 0 = .error e) : (List.range n).mapM f = .error e := by
  obtain ⟨k, rfl⟩ := Nat.exists_eq_succ_of_ne_zero (Nat.pos_iff_ne_zero.mp hn)
  rw [List.range_succ_eq_map, List.mapM_cons, h]
  rfl

/-- The offsets in a field at an address divisible by its size stay in the page. -/
theorem Format.page_lt (format : Format) {va i : ℕ} (hva : format.size ∣ va)
    (hi : i < format.size) : va % 4096 + i < 4096 := by
  have hsize := format.size_dvd
  obtain ⟨l, hl⟩ : format.size ∣ 4096 := hsize.trans (by norm_num)
  obtain ⟨k, hk⟩ : format.size ∣ va % 4096 := (Nat.dvd_mod_iff ⟨l, hl⟩).mpr hva
  have hlt : k < l := by
    by_contra hge
    have hmul : format.size * l ≤ format.size * k := Nat.mul_le_mul_left _ (Nat.le_of_not_lt hge)
    omega
  calc va % 4096 + i < format.size * k + format.size := by omega
    _ = format.size * (k + 1) := by ring
    _ ≤ format.size * l := Nat.mul_le_mul_left _ hlt
    _ = 4096 := hl.symm

/-- A field of which no byte has a file is no value. -/
theorem virt_field_missing {format : Format} {va : ℕ}
    (h : ∀ i < format.size, virt_byte ebi_files walk (va + i) = .ok none) :
    virt_field ebi_files walk format va = .ok none := by
  have hbytes : (List.range format.size).mapM (fun i => virt_byte ebi_files walk (va + i))
      = .ok ((List.range format.size).map fun _ => none) :=
    mapM_eq_map fun i hi => h i (List.mem_range.mp hi)
  rw [virt_field, hbytes, ok_bind, map_range_none format.size_pos rfl]
  rfl

/-- The bytes of a field one by one, and all of them in a row, when the addresses of the
page are in one block. -/
theorem virt_field_in_block (hseg : Segmented ebi_files) {va : ℕ} (hblock : InBlock walk va)
    {format : Format} (hva : format.size ∣ va) :
    virt_field ebi_files walk format va
      = (walk va >>= fun phys => read_string_at ebi_files phys format) := by
  obtain ⟨w, hw⟩ := hblock
  have hpage := fun i (hi : i < format.size) => format.page_lt hva hi
  have hat : walk va = w.map (Option.map fun b => b.address va) :=
    hw 0 (hpage 0 format.size_pos)
  cases w with
  | error e =>
    have hfirst : virt_byte ebi_files walk (va + 0) = .error e := by
      rw [virt_byte, hw 0 (hpage 0 format.size_pos)]
      rfl
    rw [hat, virt_field, mapM_range_error format.size_pos hfirst]
    rfl
  | ok block =>
    cases block with
    | none =>
      have hnone : ∀ i < format.size, virt_byte ebi_files walk (va + i) = .ok none := by
        intro i hi
        rw [virt_byte, hw i (hpage i hi)]
        rfl
      rw [hat, virt_field_missing hnone]
      rfl
    | some b =>
      have hbytes : (List.range format.size).mapM (fun i => virt_byte ebi_files walk (va + i))
          = .ok ((List.range format.size).map fun i => phys_byte ebi_files (b.address va + i)) := by
        refine mapM_eq_map fun i hi => ?_
        have hlt := hpage i (List.mem_range.mp hi)
        rw [virt_byte, hw i hlt, ← b.address_add hlt]
        rfl
      have haddr : format.size ∣ b.address va := by
        have hsize : format.size ∣ 4096 := format.size_dvd.trans (by norm_num)
        rw [← Nat.dvd_mod_iff hsize, b.address_mod, Nat.dvd_mod_iff hsize]
        exact hva
      have hphys : walk va = .ok (some (b.address va)) := hat
      rw [hphys, ok_bind, read_string_at_eq hseg format haddr, virt_field, hbytes]
      rfl

/-- In a page of faults a field is read at the translation of its first byte, as long as no file
holds address 0. -/
theorem virt_field_faults {va : ℕ} (hfault : Faults walk va)
    (hzero : ∀ a ∈ ebi_files, ¬ a.Holds 0) {format : Format} (hva : format.size ∣ va) :
    virt_field ebi_files walk format va
      = (walk va >>= fun phys => read_string_at ebi_files phys format) := by
  have hfind : ebi_files.find? (fun a => a.Holds 0) = none := by
    rw [List.find?_eq_none]
    intro a ha
    rw [decide_eq_true_eq]
    exact hzero a ha
  have hpage := fun i (hi : i < format.size) => format.page_lt hva hi
  have hat : walk va = .ok (some 0) := hfault 0 (hpage 0 format.size_pos)
  have hnone : ∀ i < format.size, virt_byte ebi_files walk (va + i) = .ok none := by
    intro i hi
    rw [virt_byte, hfault i (hpage i hi), Except.map, Option.bind_some, phys_byte, hfind]
    rfl
  rw [virt_field_missing hnone, hat, ok_bind, read_string_at, read_physical, Option.bind_some,
    hfind]
  rfl

end Field

/-- `Armv7MMU` answers 0 for a fault, which must not be an address of the dump. -/
def ZeroFree (ebi_files : List EbiFile) : Mmu → Prop
  | .armv7 _ => ∀ a ∈ ebi_files, ¬ a.Holds 0
  | .lpae _ => True
  | .armv8 _ => True

theorem virt_field_eq {ebi_files : List EbiFile} (hseg : Segmented ebi_files) {mmu : Mmu}
    (hzero : ZeroFree ebi_files mmu) {format : Format} {va : ℕ} (hva : format.size ∣ va) :
    virt_field ebi_files mmu.page_table_walk format va
      = (mmu.page_table_walk va >>= fun phys => read_string_at ebi_files phys format) := by
  cases mmu with
  | armv7 mmu =>
    rcases mmu.in_block va with hblock | hfault
    · exact virt_field_in_block hseg hblock hva
    · exact virt_field_faults hfault hzero hva
  | lpae mmu => exact virt_field_in_block hseg (mmu.in_block va) hva
  | armv8 mmu => exact virt_field_in_block hseg (mmu.in_block va) hva

/-- In a run of reads at aligned addresses, each returns the field that the bytes of
virtual memory make up. -/
theorem RamDump.reads_virtual_memory {d : RamDump} (hseg : Segmented d.ebi_files) {mmu : Mmu}
    (hzero : ZeroFree d.ebi_files mmu) {reads : List (Format × ℕ)}
    (haligned : ∀ r ∈ reads, r.1.size ∣ r.2) :
    Memo.answers (reads.map fun r => d.read_string
        (fun a => virt_to_phys mmu.page_table_walk a false true) (.addr (some r.2)) r.1 true none)
        []
      = reads.map fun r => virt_field d.ebi_files mmu.page_table_walk r.1 r.2 := by
  have hplain : ∀ r : Format × ℕ, Memo.Answers (SoundTlb mmu.page_table_walk)
      (d.read_string (fun a => virt_to_phys mmu.page_table_walk a false true)
        (.addr (some r.2)) r.1 true none)
      (d.read_string (walk_each_time mmu.page_table_walk) (.addr (some r.2)) r.1 true none) :=
    fun r => d.read_string_answers (fun a => virt_to_phys_answers a false true) _ _ _ _
  rw [Memo.answers_eq_map hplain Memo.sound_nil]
  apply List.map_congr_left
  intro r hr
  exact (virt_field_eq hseg hzero (haligned r hr)).symm

/-! ## The tables of a 32-bit dump

A dump with short descriptors from the constructor on, so that the translator is the one the
program itself makes. The dump at the end has a page, a section, a fault, a supersection and
a descriptor that is not there.
-/

namespace RamDump

variable {d : RamDump}

theorem read_phys_word_lt {addr word : ℕ} (h : d.read_phys_word addr = .ok (some word)) :
    word < 2 ^ 32 := by
  rw [read_phys_word, read_string_at] at h
  split at h
  · cases h
  · next s hs =>
    split_ifs at h with hnil hlen
    · cases h
    · have hlt := leValue_lt s
      rw [hlen] at hlt
      cases h
      exact hlt
    · cases h

theorem read_phys_word_total (hseg : Segmented d.ebi_files) {addr : ℕ} (haddr : 4 ∣ addr) :
    ∃ word, d.read_phys_word addr = .ok word := by
  rw [read_phys_word, read_string_at_eq hseg .u32 haddr]
  exact ⟨_, rfl⟩

/-- The MMU `__init__` chooses for tables of 16 KB in front of the kernel. Its constructor
does not raise. -/
theorem choose_mmu_armv7 (hseg : Segmented d.ebi_files) (harm : d.arm64 = false)
    {phys_offset swapper_pg_dir_addr : ℕ} (hbase : 4 ∣ phys_offset + swapper_pg_dir_addr)
    (page_offset : ℕ) :
    ∃ mmu, d.choose_mmu phys_offset page_offset swapper_pg_dir_addr
      (swapper_pg_dir_addr + 0x4000) = .ok (.armv7 mmu) := by
  obtain ⟨mmu, hmmu⟩ := Armv7MMU.load_page_tables_total
    (fun _ haddr => read_phys_word_total hseg haddr) (fun _ _ => read_phys_word_lt) hbase
  have hsize : ((swapper_pg_dir_addr + 0x4000 : ℕ) : ℤ) - swapper_pg_dir_addr = 0x4000 := by
    omega
  refine ⟨mmu, ?_⟩
  rw [choose_mmu, harm, if_neg Bool.false_ne_true, if_pos hsize, hmmu]

/-- The MMU of such a dump translates as the walk of the architecture through the memory in
the dump, supersections apart. -/
theorem armv7_translates {phys_offset page_offset swapper_pg_dir_addr kernel_text_offset : ℕ}
    {mmu : Armv7MMU}
    (h : d.choose_mmu phys_offset page_offset swapper_pg_dir_addr kernel_text_offset
      = .ok (.armv7 mmu)) (virt : ℕ) :
    let walk :=
      short_walk (memory_of d.read_phys_word) (phys_offset + swapper_pg_dir_addr) virt
    (mmu.page_table_walk virt = none ↔ walk = none) ∧
      ∀ leaf, walk = some leaf →
        (mmu.page_table_walk virt = some (leaf.output virt) ↔
          ∀ d, leaf = .supersection d →
            bits 8 5 d = 0 ∧ bits 23 20 d = 0 ∧ bits 23 20 virt = 0) := by
  have hload : Armv7MMU.load_page_tables d.read_phys_word (phys_offset + swapper_pg_dir_addr)
      = .ok mmu := by
    unfold choose_mmu at h
    split_ifs at h
    · cases h
    · split at h
      · next mmu' hmmu =>
        cases h
        exact hmmu
      · cases h
    · obtain ⟨⟨t1sz, skip⟩, -, h⟩ := bind_ok h
      dsimp only at h
      split at h
      · cases h
      · cases h
  exact Armv7MMU.page_table_walk_spec hload (fun _ _ => read_phys_word_lt) virt

end RamDump

/-- A dump in three files: first-level descriptors (a table, a section, faults and a
supersection), a second-level table with one page, and the page's first words. -/
def short_dump : RamDump where
  ebi_files := [
    ⟨([0x80010001, 0x80100402] ++ List.replicate 14 0 ++ List.replicate 16 0x81040402).flatMap
      (leBytes 4), 0x80004000, 0x8000407f⟩,
    ⟨[0, 0x8001801e].flatMap (leBytes 4), 0x80010000, 0x80010007⟩,
    ⟨[0x12345678, 0x89abcdef].flatMap (leBytes 4), 0x80018000, 0x80018007⟩]
  arm64 := false
  address_of := fun _ => none
  long_size := 4

theorem short_dump_segmented : Segmented short_dump.ebi_files := by
  constructor <;> decide +kernel

/-- A page, a fault, a section, a descriptor the dump does not have, and a supersection in
its first megabyte and behind it. -/
theorem RamDump.armv7_translates_short_dump :
    ∃ mmu, short_dump.choose_mmu 0x80000000 0xc0000000 0x4000 0x8000 = .ok (.armv7 mmu) ∧
      mmu.page_table_walk 0x1abc = some 0x80018abc ∧ mmu.page_table_walk 0xabc = some 0 ∧
      mmu.page_table_walk 0x12abcd = some 0x8012abcd ∧ mmu.page_table_walk 0x2012345 = none ∧
      mmu.page_table_walk 0x1012345 = some 0x81012345 ∧
      mmu.page_table_walk 0x1112345 ≠ some 0x81112345 := by
  obtain ⟨mmu, hmmu⟩ := @choose_mmu_armv7 _ short_dump_segmented rfl 0x80000000 0x4000
    (by norm_num) 0xc0000000
  have hspec := armv7_translates hmmu
  have hat : ∀ virt leaf,
      short_walk (memory_of short_dump.read_phys_word) 0x80004000 virt = some leaf →
      (∀ d, leaf = .supersection d → bits 8 5 d = 0 ∧ bits 23 20 d = 0 ∧ bits 23 20 virt = 0) →
      mmu.page_table_walk virt = some (leaf.output virt) :=
    fun virt leaf hleaf hsuper => ((hspec virt).2 leaf hleaf).mpr hsuper
  refine ⟨mmu, hmmu, ?_, ?_, ?_, ?_, ?_, ?_⟩
  · exact hat _ (.small_page 0x8001801e) (by decide +kernel) (by simp)
  · exact hat _ .fault (by decide +kernel) (by simp)
  · exact hat _ (.section_1m 0x80100402) (by decide +kernel) (by simp)
  · exact (hspec _).1.mpr (by decide +kernel)
  · refine hat _ (.supersection 0x81040402) (by decide +kernel) fun d hd => ?_
    cases hd
    decide
  · intro heq
    have hsuper := ((hspec 0x1112345).2 (.supersection 0x81040402) (by decide +kernel)).mp heq
    exact absurd (hsuper _ rfl).2.2 (by decide)

/-- Reads through a copy of the tables in which the first megabyte has the page. -/
theorem RamDump.reads_virtual_memory_short_dump :
    Memo.answers (([(.u32, 0x1004), (.byte, 0x1000), (.u16, 0x1002), (.u64, 0x1000),
        (.u32, 0x1004), (.u32, 0x1008), (.u32, 0x2000)] : List (Format × ℕ)).map fun r =>
      short_dump.read_string (fun a => virt_to_phys
        (Mmu.armv7 ⟨[some 0x80010001], [[some 0, some 0x8001801e, some 0]]⟩).page_table_walk a
          false true) (.addr (some r.2)) r.1 true none) []
      = [.ok (some 0x89abcdef), .ok (some 0x78), .ok (some 0x1234),
        .ok (some 0x89abcdef12345678), .ok (some 0x89abcdef), .ok none, .ok none] := by
  rw [reads_virtual_memory short_dump_segmented]
  · decide +kernel
  · exact fun a ha => by revert a; decide +kernel
  · decide +kernel

end AndroidTools.Ramdump
