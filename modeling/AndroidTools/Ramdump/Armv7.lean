/-
`Armv7MMU`: translating an address through short-descriptor page tables.

The constructor copies both levels of the tables out of the dump, and `page_table_walk` looks into
the copies. Where the dump has a descriptor the class answers what the walk of the architecture
finds, 0 for a fault. A supersection it takes for a section, so its answer is right in the first
megabyte of one whose output address has no bits beyond 31:24.

The walk of the architecture works on memory, and the class on its copies, so the comparison has
two steps. `find_leaf_eq` says that the copies have what the walk finds, and the rest is about
what is made of a leaf. Reads are a parameter, in any monad of exceptions, since the same class is
used on dumps with different files.
-/
import AndroidTools.Lib.Passes
import AndroidTools.Ramdump.Mmu

set_option autoImplicit false

namespace AndroidTools.Ramdump

open Passes

/-! ## The class

The constructor reads both levels of the tables and keeps them as lists, and a walk
afterwards looks into the lists only. A word that no file has is kept as `None`, and a walk
that comes to it has no answer.
-/

/-- What the constructor keeps: `global_page_table`, and of `secondary_page_tables` the row of
each entry. -/
structure Armv7MMU where
  global_page_table : List (Option ℕ)
  secondary_page_tables : List (List (Option ℕ))
  deriving Repr, DecidableEq

namespace Armv7MMU

section Load

variable {ε : Type} (read_word : ℕ → Except ε (Option ℕ))

/-- The loop over a second-level table, which reads its 256 words. -/
def load_secondary (l2_pt_base : ℕ) : Except ε (List (Option ℕ)) :=
  (List.range 256).mapM fun se_i => read_word (l2_pt_base + 4 * se_i)

/-- A pass of the loop over the first-level table: the descriptor, and its row of
`secondary_page_tables`, zeros where there is no table. -/
def load_entry (l1_pte_ptr : ℕ) : Except ε (Option ℕ × List (Option ℕ)) := do
  let l1_pte ← read_word l1_pte_ptr
  match l1_pte with
  | none => pure (none, List.replicate 256 (some 0))
  | some l1_pte =>
    if l1_pte &&& 3 = 1 then do
      let row ← load_secondary read_word (Nat.ldiff l1_pte 0x3ff)
      pure (some l1_pte, row)
    else pure (some l1_pte, List.replicate 256 (some 0))

/-- `load_page_tables`, for a first-level table at `msm_ttbr0`. -/
def load_page_tables (msm_ttbr0 : ℕ) : Except ε Armv7MMU := do
  let rows ← (List.range 4096).mapM fun gb_i => load_entry read_word (msm_ttbr0 + 4 * gb_i)
  pure ⟨rows.map Prod.fst, rows.map Prod.snd⟩

end Load

/-- `page_table_walk`; a list has an element at every index it is asked for. -/
def page_table_walk (mmu : Armv7MMU) (virt : ℕ) : Option ℕ :=
  let global_offset := bvalsel 31 20 virt
  match mmu.global_page_table[global_offset]?.join with
  | none => none
  | some l1_pte =>
    let section_or_fault :=
      if bvalsel 1 0 l1_pte = 2 then (bm 31 20 &&& l1_pte) + bvalsel 19 0 virt else 0
    if bvalsel 1 0 l1_pte = 1 then
      let row := mmu.secondary_page_tables[global_offset]?.getD []
      match row[bvalsel 19 12 virt]?.join with
      | none => none
      | some l2_pte =>
        if bvalsel 1 0 l2_pte = 2 ∨ bvalsel 1 0 l2_pte = 3 then
          some ((l2_pte &&& bm 31 12) + bvalsel 11 0 virt)
        else if bvalsel 1 0 l2_pte = 1 then
          some ((l2_pte &&& bm 31 16) + bvalsel 15 0 virt)
        else some section_or_fault
    else some section_or_fault

end Armv7MMU

/-! ## The walk of the architecture

What a walk of short descriptors finds, from memory and without the class. It has all four
sizes, and the 40 bits of a supersection, so that the difference to the class can be stated.
-/

/-- What the walk of short descriptors comes to: a fault, or a descriptor of one of four sizes. -/
inductive ShortLeaf where
  | fault
  | section_1m (descriptor : ℕ)
  | supersection (descriptor : ℕ)
  | large_page (descriptor : ℕ)
  | small_page (descriptor : ℕ)
  deriving Repr, DecidableEq

/-- The output address, 0 for a fault. A supersection has 40 bits of it. -/
def ShortLeaf.output (virt : ℕ) : ShortLeaf → ℕ
  | fault => 0
  | section_1m d => bits 31 20 d * 2 ^ 20 + bits 19 0 virt
  | supersection d =>
    bits 8 5 d * 2 ^ 36 + bits 23 20 d * 2 ^ 32 + bits 31 24 d * 2 ^ 24 + bits 23 0 virt
  | large_page d => bits 31 16 d * 2 ^ 16 + bits 15 0 virt
  | small_page d => bits 31 12 d * 2 ^ 12 + bits 11 0 virt

/-- What a second-level descriptor is: a small page, a large page, or a fault. -/
def short_second (d : ℕ) : ShortLeaf :=
  if bits 1 0 d = 0 then .fault else if bits 1 0 d = 1 then .large_page d else .small_page d

/-- The walk of the architecture from `ttbr`; `none` where memory has no descriptor. -/
def short_walk (mem : ℕ → Option ℕ) (ttbr virt : ℕ) : Option ShortLeaf :=
  (mem (ttbr + 4 * bits 31 20 virt)).bind fun d =>
    if bits 1 0 d = 1 then
      (mem (bits 31 10 d * 2 ^ 10 + 4 * bits 19 12 virt)).map short_second
    else if bits 1 0 d = 2 then
      some (if bits 18 18 d = 0 then .section_1m d else .supersection d)
    else some .fault

/-- The word at an address, nothing where it cannot be read. -/
def memory_of {ε : Type} (read_word : ℕ → Except ε (Option ℕ)) (addr : ℕ) : Option ℕ :=
  match read_word addr with
  | .ok word => word
  | .error _ => none

theorem memory_of_ok {ε : Type} {read_word : ℕ → Except ε (Option ℕ)} {addr : ℕ} {word : Option ℕ}
    (h : read_word addr = .ok word) : memory_of read_word addr = word := by
  rw [memory_of, h]

/-! ## Masks

The class masks and shifts where the architecture speaks of bits `hi` down to `lo`. Each of
the masks it uses is such a range of bits.
-/

theorem bvalsel_bits (hi lo v : ℕ) : bvalsel hi lo v = bits hi lo v := bvalsel_eq hi lo v

theorem and_bm (hi lo v : ℕ) : v &&& bm hi lo = bits hi lo v * 2 ^ lo := by
  apply Nat.eq_of_testBit_eq
  intro i
  rw [Nat.testBit_and, testBit_bm, bits, ← Nat.shiftLeft_eq, Nat.testBit_shiftLeft,
    Nat.testBit_mod_two_pow, Nat.testBit_div_two_pow]
  by_cases hlo : lo ≤ i
  · have hback : i - lo + lo = i := by omega
    have hiff : i - lo < hi + 1 - lo ↔ i ≤ hi := by omega
    simp only [hlo, true_and, decide_true, Bool.true_and, hback, hiff]
    exact Bool.and_comm ..
  · simp only [hlo, false_and, decide_false, Bool.and_false, Bool.false_and]

theorem and_three (v : ℕ) : v &&& 3 = bits 1 0 v := by
  have hmask : (3 : ℕ) = bm 1 0 := by decide
  rw [hmask, and_bm, pow_zero, mul_one]

/-- Masking a first-level descriptor leaves the base of its second-level table. -/
theorem ldiff_table {d : ℕ} (hd : d < 2 ^ 32) : Nat.ldiff d 0x3ff = bits 31 10 d * 2 ^ 10 := by
  have hbits : bits 31 10 d = d / 2 ^ 10 := Nat.mod_eq_of_lt (Nat.div_lt_of_lt_mul (by omega))
  have hmask : (0x3ff : ℕ) = 2 ^ 10 - 1 := by norm_num
  apply Nat.eq_of_testBit_eq
  intro i
  rw [hbits, hmask, Nat.testBit_ldiff, Nat.testBit_two_pow_sub_one, ← Nat.shiftLeft_eq,
    Nat.testBit_shiftLeft, Nat.testBit_div_two_pow]
  by_cases hi : 10 ≤ i
  · have hback : i - 10 + 10 = i := by omega
    have hout : ¬ i < 10 := by omega
    simp only [hi, hback, hout, decide_true, decide_false, Bool.not_false, Bool.and_true,
      Bool.true_and]
  · have hin : i < 10 := by omega
    simp only [hi, hin, decide_true, decide_false, Bool.not_true, Bool.and_false, Bool.false_and]

/-! ## The copies

What stands in the lists after the loops. At every index of a first-level entry there is the
word of memory, and behind a table descriptor the 256 words of its table.
-/

namespace Armv7MMU

variable {ε : Type} {read_word : ℕ → Except ε (Option ℕ)} {mmu : Armv7MMU}

/-- The copy of a first-level entry, and of the table behind it. -/
theorem load_page_tables_entry {msm_ttbr0 : ℕ} (h : load_page_tables read_word msm_ttbr0 = .ok mmu)
    {i : ℕ} (hi : i < 4096) :
    ∃ entry, load_entry read_word (msm_ttbr0 + 4 * i) = .ok entry ∧
      mmu.global_page_table[i]? = some entry.1 ∧ mmu.secondary_page_tables[i]? = some entry.2 := by
  obtain ⟨rows, hrows, hmmu⟩ := bind_ok h
  cases hmmu
  have hall := mapM_ok hrows
  have hlen : i < rows.length := by
    rw [← hall.length_eq, List.length_range]
    exact hi
  have hentry := hall.get (i := i) (by rw [List.length_range]; exact hi) hlen
  rw [List.get_eq_getElem, List.get_eq_getElem, List.getElem_range] at hentry
  refine ⟨rows[i], hentry, ?_, ?_⟩
  · rw [List.getElem?_map, List.getElem?_eq_getElem hlen, Option.map_some]
  · rw [List.getElem?_map, List.getElem?_eq_getElem hlen, Option.map_some]

theorem load_secondary_word {base : ℕ} {row : List (Option ℕ)}
    (h : load_secondary read_word base = .ok row) {i : ℕ} (hi : i < 256) :
    row[i]?.join = memory_of read_word (base + 4 * i) := by
  have hall := mapM_ok h
  have hlen : i < row.length := by
    rw [← hall.length_eq, List.length_range]
    exact hi
  have hword := hall.get (i := i) (by rw [List.length_range]; exact hi) hlen
  rw [List.get_eq_getElem, List.get_eq_getElem, List.getElem_range] at hword
  rw [List.getElem?_eq_getElem hlen, Option.join_some, memory_of_ok hword]

/-- What the copies hold for an address: the descriptor that memory has, and behind a table
descriptor the word of the table. -/
theorem load_entry_spec {ptr : ℕ} {entry : Option ℕ × List (Option ℕ)}
    (h : load_entry read_word ptr = .ok entry) :
    entry.1 = memory_of read_word ptr ∧
      ∀ d, entry.1 = some d → bits 1 0 d = 1 → ∀ i < 256,
        entry.2[i]?.join = memory_of read_word (Nat.ldiff d 0x3ff + 4 * i) := by
  obtain ⟨word, hword, h⟩ := bind_ok h
  rw [memory_of_ok hword]
  cases word with
  | none =>
    cases h
    refine ⟨rfl, fun d hd => ?_⟩
    cases hd
  | some d =>
    dsimp only at h
    rw [and_three] at h
    split_ifs at h with htable
    · obtain ⟨row, hrow, h⟩ := bind_ok h
      cases h
      refine ⟨rfl, fun d' hd _ i hi => ?_⟩
      cases hd
      exact load_secondary_word hrow hi
    · cases h
      refine ⟨rfl, fun d' hd hd' => ?_⟩
      cases hd
      exact absurd hd' htable

/-! ## The walk over the copies

The leaf in the copies is the leaf in memory, and the class makes an address of it. Only for
supersections is that another address than the one of the architecture, and
`supersection_address_iff` says for which.
-/

/-- The address that `page_table_walk` makes of a leaf; a supersection counts as a section. -/
def leaf_address (virt : ℕ) : ShortLeaf → ℕ
  | .supersection d => bits 31 20 d * 2 ^ 20 + bits 19 0 virt
  | leaf => leaf.output virt

/-- The leaf the copies have for the two indices of an address. -/
def find_leaf (mmu : Armv7MMU) (first second : ℕ) : Option ShortLeaf :=
  mmu.global_page_table[first]?.join.bind fun d =>
    if bits 1 0 d = 1 then
      (mmu.secondary_page_tables[first]?.getD [])[second]?.join.map short_second
    else if bits 1 0 d = 2 then
      some (if bits 18 18 d = 0 then .section_1m d else .supersection d)
    else some .fault

theorem page_table_walk_leaf (mmu : Armv7MMU) (virt : ℕ) :
    mmu.page_table_walk virt
      = (mmu.find_leaf (bits 31 20 virt) (bits 19 12 virt)).map (leaf_address virt) := by
  simp only [page_table_walk, find_leaf, bvalsel_bits]
  cases mmu.global_page_table[bits 31 20 virt]?.join with
  | none => rfl
  | some d =>
    dsimp only [Option.bind_some]
    by_cases htable : bits 1 0 d = 1
    · have hnot : ¬ bits 1 0 d = 2 := by omega
      rw [if_pos htable, if_pos htable]
      cases (mmu.secondary_page_tables[bits 31 20 virt]?.getD [])[bits 19 12 virt]?.join with
      | none => rfl
      | some l2 =>
        have hcases : bits 1 0 l2 < 4 := bits_lt 1 0 l2
        dsimp only [Option.map_some]
        rw [short_second]
        by_cases hzero : bits 1 0 l2 = 0
        · simp [hzero, hnot, leaf_address, ShortLeaf.output]
        by_cases hone : bits 1 0 l2 = 1
        · simp [hone, leaf_address, ShortLeaf.output, and_bm]
        · have hpage : bits 1 0 l2 = 2 ∨ bits 1 0 l2 = 3 := by omega
          simp [hzero, hone, hpage, leaf_address, ShortLeaf.output, and_bm]
    · rw [if_neg htable, if_neg htable]
      by_cases hsection : bits 1 0 d = 2
      · rw [if_pos hsection, if_pos hsection, Nat.land_comm, and_bm]
        by_cases hsuper : bits 18 18 d = 0
        · rw [if_pos hsuper]
          rfl
        · rw [if_neg hsuper]
          rfl
      · rw [if_neg hsection, if_neg hsection]
        rfl

/-- The copies have what the walk finds in memory. -/
theorem find_leaf_eq {msm_ttbr0 : ℕ} (h : load_page_tables read_word msm_ttbr0 = .ok mmu)
    (hword : ∀ a d, read_word a = .ok (some d) → d < 2 ^ 32) (virt : ℕ) :
    mmu.find_leaf (bits 31 20 virt) (bits 19 12 virt)
      = short_walk (memory_of read_word) msm_ttbr0 virt := by
  have hindex : bits 31 20 virt < 4096 := bits_lt 31 20 virt
  have hindex' : bits 19 12 virt < 256 := bits_lt 19 12 virt
  obtain ⟨entry, hentry, hglobal, hrow⟩ := load_page_tables_entry h hindex
  obtain ⟨hfirst, hsecond⟩ := load_entry_spec hentry
  rw [find_leaf, short_walk, hglobal, hrow, Option.join_some, ← hfirst]
  cases hd : entry.1 with
  | none => rfl
  | some d =>
    have hlt : d < 2 ^ 32 := by
      rw [hfirst, memory_of] at hd
      split at hd
      · next heq =>
        rw [hd] at heq
        exact hword _ _ heq
      · cases hd
    rw [Option.bind_some, Option.bind_some, Option.getD_some]
    by_cases htable : bits 1 0 d = 1
    · rw [if_pos htable, if_pos htable, hsecond d hd htable _ hindex', ldiff_table hlt]
    · rw [if_neg htable, if_neg htable]

/-- The address of a supersection against the one its descriptor taken for a section gives. -/
theorem supersection_address_iff (d virt : ℕ) :
    leaf_address virt (.supersection d) = (ShortLeaf.supersection d).output virt ↔
      bits 8 5 d = 0 ∧ bits 23 20 d = 0 ∧ bits 23 20 virt = 0 := by
  have hbase : bits 31 20 d = bits 31 24 d * 16 + bits 23 20 d := by
    simp only [bits]
    omega
  have hoffset : bits 23 0 virt = bits 23 20 virt * 2 ^ 20 + bits 19 0 virt := by
    simp only [bits]
    omega
  have hhigh : bits 31 24 d < 2 ^ 8 := bits_lt 31 24 d
  have hmid : bits 23 20 d < 2 ^ 4 := bits_lt 23 20 d
  have hlow : bits 19 0 virt < 2 ^ 20 := bits_lt 19 0 virt
  rw [leaf_address, ShortLeaf.output, hbase, hoffset]
  constructor
  · intro heq
    have hext : bits 8 5 d = 0 ∧ bits 23 20 d = 0 := by omega
    exact ⟨hext.1, hext.2, by omega⟩
  · rintro ⟨hext, hext', hvirt⟩
    rw [hext, hext', hvirt]
    omega

/-- The class has no answer exactly where the walk meets a descriptor the dump does not
have, and its answer is the output address except in supersections, where the descriptor
must have no bits of the extended address and the address be in the first megabyte. -/
theorem page_table_walk_spec {msm_ttbr0 : ℕ}
    (h : load_page_tables read_word msm_ttbr0 = .ok mmu)
    (hword : ∀ a d, read_word a = .ok (some d) → d < 2 ^ 32) (virt : ℕ) :
    (mmu.page_table_walk virt = none ↔
        short_walk (memory_of read_word) msm_ttbr0 virt = none) ∧
      ∀ leaf, short_walk (memory_of read_word) msm_ttbr0 virt = some leaf →
        (mmu.page_table_walk virt = some (leaf.output virt) ↔
          ∀ d, leaf = .supersection d →
            bits 8 5 d = 0 ∧ bits 23 20 d = 0 ∧ bits 23 20 virt = 0) := by
  rw [page_table_walk_leaf, find_leaf_eq h hword]
  refine ⟨Option.map_eq_none_iff, fun leaf hleaf => ?_⟩
  rw [hleaf, Option.map_some, Option.some.injEq]
  cases leaf with
  | supersection d =>
    rw [supersection_address_iff]
    constructor
    · intro hbits d' hd
      cases hd
      exact hbits
    · exact fun hbits => hbits d rfl
  | fault | section_1m | large_page | small_page =>
    refine ⟨fun _ d hd => ?_, fun _ => rfl⟩
    cases hd

/-- The tables can be loaded whenever no aligned word raises. -/
theorem load_page_tables_total (hread : ∀ a, 4 ∣ a → ∃ word, read_word a = .ok word)
    (hword : ∀ a d, read_word a = .ok (some d) → d < 2 ^ 32) {msm_ttbr0 : ℕ}
    (hbase : 4 ∣ msm_ttbr0) : ∃ mmu, load_page_tables read_word msm_ttbr0 = .ok mmu := by
  have hentry : ∀ i ∈ List.range 4096,
      ∃ entry, load_entry read_word (msm_ttbr0 + 4 * i) = .ok entry := by
    intro i _
    obtain ⟨word, hptr⟩ := hread (msm_ttbr0 + 4 * i) (by omega)
    rw [load_entry, hptr, ok_bind]
    cases word with
    | none => exact ⟨_, rfl⟩
    | some d =>
      dsimp only
      split_ifs
      · have hrow : ∃ row, load_secondary read_word (Nat.ldiff d 0x3ff) = .ok row := by
          refine mapM_total fun se_i _ => hread _ ?_
          rw [ldiff_table (hword _ _ hptr)]
          omega
        obtain ⟨row, hrow⟩ := hrow
        exact ⟨(some d, row), by rw [hrow]; rfl⟩
      · exact ⟨_, rfl⟩
  obtain ⟨rows, hrows⟩ := mapM_total hentry
  exact ⟨_, by rw [load_page_tables, hrows]; rfl⟩

end Armv7MMU

end AndroidTools.Ramdump
