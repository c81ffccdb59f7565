/-
`get_flat_mappings`: every leaf of the page tables of an IOMMU domain.

One register `virt_r` goes through three nested loops. Each loop assigns its index field and the
outermost one clears the register, but nothing clears the third index when the second loop goes
on, so after a second-level table it stays at 511. A second-level block found there is filed under
an address 511 pages too high. `BlockAfterTable` is that shape of the tables; without it every
leaf is filed where the walk finds it.

The loops are followed assignment by assignment, with the index that is left over as part of what
is said about each slot. The leaves of the tables, in contrast, are listed by the architecture,
each with the address it translates, and are in order; the two lists are then compared slot by
slot.
-/
import Mathlib
import AndroidTools.Lib.Dict
import AndroidTools.Ramdump.Mmu

set_option autoImplicit false

namespace AndroidTools.Ramdump

open AndroidTools.Dict

/-! ## The loops

The three loops over one register, each of which assigns the field of its index. The
dictionary is what has been assigned, a later assignment under the same key taking the place
of an earlier one.
-/

/-- An item of the dictionary, `((virt_start, virt_end), info)`. -/
abbrev MappingEntry := (ℕ × ℕ) × LeafMapping

/-- The state of the loops: `virt_r`, and the assignments to `mappings` so far. -/
structure FlatState where
  virt_r : ℕ
  assigned : List MappingEntry
  deriving Repr, DecidableEq

/-- `mappings[virt, virt + info.page_size] = info`, at the address in the register. -/
def FlatState.assign (s : FlatState) (info : LeafMapping) : FlatState :=
  { s with assigned := s.assigned ++ [((s.virt_r, s.virt_r + info.page_size), info)] }

/-- `NUM_FL_PTE`, the entries of a first-level table. -/
def num_fl_pte : ℕ := 4

/-- `NUM_SL_PTE`, the entries of a second-level table. -/
def num_sl_pte : ℕ := 512

/-- `NUM_TL_PTE`, the entries of a third-level table. -/
def num_tl_pte : ℕ := 512

section Loops

variable (mmu : Armv7LPAEMMU)

/-- The body of the loop over `tl_index`, at a third-level table. -/
def flat_third (table : ℕ) (s : FlatState) (tl_index : ℕ) : FlatState :=
  let s := { s with virt_r := write_field s.virt_r (20, 12) tl_index }
  match mmu.translate_third_level s.virt_r table with
  | none => s
  | some info3 => s.assign info3

/-- The body of the loop over `sl_index`, at a second-level table. -/
def flat_second (table : ℕ) (s : FlatState) (sl_index : ℕ) : FlatState :=
  let s := { s with virt_r := write_field s.virt_r (29, 21) sl_index }
  match mmu.translate_second_level s.virt_r (29, 21) table with
  | none => s
  | some (.leaf info2) => s.assign info2
  | some (.table next) => (List.range num_tl_pte).foldl (flat_third mmu next) s

/-- The body of the loop over `fl_index`, which begins with a cleared register. -/
def flat_first (s : FlatState) (fl_index : ℕ) : FlatState :=
  let s := { s with virt_r := write_field 0 (mmu.input_addr_split + 26, 30) fl_index }
  match mmu.translate_first_level s.virt_r with
  | none => s
  | some (.leaf info1) => s.assign info1
  | some (.table next) => (List.range num_sl_pte).foldl (flat_second mmu next) s

/-- All assignments of the three loops, in order. -/
def flat_assignments : List MappingEntry :=
  ((List.range num_fl_pte).foldl (flat_first mmu) ⟨0, []⟩).assigned

end Loops

/-- The order of the keys in `sorted(mappings.items())`. -/
def key_le (k l : ℕ × ℕ) : Bool := decide (k.1 < l.1 ∨ k.1 = l.1 ∧ k.2 ≤ l.2)

/-- `get_flat_mappings`: the dictionary after the loops, in the order of its keys. -/
def get_flat_mappings (mmu : Armv7LPAEMMU) : List MappingEntry :=
  sortItems key_le ((flat_assignments mmu).foldl dictSet [])

/-! ## The leaves of the tables

What the dictionary should hold: the valid leaf descriptors, slot by slot, each with the
address that the architecture translates through it.
-/

/-- The address with these three indices and page index zero. -/
def virt_of (fl sl tl : ℕ) : ℕ := fl * 2 ^ 30 + sl * 2 ^ 21 + tl * 2 ^ 12

def ArchLeaf.size : ArchLeaf → ℕ
  | block_1g _ => sz_1g
  | block_2m _ => sz_2m
  | page _ => sz_4k

def ArchLeaf.descriptor : ArchLeaf → ℕ
  | block_1g d => d
  | block_2m d => d
  | page d => d

section Leaves

variable (mem : ℕ → Bool → Option ℕ)

/-- Slot `fl` of the first-level table of an instance with `t0sz` 0. -/
def first_slot (pgtbl : ℕ) (v : Bool) (fl : ℕ) : Option ℕ :=
  mem (bits 39 5 pgtbl * 2 ^ 5 + 8 * fl) v

/-- Slot `i` of the table that the descriptor `d` points to. -/
def next_slot (d i : ℕ) : Option ℕ := mem (bits 39 12 d * 2 ^ 12 + 8 * i) false

/-- The leaf in slot `tl` of a third-level table, with the address it translates. -/
def third_leaves (fl sl d tl : ℕ) : List (ℕ × ArchLeaf) :=
  match next_slot mem d tl with
  | none => []
  | some e => if bits 1 0 e = 3 then [(virt_of fl sl tl, .page e)] else []

/-- The leaves from slot `sl` on down. -/
def second_leaves (fl d sl : ℕ) : List (ℕ × ArchLeaf) :=
  match next_slot mem d sl with
  | none => []
  | some e =>
    if bits 1 0 e = 1 then [(virt_of fl sl 0, .block_2m e)]
    else if bits 1 0 e = 3 then (List.range num_tl_pte).flatMap (third_leaves mem fl sl e)
    else []

/-- The leaves from slot `fl` on down. -/
def first_leaves (pgtbl : ℕ) (v : Bool) (fl : ℕ) : List (ℕ × ArchLeaf) :=
  match first_slot mem pgtbl v fl with
  | none => []
  | some d =>
    if bits 1 0 d = 1 then [(virt_of fl 0 0, .block_1g d)]
    else if bits 1 0 d = 3 then (List.range num_sl_pte).flatMap (second_leaves mem fl d)
    else []

/-- The valid leaf descriptors reachable from `pgtbl`, in the order of the slots. -/
def table_leaves (pgtbl : ℕ) (v : Bool) : List (ℕ × ArchLeaf) :=
  (List.range num_fl_pte).flatMap (first_leaves mem pgtbl v)

/-- In some second-level table a block has a table in a slot before it. -/
def BlockAfterTable (pgtbl : ℕ) (v : Bool) : Prop :=
  ∃ fl < num_fl_pte, ∃ d, first_slot mem pgtbl v fl = some d ∧ bits 1 0 d = 3 ∧
    ∃ i j, i < j ∧ j < num_sl_pte ∧ (∃ e, next_slot mem d i = some e ∧ bits 1 0 e = 3) ∧
      ∃ e, next_slot mem d j = some e ∧ bits 1 0 e = 1

end Leaves

/-- What the dictionary promises: one entry for each leaf, aligned and disjoint
ranges, and the mapping that `translate` finds at the start of the range. -/
structure FlatAgrees (mem : ℕ → Bool → Option ℕ) (pgtbl : ℕ) (v : Bool) (mmu : Armv7LPAEMMU)
    (flat : List MappingEntry) : Prop where
  one_per_leaf : (flat.map fun e => e.2.descriptor).Perm
    ((table_leaves mem pgtbl v).map fun l => l.2.descriptor)
  aligned : ∀ e ∈ flat, e.1.1 < e.1.2 ∧ e.1.2 - e.1.1 ∣ e.1.1
  disjoint : flat.Pairwise fun e f => Disjoint (Set.Ico e.1.1 e.1.2) (Set.Ico f.1.1 f.1.2)
  translated : ∀ e ∈ flat, ∃ m, mmu.translate e.1.1 = some m ∧ e.2.phys = m.phys ∧
    e.2.page_size = m.page_size ∧ e.2.page_size = e.1.2 - e.1.1

/-! ## The register

The index fields of the register are assigned and read back here as parts of a number, so
that later on the register is the address made of its three indices.
-/

section Virt

variable {fl sl tl : ℕ}

theorem write_fl (fl : ℕ) : write_field 0 (31, 30) fl = virt_of fl 0 0 := by
  simp only [write_field_zero, virt_of, zero_mul, add_zero]

theorem write_sl (hsl : sl < 512) (htl : tl < 512) {i : ℕ} (hi : i < 512) :
    write_field (virt_of fl sl tl) (29, 21) i = virt_of fl i tl := by
  rw [write_field_eq (by norm_num) _ (by norm_num; exact hi), virt_of, virt_of]
  omega

theorem write_tl (htl : tl < 512) {i : ℕ} (hi : i < 512) :
    write_field (virt_of fl sl tl) (20, 12) i = virt_of fl sl i := by
  rw [write_field_eq (by norm_num) _ (by norm_num; exact hi), virt_of, virt_of]
  omega

theorem bits_fl (hfl : fl < 4) (hsl : sl < 512) (htl : tl < 512) :
    bits 31 30 (virt_of fl sl tl) = fl := by
  simp only [bits, virt_of]
  omega

theorem bits_sl (hsl : sl < 512) (htl : tl < 512) : bits 29 21 (virt_of fl sl tl) = sl := by
  simp only [bits, virt_of]
  omega

theorem bits_tl (htl : tl < 512) : bits 20 12 (virt_of fl sl tl) = tl := by
  simp only [bits, virt_of]
  omega

end Virt

/-! ## The levels at an address of the loops

The function calls the lookups of the class with the register as the address. At an address
of the loops they come to the slot of the indices, level by level.
-/

section Levels

open Armv7LPAEMMU

variable {mem : ℕ → Bool → Option ℕ} {pgtbl : ℕ} {v : Bool} {fl sl tl : ℕ}

/-- The instance of the class for `t0sz` 0, from which the function is called. -/
def flat_mmu (mem : ℕ → Bool → Option ℕ) (pgtbl : ℕ) (v : Bool) : Armv7LPAEMMU :=
  ⟨mem, pgtbl, v, 1, 12, 5⟩

theorem lpae_mmu_zero : lpae_mmu mem pgtbl 0 v = some (flat_mmu mem pgtbl v) := rfl

theorem lt_flat_split : 3 < (flat_mmu mem pgtbl v).input_addr_split := by
  simp only [flat_mmu]
  norm_num

theorem flat_split_le : (flat_mmu mem pgtbl v).input_addr_split ≤ 12 := by
  simp only [flat_mmu]
  norm_num

theorem third_level (htl : tl < 512) (d : ℕ) :
    (flat_mmu mem pgtbl v).translate_third_level (virt_of fl sl tl) (next_table_addr d)
      = (next_slot mem d tl).bind fun e =>
          if bits 1 0 e = 3 then some (ArchLeaf.mapping 12 (virt_of fl sl tl) (.page e))
          else none := by
  have hlevel := translate_third_level_eq (@lt_flat_split mem pgtbl v) flat_split_le d
    (virt_of fl sl tl) 12
  rw [hlevel, walk_third, bits_tl htl]
  change Option.map _ (match next_slot mem d tl with | none => none | some e => _) = _
  cases next_slot mem d tl with
  | none => rfl
  | some e =>
    dsimp only [Option.bind_some]
    split_ifs <;> rfl

theorem second_level (hsl : sl < 512) (htl : tl < 512) (d : ℕ) :
    (flat_mmu mem pgtbl v).translate_second_level (virt_of fl sl tl) (29, 21) (next_table_addr d)
      = (next_slot mem d sl).bind fun e =>
          if bits 1 0 e = 1 then some (.leaf (ArchLeaf.mapping 12 (virt_of fl sl tl) (.block_2m e)))
          else if bits 1 0 e = 3 then some (.table (next_table_addr e))
          else none := by
  have haddr := descriptor_addr_next (@lt_flat_split mem pgtbl v) flat_split_le (bits_lt 39 12 d)
    hsl
  rw [translate_second_level, do_fl_sl_level_lookup, do_level_lookup, read_field_bits,
    bits_sl hsl htl, next_table_addr_eq, haddr]
  change Option.map _ (match next_slot mem d sl with | none => none | some e => _) = _
  cases next_slot mem d sl with
  | none => rfl
  | some e =>
    dsimp only [Option.bind_some]
    rw [dtype_eq]
    split_ifs <;> rfl

theorem first_level (hfl : fl < 4) :
    (flat_mmu mem pgtbl v).translate_first_level (virt_of fl 0 0)
      = (first_slot mem pgtbl v fl).bind fun d =>
          if bits 1 0 d = 1 then some (.leaf (ArchLeaf.mapping 12 (virt_of fl 0 0) (.block_1g d)))
          else if bits 1 0 d = 3 then some (.table (next_table_addr d))
          else none := by
  have haddr := descriptor_addr_initial (@lt_flat_split mem pgtbl v)
    (show fl < 2 ^ (5 - 3) by omega) pgtbl
  rw [translate_first_level, do_fl_sl_level_lookup, do_level_lookup, read_field_bits]
  change Option.map _ (match mem ((flat_mmu mem pgtbl v).descriptor_addr pgtbl
    (bits 31 30 (virt_of fl 0 0))) v with | none => none | some e => _) = _
  rw [bits_fl hfl (by decide) (by decide), haddr]
  change Option.map _ (match first_slot mem pgtbl v fl with | none => none | some e => _) = _
  cases first_slot mem pgtbl v fl with
  | none => rfl
  | some e =>
    dsimp only [Option.bind_some]
    rw [dtype_eq]
    split_ifs <;> rfl

end Levels

/-! ## The loops, assignment by assignment

A pass of each loop has a lemma, and a run of it another one by induction over the slots.
The invariant is the value of the third index, `stale`: zero until a table has been gone
through, and 511 from then on.
-/

section Assignments

open Armv7LPAEMMU

variable {mem : ℕ → Bool → Option ℕ} {pgtbl : ℕ} {v : Bool} {fl sl : ℕ}

/-- The item of the dictionary for a leaf that is found at `virt`. -/
def entry_of (l : ℕ × ArchLeaf) : MappingEntry := ((l.1, l.1 + l.2.size), l.2.mapping 12 l.1)

theorem mapping_page_size (virt : ℕ) (l : ArchLeaf) : (l.mapping 12 virt).page_size = l.size := by
  cases l <;> rfl

theorem mapping_descriptor (virt : ℕ) (l : ArchLeaf) :
    (l.mapping 12 virt).descriptor = l.descriptor := by
  cases l <;> rfl

theorem assign_mapping (virt : ℕ) (acc : List MappingEntry) (l : ArchLeaf) :
    (FlatState.mk virt acc).assign (l.mapping 12 virt) = ⟨virt, acc ++ [entry_of (virt, l)]⟩ := by
  rw [FlatState.assign, mapping_page_size]
  rfl

theorem flat_third_step {tl i : ℕ} (htl : tl < 512) (hi : i < 512) (d : ℕ)
    (acc : List MappingEntry) :
    flat_third (flat_mmu mem pgtbl v) (next_table_addr d) ⟨virt_of fl sl tl, acc⟩ i
      = ⟨virt_of fl sl i, acc ++ (third_leaves mem fl sl d i).map entry_of⟩ := by
  rw [flat_third]
  dsimp only
  rw [write_tl htl hi, third_level hi, third_leaves]
  cases next_slot mem d i with
  | none => simp
  | some e =>
    dsimp only [Option.bind_some]
    by_cases hpage : bits 1 0 e = 3
    · rw [if_pos hpage, if_pos hpage]
      exact assign_mapping ..
    · rw [if_neg hpage, if_neg hpage]
      simp

/-- The third loop assigns the leaves of its table, and leaves its last index in the register. -/
theorem flat_third_run {tl : ℕ} (htl : tl < 512) (d : ℕ) (acc : List MappingEntry) {n : ℕ}
    (hn : n ≤ 512) : ∃ t < 512, (0 < n → t = n - 1) ∧
      (List.range n).foldl (flat_third (flat_mmu mem pgtbl v) (next_table_addr d))
        ⟨virt_of fl sl tl, acc⟩
      = ⟨virt_of fl sl t,
        acc ++ ((List.range n).flatMap (third_leaves mem fl sl d)).map entry_of⟩ := by
  induction n with
  | zero => exact ⟨tl, htl, fun h => absurd h (by decide), by simp⟩
  | succ n ih =>
    obtain ⟨t, ht, -, hrun⟩ := ih (by omega)
    refine ⟨n, by omega, fun _ => rfl, ?_⟩
    rw [List.range_succ, List.foldl_append, hrun, List.foldl_cons, List.foldl_nil,
      flat_third_step ht (by omega), List.flatMap_append, List.map_append, List.append_assoc,
      List.flatMap_singleton]

/-- There is a table descriptor in slot `i`. -/
def is_table (mem : ℕ → Bool → Option ℕ) (d i : ℕ) : Bool :=
  (next_slot mem d i).any fun e => bits 1 0 e = 3

/-- The third index when the second loop comes to slot `i`. -/
def stale (mem : ℕ → Bool → Option ℕ) (d i : ℕ) : ℕ :=
  if (List.range i).any (is_table mem d) then 511 else 0

/-- What the second loop assigns in slot `i`, with the index that is left over in the register. -/
def second_assigned (mem : ℕ → Bool → Option ℕ) (fl d i : ℕ) : List MappingEntry :=
  match next_slot mem d i with
  | none => []
  | some e =>
    if bits 1 0 e = 1 then [entry_of (virt_of fl i (stale mem d i), .block_2m e)]
    else (second_leaves mem fl d i).map entry_of

theorem stale_lt (mem : ℕ → Bool → Option ℕ) (d i : ℕ) : stale mem d i < 512 := by
  unfold stale
  split_ifs <;> omega

theorem stale_succ (mem : ℕ → Bool → Option ℕ) (d i : ℕ) :
    stale mem d (i + 1) = if is_table mem d i = true then 511 else stale mem d i := by
  unfold stale
  rw [List.range_succ, List.any_append, List.any_cons, List.any_nil, Bool.or_false]
  cases (List.range i).any (is_table mem d) <;> cases is_table mem d i <;> rfl

theorem is_table_of_slot {d i e : ℕ} (h : next_slot mem d i = some e) :
    is_table mem d i = decide (bits 1 0 e = 3) := by
  rw [is_table, h, Option.any_some]

theorem flat_second_step (hsl : sl < 512) {i : ℕ} (hi : i < 512) (d : ℕ)
    (acc : List MappingEntry) :
    flat_second (flat_mmu mem pgtbl v) (next_table_addr d) ⟨virt_of fl sl (stale mem d i), acc⟩ i
      = ⟨virt_of fl i (stale mem d (i + 1)), acc ++ second_assigned mem fl d i⟩ := by
  have hstale := stale_lt mem d i
  rw [flat_second]
  dsimp only
  rw [write_sl hsl hstale hi, second_level hi hstale, stale_succ, second_assigned]
  cases hslot : next_slot mem d i with
  | none =>
    -- without a table nothing is written into the third index, which stays
    have hnot : ¬ is_table mem d i = true := by rw [is_table, hslot]; decide
    rw [if_neg hnot]
    dsimp only [Option.bind_none]
    rw [List.append_nil]
  | some e =>
    have htab := is_table_of_slot hslot
    dsimp only [Option.bind_some]
    by_cases hblock : bits 1 0 e = 1
    · have hnot : ¬ is_table mem d i = true := by
        rw [htab, decide_eq_true_iff]
        omega
      rw [if_pos hblock, if_pos hblock, if_neg hnot]
      exact assign_mapping ..
    · rw [if_neg hblock, if_neg hblock, second_leaves, hslot]
      dsimp only
      rw [if_neg hblock]
      by_cases htable : bits 1 0 e = 3
      · have hyes : is_table mem d i = true := by rw [htab, decide_eq_true_iff]; exact htable
        -- the loop over the table leaves its last index behind
        obtain ⟨t, -, hlast, hrun⟩ :=
          @flat_third_run mem pgtbl v fl i _ hstale e acc num_tl_pte le_rfl
        rw [if_pos htable, if_pos htable, if_pos hyes]
        dsimp only
        rw [hrun, hlast (by decide)]
        rfl
      · have hnot : ¬ is_table mem d i = true := by rw [htab, decide_eq_true_iff]; exact htable
        rw [if_neg htable, if_neg htable, if_neg hnot, List.map_nil, List.append_nil]

theorem flat_second_run (hsl : sl < 512) (d : ℕ) (acc : List MappingEntry) {n : ℕ}
    (hn : n ≤ 512) : ∃ s < 512,
      (List.range n).foldl (flat_second (flat_mmu mem pgtbl v) (next_table_addr d))
        ⟨virt_of fl sl 0, acc⟩
      = ⟨virt_of fl s (stale mem d n),
        acc ++ (List.range n).flatMap (second_assigned mem fl d)⟩ := by
  induction n with
  | zero => exact ⟨sl, hsl, by simp [stale]⟩
  | succ n ih =>
    obtain ⟨s, hs, hrun⟩ := ih (by omega)
    refine ⟨n, by omega, ?_⟩
    rw [List.range_succ, List.foldl_append, hrun, List.foldl_cons, List.foldl_nil,
      flat_second_step hs (by omega), List.flatMap_append, List.append_assoc,
      List.flatMap_singleton]

/-- What the first loop assigns in slot `fl`, from a cleared register. -/
def first_assigned (mem : ℕ → Bool → Option ℕ) (pgtbl : ℕ) (v : Bool) (fl : ℕ) :
    List MappingEntry :=
  match first_slot mem pgtbl v fl with
  | none => []
  | some d =>
    if bits 1 0 d = 1 then [entry_of (virt_of fl 0 0, .block_1g d)]
    else if bits 1 0 d = 3 then (List.range num_sl_pte).flatMap (second_assigned mem fl d)
    else []

/-- One pass of the outer loop, which starts from a cleared register. -/
theorem flat_first_step {i : ℕ} (hi : i < 4) (s : FlatState) :
    (flat_first (flat_mmu mem pgtbl v) s i).assigned
      = s.assigned ++ first_assigned mem pgtbl v i := by
  have hwrite : write_field 0 ((flat_mmu mem pgtbl v).input_addr_split + 26, 30) i
      = virt_of i 0 0 := write_fl i
  rw [flat_first]
  dsimp only
  rw [hwrite, first_level hi, first_assigned]
  cases first_slot mem pgtbl v i with
  | none => rw [List.append_nil]; rfl
  | some d =>
    dsimp only [Option.bind_some]
    by_cases hblock : bits 1 0 d = 1
    · rw [if_pos hblock, if_pos hblock]
      exact congrArg FlatState.assigned (assign_mapping ..)
    · rw [if_neg hblock, if_neg hblock]
      by_cases htable : bits 1 0 d = 3
      · obtain ⟨t, -, hrun⟩ :=
          @flat_second_run mem pgtbl v i 0 (by decide) d s.assigned num_sl_pte le_rfl
        rw [if_pos htable, if_pos htable]
        exact congrArg FlatState.assigned hrun
      · rw [if_neg htable, if_neg htable, List.append_nil]

theorem flat_assignments_eq :
    flat_assignments (flat_mmu mem pgtbl v)
      = (List.range num_fl_pte).flatMap (first_assigned mem pgtbl v) := by
  have hrun : ∀ n ≤ num_fl_pte, ∀ s : FlatState,
      ((List.range n).foldl (flat_first (flat_mmu mem pgtbl v)) s).assigned
        = s.assigned ++ (List.range n).flatMap (first_assigned mem pgtbl v) := by
    intro n hn s
    induction n with
    | zero => simp
    | succ n ih =>
      rw [List.range_succ, List.foldl_append, List.foldl_cons, List.foldl_nil,
        flat_first_step (Nat.lt_of_succ_le hn), ih (by omega), List.flatMap_append,
        List.append_assoc, List.flatMap_singleton]
  rw [flat_assignments, hrun num_fl_pte le_rfl]
  exact List.nil_append _

end Assignments

/-! ## The leaves in order

Slots translate ranges one behind the other, so leaves collected slot by slot are in order
and disjoint. This is said once for any level, and used for the three.
-/

section Order

variable {mem : ℕ → Bool → Option ℕ} {pgtbl : ℕ} {v : Bool} {fl sl d tl : ℕ}

/-- One leaf ends before the other starts, or where it starts. -/
def Before (l m : ℕ × ArchLeaf) : Prop := l.1 + l.2.size ≤ m.1

/-- A leaf lies between two addresses. -/
def Within (lo hi : ℕ) (l : ℕ × ArchLeaf) : Prop := lo ≤ l.1 ∧ l.1 + l.2.size ≤ hi

theorem ordered_nil (lo hi : ℕ) : ([] : List (ℕ × ArchLeaf)).Pairwise Before ∧
    ∀ l ∈ ([] : List (ℕ × ArchLeaf)), Within lo hi l :=
  ⟨List.Pairwise.nil, fun _ hl => absurd hl List.not_mem_nil⟩

theorem ordered_singleton {lo hi : ℕ} {l : ℕ × ArchLeaf} (h : Within lo hi l) :
    [l].Pairwise Before ∧ ∀ m ∈ [l], Within lo hi m := by
  refine ⟨List.pairwise_singleton _ _, fun m hm => ?_⟩
  rw [List.mem_singleton.mp hm]
  exact h

/-- Leaves that are in order slot by slot, each slot within its own range, are in order. -/
theorem ordered_flatMap {f : ℕ → List (ℕ × ArchLeaf)} {lo : ℕ → ℕ} (hlo : Monotone lo) {n : ℕ}
    (hin : ∀ i < n, ∀ l ∈ f i, Within (lo i) (lo (i + 1)) l)
    (hord : ∀ i < n, (f i).Pairwise Before) :
    ((List.range n).flatMap f).Pairwise Before ∧
      ∀ l ∈ (List.range n).flatMap f, Within (lo 0) (lo n) l := by
  refine ⟨List.pairwise_flatMap.mpr ⟨fun i hi => hord i (List.mem_range.mp hi), ?_⟩, ?_⟩
  · apply List.pairwise_lt_range.imp_of_mem
    intro i j hi hj hij l hl m hm
    rw [List.mem_range] at hi hj
    exact ((hin i hi l hl).2.trans (hlo hij)).trans (hin j hj m hm).1
  · intro l hl
    obtain ⟨i, hi, hl⟩ := List.mem_flatMap.mp hl
    rw [List.mem_range] at hi
    obtain ⟨h1, h2⟩ := hin i hi l hl
    exact ⟨(hlo (Nat.zero_le i)).trans h1, h2.trans (hlo hi)⟩

theorem mem_third_leaves {l : ℕ × ArchLeaf} : l ∈ third_leaves mem fl sl d tl ↔
    ∃ e, next_slot mem d tl = some e ∧ bits 1 0 e = 3 ∧ l = (virt_of fl sl tl, .page e) := by
  unfold third_leaves
  cases next_slot mem d tl with
  | none => simp
  | some e =>
    dsimp only
    split_ifs with h <;> simp [h]

theorem third_leaves_ordered : (third_leaves mem fl sl d tl).Pairwise Before ∧
    ∀ l ∈ third_leaves mem fl sl d tl, Within (virt_of fl sl tl) (virt_of fl sl (tl + 1)) l := by
  unfold third_leaves
  cases next_slot mem d tl with
  | none => exact ordered_nil _ _
  | some e =>
    dsimp only
    split_ifs
    · apply ordered_singleton
      simp only [Within, virt_of, ArchLeaf.size, sz_4k]
      omega
    · exact ordered_nil _ _

theorem second_leaves_ordered : (second_leaves mem fl d sl).Pairwise Before ∧
    ∀ l ∈ second_leaves mem fl d sl, Within (virt_of fl sl 0) (virt_of fl (sl + 1) 0) l := by
  unfold second_leaves
  cases next_slot mem d sl with
  | none => exact ordered_nil _ _
  | some e =>
    dsimp only
    split_ifs
    · apply ordered_singleton
      simp only [Within, virt_of, ArchLeaf.size, sz_2m]
      omega
    · have hmono : Monotone (virt_of fl sl) := by
        intro a b hab
        simp only [virt_of]
        omega
      obtain ⟨hord, hin⟩ := @ordered_flatMap (third_leaves mem fl sl e) _ hmono num_tl_pte
        (fun i _ => third_leaves_ordered.2) (fun i _ => third_leaves_ordered.1)
      have hlast : virt_of fl sl num_tl_pte = virt_of fl (sl + 1) 0 := by
        simp only [virt_of, num_tl_pte]
        ring
      rw [hlast] at hin
      exact ⟨hord, hin⟩
    · exact ordered_nil _ _

theorem first_leaves_ordered : (first_leaves mem pgtbl v fl).Pairwise Before ∧
    ∀ l ∈ first_leaves mem pgtbl v fl, Within (virt_of fl 0 0) (virt_of (fl + 1) 0 0) l := by
  unfold first_leaves
  cases first_slot mem pgtbl v fl with
  | none => exact ordered_nil _ _
  | some d =>
    dsimp only
    split_ifs
    · apply ordered_singleton
      simp only [Within, virt_of, ArchLeaf.size, sz_1g]
      omega
    · have hmono : Monotone fun sl => virt_of fl sl 0 := by
        intro a b hab
        simp only [virt_of]
        omega
      obtain ⟨hord, hin⟩ := @ordered_flatMap (second_leaves mem fl d) _ hmono num_sl_pte
        (fun i _ => second_leaves_ordered.2) (fun i _ => second_leaves_ordered.1)
      have hlast : virt_of fl num_sl_pte 0 = virt_of (fl + 1) 0 0 := by
        simp only [virt_of, num_sl_pte]
        ring
      rw [hlast] at hin
      exact ⟨hord, hin⟩
    · exact ordered_nil _ _

theorem table_leaves_ordered : (table_leaves mem pgtbl v).Pairwise Before := by
  have hmono : Monotone fun fl => virt_of fl 0 0 := by
    intro a b hab
    simp only [virt_of]
    omega
  exact (@ordered_flatMap (first_leaves mem pgtbl v) _ hmono num_fl_pte
    (fun i _ => first_leaves_ordered.2) (fun i _ => first_leaves_ordered.1)).1

/-! ## The leaves against the walk

The walk of the architecture at the address of a leaf comes to this leaf. Its three indices
lead back to the slots it was collected from.
-/

theorem arch_walk_virt (hfl : fl < 4) (hsl : sl < 512) (htl : tl < 512) :
    arch_walk mem pgtbl 0 v (virt_of fl sl tl) = (first_slot mem pgtbl v fl).bind fun d =>
      if bits 1 0 d = 1 then some (.block_1g d)
      else if bits 1 0 d = 3 then (next_slot mem d sl).bind fun e =>
        if bits 1 0 e = 1 then some (.block_2m e)
        else if bits 1 0 e = 3 then (next_slot mem e tl).bind fun g =>
          if bits 1 0 g = 3 then some (.page g) else none
        else none
      else none := by
  -- from the last level up: the index of a slot is read back from its address
  have hthird : ∀ e, walk_third mem (bits 39 12 e * 2 ^ 12) (virt_of fl sl tl)
      = (next_slot mem e tl).bind fun g => if bits 1 0 g = 3 then some (.page g) else none := by
    intro e
    rw [walk_third, bits_tl htl, next_slot]
    cases mem (bits 39 12 e * 2 ^ 12 + 8 * tl) false <;> rfl
  have hsecond : ∀ d, walk_second mem (bits 39 12 d * 2 ^ 12) (bits 29 21 (virt_of fl sl tl))
      (virt_of fl sl tl) = (next_slot mem d sl).bind fun e =>
        if bits 1 0 e = 1 then some (.block_2m e)
        else if bits 1 0 e = 3 then (next_slot mem e tl).bind fun g =>
          if bits 1 0 g = 3 then some (.page g) else none
        else none := by
    intro d
    rw [walk_second, bits_sl hsl htl]
    change (match next_slot mem d sl with | none => none | some e => _) = _
    cases next_slot mem d sl with
    | none => rfl
    | some e =>
      dsimp only [Option.bind_some]
      rw [walk_second_descriptor, hthird]
  have hn : ((5 : ℤ) - 0).toNat = 5 := rfl
  rw [arch_walk, if_pos (by norm_num), hn]
  dsimp only
  rw [bits_fl hfl hsl htl]
  change (match first_slot mem pgtbl v fl with | none => none | some d => _) = _
  cases first_slot mem pgtbl v fl with
  | none => rfl
  | some d =>
    dsimp only [Option.bind_some]
    rw [walk_first_descriptor, hsecond]

/-- A leaf of the tables is aligned and is what the walk of its address reaches. -/
theorem leaf_of_mem {l : ℕ × ArchLeaf} (h : l ∈ table_leaves mem pgtbl v) :
    l.2.size ∣ l.1 ∧ arch_walk mem pgtbl 0 v l.1 = some l.2 := by
  obtain ⟨fl, hfl, hl⟩ := List.mem_flatMap.mp h
  replace hfl : fl < 4 := List.mem_range.mp hfl
  -- down the levels: a leaf of a slot, or of the table that the slot points to
  unfold first_leaves at hl
  cases hd : first_slot mem pgtbl v fl with
  | none => simp [hd] at hl
  | some d =>
    rw [hd] at hl
    dsimp only at hl
    split_ifs at hl with hblock htable
    · rw [List.mem_singleton] at hl
      subst hl
      refine ⟨⟨fl, by simp only [virt_of, ArchLeaf.size, sz_1g]; omega⟩, ?_⟩
      rw [arch_walk_virt hfl (by norm_num) (by norm_num), hd, Option.bind_some, if_pos hblock]
    · obtain ⟨sl, hsl, hl⟩ := List.mem_flatMap.mp hl
      replace hsl : sl < 512 := List.mem_range.mp hsl
      unfold second_leaves at hl
      cases he : next_slot mem d sl with
      | none => simp [he] at hl
      | some e =>
        rw [he] at hl
        dsimp only at hl
        split_ifs at hl with hblock' htable'
        · rw [List.mem_singleton] at hl
          subst hl
          refine ⟨⟨fl * 512 + sl, by simp only [virt_of, ArchLeaf.size, sz_2m]; omega⟩, ?_⟩
          rw [arch_walk_virt hfl hsl (by norm_num), hd, Option.bind_some, if_neg hblock,
            if_pos htable, he, Option.bind_some, if_pos hblock']
        · obtain ⟨tl, htl, hl⟩ := List.mem_flatMap.mp hl
          replace htl : tl < 512 := List.mem_range.mp htl
          obtain ⟨g, hg, hpage, rfl⟩ := mem_third_leaves.mp hl
          refine ⟨⟨(fl * 512 + sl) * 512 + tl, by
            simp only [virt_of, ArchLeaf.size, sz_4k]; omega⟩, ?_⟩
          rw [arch_walk_virt hfl hsl htl, hd, Option.bind_some, if_neg hblock, if_pos htable, he,
            Option.bind_some, if_neg hblock', if_pos htable', hg, Option.bind_some, if_pos hpage]
        · exact absurd hl List.not_mem_nil
    · exact absurd hl List.not_mem_nil

end Order

/-! ## The flat mappings

Without a block after a table the assignments are the leaves, and everything promised of the
dictionary is true of the leaves. With one, a block is filed at an address that is no
multiple of its size.
-/

section Flat

variable {mem : ℕ → Bool → Option ℕ} {pgtbl : ℕ} {v : Bool}

theorem size_pos (l : ArchLeaf) : 0 < l.size := by
  cases l <;> simp only [ArchLeaf.size, sz_1g, sz_2m, sz_4k] <;> norm_num

/-- Without a table in an earlier slot the third index is zero. -/
theorem stale_eq_zero_iff (d i : ℕ) :
    stale mem d i = 0 ↔ ¬ ∃ j < i, ∃ e, next_slot mem d j = some e ∧ bits 1 0 e = 3 := by
  have hany : (List.range i).any (is_table mem d) = true
      ↔ ∃ j < i, ∃ e, next_slot mem d j = some e ∧ bits 1 0 e = 3 := by
    simp only [List.any_eq_true, List.mem_range, is_table, Option.any_eq_true, decide_eq_true_eq]
  rw [← hany, stale]
  split_ifs with h <;> simp [h]

/-- Every leaf is filed at its address where no block comes after a table. -/
theorem flat_assignments_of_not (h : ¬ BlockAfterTable mem pgtbl v) :
    flat_assignments (flat_mmu mem pgtbl v) = (table_leaves mem pgtbl v).map entry_of := by
  rw [flat_assignments_eq, table_leaves, List.map_flatMap]
  apply List.flatMap_congr
  intro fl hfl
  rw [first_assigned, first_leaves]
  cases hd : first_slot mem pgtbl v fl with
  | none => rfl
  | some d =>
    dsimp only
    by_cases hblock : bits 1 0 d = 1
    · rw [if_pos hblock, if_pos hblock, List.map_singleton]
    rw [if_neg hblock, if_neg hblock]
    by_cases htable : bits 1 0 d = 3
    · rw [if_pos htable, if_pos htable, List.map_flatMap]
      apply List.flatMap_congr
      intro sl hsl
      rw [second_assigned, second_leaves]
      cases he : next_slot mem d sl with
      | none => rfl
      | some e =>
        dsimp only
        by_cases hleaf : bits 1 0 e = 1
        -- no slot before this one has a table, so the third index is still 0
        · have hzero : stale mem d sl = 0 := by
            rw [stale_eq_zero_iff]
            rintro ⟨j, hj, hjt⟩
            exact h ⟨fl, List.mem_range.mp hfl, d, hd, htable, j, sl, hj, List.mem_range.mp hsl,
              hjt, e, he, hleaf⟩
          rw [if_pos hleaf, if_pos hleaf, hzero, List.map_singleton]
        · simp only [if_neg hleaf]
    · rw [if_neg htable, if_neg htable]
      rfl

/-- Without a block after a table the dictionary is the list of the leaves. -/
theorem get_flat_mappings_of_not (h : ¬ BlockAfterTable mem pgtbl v) :
    get_flat_mappings (flat_mmu mem pgtbl v) = (table_leaves mem pgtbl v).map entry_of := by
  have hlt : ((table_leaves mem pgtbl v).map entry_of).Pairwise fun e f => e.1.1 < f.1.1 := by
    rw [List.pairwise_map]
    refine table_leaves_ordered.imp fun {l m} hlm => ?_
    have hpos := size_pos l.2
    simp only [Before] at hlm
    simp only [entry_of]
    omega
  have hnodup : (((table_leaves mem pgtbl v).map entry_of).map Prod.fst).Nodup := by
    rw [List.Nodup, List.pairwise_map]
    refine hlt.imp fun {e f} hef heq => ?_
    rw [heq] at hef
    exact absurd hef (lt_irrefl _)
  rw [get_flat_mappings, flat_assignments_of_not h,
    foldl_dictSet_of_nodup hnodup, List.nil_append]
  apply sortItems_of_pairwise
  refine hlt.imp fun {e f} hef => ?_
  rw [key_le, decide_eq_true_iff]
  exact .inl hef

theorem flat_agrees_of_not (h : ¬ BlockAfterTable mem pgtbl v) :
    FlatAgrees mem pgtbl v (flat_mmu mem pgtbl v) (get_flat_mappings (flat_mmu mem pgtbl v)) := by
  rw [get_flat_mappings_of_not h]
  -- the descriptors, the alignment, the order and the agreement with `translate`
  refine ⟨?_, ?_, ?_, ?_⟩
  · rw [List.map_map]
    apply List.Perm.of_eq
    apply List.map_congr_left
    intro l _
    exact mapping_descriptor l.1 l.2
  · intro e he
    obtain ⟨l, hl, rfl⟩ := List.mem_map.mp he
    have hpos := size_pos l.2
    have hdvd := (leaf_of_mem hl).1
    simp only [entry_of, Nat.add_sub_cancel_left]
    exact ⟨by omega, hdvd⟩
  · rw [List.pairwise_map]
    refine table_leaves_ordered.imp fun {l m} hlm => ?_
    simp only [entry_of]
    rw [Set.disjoint_left]
    intro a ha hb
    simp only [Before] at hlm
    rw [Set.mem_Ico] at ha hb
    omega
  · intro e he
    obtain ⟨l, hl, rfl⟩ := List.mem_map.mp he
    refine ⟨l.2.mapping 12 l.1, ?_, rfl, rfl, ?_⟩
    · rw [translate_eq (lpae_mmu_zero), entry_of, (leaf_of_mem hl).2]
      rfl
    · simp only [entry_of, mapping_page_size, Nat.add_sub_cancel_left]

/-- A block after a table is filed under an address that is not a multiple of its size. -/
theorem not_flat_agrees (h : BlockAfterTable mem pgtbl v) :
    ¬ FlatAgrees mem pgtbl v (flat_mmu mem pgtbl v)
      (get_flat_mappings (flat_mmu mem pgtbl v)) := by
  obtain ⟨fl, hfl, d, hd, htable, i, j, hij, hj, hi, e, he, hblock⟩ := h
  have hstale : stale mem d j = 511 := by
    have hne : stale mem d j ≠ 0 := fun h0 => (stale_eq_zero_iff d j).mp h0 ⟨i, hij, hi⟩
    unfold stale at hne ⊢
    split_ifs at hne ⊢ with h
    · rfl
    · exact absurd rfl hne
  -- the block is entered at the address with the index left over
  have hmem : entry_of (virt_of fl j 511, .block_2m e)
      ∈ flat_assignments (flat_mmu mem pgtbl v) := by
    have hnot : ¬ bits 1 0 d = 1 := by omega
    rw [flat_assignments_eq]
    refine List.mem_flatMap.mpr ⟨fl, List.mem_range.mpr hfl, ?_⟩
    rw [first_assigned, hd]
    dsimp only
    rw [if_neg hnot, if_pos htable]
    refine List.mem_flatMap.mpr ⟨j, List.mem_range.mpr hj, ?_⟩
    rw [second_assigned, he]
    dsimp only
    rw [if_pos hblock, hstale]
    exact List.mem_singleton_self _
  intro hagrees
  have hassigned := List.mem_map_of_mem (f := Prod.fst) hmem
  have hkey := @mem_keys_foldl_dictSet _ _ _ _ [] _ (.inr hassigned)
  obtain ⟨f, hf, hfkey⟩ := List.mem_map.mp hkey
  -- which is no multiple of its size
  have hdvd := (hagrees.aligned f ((sortItems_perm _).mem_iff.mpr hf)).2
  rw [hfkey] at hdvd
  simp only [entry_of, virt_of, ArchLeaf.size, sz_2m, Nat.add_sub_cancel_left] at hdvd
  obtain ⟨q, hq⟩ := hdvd
  omega

/-- **The flat dump agrees with `translate` exactly when no second-level block comes after a
table.** For every content of the tables. -/
theorem flat_agrees_iff {mmu : Armv7LPAEMMU} (h : lpae_mmu mem pgtbl 0 v = some mmu) :
    FlatAgrees mem pgtbl v mmu (get_flat_mappings mmu) ↔ ¬ BlockAfterTable mem pgtbl v := by
  obtain rfl := Option.some.inj (h.symm.trans lpae_mmu_zero)
  exact ⟨fun hagrees hafter => not_flat_agrees hafter hagrees, flat_agrees_of_not⟩

/-- In this memory the only block is in the first slot. -/
theorem flat_agrees_iff_block :
    FlatAgrees block_memory 0x1000 false block_mmu (get_flat_mappings block_mmu) := by
  have hinit : lpae_mmu block_memory 0x1000 0 false = some block_mmu := rfl
  apply (flat_agrees_iff hinit).mpr
  rintro ⟨fl, -, d, hd, htable, i, j, hij, -, -, e, he, hblock⟩
  -- where the tables are and what the descriptors of this memory say
  have hroot : bits 39 5 0x1000 * 2 ^ 5 = 0x1000 := by decide
  have hnext : bits 39 12 0x2003 * 2 ^ 12 = 0x2000 ∧ bits 39 12 0x3003 * 2 ^ 12 = 0x3000 ∧
      bits 1 0 0x40000001 ≠ 3 ∧ bits 1 0 0x50000003 ≠ 1 ∧ bits 1 0 0x3003 ≠ 1 ∧
      bits 1 0 0x2003 ≠ 1 ∧ bits 39 12 0x50000003 * 2 ^ 12 = 0x50000000 := by
    decide
  obtain ⟨h1, h2, h3, h4, h5, h6, h7⟩ := hnext
  simp only [first_slot, hroot, block_memory] at hd
  split_ifs at hd with c1 c2 c3 c4
  · obtain rfl := Option.some.inj hd
    rw [next_slot, h1] at he
    simp only [block_memory] at he
    split_ifs at he with b1 b2 b3 b4
    · omega
    · omega
    · obtain rfl := Option.some.inj he
      exact h5 hblock
    · obtain rfl := Option.some.inj he
      exact h4 hblock
  · obtain rfl := Option.some.inj hd
    exact h3 htable
  · obtain rfl := Option.some.inj hd
    rw [next_slot, h2] at he
    simp only [block_memory] at he
    split_ifs at he with b1 b2 b3 b4
    · omega
    · omega
    · omega
    · obtain rfl := Option.some.inj he
      exact h4 hblock
  · obtain rfl := Option.some.inj hd
    rw [next_slot, h7] at he
    simp only [block_memory] at he
    split_ifs at he with b1 b2 b3 b4 <;> omega

/-- Two descriptors in a second-level table: a table, and then a 2 MB block. -/
def table_then_block : ℕ → Bool → Option ℕ := fun addr _ =>
  if addr = 0x1000 then some (0x2000 + 3)
  else if addr = 0x2000 then some (0x3000 + 3)
  else if addr = 0x2008 then some (0x40000000 + 1)
  else none

theorem table_then_block_not_agrees :
    ¬ FlatAgrees table_then_block 0x1000 false ⟨table_then_block, 0x1000, false, 1, 12, 5⟩
      (get_flat_mappings ⟨table_then_block, 0x1000, false, 1, 12, 5⟩) := by
  apply not_flat_agrees
  refine ⟨0, by decide, 0x2003, by decide, by decide, 0, 1, by decide, by decide,
    ⟨0x3003, by decide, by decide⟩, 0x40000001, by decide, by decide⟩

end Flat

end AndroidTools.Ramdump
