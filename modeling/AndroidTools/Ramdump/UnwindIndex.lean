/-
`RamDump.Unwinder`: the index of the unwind tables.

An entry of the index begins with the distance from the entry to its function, in 31 bits
(prel31), so a search cannot compare addresses: it carries the address relative to the first entry
of its window and rebases it with the window. Functions before the index and behind it are
searched apart; from the entry `origin` on distances are not negative.

`Linked` describes an index as a linker lays it out, with increasing addresses of functions and
none of them inside the index. `search_idx_3_4_eq_some_iff` is what the search finds in such an
index: the entry whose function covers the address, and no other. The invariant of the loop is the
one of a binary search, over addresses that are never computed.
-/
import Mathlib.Tactic
import AndroidTools.Lib.Bisect

set_option autoImplicit false

namespace AndroidTools.Ramdump

open AndroidTools.Bisect

/-- An element `(a, b, addr)` of `unwind_table`: the two words, and where they are. -/
structure UnwindEntry where
  fn_word : ℕ
  insn_word : ℕ
  addr : ℤ
  deriving Repr, DecidableEq

/-- What `__init__` leaves behind; `version_3_0` is the match of `3.0.\d`. -/
structure Unwinder where
  start_idx : ℤ
  unwind_table : List UnwindEntry
  version_3_0 : Bool
  deriving Repr, DecidableEq

/-- The loop over `range(start, end, 8)` of `__init__`, which ends at the first pair of
words that cannot be read. -/
def read_unwind_table (read_pair : ℤ → Option (ℕ × ℕ)) (start : ℤ) : ℕ → ℕ → List UnwindEntry
  | _, 0 => []
  | i, n + 1 =>
    match read_pair (start + 8 * i) with
    | none => []
    | some (a, b) => ⟨a, b, start + 8 * i⟩ :: read_unwind_table read_pair start (i + 1) n

/-- `Unwinder(ramdump)` of a dump with an index from `start` to `stop`. -/
def Unwinder.init (read_pair : ℤ → Option (ℕ × ℕ)) (version_3_0 : Bool) (start stop : ℤ) :
    Unwinder where
  start_idx := start
  unwind_table := read_unwind_table read_pair start 0 ((stop - start + 7) / 8).toNat
  version_3_0 := version_3_0

namespace Unwinder

variable (u : Unwinder)

/-- `self.unwind_table[i]`, for indices in range. -/
def entry (i : ℕ) : UnwindEntry := u.unwind_table[i]?.getD ⟨0, 0, 0⟩

/-- `unwind_find_origin`: the first entry whose distance is not negative, by halving. -/
def unwind_find_origin : ℕ :=
  partition_point (fun mid => 0x40000000 ≤ (u.entry mid).fn_word) 0 u.unwind_table.length

/-- The loop of `search_idx_3_4`, with `start` and `addr` at its end. -/
def search_loop (start stop : ℕ) (addr : ℤ) : ℕ × ℤ :=
  if start + 1 < stop then
    let mid := start + (stop - start) / 2
    let dif := (u.entry mid).addr - (u.entry start).addr
    if addr - dif < (u.entry mid).fn_word then search_loop start mid addr
    else search_loop mid stop (addr - dif)
  else (start, addr)
termination_by stop - start

/-- `start` and `stop` of `search_idx_3_4` before its loop. -/
def search_window (addr : ℤ) : ℕ × ℕ :=
  if addr < u.start_idx then (0, u.unwind_find_origin)
  else (u.unwind_find_origin, u.unwind_table.length)

/-- `search_idx_3_4`: the entry for an address; `& 0x7fffffff` is a remainder. -/
def search_idx_3_4 (addr : ℤ) : Option UnwindEntry :=
  let (start, stop) := u.search_window addr
  if stop ≤ start then none
  else
    let (start, addr) := u.search_loop start stop ((addr - (u.entry start).addr) % 0x80000000)
    if (u.entry start).fn_word ≤ addr then some (u.entry start) else none

/-- The loop of `search_idx_3_0`, for an index whose words are addresses. -/
def search_loop_3_0 (addr : ℤ) (first last : ℕ) : ℕ :=
  if first + 1 < last then
    let mid := first + (last - first + 1) / 2
    if addr < (u.entry mid).fn_word then search_loop_3_0 addr first mid
    else search_loop_3_0 addr mid last
  else first
termination_by last - first
decreasing_by all_goals omega

/-- `search_idx_3_0`; an index without entries raises. -/
def search_idx_3_0 (addr : ℤ) : Option UnwindEntry :=
  u.unwind_table[u.search_loop_3_0 addr 0 u.unwind_table.length]?

/-! ## An index as the linker lays it out

The addresses of functions are in order over the whole index, but the words of the entries
are not: they are distances, and those of functions in front of the index are negative.
`origin` is where the sign changes, and on either side the search is a binary search over
the addresses.
-/

/-- The function of an entry lies at `fn_word`, read as a signed number of 31 bits, from
the entry. -/
def function_of (e : UnwindEntry) : ℤ :=
  if e.fn_word < 0x40000000 then e.addr + e.fn_word else e.addr + e.fn_word - 0x80000000

/-- The entries lie side by side in the order of their functions, none of which is inside
the index. -/
structure Linked : Prop where
  word_lt : ∀ e ∈ u.unwind_table, e.fn_word < 0x80000000
  addr_eq : ∀ (i : ℕ) (h : i < u.unwind_table.length),
    u.unwind_table[i].addr = u.start_idx + 8 * i
  sorted : u.unwind_table.Pairwise fun e f => function_of e < function_of f
  outside : ∀ e ∈ u.unwind_table, function_of e < u.start_idx ∨
    u.start_idx + 8 * u.unwind_table.length ≤ function_of e

/-- A function in front of the index, or an address there. -/
def in_front (x : ℤ) : Prop := x < u.start_idx

instance (x : ℤ) : Decidable (u.in_front x) := inferInstanceAs (Decidable (x < u.start_idx))

/-- Of the entries on the side of `addr`, `e` is the last one whose function is not above it. -/
def Covers (addr : ℤ) (e : UnwindEntry) : Prop :=
  ∃ i : ℕ, u.unwind_table[i]? = some e ∧ (u.in_front (function_of e) ↔ u.in_front addr) ∧
    function_of e ≤ addr ∧
    ∀ (j : ℕ) f, u.unwind_table[j]? = some f → i < j →
      (u.in_front (function_of f) ↔ u.in_front addr) → addr < function_of f

variable {u}

theorem entry_of_getElem? {i : ℕ} {e : UnwindEntry} (h : u.unwind_table[i]? = some e) :
    u.entry i = e := by
  rw [entry, h, Option.getD_some]

theorem getElem?_of_lt {i : ℕ} (h : i < u.unwind_table.length) :
    u.unwind_table[i]? = some (u.entry i) := by
  rw [entry, List.getElem?_eq_getElem h, Option.getD_some]

theorem entry_eq_getElem {i : ℕ} (h : i < u.unwind_table.length) :
    u.entry i = u.unwind_table[i] := by
  rw [entry, List.getElem?_eq_getElem h, Option.getD_some]

theorem length_of_getElem? {i : ℕ} {e : UnwindEntry} (h : u.unwind_table[i]? = some e) :
    i < u.unwind_table.length := (List.getElem?_eq_some_iff.mp h).1

namespace Linked

theorem entry_addr (h : u.Linked) {i : ℕ} (hi : i < u.unwind_table.length) :
    (u.entry i).addr = u.start_idx + 8 * i := by
  rw [entry_eq_getElem hi]
  exact h.addr_eq i hi

theorem function_lt (h : u.Linked) {i j : ℕ} (hij : i < j) (hj : j < u.unwind_table.length) :
    function_of (u.entry i) < function_of (u.entry j) := by
  rw [entry_eq_getElem hj, entry_eq_getElem (hij.trans hj)]
  exact List.pairwise_iff_getElem.mp h.sorted i j (hij.trans hj) hj hij

theorem function_mono (h : u.Linked) {i j : ℕ} (hij : i ≤ j) (hj : j < u.unwind_table.length) :
    function_of (u.entry i) ≤ function_of (u.entry j) := by
  rcases hij.eq_or_lt with rfl | hij
  · exact le_rfl
  · exact (h.function_lt hij hj).le

/-- The sign of the distance is the side of the function. -/
theorem in_front_iff (h : u.Linked) {i : ℕ} (hi : i < u.unwind_table.length) :
    u.in_front (function_of (u.entry i)) ↔ 0x40000000 ≤ (u.entry i).fn_word := by
  have hmem := List.mem_of_getElem? (getElem?_of_lt hi)
  have hword := h.word_lt _ hmem
  have haddr := h.entry_addr hi
  have hout := h.outside _ hmem
  simp only [in_front]
  unfold function_of at hout ⊢
  split_ifs with hneg
  · constructor
    · intro hfront
      omega
    · intro hle
      omega
  · rw [if_neg hneg] at hout
    constructor
    · intro _
      omega
    · intro _
      omega

theorem lt_origin_iff (h : u.Linked) {i : ℕ} (hi : i < u.unwind_table.length) :
    i < u.unwind_find_origin ↔ u.in_front (function_of (u.entry i)) := by
  have hends : EndsOnce (fun mid => decide (0x40000000 ≤ (u.entry mid).fn_word)) 0
      u.unwind_table.length := by
    intro i j _ hij hj hp
    rw [decide_eq_true_eq, ← h.in_front_iff hj] at hp
    rw [decide_eq_true_eq, ← h.in_front_iff (hij.trans_lt hj)]
    exact (h.function_mono hij hj).trans_lt hp
  rw [unwind_find_origin, lt_partition_point_iff hends (Nat.zero_le i) hi, decide_eq_true_eq,
    h.in_front_iff hi]

theorem origin_le (_h : u.Linked) : u.unwind_find_origin ≤ u.unwind_table.length :=
  partition_point_le (Nat.zero_le _)

end Linked

/-- The loop is a search for the last function not above `orig`, in a window where the
distances of all entries have the same sign; `addr` is kept relative to its first entry. -/
theorem search_loop_eq {orig c : ℤ} {start stop : ℕ}
    (hside : ∀ i, start ≤ i → i < stop →
      function_of (u.entry i) = (u.entry i).addr + (u.entry i).fn_word - c) :
    u.search_loop start stop (orig - (u.entry start).addr + c) =
      (last_before (fun i => function_of (u.entry i) ≤ orig) start stop,
        orig - (u.entry (last_before (fun i => function_of (u.entry i) ≤ orig) start stop)).addr
          + c) := by
  fun_induction last_before (fun i => decide (function_of (u.entry i) ≤ orig)) start stop with
  | case1 start stop hwin mid hp ih =>
    have hmid := hside mid (by omega) (by omega)
    rw [decide_eq_true_eq] at hp
    rw [search_loop, if_pos hwin]
    have hnot : ¬ orig - (u.entry start).addr + c - ((u.entry mid).addr - (u.entry start).addr)
        < (u.entry mid).fn_word := by omega
    have hbase : orig - (u.entry start).addr + c - ((u.entry mid).addr - (u.entry start).addr)
        = orig - (u.entry mid).addr + c := by omega
    simp only [mid] at hnot hbase ih ⊢
    rw [if_neg hnot, hbase]
    exact ih fun i hi hlt => hside i (by omega) hlt
  | case2 start stop hwin mid hp ih =>
    have hmid := hside mid (by omega) (by omega)
    rw [decide_eq_true_eq] at hp
    rw [search_loop, if_pos hwin]
    have hless : orig - (u.entry start).addr + c - ((u.entry mid).addr - (u.entry start).addr)
        < (u.entry mid).fn_word := by omega
    simp only [mid] at hless ih ⊢
    rw [if_pos hless]
    exact ih fun i hi hlt => hside i hi (by omega)
  | case3 start stop hwin =>
    rw [search_loop, if_neg hwin]

/-- The difference between the words of a side and its signed distances. -/
def side_shift (u : Unwinder) (addr : ℤ) : ℤ := if u.in_front addr then 0x80000000 else 0

theorem search_window_of_front {addr : ℤ} (h : u.in_front addr) :
    u.search_window addr = (0, u.unwind_find_origin) := if_pos h

theorem search_window_of_behind {addr : ℤ} (h : ¬ u.in_front addr) :
    u.search_window addr = (u.unwind_find_origin, u.unwind_table.length) := if_neg h

namespace Linked

theorem search_window_le (h : u.Linked) (addr : ℤ) :
    (u.search_window addr).2 ≤ u.unwind_table.length := by
  by_cases hfront : u.in_front addr
  · rw [search_window_of_front hfront]
    exact h.origin_le
  · rw [search_window_of_behind hfront]

/-- The window holds the entries on the side of the address. -/
theorem mem_search_window_iff (h : u.Linked) (addr : ℤ) {i : ℕ}
    (hi : i < u.unwind_table.length) :
    ((u.search_window addr).1 ≤ i ∧ i < (u.search_window addr).2) ↔
      (u.in_front (function_of (u.entry i)) ↔ u.in_front addr) := by
  have horigin := h.lt_origin_iff hi
  by_cases hfront : u.in_front addr
  · rw [search_window_of_front hfront, iff_true_right hfront, ← horigin]
    exact and_iff_right (Nat.zero_le i)
  · rw [search_window_of_behind hfront, iff_false_right hfront, ← horigin, not_lt]
    exact and_iff_left hi

theorem function_of_entry (h : u.Linked) {addr : ℤ} {i : ℕ} (hi : i < u.unwind_table.length)
    (hside : u.in_front (function_of (u.entry i)) ↔ u.in_front addr) :
    function_of (u.entry i) = (u.entry i).addr + (u.entry i).fn_word - u.side_shift addr := by
  rw [h.in_front_iff hi] at hside
  rw [function_of, side_shift]
  by_cases hfront : u.in_front addr
  · have hneg := hside.mpr hfront
    rw [if_pos hfront, if_neg (by omega)]
  · have hpos := hside.not.mpr hfront
    rw [if_neg hfront, if_pos (by omega), sub_zero]

/-- The first address with which the loop compares is the address relative to the first entry of
its window. -/
theorem first_addr_eq (h : u.Linked) {addr : ℤ} (hfrom : u.start_idx - 0x80000000 ≤ addr)
    (hto : addr < u.start_idx + 0x80000000)
    (hout : u.in_front addr ∨ u.start_idx + 8 * u.unwind_table.length ≤ addr)
    (hwin : (u.search_window addr).1 < (u.search_window addr).2) :
    (addr - (u.entry (u.search_window addr).1).addr) % 0x80000000
      = addr - (u.entry (u.search_window addr).1).addr + u.side_shift addr := by
  have hlen := hwin.trans_le (h.search_window_le addr)
  rw [h.entry_addr hlen, side_shift]
  by_cases hfront : u.in_front addr
  · rw [if_pos hfront, search_window_of_front hfront]
    unfold in_front at hfront
    omega
  · have hbehind := hout.resolve_left hfront
    rw [if_neg hfront]
    omega

end Linked

/-- The last entry of a window whose function is not above `orig`. -/
def IsLast (u : Unwinder) (start stop : ℕ) (orig : ℤ) (i : ℕ) : Prop :=
  start ≤ i ∧ i < stop ∧ function_of (u.entry i) ≤ orig ∧
    ∀ j, i < j → j < stop → orig < function_of (u.entry j)

theorem IsLast.unique {start stop i j : ℕ} {orig : ℤ} (hi : u.IsLast start stop orig i)
    (hj : u.IsLast start stop orig j) : i = j := by
  obtain ⟨-, hilt, hile, hiabove⟩ := hi
  obtain ⟨-, hjlt, hjle, hjabove⟩ := hj
  rcases lt_trichotomy i j with hlt | heq | hgt
  · exact absurd (hiabove j hlt hjlt) (by omega)
  · exact heq
  · exact absurd (hjabove i hgt hilt) (by omega)

/-- The end of `search_idx_3_4`, in a window where the distances have the same sign. -/
theorem search_window_iff (h : u.Linked) {orig c : ℤ} {start stop : ℕ} (hwin : start < stop)
    (hstop : stop ≤ u.unwind_table.length)
    (hside : ∀ i, start ≤ i → i < stop →
      function_of (u.entry i) = (u.entry i).addr + (u.entry i).fn_word - c) (e : UnwindEntry) :
    (let (start, addr) := u.search_loop start stop (orig - (u.entry start).addr + c)
      if (u.entry start).fn_word ≤ addr then some (u.entry start) else none) = some e ↔
      ∃ i, u.entry i = e ∧ u.IsLast start stop orig i := by
  have hends : EndsOnce (fun i => decide (function_of (u.entry i) ≤ orig)) start stop := by
    intro i j _ hij hj hp
    rw [decide_eq_true_eq] at hp ⊢
    exact (h.function_mono hij (hj.trans_le hstop)).trans hp
  obtain ⟨hlow, hhigh, hat, hafter⟩ := last_before_spec start stop hwin hends
  rw [search_loop_eq hside]
  generalize last_before (fun i => decide (function_of (u.entry i) ≤ orig)) start stop = r at *
  have hr := hside r hlow hhigh
  have habove : ∀ j, r < j → j < stop → orig < function_of (u.entry j) := by
    intro j hj hlt
    have hfalse := hafter j hj hlt
    rw [decide_eq_false_iff_not] at hfalse
    omega
  dsimp only
  split_ifs with hle
  · have hlast : u.IsLast start stop orig r := ⟨hlow, hhigh, by omega, habove⟩
    rw [Option.some.injEq]
    constructor
    · intro he
      exact ⟨r, he, hlast⟩
    · rintro ⟨i, he, hi⟩
      rw [hlast.unique hi]
      exact he
  · -- the last index of the loop is then the first of the window
    constructor
    · intro he
      cases he
    · rintro ⟨i, -, hi, hilt, hile, -⟩
      rcases hi.eq_or_lt with rfl | hgt
      · rcases hat with heq | htrue
        · rw [heq] at hr hle
          omega
        · rw [decide_eq_true_eq] at htrue
          omega
      · rcases hat with heq | htrue
        · exact absurd (habove i (by omega) hilt) (by omega)
        · rw [decide_eq_true_eq] at htrue
          omega

/-- The search finds the entry that covers the address, and nothing if there is none. -/
theorem search_idx_3_4_eq_some_iff (h : u.Linked) {addr : ℤ}
    (hfrom : u.start_idx - 0x80000000 ≤ addr) (hto : addr < u.start_idx + 0x80000000)
    (hout : u.in_front addr ∨ u.start_idx + 8 * u.unwind_table.length ≤ addr)
    (e : UnwindEntry) :
    u.search_idx_3_4 addr = some e ↔ u.Covers addr e := by
  have hle := h.search_window_le addr
  have hmem : ∀ {i}, i < u.unwind_table.length → _ := fun hi => h.mem_search_window_iff addr hi
  have hiff : (∃ i, u.entry i = e ∧
      u.IsLast (u.search_window addr).1 (u.search_window addr).2 addr i) ↔
      u.Covers addr e := by
    constructor
    · rintro ⟨i, rfl, hstart, hi, hfn, habove⟩
      have hlen := hi.trans_le hle
      refine ⟨i, getElem?_of_lt hlen, (hmem hlen).mp ⟨hstart, hi⟩, hfn, fun j f hf hij hside => ?_⟩
      have hj := length_of_getElem? hf
      rw [← entry_of_getElem? hf] at hside ⊢
      exact habove j hij ((hmem hj).mpr hside).2
    · rintro ⟨i, hi, hside, hfn, habove⟩
      have hlen := length_of_getElem? hi
      have he := entry_of_getElem? hi
      rw [← he] at hside hfn
      obtain ⟨hstart, hstop⟩ := (hmem hlen).mpr hside
      refine ⟨i, he, hstart, hstop, hfn, fun j hij hj => ?_⟩
      have hjlen := hj.trans_le hle
      exact habove j _ (getElem?_of_lt hjlen) hij ((hmem hjlen).mp ⟨by omega, hj⟩)
  rw [← hiff, search_idx_3_4]
  dsimp only
  by_cases hempty : (u.search_window addr).2 ≤ (u.search_window addr).1
  · rw [if_pos hempty]
    constructor
    · intro hnone
      cases hnone
    · rintro ⟨i, -, hstart, hi, -⟩
      omega
  · rw [if_neg hempty, h.first_addr_eq hfrom hto hout (by omega)]
    exact search_window_iff h (by omega) hle
      (fun i hstart hi => h.function_of_entry (hi.trans_le hle)
        ((hmem (hi.trans_le hle)).mp ⟨hstart, hi⟩)) e

/-- Two functions in front of an index at `0xc1000000`, and one behind it. -/
def three_entries : Unwinder where
  start_idx := 0xc1000000
  unwind_table := [⟨0x7f008000, 0x80b0b0b0, 0xc1000000⟩, ⟨0x7f0ffff8, 1, 0xc1000008⟩,
    ⟨0x00fffff0, 0x80a8b0b0, 0xc1000010⟩]
  version_3_0 := false

theorem three_entries_linked : three_entries.Linked where
  word_lt := by decide
  addr_eq := by decide
  sorted := by decide
  outside := by decide

theorem search_idx_3_4_three_entries :
    three_entries.search_idx_3_4 0xc0080000 = some ⟨0x7f008000, 0x80b0b0b0, 0xc1000000⟩ := by
  refine (search_idx_3_4_eq_some_iff three_entries_linked (by decide) (by decide)
    (.inl (by decide)) _).mpr ⟨0, rfl, by decide, by decide, fun j f hf hj hside => ?_⟩
  have hlen : j < 3 := length_of_getElem? hf
  -- the second function is above the address, the third on the other side
  interval_cases j
  · cases hf
    decide
  · cases hf
    exact absurd hside (by decide)

end Unwinder

end AndroidTools.Ramdump
