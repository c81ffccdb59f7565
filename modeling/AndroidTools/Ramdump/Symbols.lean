/-
`RamDump.unwind_lookup`: the symbol an address belongs to.

The search halves a window of the symbol table, both of whose ends are taken to belong to
it although the upper one begins behind the table, and gives up when the middle does not
move. `premid` is 0 before the first pass, so a middle that comes to 0 then looks like one
that did not move. In a table of at least six symbols that cannot happen, and every symbol
but the last two is found, as long as no two symbols share an address: at an address they
share, the search finds itself on neither side of it.
-/
import Mathlib.Tactic

set_option autoImplicit false

namespace AndroidTools.Ramdump

/-- What `unwind_lookup` answers, `None` apart: a name and an offset, or one of the texts for
an address that is missing or below the kernel. -/
inductive SymbolAt (ν : Type*) where
  | invalid_address
  | no_symbol (addr : ℤ)
  | symbol (name : ν) (offset : ℤ)
  deriving Repr, DecidableEq

/-- How the search ends, when it is not with a symbol: it returns `None`, an index is out of
range, or it has not ended yet. -/
inductive LookupStop where
  | none
  | index_error
  | unfinished
  deriving Repr, DecidableEq

section

variable {ν : Type*}

/-- `self.lookup_table[i][0]`; an index below 0 does not come up. -/
def symbol_addr (lookup_table : List (ℤ × ν)) (i : ℤ) : Option ℤ :=
  if i < 0 then none else (lookup_table[i.toNat]?).map Prod.fst

/-- The condition of the loop, negated: `addr` lies between entry `mid` and the next one,
which is looked at only if it is not below entry `mid`. -/
def lookup_found (lookup_table : List (ℤ × ν)) (addr mid : ℤ) : Except LookupStop Bool :=
  match symbol_addr lookup_table mid with
  | none => .error .index_error
  | some a =>
    if a ≤ addr then
      match symbol_addr lookup_table (mid + 1) with
      | none => .error .index_error
      | some b => .ok (decide (addr < b))
    else .ok false

/-- The loop, for at most `fuel` passes: the index at which it ends. -/
def lookup_loop (lookup_table : List (ℤ × ν)) (addr : ℤ) :
    ℕ → ℤ → ℤ → ℤ → ℤ → Except LookupStop ℤ
  | 0, _, _, _, _ => .error .unfinished
  | fuel + 1, low, high, mid, premid =>
    match lookup_found lookup_table addr mid with
    | .error e => .error e
    | .ok true => .ok mid
    | .ok false =>
      match symbol_addr lookup_table mid with
      | none => .error .index_error
      | some a =>
        let high := if addr < a then mid - 1 else high
        let low := if a < addr then mid + 1 else low
        let mid := (high + low) / 2
        if mid = premid then .error .none
        else if (lookup_table.length : ℤ) ≤ mid + 1 ∨ mid < 0 then .error .none
        else lookup_loop lookup_table addr fuel low high mid mid

/-- The passes the loop can take: each but one shrinks the window. -/
def lookup_fuel (lookup_table : List (ℤ × ν)) : ℕ := lookup_table.length + 3

/-- `unwind_lookup`, with `symbol_size` 0 for the offset in the symbol and any other value
for its size; an error is `None`, or an exception. -/
def unwind_lookup (page_offset : ℤ) (lookup_table : List (ℤ × ν)) (addr : Option ℤ)
    (symbol_size : ℤ) : Except LookupStop (SymbolAt ν) :=
  match addr with
  | none => .ok .invalid_address
  | some addr =>
    if addr < page_offset then .ok (.no_symbol addr)
    else
      let high : ℤ := lookup_table.length
      match lookup_loop lookup_table addr (lookup_fuel lookup_table) 0 high (high / 2) 0 with
      | .error e => .error e
      | .ok mid =>
        match lookup_table[mid.toNat]?, lookup_table[(mid + 1).toNat]? with
        | some (a, name), some (b, _) =>
          .ok (.symbol name (if symbol_size = 0 then addr - a else b - a))
        | _, _ => .error .index_error

variable {lookup_table : List (ℤ × ν)} {addr : ℤ}

theorem symbol_addr_natCast (i : ℕ) :
    symbol_addr lookup_table i = (lookup_table[i]?).map Prod.fst := by
  rw [symbol_addr, if_neg (by omega), Int.toNat_natCast]

/-- A pass of the loop that does not end it: the window is halved and the loop goes on. -/
theorem lookup_loop_succ {fuel : ℕ} {low high mid premid a : ℤ}
    (hfound : lookup_found lookup_table addr mid = .ok false)
    (ha : symbol_addr lookup_table mid = some a) :
    lookup_loop lookup_table addr (fuel + 1) low high mid premid =
      (let high' := if addr < a then mid - 1 else high
      let low' := if a < addr then mid + 1 else low
      let mid' := (high' + low') / 2
      if mid' = premid then .error .none
      else if (lookup_table.length : ℤ) ≤ mid' + 1 ∨ mid' < 0 then .error .none
      else lookup_loop lookup_table addr fuel low' high' mid' mid') := by
  rw [lookup_loop, hfound, ha]

theorem lookup_found_eq_ok_false {mid : ℤ} (h : lookup_found lookup_table addr mid = .ok false) :
    ∃ a, symbol_addr lookup_table mid = some a := by
  unfold lookup_found at h
  split at h
  · cases h
  · next a ha => exact ⟨a, ha⟩

theorem lookup_found_ne {mid : ℤ} :
    lookup_found lookup_table addr mid ≠ .error .unfinished := by
  unfold lookup_found
  split
  · rintro ⟨⟩
  · split_ifs
    · split <;> rintro ⟨⟩
    · rintro ⟨⟩

theorem lookup_found_eq_ok_true {mid : ℤ} (h : lookup_found lookup_table addr mid = .ok true) :
    ∃ a b, symbol_addr lookup_table mid = some a ∧ symbol_addr lookup_table (mid + 1) = some b ∧
      a ≤ addr ∧ addr < b := by
  unfold lookup_found at h
  split at h
  · cases h
  · next a ha =>
    split_ifs at h with hle
    · split at h
      · cases h
      · next b hb =>
        rw [Except.ok.injEq, decide_eq_true_eq] at h
        exact ⟨a, b, ha, hb, hle, h⟩
    · cases h

/-- The loop ends with an entry around the address, if with one. -/
theorem lookup_loop_sound {fuel : ℕ} {low high mid premid r : ℤ}
    (h : lookup_loop lookup_table addr fuel low high mid premid = .ok r) :
    lookup_found lookup_table addr r = .ok true := by
  induction fuel generalizing low high mid premid with
  | zero => cases h
  | succ fuel ih =>
    cases hfound : lookup_found lookup_table addr mid with
    | error e =>
      rw [lookup_loop, hfound] at h
      cases h
    | ok found =>
      cases found with
      | true =>
        rw [lookup_loop, hfound] at h
        cases h
        exact hfound
      | false =>
        obtain ⟨a, ha⟩ := lookup_found_eq_ok_false hfound
        rw [lookup_loop_succ hfound ha] at h
        dsimp only at h
        generalize (if addr < a then mid - 1 else high) = high' at h
        generalize (if a < addr then mid + 1 else low) = low' at h
        split_ifs at h
        exact ih h

/-- Each pass shrinks the window, except one that comes upon the address itself; behind that
one the middle does not move. -/
theorem lookup_loop_ends {fuel : ℕ} {low high mid premid : ℤ} (hmid : mid = (high + low) / 2)
    (hwin : low ≤ high + 1)
    (hfuel : premid = mid ∧ high - low + 2 ≤ fuel ∨ low ≤ high ∧ high - low + 3 ≤ fuel) :
    lookup_loop lookup_table addr fuel low high mid premid ≠ .error .unfinished := by
  induction fuel generalizing low high mid premid with
  | zero => omega
  | succ fuel ih =>
    cases hfound : lookup_found lookup_table addr mid with
    | error e =>
      rw [lookup_loop, hfound]
      rintro ⟨rfl⟩
      exact lookup_found_ne hfound
    | ok found =>
      cases found with
      | true =>
        rw [lookup_loop, hfound]
        rintro ⟨⟩
      | false =>
        obtain ⟨a, ha⟩ := lookup_found_eq_ok_false hfound
        rw [lookup_loop_succ hfound ha]
        dsimp only
        by_cases hsame : ((if addr < a then mid - 1 else high) +
            (if a < addr then mid + 1 else low)) / 2 = premid
        · rw [if_pos hsame]
          rintro ⟨⟩
        rw [if_neg hsame]
        by_cases hout : (lookup_table.length : ℤ) ≤ ((if addr < a then mid - 1 else high) +
            (if a < addr then mid + 1 else low)) / 2 + 1 ∨
            ((if addr < a then mid - 1 else high) + (if a < addr then mid + 1 else low)) / 2 < 0
        · rw [if_pos hout]
          rintro ⟨⟩
        rw [if_neg hout]
        refine ih rfl ?_ (.inl ⟨rfl, ?_⟩)
        · split_ifs at hsame ⊢ <;> omega
        · split_ifs at hsame ⊢ <;> omega

/-! ## A sorted table

In a sorted table the entry of an address stays in the window, whichever half a pass takes.
The loop gives up too early only where the middle comes to 0 in the first pass, for which
the table has to be short, or where there is no entry behind the middle, which concerns the
last symbols.
-/

/-- The symbols are in the order of their addresses, no two at the same one. -/
def SortedTable (lookup_table : List (ℤ × ν)) : Prop :=
  lookup_table.Pairwise fun s t => s.1 < t.1

theorem SortedTable.lt (h : SortedTable lookup_table) {i j : ℕ} (hij : i < j)
    (hj : j < lookup_table.length) : lookup_table[i].1 < lookup_table[j].1 :=
  List.pairwise_iff_getElem.mp h i j _ hj hij

theorem SortedTable.le (h : SortedTable lookup_table) {i j : ℕ} (hij : i ≤ j)
    (hj : j < lookup_table.length) : lookup_table[i].1 ≤ lookup_table[j].1 := by
  rcases hij.eq_or_lt with rfl | hlt
  · exact le_rfl
  · exact (h.lt hlt hj).le

theorem symbol_addr_of_lt {i : ℕ} (hi : i < lookup_table.length) :
    symbol_addr lookup_table i = some lookup_table[i].1 := by
  rw [symbol_addr_natCast, List.getElem?_eq_getElem hi, Option.map_some]

/-- In a sorted table an entry is found exactly if the address is its own. -/
theorem lookup_found_of_sorted (h : SortedTable lookup_table) {i mid : ℕ}
    (hi : i + 1 < lookup_table.length) (hmid : mid + 1 < lookup_table.length)
    (hlow : lookup_table[i].1 ≤ addr) (hhigh : addr < lookup_table[i + 1].1) :
    lookup_found lookup_table addr mid = .ok (decide (mid = i)) := by
  have hnext : symbol_addr lookup_table ((mid : ℤ) + 1) = some lookup_table[mid + 1].1 := by
    have hcast : (mid : ℤ) + 1 = ((mid + 1 : ℕ) : ℤ) := by push_cast; rfl
    rw [hcast, symbol_addr_of_lt hmid]
  rw [lookup_found, symbol_addr_of_lt (by omega), hnext]
  dsimp only
  rcases lt_trichotomy mid i with hlt | rfl | hgt
  · have hle := h.le (i := mid) (j := i) hlt.le (by omega)
    have hbelow := h.le (i := mid + 1) (j := i) hlt (by omega)
    rw [if_pos (by omega), decide_eq_false (by omega), decide_eq_false (by omega)]
  · rw [if_pos hlow, decide_eq_true hhigh, decide_eq_true rfl]
  · have habove := h.le (i := i + 1) (j := mid) hgt (by omega)
    rw [if_neg (by omega), decide_eq_false (by omega)]

/-- The window keeps the symbol of the address, and the middle stays in the table. -/
theorem lookup_loop_complete (h : SortedTable lookup_table) {i : ℕ}
    (hi : i + 2 < lookup_table.length) (hlen : 6 ≤ lookup_table.length)
    (hlow : lookup_table[i].1 ≤ addr) (hhigh : addr < lookup_table[i + 1].1)
    {fuel : ℕ} {low high mid premid : ℤ} (hmid : mid = (high + low) / 2) (hzero : 0 ≤ low)
    (hlo : low ≤ i) (hhi : i ≤ high) (hin : mid + 1 < lookup_table.length)
    (hupper : high = lookup_table.length ∨ high + 2 < lookup_table.length)
    (hpre : premid = mid ∨ low = 0 ∧ high = lookup_table.length ∧ premid = 0)
    (hfuel : high - low + 2 ≤ fuel) :
    lookup_loop lookup_table addr fuel low high mid premid = .ok i := by
  induction fuel generalizing low high mid premid with
  | zero => omega
  | succ fuel ih =>
    obtain ⟨k, rfl⟩ := Int.eq_ofNat_of_zero_le (a := mid) (by omega)
    have hfound : lookup_found lookup_table addr (k : ℕ) = .ok (decide (k = i)) :=
      lookup_found_of_sorted h (by omega) (by omega) hlow hhigh
    by_cases hk : k = i
    · rw [decide_eq_true hk] at hfound
      rw [lookup_loop, hfound, hk]
    rw [decide_eq_false hk] at hfound
    rw [lookup_loop_succ hfound (symbol_addr_of_lt (by omega))]
    rcases Nat.lt_or_gt_of_ne hk with hlt | hgt
    · have hbelow : lookup_table[k].1 < addr :=
        lt_of_lt_of_le (h.lt hlt (by omega)) hlow
      simp only [if_neg hbelow.not_gt, if_pos hbelow]
      rw [if_neg (by omega), if_neg (by omega)]
      exact ih rfl (by omega) (by omega) hhi (by omega) hupper (.inl rfl) (by omega)
    · have habove : addr < lookup_table[k].1 :=
        lt_of_lt_of_le hhigh (h.le hgt (by omega))
      simp only [if_pos habove, if_neg habove.not_gt]
      rw [if_neg (by omega), if_neg (by omega)]
      exact ih rfl hzero hlo (by omega) (by omega) (.inr (by omega)) (.inl rfl) (by omega)

/-- The loop as `unwind_lookup` runs it. -/
theorem lookup_loop_start_ends (lookup_table : List (ℤ × ν)) (addr : ℤ) :
    lookup_loop lookup_table addr (lookup_fuel lookup_table) 0 lookup_table.length
      (lookup_table.length / 2) 0 ≠ .error .unfinished := by
  refine lookup_loop_ends (by rw [add_zero]) (by omega) (.inr ⟨by omega, ?_⟩)
  rw [lookup_fuel]
  push_cast
  omega

theorem unwind_lookup_ends (page_offset symbol_size : ℤ) :
    unwind_lookup page_offset lookup_table (some addr) symbol_size ≠ .error .unfinished := by
  have hends := lookup_loop_start_ends lookup_table addr
  rw [unwind_lookup]
  dsimp only
  by_cases hpage : addr < page_offset
  · rw [if_pos hpage]
    rintro ⟨⟩
  · rw [if_neg hpage]
    split
    · next e he =>
      rintro ⟨rfl⟩
      exact hends he
    · split <;> rintro ⟨⟩

theorem unwind_lookup_sound {page_offset symbol_size offset : ℤ} {name : ν}
    (h : unwind_lookup page_offset lookup_table (some addr) symbol_size
      = .ok (.symbol name offset)) :
    ∃ (i : ℕ) (a b : ℤ) (next : ν), lookup_table[i]? = some (a, name) ∧
      lookup_table[i + 1]? = some (b, next) ∧ a ≤ addr ∧ addr < b ∧
      offset = if symbol_size = 0 then addr - a else b - a := by
  rw [unwind_lookup] at h
  dsimp only at h
  by_cases hpage : addr < page_offset
  · rw [if_pos hpage] at h
    cases h
  rw [if_neg hpage] at h
  split at h
  · cases h
  · next mid hloop =>
    obtain ⟨a, b, ha, hb, hle, hlt⟩ := lookup_found_eq_ok_true (lookup_loop_sound hloop)
    have hpos : 0 ≤ mid := by
      by_contra hneg
      rw [symbol_addr, if_pos (by omega)] at ha
      cases ha
    obtain ⟨i, rfl⟩ := Int.eq_ofNat_of_zero_le hpos
    have hsucc : ((i : ℤ) + 1).toNat = i + 1 := by omega
    rw [hsucc, Int.toNat_natCast] at h
    rw [symbol_addr_natCast] at ha
    rw [← Nat.cast_succ, symbol_addr_natCast] at hb
    split at h
    · next a' name' b' next hi hnext =>
      rw [hi] at ha
      rw [Nat.succ_eq_add_one, hnext] at hb
      cases ha
      cases hb
      cases h
      exact ⟨i, a', b', next, hi, hnext, hle, hlt, rfl⟩
    · cases h

theorem unwind_lookup_complete {page_offset symbol_size a b : ℤ} {name next : ν} {i : ℕ}
    (hsorted : SortedTable lookup_table) (hlen : 6 ≤ lookup_table.length)
    (hpage : page_offset ≤ addr) (hi : lookup_table[i]? = some (a, name))
    (hnext : lookup_table[i + 1]? = some (b, next)) (hlast : i + 2 < lookup_table.length)
    (hlow : a ≤ addr) (hhigh : addr < b) :
    unwind_lookup page_offset lookup_table (some addr) symbol_size
      = .ok (.symbol name (if symbol_size = 0 then addr - a else b - a)) := by
  obtain ⟨_, hget⟩ := List.getElem?_eq_some_iff.mp hi
  obtain ⟨_, hget'⟩ := List.getElem?_eq_some_iff.mp hnext
  have hloop : lookup_loop lookup_table addr (lookup_fuel lookup_table) 0 lookup_table.length
      (lookup_table.length / 2) 0 = .ok i := by
    refine lookup_loop_complete hsorted hlast hlen (by rw [hget]; exact hlow)
      (by rw [hget']; exact hhigh) (by rw [add_zero]) le_rfl (by omega) (by omega) (by omega)
      (.inl rfl) (.inr ⟨rfl, rfl, rfl⟩) ?_
    rw [lookup_fuel]
    push_cast
    omega
  have hsucc : ((i : ℤ) + 1).toNat = i + 1 := by omega
  rw [unwind_lookup]
  dsimp only
  rw [if_neg (by omega), hloop]
  dsimp only
  rw [hsucc, Int.toNat_natCast, hi, hnext]

/-- **The search for a symbol** ends in every table; a symbol it names is one the address
belongs to; and in a table of at least six symbols in strictly increasing order it names the
symbol of every address, the last two symbols apart. -/
theorem unwind_lookup_spec (lookup_table : List (ℤ × ν)) (addr page_offset symbol_size : ℤ) :
    unwind_lookup page_offset lookup_table (some addr) symbol_size ≠ .error .unfinished ∧
      (∀ name offset, unwind_lookup page_offset lookup_table (some addr) symbol_size
          = .ok (.symbol name offset) →
        ∃ (i : ℕ) (a b : ℤ) (next : ν), lookup_table[i]? = some (a, name) ∧
          lookup_table[i + 1]? = some (b, next) ∧ a ≤ addr ∧ addr < b ∧
          offset = if symbol_size = 0 then addr - a else b - a) ∧
      (SortedTable lookup_table → 6 ≤ lookup_table.length → page_offset ≤ addr →
        ∀ (i : ℕ) (a b : ℤ) (name next : ν), lookup_table[i]? = some (a, name) →
          lookup_table[i + 1]? = some (b, next) → i + 2 < lookup_table.length →
          a ≤ addr → addr < b →
          unwind_lookup page_offset lookup_table (some addr) symbol_size
            = .ok (.symbol name (if symbol_size = 0 then addr - a else b - a))) :=
  ⟨unwind_lookup_ends page_offset symbol_size, fun _ _ => unwind_lookup_sound,
    fun hsorted hlen hpage _ _ _ _ _ hi hnext hlast hlow hhigh =>
      unwind_lookup_complete hsorted hlen hpage hi hnext hlast hlow hhigh⟩

/-- A table of six symbols of a kernel. -/
def six_symbols : List (ℤ × ℕ) :=
  [(0xc0008000, 0), (0xc0008100, 1), (0xc0008200, 2), (0xc0008300, 3), (0xc0008400, 4),
    (0xc0008500, 5)]

theorem six_symbols_sorted : SortedTable six_symbols := by
  unfold SortedTable
  decide

theorem unwind_lookup_six_symbols :
    unwind_lookup 0xc0000000 six_symbols (some 0xc0008310) 0 = .ok (.symbol 3 0x10) :=
  (unwind_lookup_spec six_symbols 0xc0008310 0xc0000000 0).2.2 six_symbols_sorted (by decide)
    (by decide) 3 0xc0008300 0xc0008400 3 4 rfl rfl (by decide) (by decide) (by decide)

/-- An address in the last but one of six symbols is not found. -/
example : unwind_lookup 0xc0000000 six_symbols (some 0xc0008410) 0 = .error .none := by
  decide

end

end AndroidTools.Ramdump
