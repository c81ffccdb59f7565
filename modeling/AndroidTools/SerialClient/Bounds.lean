/-
Where `StringProcess` reads and writes.

The loop counts up to the length of the argument, while `tmpString` holds its first 1023 bytes and
a terminator; an escape reads up to three bytes behind the backslash. Both indices leave the
buffer only through those two gaps: by a `\x` with nothing behind it, and by an argument of more
than 1024 bytes that no wrong escape ends.

The accesses of the loop are listed, each with its index, on a memory that goes on behind the
buffer with any content. `loop_accesses_inside_iff` says that all of them are inside exactly when
the loop over the copied bytes alone returns, and that is then read off the argument, unit by
unit: a unit is a plain byte or an escape with its digits.
-/
import AndroidTools.SerialClient

set_option autoImplicit false

namespace AndroidTools.SerialClient

open AndroidTools.Bytes AndroidTools.CString

/-! ## The accesses

What the loop reads and writes, in order, with the index of each access. Behind what was
copied the array holds whatever was on the stack, so the list depends on it too.
-/

/-- A read of `tmpString` or a write of `s_atCommand`, by its index. -/
inductive Access where
  | read (i : ℕ)
  | write (j : ℕ)
  deriving Repr, DecidableEq

/-- Inside the buffers, and of `tmpString` inside the bytes that `strlcpy` has set. -/
def Access.Inside (copied : ℕ) : Access → Prop
  | .read i => i < buffsize ∧ i < copied
  | .write j => j < buffsize

/-- The accesses of the loop from `i` and `j` on, `n` being `len - i`. -/
def loop_accesses (tmpString : ℕ → UInt8) (n i j : ℕ) : List Access :=
  match n with
  | 0 => []
  | n + 1 =>
    if tmpString i ≠ 0x5C then
      .read i :: .write j :: loop_accesses tmpString n (i + 1) (j + 1)
    else if tmpString (i + 1) = 0x78 then
      -- the `memcpy` of two bytes
      .read i :: .read (i + 1) :: .read (i + 2) :: .read (i + 3) :: .write j
        :: loop_accesses tmpString (n - 3) (i + 4) (j + 1)
    else if tmpString (i + 1) = 0x72 then
      .read i :: .read (i + 1) :: .write j :: loop_accesses tmpString (n - 1) (i + 2) (j + 1)
    else [.read i, .read (i + 1)]
termination_by n
decreasing_by all_goals omega

/-- What `strlcpy` leaves in `tmpString`. -/
def copied_part (pString : List UInt8) : List UInt8 := pString.take (buffsize - 1) ++ [0]

/-- `len`, the length as an `int`. -/
def copied_len (pString : List UInt8) : ℤ := Int.bmod pString.length (2 ^ 32)

/-- The accesses of `StringProcess`; behind what is copied, `tmpString` holds whatever
is on the stack. -/
def string_process_accesses (pString : List UInt8) (stack : ℕ → UInt8) : List Access :=
  if copied_len pString ≤ 0 then []
  else
    loop_accesses (fun i => (copied_part pString).getD i (stack i)) (copied_len pString).toNat 0 0

/-- Every access of the function is inside its buffer. -/
def StaysInside (pString : List UInt8) (stack : ℕ → UInt8) : Prop :=
  ∀ a ∈ string_process_accesses pString stack, a.Inside (copied_part pString).length

/-! ## Reading an argument in units

The condition on an argument says where the loop comes to a backslash, which depends on what
stands in front of it: the two bytes behind a `\x` are digits, whatever they are. `Remains`
follows the argument in these units.
-/

/-- `rest` is what remains of an argument behind whole units: single characters, `\r`,
and `\x` with the two bytes that follow. -/
inductive Remains : List UInt8 → List UInt8 → Prop
  | refl (a : List UInt8) : Remains a a
  | char {c : UInt8} {a rest : List UInt8} : c ≠ 0x5C → Remains a rest → Remains (c :: a) rest
  | cr {a rest : List UInt8} : Remains a rest → Remains (0x5C :: 0x72 :: a) rest
  | hex {h l : UInt8} {a rest : List UInt8} : Remains a rest →
      Remains (0x5C :: 0x78 :: h :: l :: a) rest

/-- A `\x` at the end, where the loop comes to it. -/
def CutHex (a : List UInt8) (len : ℕ) : Prop := Remains a [0x5C, 0x78] ∧ a.length < len + 2

/-- There is a backslash in the bytes that neither `x` nor `r` follows. -/
def WrongEscape (a : List UInt8) : Prop :=
  ∃ rest, Remains a (0x5C :: rest) ∧ rest.head? ≠ some 0x78 ∧ rest.head? ≠ some 0x72

/-- What keeps the loop inside from some unit on: no `\x` at the end, and an end of the
argument or a wrong escape. -/
def Keeps (a : List UInt8) (n : ℕ) : Prop :=
  ¬ CutHex a n ∧ (n ≤ a.length + 1 ∨ WrongEscape a)

section Steps

variable {a : List UInt8} {n : ℕ}

theorem length_le_of_remains {rest : List UInt8} (h : Remains a rest) :
    rest.length ≤ a.length := by
  induction h with
  | refl => exact le_rfl
  | char _ _ ih => exact ih.trans (Nat.le_succ _)
  | cr _ ih => exact ih.trans (Nat.le_add_right _ 2)
  | hex _ ih => exact ih.trans (Nat.le_add_right _ 4)

theorem two_le_of_cutHex (h : Remains a [0x5C, 0x78]) : 2 ≤ a.length := length_le_of_remains h

theorem remains_char_iff {c : UInt8} (hc : c ≠ 0x5C) (rest : List UInt8) :
    Remains (c :: a) (0x5C :: rest) ↔ Remains a (0x5C :: rest) := by
  constructor
  · intro h
    cases h with
    | refl => exact absurd rfl hc
    | char _ h => exact h
    | cr _ => exact absurd rfl hc
    | hex _ => exact absurd rfl hc
  · exact .char hc

theorem remains_cr_iff (rest : List UInt8) :
    Remains (0x5C :: 0x72 :: a) (0x5C :: rest) ↔ rest = 0x72 :: a ∨ Remains a (0x5C :: rest) := by
  constructor
  · intro h
    cases h with
    | refl => exact Or.inl rfl
    | char hc _ => exact absurd rfl hc
    | cr h => exact Or.inr h
  · rintro (rfl | h)
    · exact .refl _
    · exact .cr h

theorem remains_hex_iff {h l : UInt8} (rest : List UInt8) :
    Remains (0x5C :: 0x78 :: h :: l :: a) (0x5C :: rest)
      ↔ rest = 0x78 :: h :: l :: a ∨ Remains a (0x5C :: rest) := by
  constructor
  · intro h
    cases h with
    | refl => exact Or.inl rfl
    | char hc _ => exact absurd rfl hc
    | hex h => exact Or.inr h
  · rintro (rfl | h)
    · exact .refl _
    · exact .hex h

/-- A backslash that begins no whole unit is where reading stays. -/
theorem remains_wrong {rest q : List UInt8} (hx : rest.head? ≠ some 0x78)
    (hr : rest.head? ≠ some 0x72) (h : Remains (0x5C :: rest) q) : q = 0x5C :: rest := by
  cases h with
  | refl => rfl
  | char hc _ => exact absurd rfl hc
  | cr _ => exact absurd rfl hr
  | hex _ => exact absurd rfl hx

theorem keeps_char {c : UInt8} (hc : c ≠ 0x5C) : Keeps (c :: a) (n + 1) ↔ Keeps a n := by
  simp only [Keeps, CutHex, WrongEscape, remains_char_iff hc, List.length_cons,
    Nat.add_le_add_iff_right]
  rw [show a.length + 1 < n + 1 + 2 ↔ a.length < n + 2 by omega]

theorem wrongEscape_cr : WrongEscape (0x5C :: 0x72 :: a) ↔ WrongEscape a := by
  constructor
  · rintro ⟨rest, h, hx, hr⟩
    rcases (remains_cr_iff rest).mp h with rfl | h
    · exact absurd rfl hr
    · exact ⟨rest, h, hx, hr⟩
  · rintro ⟨rest, h, hx, hr⟩
    exact ⟨rest, .cr h, hx, hr⟩

theorem wrongEscape_hex {h l : UInt8} :
    WrongEscape (0x5C :: 0x78 :: h :: l :: a) ↔ WrongEscape a := by
  constructor
  · rintro ⟨rest, h, hx, hr⟩
    rcases (remains_hex_iff rest).mp h with rfl | h
    · exact absurd rfl hx
    · exact ⟨rest, h, hx, hr⟩
  · rintro ⟨rest, h, hx, hr⟩
    exact ⟨rest, .hex h, hx, hr⟩

theorem keeps_cr : Keeps (0x5C :: 0x72 :: a) (n + 1) ↔ Keeps a (n - 1) := by
  have hcut : CutHex (0x5C :: 0x72 :: a) (n + 1) ↔ CutHex a (n - 1) := by
    rw [CutHex, CutHex, remains_cr_iff, or_iff_right (by simp), List.length_cons,
      List.length_cons]
    refine and_congr_right fun h => ?_
    have htwo := two_le_of_cutHex h
    omega
  have hlen : n + 1 ≤ (0x5C :: 0x72 :: a).length + 1 ↔ n - 1 ≤ a.length + 1 := by
    rw [List.length_cons, List.length_cons]
    omega
  rw [Keeps, Keeps, hcut, hlen, wrongEscape_cr]

theorem keeps_hex {h l : UInt8} :
    Keeps (0x5C :: 0x78 :: h :: l :: a) (n + 1) ↔ Keeps a (n - 3) := by
  have hcut : CutHex (0x5C :: 0x78 :: h :: l :: a) (n + 1) ↔ CutHex a (n - 3) := by
    rw [CutHex, CutHex, remains_hex_iff, or_iff_right (by simp)]
    simp only [List.length_cons]
    refine and_congr_right fun h => ?_
    have htwo := two_le_of_cutHex h
    omega
  have hlen : n + 1 ≤ (0x5C :: 0x78 :: h :: l :: a).length + 1 ↔ n - 3 ≤ a.length + 1 := by
    simp only [List.length_cons]
    omega
  rw [Keeps, Keeps, hcut, hlen, wrongEscape_hex]

theorem keeps_zero (a : List UInt8) : Keeps a 0 :=
  ⟨fun h => absurd (two_le_of_cutHex h.1) (Nat.not_le_of_lt h.2), Or.inl (Nat.zero_le _)⟩

theorem keeps_wrong {rest : List UInt8} (hx : rest.head? ≠ some 0x78)
    (hr : rest.head? ≠ some 0x72) : Keeps (0x5C :: rest) (n + 1) := by
  refine ⟨fun h => ?_, Or.inr ⟨rest, .refl _, hx, hr⟩⟩
  have hrest := (List.cons.inj (remains_wrong hx hr h.1)).2
  exact hx (hrest ▸ rfl)

theorem not_keeps_cut : ¬ Keeps [0x5C, 0x78] (n + 1) :=
  fun h => h.1 ⟨.refl _, Nat.lt_add_of_pos_left (Nat.succ_pos n)⟩

theorem keeps_nil : Keeps [] (n + 1) ↔ n = 0 := by
  have hcut : ¬ CutHex [] (n + 1) := fun h => absurd (two_le_of_cutHex h.1) (by decide)
  have hwrong : ¬ WrongEscape [] := by
    rintro ⟨rest, h, -⟩
    cases h
  rw [Keeps, and_iff_right hcut, or_iff_left hwrong, List.length_nil]
  omega

theorem keeps_short_hex {h : UInt8} : Keeps [0x5C, 0x78, h] (n + 1) ↔ n ≤ 3 := by
  have hstay : ∀ q, Remains [0x5C, 0x78, h] q → q = [0x5C, 0x78, h] := by
    intro q hq
    cases hq with
    | refl => rfl
    | char hc _ => exact absurd rfl hc
  have hcut : ¬ CutHex [0x5C, 0x78, h] (n + 1) := fun hcut => by cases hstay _ hcut.1
  have hwrong : ¬ WrongEscape [0x5C, 0x78, h] := by
    rintro ⟨rest, hrest, hx, -⟩
    cases hstay _ hrest
    exact hx rfl
  rw [Keeps, and_iff_right hcut, or_iff_left hwrong]
  simp only [List.length_cons, List.length_nil]
  omega

end Steps

/-! ## The loop

An induction over the rounds, once for the loop on the bytes alone and once for its
accesses. Both end at the same units.
-/

/-- The rounds of the loop: none is left, or the rest is empty, begins with a unit, is cut
behind `\x`, or begins with a wrong escape. -/
@[elab_as_elim]
theorem loop_induction {motive : List UInt8 → ℕ → Prop} (zero : ∀ a, motive a 0)
    (nil : ∀ n, motive [] (n + 1))
    (char : ∀ c a n, c ≠ 0x5C → motive a n → motive (c :: a) (n + 1))
    (cr : ∀ a n, motive a (n - 1) → motive (0x5C :: 0x72 :: a) (n + 1))
    (hex : ∀ h l a n, motive a (n - 3) → motive (0x5C :: 0x78 :: h :: l :: a) (n + 1))
    (cut : ∀ n, motive [0x5C, 0x78] (n + 1)) (half : ∀ h n, motive [0x5C, 0x78, h] (n + 1))
    (wrong : ∀ (rest : List UInt8) (n : ℕ), rest.head? ≠ some 0x78 → rest.head? ≠ some 0x72 →
      motive (0x5C :: rest) (n + 1)) (a : List UInt8) (n : ℕ) : motive a n := by
  induction n using Nat.strong_induction_on generalizing a with
  | _ n ih =>
    match n, a with
    | 0, a => exact zero a
    | n + 1, [] => exact nil n
    | n + 1, c :: a =>
      by_cases hc : c = 0x5C
      · subst hc
        match a with
        | [] => exact wrong [] n (by simp) (by simp)
        | e :: a =>
          by_cases hx : e = 0x78
          · subst hx
            match a with
            | [] => exact cut n
            | [h] => exact half h n
            | h :: l :: a => exact hex h l a n (ih (n - 3) (by omega) a)
          · by_cases hr : e = 0x72
            · subst hr
              exact cr a n (ih (n - 1) (by omega) a)
            · exact wrong (e :: a) n (by simpa using hx) (by simpa using hr)
      · exact char c a n hc (ih n (Nat.lt_succ_self n) a)

theorem process_loop_zero (a : List UInt8) (j : ℕ) (buf : List UInt8) :
    process_loop a 0 j buf = some (0, buf) := by
  rw [process_loop.eq_def]

theorem process_loop_wrong {e : UInt8} (hx : e ≠ 0x78) (hr : e ≠ 0x72) (a : List UInt8)
    (n j : ℕ) (buf : List UInt8) :
    process_loop (0x5C :: e :: a) (n + 1) j buf = some (-1, buf) := by
  rw [process_loop.eq_def]
  dsimp only
  rw [if_neg (by decide), if_neg hx, if_neg hr]

/-- The loop over the bytes returns exactly where it keeps inside. -/
theorem process_loop_isSome_iff (a : List UInt8) (n j : ℕ) (buf : List UInt8)
    (hroom : j + a.length < buf.length) :
    (process_loop (a ++ [0]) n j buf).isSome ↔ Keeps a n := by
  have hj : j < buf.length := by omega
  induction a, n using loop_induction generalizing j buf with
  | zero a =>
    rw [process_loop_zero]
    exact iff_of_true rfl (keeps_zero a)
  | nil n =>
    rw [List.nil_append, process_loop_char (by decide), put_of_lt hj, Option.bind_some, keeps_nil]
    cases n with
    | zero => simp only [process_loop_zero, Option.isSome_some]
    | succ n => simp [process_loop]
  | char c a n hc ih =>
    rw [List.length_cons] at hroom
    have hlen := length_overwrite_byte hj c
    rw [List.cons_append, process_loop_char hc, put_of_lt hj, Option.bind_some, keeps_char hc]
    exact ih (j + 1) _ (by omega) (by omega)
  | cr a n ih =>
    rw [List.length_cons, List.length_cons] at hroom
    have hlen := length_overwrite_byte hj 0x0D
    rw [List.cons_append, List.cons_append, process_loop_cr, put_of_lt hj, Option.bind_some,
      keeps_cr]
    exact ih (j + 1) _ (by omega) (by omega)
  | hex h l a n ih =>
    simp only [List.length_cons] at hroom
    have hlen := length_overwrite_byte hj (strtoul16 [h, l])
    simp only [List.cons_append]
    rw [process_loop_hex, put_of_lt hj, Option.bind_some, keeps_hex]
    exact ih (j + 1) _ (by omega) (by omega)
  | cut n => simp [process_loop, not_keeps_cut]
  | half h n =>
    simp only [List.cons_append, List.nil_append]
    rw [process_loop_hex, put_of_lt hj, Option.bind_some, keeps_short_hex]
    -- What follows the terminator is not set.
    rcases Nat.eq_zero_or_pos (n - 3) with hn | hn
    · rw [hn, process_loop_zero]
      simp only [Option.isSome_some, true_iff]
      omega
    · obtain ⟨k, hk⟩ := Nat.exists_eq_add_of_lt hn
      rw [hk, Nat.zero_add, process_loop.eq_def]
      simp only [Option.isSome_none, Bool.false_eq_true, false_iff]
      omega
  | wrong rest n hx hr =>
    simp only [keeps_wrong hx hr, iff_true]
    cases rest with
    | nil =>
      rw [List.singleton_append, process_loop_wrong (by decide) (by decide)]
      rfl
    | cons e rest =>
      rw [List.cons_append, List.cons_append,
        process_loop_wrong (by simpa using hx) (by simpa using hr)]
      rfl

section Accesses

variable {tmpString : ℕ → UInt8} {n i j : ℕ}

/-- The bytes of the array from an index on are these. -/
def Shows (tmpString : ℕ → UInt8) : ℕ → List UInt8 → Prop
  | _, [] => True
  | i, c :: l => tmpString i = c ∧ Shows tmpString (i + 1) l

theorem shows_getD (p l : List UInt8) (stack : ℕ → UInt8) :
    Shows (fun i => (p ++ l).getD i (stack i)) p.length l := by
  induction l generalizing p with
  | nil => trivial
  | cons c l ih =>
    have hrest := ih (p ++ [c])
    rw [List.append_assoc, List.singleton_append, List.length_append] at hrest
    refine ⟨?_, hrest⟩
    dsimp only
    rw [List.getD_eq_getElem?_getD, List.getElem?_append_right le_rfl, Nat.sub_self]
    rfl

theorem loop_accesses_char (h : tmpString i ≠ 0x5C) : loop_accesses tmpString (n + 1) i j
    = .read i :: .write j :: loop_accesses tmpString n (i + 1) (j + 1) := by
  rw [loop_accesses, if_pos h]

theorem loop_accesses_hex (h : tmpString i = 0x5C) (hx : tmpString (i + 1) = 0x78) :
    loop_accesses tmpString (n + 1) i j
      = .read i :: .read (i + 1) :: .read (i + 2) :: .read (i + 3) :: .write j
          :: loop_accesses tmpString (n - 3) (i + 4) (j + 1) := by
  rw [loop_accesses, if_neg (not_not_intro h), if_pos hx]

theorem loop_accesses_cr (h : tmpString i = 0x5C) (hr : tmpString (i + 1) = 0x72) :
    loop_accesses tmpString (n + 1) i j = .read i :: .read (i + 1) :: .write j
      :: loop_accesses tmpString (n - 1) (i + 2) (j + 1) := by
  rw [loop_accesses, if_neg (not_not_intro h), if_neg (by rw [hr]; decide), if_pos hr]

theorem loop_accesses_wrong (h : tmpString i = 0x5C) (hx : tmpString (i + 1) ≠ 0x78)
    (hr : tmpString (i + 1) ≠ 0x72) :
    loop_accesses tmpString (n + 1) i j = [.read i, .read (i + 1)] := by
  rw [loop_accesses, if_neg (not_not_intro h), if_neg hx, if_neg hr]

theorem read_mem_loop_accesses (tmpString : ℕ → UInt8) (n i j : ℕ) :
    Access.read i ∈ loop_accesses tmpString (n + 1) i j := by
  rw [loop_accesses]
  split_ifs <;> exact List.mem_cons_self

/-- Behind a backslash one more byte is read in any case. -/
theorem read_succ_mem_loop_accesses (h : tmpString i = 0x5C) (n j : ℕ) :
    Access.read (i + 1) ∈ loop_accesses tmpString (n + 1) i j := by
  rw [loop_accesses, if_neg (not_not_intro h)]
  split_ifs <;> exact List.mem_cons_of_mem _ List.mem_cons_self

/-- A read behind what is copied is not inside. -/
theorem not_inside_of_read {copied k : ℕ} (hread : .read k ∈ loop_accesses tmpString n i j)
    (hk : copied ≤ k) : ¬ ∀ a ∈ loop_accesses tmpString n i j, a.Inside copied :=
  fun h => absurd (h _ hread).2 (Nat.not_lt_of_le hk)

/-- The second of the two bytes behind a `\x` is read, set or not. -/
theorem read_hex_mem_loop_accesses (h : tmpString i = 0x5C) (hx : tmpString (i + 1) = 0x78)
    (n j : ℕ) : Access.read (i + 3) ∈ loop_accesses tmpString (n + 1) i j := by
  rw [loop_accesses_hex h hx]
  simp

/-- The reads at the beginning of a unit, all of it copied. -/
theorem read_inside {copied k : ℕ} (hcopied : copied ≤ buffsize) (hk : k < copied) :
    (Access.read k).Inside copied := ⟨hk.trans_le hcopied, hk⟩

/-- **The accesses are inside exactly when the loop over the bytes returns.** -/
theorem loop_accesses_inside_iff {l buf : List UInt8} {copied : ℕ} (hshow : Shows tmpString i l)
    (hend : i + l.length = copied) (hcopied : copied ≤ buffsize) (hj : j ≤ i)
    (hbuf : buf.length = buffsize) :
    (∀ a ∈ loop_accesses tmpString n i j, a.Inside copied) ↔ (process_loop l n j buf).isSome := by
  induction l, n using loop_induction generalizing i j buf with
  | zero l =>
    rw [process_loop_zero, loop_accesses]
    exact iff_of_true (fun _ h => absurd h List.not_mem_nil) rfl
  | nil n =>
    -- the next character is the first one behind what was copied
    have hout : ¬ (process_loop [] (n + 1) j buf).isSome := by simp [process_loop]
    exact iff_of_false (not_inside_of_read (read_mem_loop_accesses tmpString n i j) hend.ge) hout
  | char c l n hc ih =>
    obtain ⟨hi, hshow⟩ := hshow
    rw [List.length_cons] at hend
    have hput : j < buf.length := by omega
    have hread : (Access.read i).Inside copied := read_inside hcopied (by omega)
    have hwrite : (Access.write j).Inside copied := lt_of_lt_of_eq hput hbuf
    rw [loop_accesses_char (by rwa [hi]), process_loop_char hc, put_of_lt hput, Option.bind_some]
    simp only [List.forall_mem_cons, hread, hwrite, true_and]
    exact ih hshow (by omega) (by omega) ((length_overwrite_byte hput c).trans hbuf)
  | cr l n ih =>
    obtain ⟨hi, hnext, hshow⟩ := hshow
    rw [List.length_cons, List.length_cons] at hend
    have hput : j < buf.length := by omega
    have hread : (Access.read i).Inside copied := read_inside hcopied (by omega)
    have hread' : (Access.read (i + 1)).Inside copied := read_inside hcopied (by omega)
    have hwrite : (Access.write j).Inside copied := lt_of_lt_of_eq hput hbuf
    have hlen := length_overwrite_byte hput 0x0D
    rw [loop_accesses_cr hi hnext, process_loop_cr, put_of_lt hput, Option.bind_some]
    simp only [List.forall_mem_cons, hread, hread', hwrite, true_and]
    exact ih hshow (by omega) (by omega) (hlen.trans hbuf)
  | hex h l' l n ih =>
    obtain ⟨hi, hnext, -, -, hshow⟩ := hshow
    simp only [List.length_cons] at hend
    have hput : j < buf.length := by omega
    have hread : ∀ k < 4, (Access.read (i + k)).Inside copied :=
      fun k hk => read_inside hcopied (by omega)
    have hfirst : (Access.read i).Inside copied := hread 0 (by decide)
    have hwrite : (Access.write j).Inside copied := lt_of_lt_of_eq hput hbuf
    have hlen := length_overwrite_byte hput (strtoul16 [h, l'])
    rw [loop_accesses_hex hi hnext, process_loop_hex, put_of_lt hput, Option.bind_some]
    simp only [List.forall_mem_cons, hfirst, hread 1 (by decide), hread 2 (by decide),
      hread 3 (by decide), hwrite, true_and]
    exact ih hshow (by omega) (by omega) (hlen.trans hbuf)
  | cut n =>
    have hout : ¬ (process_loop [0x5C, 0x78] (n + 1) j buf).isSome := by simp [process_loop]
    have hread := read_hex_mem_loop_accesses hshow.1 hshow.2.1 n j
    simp only [List.length_cons, List.length_nil] at hend
    exact iff_of_false (not_inside_of_read hread (by omega)) hout
  | half h n =>
    have hout : ¬ (process_loop [0x5C, 0x78, h] (n + 1) j buf).isSome := by simp [process_loop]
    have hread := read_hex_mem_loop_accesses hshow.1 hshow.2.1 n j
    simp only [List.length_cons, List.length_nil] at hend
    exact iff_of_false (not_inside_of_read hread (by omega)) hout
  | wrong rest n hx hr =>
    cases rest with
    | nil =>
      have hout : ¬ (process_loop [0x5C] (n + 1) j buf).isSome := by simp [process_loop]
      have hread := read_succ_mem_loop_accesses hshow.1 n j
      exact iff_of_false (not_inside_of_read hread hend.ge) hout
    | cons e rest =>
      obtain ⟨hi, hnext, -⟩ := hshow
      have hex : e ≠ 0x78 := by simpa using hx
      have her : e ≠ 0x72 := by simpa using hr
      rw [List.length_cons, List.length_cons] at hend
      have hread : (Access.read i).Inside copied := read_inside hcopied (by omega)
      have hread' : (Access.read (i + 1)).Inside copied := read_inside hcopied (by omega)
      rw [process_loop_wrong hex her, loop_accesses_wrong hi (by rwa [hnext]) (by rwa [hnext])]
      simp only [List.forall_mem_cons, hread, hread', List.not_mem_nil, false_implies,
        implies_true, and_self, Option.isSome_some]

end Accesses

/-! ## Every argument

The parts are put together for an argument of any length, of which only the front is copied
and the length is stored in an `int`.
-/

theorem bmod_natCast_le (n m : ℕ) : Int.bmod n m ≤ n := by
  have hmod := Nat.mod_le n m
  rw [Int.bmod_def, ← Int.natCast_emod]
  split_ifs <;> omega

/-- The `int` is the length of the argument, or a smaller number. -/
theorem copied_len_le (pString : List UInt8) : copied_len pString ≤ pString.length :=
  bmod_natCast_le _ _

theorem copied_len_eq {pString : List UInt8} (h : pString.length < 2 ^ 31) :
    copied_len pString = pString.length :=
  Int.bmod_eq_of_le_mul_two (by omega) (by norm_num; omega)

theorem keeps_copied_iff (pString : List UInt8) :
    Keeps (pString.take (buffsize - 1)) (copied_len pString).toNat
      ↔ ¬ CutHex (pString.take (buffsize - 1)) (copied_len pString).toNat ∧
        (copied_len pString ≤ buffsize ∨ WrongEscape (pString.take (buffsize - 1))) := by
  have hle := copied_len_le pString
  have hlen : (copied_len pString).toNat ≤ (pString.take (buffsize - 1)).length + 1
      ↔ copied_len pString ≤ buffsize := by
    rw [List.length_take, buffsize]
    omega
  rw [Keeps, hlen]

/-- The loop of the whole argument, with any buffer of the size of `s_atCommand`. -/
theorem inside_iff_loop_returns (pString : List UInt8) (stack : ℕ → UInt8) {buf : List UInt8}
    (hbuf : buf.length = buffsize) :
    StaysInside pString stack
      ↔ (process_loop (copied_part pString) (copied_len pString).toNat 0 buf).isSome := by
  rcases le_or_gt (copied_len pString) 0 with hneg | hpos
  · have hzero : (copied_len pString).toNat = 0 := Int.toNat_of_nonpos hneg
    rw [StaysInside, string_process_accesses, if_pos hneg, hzero, process_loop_zero]
    exact iff_of_true (fun _ h => absurd h List.not_mem_nil) rfl
  · have hcopied : (copied_part pString).length ≤ buffsize := by
      rw [copied_part, List.length_append, List.length_take, List.length_singleton, buffsize]
      omega
    rw [StaysInside, string_process_accesses, if_neg (not_le_of_gt hpos)]
    exact loop_accesses_inside_iff (shows_getD [] _ stack) (Nat.zero_add _) hcopied le_rfl hbuf

/-- **`StringProcess` stays inside its buffers exactly when no `\x` is cut off and an argument of
more than 1024 bytes has a wrong escape.** For every argument, and whatever is on the stack behind
the buffer. -/
theorem string_process_inside_iff (pString : List UInt8) (stack : ℕ → UInt8) :
    StaysInside pString stack
      ↔ ¬ CutHex (pString.take (buffsize - 1)) (copied_len pString).toNat ∧
        (copied_len pString ≤ buffsize ∨ WrongEscape (pString.take (buffsize - 1))) := by
  have hroom : 0 + (pString.take (buffsize - 1)).length < (hold buffsize []).length := by
    rw [length_hold (Nat.zero_le _), List.length_take, buffsize]
    omega
  rw [inside_iff_loop_returns pString stack (@length_hold buffsize [] (Nat.zero_le _)), copied_part,
    process_loop_isSome_iff _ _ _ _ hroom, keeps_copied_iff]

/-- `\x` alone: the second of the two bytes behind it is not set. -/
theorem bare_hex_reads_outside :
    (∀ stack, string_process_accesses [0x5C, 0x78] stack
      = [.read 0, .read 1, .read 2, .read 3, .write 0]) ∧
    (copied_part [0x5C, 0x78]).length = 3 ∧ ∀ stack, ¬ StaysInside [0x5C, 0x78] stack := by
  have haccesses : ∀ stack, string_process_accesses [0x5C, 0x78] stack
      = [.read 0, .read 1, .read 2, .read 3, .write 0] := by
    intro stack
    have hlen : copied_len [0x5C, 0x78] = 2 := by decide
    rw [string_process_accesses, hlen, if_neg (by decide)]
    show loop_accesses _ (1 + 1) 0 0 = _
    rw [loop_accesses_hex rfl rfl]
    show _ :: _ :: _ :: _ :: _ :: loop_accesses _ 0 _ _ = _
    rw [loop_accesses]
  refine ⟨haccesses, by decide, fun stack h => ?_⟩
  have hlast : Access.read 3 ∈ string_process_accesses [0x5C, 0x78] stack := by
    rw [haccesses]
    decide
  exact absurd (h _ hlast).2 (by decide)

/-- For a length that fits an `int`, the decoding of an argument is undefined exactly
where an access is outside. -/
theorem string_process_isSome_iff {pString : List UInt8} (hlen : pString.length < 2 ^ 31)
    (stack : ℕ → UInt8) {s_atCommand : List UInt8} (hbuf : s_atCommand.length = buffsize) :
    (string_process pString s_atCommand).isSome ↔ StaysInside pString stack := by
  rw [inside_iff_loop_returns pString stack hbuf, copied_len_eq hlen, Int.toNat_natCast,
    string_process, copied_part]
  split_ifs with h
  · rw [h, process_loop_zero]
    rfl
  · rfl

end AndroidTools.SerialClient
