/-
Decimal text and searching for a pattern in it.

A pattern is a matcher in continuation style: it consumes the front of a text and hands the rest
on, and `search` tries it at every position from the left. `digits` takes a maximal run of digits
and never gives one back, which is all a greedy `\d+` can do when what follows cannot start with a
digit.

Numbers go out through `toString` and come back through `int_of_text` (`int(..)`) or
`int_of_float_text` (`int(float(..))`). The second goes through a double, so it is exact up to
`2^53` and rounds half to even above. C programs read them with `atoi`, which takes the digits at
the front and ignores the rest.

The last two sections are about names that are made of numbers: which number begins which, and
numbers that are padded to a fixed width.
-/
import Mathlib.Tactic

set_option autoImplicit false

namespace AndroidTools.Text

/-! ## Matchers

A matcher is a function of the text that hands the rest to a continuation, so a pattern is a
composition of matchers, and backtracking is the choice that `.?` makes after seeing what
the rest does. Only the few operators that the patterns of the source use are here.
-/

section Matchers

variable {α β : Type*}

/-- The literal text `s`: it must stand at the front, and what comes behind it is handed on. -/
def lit (s : List Char) (k : List Char → Option α) (cs : List Char) : Option α :=
  if s.isPrefixOf cs then k (cs.drop s.length) else none

/-- `(\d+)`; the continuation gets the digits and the rest. -/
def digits (k : List Char → List Char → Option α) (cs : List Char) : Option α :=
  match cs.takeWhile Char.isDigit with
  | [] => none
  | d :: ds => k (d :: ds) (cs.dropWhile Char.isDigit)

/-- `.?`: one character first, which is no line break, and if what follows does not match then,
none. -/
def optAny (k : List Char → Option α) : List Char → Option α
  | [] => k []
  | c :: cs => (if c = '\n' then none else k cs).or (k (c :: cs))

/-- `re.search`: the match at the leftmost position that has one. -/
def search (m : List Char → Option α) : List Char → Option α
  | [] => m []
  | c :: cs => (m (c :: cs)).or (search m cs)

theorem lit_append (s : List Char) (k : List Char → Option α) (cs : List Char) :
    lit s k (s ++ cs) = k cs := by
  rw [lit, if_pos (by simp), List.drop_left]

/-- A literal is not found where one of its characters does not occur. -/
theorem search_lit_eq_none_of_mem {c : Char} {s : List Char} (hc : c ∈ s)
    (k : List Char → Option α) {cs : List Char} (h : c ∉ cs) : search (lit s k) cs = none := by
  have hfront : ∀ l : List Char, c ∉ l → lit s k l = none := by
    intro l hl
    rw [lit, if_neg]
    intro hp
    rw [List.isPrefixOf_iff_prefix] at hp
    exact hl (hp.subset hc)
  induction cs with
  | nil => exact hfront [] h
  | cons d cs ih =>
    rw [search, hfront _ h, Option.none_or]
    exact ih fun hc => h (by simp [hc])

theorem search_lit_eq_none {c : Char} (s : List Char) (k : List Char → Option α)
    {cs : List Char} (h : c ∉ cs) : search (lit (c :: s) k) cs = none :=
  search_lit_eq_none_of_mem List.mem_cons_self k h

theorem lit_cons_of_ne {c d : Char} (hcd : c ≠ d) (s : List Char) (k : List Char → Option α)
    (cs : List Char) : lit (c :: s) k (d :: cs) = none := by
  rw [lit, if_neg]
  simp [hcd]

/-- `.?` takes a character that is no line break if the rest then matches. -/
theorem optAny_skip {k : List Char → Option α} {c : Char} {cs : List Char} {a : α}
    (hc : c ≠ '\n') (h : k cs = some a) : optAny k (c :: cs) = some a := by
  rw [optAny, if_neg hc, h, Option.some_or]

/-- `.?` takes nothing where the rest does not match behind a character that it could take. -/
theorem optAny_keep {k : List Char → Option α} {c : Char} {cs : List Char} (h : k cs = none) :
    optAny k (c :: cs) = k (c :: cs) := by
  rw [optAny, h, ite_self, Option.none_or]

/-- A match at the front is the leftmost one. -/
theorem search_of_front {m : List Char → Option α} {cs : List Char} {a : α}
    (h : m cs = some a) : search m cs = some a := by
  cases cs with
  | nil => exact h
  | cons c cs => rw [search, h, Option.some_or]

end Matchers

/-! ## Numbers

`int(s)` of Python takes white space at both ends and a sign. `int(float(s))` goes through a
double first, so it rounds from 2^53 on; the rounding is to the nearest, ties to even, and a
number without a finite double has none.
-/

/-- The number a run of digits stands for. -/
def natOfDigits (ds : List Char) : ℕ := Nat.ofDigitChars 10 ds 0

/-- The text without the white space at either end. -/
def strip (cs : List Char) : List Char :=
  ((cs.dropWhile Char.isWhitespace).reverse.dropWhile Char.isWhitespace).reverse

/-- A sign, if there is one, and a run of digits, and nothing else. -/
def signed (cs : List Char) : Option ℤ :=
  match cs with
  | '-' :: ds => digits (fun ds rest => if rest = [] then some (-(natOfDigits ds : ℤ)) else none) ds
  | '+' :: ds => digits (fun ds rest => if rest = [] then some (natOfDigits ds : ℤ) else none) ds
  | ds => digits (fun ds rest => if rest = [] then some (natOfDigits ds : ℤ) else none) ds

/-- `int(s)`; `none` where it raises. -/
def int_of_text (s : String) : Option ℤ := signed (strip s.toList)

/-- The double nearest to a natural number, ties to even; `none` where it is not
finite and `int` raises. -/
def double_of_nat (n : ℕ) : Option ℕ :=
  if n < 2 ^ 53 then some n
  else
    let e := n.log2 - 52
    let q := n / 2 ^ e
    let r := n % 2 ^ e
    let q := if 2 ^ e < 2 * r ∨ 2 * r = 2 ^ e ∧ q % 2 = 1 then q + 1 else q
    if q * 2 ^ e < 2 ^ 1024 then some (q * 2 ^ e) else none

/-- `int(float(z))`, for a number of either sign. -/
def int_of_float (z : ℤ) : Option ℤ :=
  (double_of_nat z.natAbs).map fun n : ℕ => if z < 0 then -(n : ℤ) else n

/-- `int(float(s))` for a decimal integer `s`. -/
def int_of_float_text (s : String) : Option ℤ := (int_of_text s).bind int_of_float

theorem int_of_float_natCast {n : ℕ} (h : n < 2 ^ 53) : int_of_float n = some (n : ℤ) := by
  have hneg : ¬ (n : ℤ) < 0 := by omega
  rw [int_of_float, Int.natAbs_natCast, double_of_nat, if_pos h, Option.map_some, if_neg hneg]

/-! ## Reading back `str(n)`

The numbers of a document are printed by one program and read by another. What is printed is
read back as it was by `int`, and by `int(float(..))` as long as a double holds the number.
Digits followed by something that is no digit are taken as a whole, so a number in the
middle of a pattern is found too.
-/

theorem toString_nat_toList (n : ℕ) : (toString n).toList = Nat.toDigits 10 n := by simp

theorem toString_negSucc_toList (n : ℕ) :
    (toString (Int.negSucc n)).toList = '-' :: Nat.toDigits 10 (n + 1) := by
  have hsplit : toString (Int.negSucc n) = "-" ++ toString (n + 1) := rfl
  rw [hsplit, String.toList_append, toString_nat_toList]
  rfl

theorem natOfDigits_toDigits (n : ℕ) : natOfDigits (Nat.toDigits 10 n) = n :=
  Nat.ofDigitChars_ten_toDigits

theorem isDigit_toDigits {n : ℕ} {c : Char} (h : c ∈ Nat.toDigits 10 n) : c.isDigit = true :=
  Nat.isDigit_of_mem_toDigits (by norm_num) le_rfl h

/-- The digits of a number are taken as a whole where something follows that is not a digit. -/
theorem digits_toDigits {α : Type*} (k : List Char → List Char → Option α) (n : ℕ)
    {rest : List Char} (hrest : ∀ c, rest.head? = some c → c.isDigit = false) :
    digits k (Nat.toDigits 10 n ++ rest) = k (Nat.toDigits 10 n) rest := by
  have hall : ∀ c ∈ Nat.toDigits 10 n, c.isDigit = true := fun c => isDigit_toDigits
  have htake : rest.takeWhile Char.isDigit = [] := by
    cases rest with
    | nil => rfl
    | cons c cs => simp [hrest c rfl]
  have hdrop : rest.dropWhile Char.isDigit = rest := by
    cases rest with
    | nil => rfl
    | cons c cs => simp [hrest c rfl]
  rw [digits, List.takeWhile_append_of_pos hall, List.dropWhile_append_of_pos hall, htake, hdrop,
    List.append_nil]
  cases h : Nat.toDigits 10 n with
  | nil => exact absurd h Nat.toDigits_ne_nil
  | cons d ds => rfl

/-- A literal that begins with a character that is no digit is not found at the front of a number.
-/
theorem lit_toDigits {α : Type*} {c : Char} (hc : c.isDigit = false) (s : List Char)
    (k : List Char → Option α) (n : ℕ) (rest : List Char) :
    lit (c :: s) k (Nat.toDigits 10 n ++ rest) = none := by
  cases h : Nat.toDigits 10 n with
  | nil => exact absurd h Nat.toDigits_ne_nil
  | cons d ds =>
    apply lit_cons_of_ne
    rintro rfl
    have hd := isDigit_toDigits (n := n) (c := c) (by rw [h]; simp)
    rw [hc] at hd
    cases hd

theorem not_isWhitespace_toDigits {n : ℕ} {c : Char} (h : c ∈ Nat.toDigits 10 n) :
    ¬ c.isWhitespace = true := by
  intro hw
  have hd := isDigit_toDigits h
  simp only [Char.isWhitespace, Char.isDigit, Bool.or_eq_true, decide_eq_true_eq,
    Bool.and_eq_true] at hw hd
  rcases hw with ((rfl | rfl) | rfl) | rfl <;> exact absurd hd (by decide)

/-- A text without white space has none to strip. -/
theorem strip_eq_self {l : List Char} (h : ∀ c ∈ l, ¬ c.isWhitespace = true) : strip l = l := by
  have hdrop : ∀ l : List Char, (∀ c ∈ l, ¬ c.isWhitespace = true) →
      l.dropWhile Char.isWhitespace = l := by
    intro l hl
    cases l with
    | nil => rfl
    | cons c cs => simp [hl c (by simp)]
  rw [strip, hdrop _ h, hdrop _ (by simpa using h), List.reverse_reverse]

theorem strip_toDigits (n : ℕ) : strip (Nat.toDigits 10 n) = Nat.toDigits 10 n :=
  strip_eq_self fun _ => not_isWhitespace_toDigits

/-- `int(str(n))` is `n`, for a natural number. -/
theorem int_of_text_toString (n : ℕ) : int_of_text (toString n) = some (n : ℤ) := by
  have h := digits_toDigits (fun ds rest => if rest = [] then some (natOfDigits ds : ℤ) else none) n
    (show ∀ c, ([] : List Char).head? = some c → c.isDigit = false by simp)
  rw [List.append_nil] at h
  rw [int_of_text, toString_nat_toList, strip_toDigits]
  cases hd : Nat.toDigits 10 n with
  | nil => exact absurd hd Nat.toDigits_ne_nil
  | cons d ds =>
    have hdig : d.isDigit = true := isDigit_toDigits (n := n) (by rw [hd]; simp)
    rw [hd] at h
    have hsig : signed (d :: ds)
        = digits (fun ds rest => if rest = [] then some (natOfDigits ds : ℤ) else none)
            (d :: ds) := by
      unfold signed
      split
      · rename_i heq
        cases heq
        exact absurd hdig (by decide)
      · rename_i heq
        cases heq
        exact absurd hdig (by decide)
      · rfl
    rw [hsig, h, ← hd, natOfDigits_toDigits]
    rfl

/-- `int(str(z))` is `z`, for an integer with its sign. -/
theorem int_of_text_toString_int (z : ℤ) : int_of_text (toString z) = some z := by
  cases z with
  | ofNat n => exact int_of_text_toString n
  | negSucc n =>
    have hstrip : strip ('-' :: Nat.toDigits 10 (n + 1)) = '-' :: Nat.toDigits 10 (n + 1) := by
      apply strip_eq_self
      intro c hc
      rcases List.mem_cons.mp hc with rfl | hc
      · decide
      · exact not_isWhitespace_toDigits hc
    have h := digits_toDigits
      (fun ds rest => if rest = [] then some (-(natOfDigits ds : ℤ)) else none) (n + 1)
      (show ∀ c, ([] : List Char).head? = some c → c.isDigit = false by simp)
    rw [List.append_nil, natOfDigits_toDigits, if_pos rfl] at h
    rw [int_of_text, toString_negSucc_toList, hstrip, signed, h, Int.negSucc_eq]
    rfl

/-- `int(float(str(n)))` is `n` as long as a double holds every number up to `n`. -/
theorem int_of_float_text_toString {n : ℕ} (h : n < 2 ^ 53) :
    int_of_float_text (toString n) = some (n : ℤ) := by
  rw [int_of_float_text, int_of_text_toString, Option.bind_some, int_of_float_natCast h]

/-! ## `atoi`

`atoi` stops at the first character that does not belong to a number and never fails, so
what follows a number in a property does not matter to it.
-/

/-- `isspace` of the C locale: the blank and the characters 9 to 13. -/
def isspace (c : Char) : Bool := c = ' ' || (9 ≤ c.toNat && c.toNat ≤ 13)

/-- The number a run of digits at the front stands for, 0 if there is none. -/
def leading_number (cs : List Char) : ℤ := natOfDigits (cs.takeWhile Char.isDigit)

/-- `atoi`: white space, a sign, and the digits up to the first other character. -/
def atoi (s : String) : ℤ :=
  match s.toList.dropWhile isspace with
  | '-' :: cs => -leading_number cs
  | '+' :: cs => leading_number cs
  | cs => leading_number cs

theorem isspace_eq_false_of_isDigit {c : Char} (h : c.isDigit = true) : isspace c = false := by
  simp only [Char.isDigit, Bool.and_eq_true, decide_eq_true_eq] at h
  have hlow : 48 ≤ c.toNat := h.1
  have hne : c ≠ ' ' := by
    rintro rfl
    exact absurd hlow (by decide)
  have hhigh : ¬ c.toNat ≤ 13 := by omega
  simp [isspace, hne, hhigh]

/-- `atoi` of a number is the number, whatever follows that is not a digit. -/
theorem atoi_toString (n : ℕ) {tail : String}
    (htail : ∀ c, tail.toList.head? = some c → c.isDigit = false) :
    atoi (toString n ++ tail) = n := by
  have hall : ∀ c ∈ Nat.toDigits 10 n, c.isDigit = true := fun c => isDigit_toDigits
  have htake : (Nat.toDigits 10 n ++ tail.toList).takeWhile Char.isDigit = Nat.toDigits 10 n := by
    rw [List.takeWhile_append_of_pos hall]
    cases htl : tail.toList with
    | nil => simp
    | cons c cs => simp [htail c (by rw [htl]; rfl)]
  rw [atoi, String.toList_append, toString_nat_toList]
  cases hd : Nat.toDigits 10 n with
  | nil => exact absurd hd Nat.toDigits_ne_nil
  | cons d ds =>
    have hdig : d.isDigit = true := hall d (by rw [hd]; simp)
    rw [hd] at htake
    rw [List.cons_append,
      List.dropWhile_cons_of_neg (by simp [isspace_eq_false_of_isDigit hdig])]
    split
    · rename_i heq
      cases heq
      exact absurd hdig (by decide)
    · rename_i heq
      cases heq
      exact absurd hdig (by decide)
    · rw [leading_number, ← List.cons_append, htake, ← hd, natOfDigits_toDigits]

/-! ## Numbers that begin alike

File names that end in a number are told apart by their beginning in one place of the
source. A number is the beginning of another when last digits are cut off, which is a fact
about quotients by powers of ten.
-/

/-- A number other than 0 begins another if it is left when last digits are cut off. -/
theorem toDigits_prefix_iff {d : ℕ} (hd : 0 < d) (n : ℕ) :
    Nat.toDigits 10 d <+: Nat.toDigits 10 n ↔ ∃ t, n / 10 ^ t = d := by
  induction n using Nat.strong_induction_on with
  | _ n ih =>
    have heq : Nat.toDigits 10 d = Nat.toDigits 10 n ↔ n = d := by
      refine ⟨fun h => ?_, fun h => by rw [h]⟩
      rw [← natOfDigits_toDigits n, ← h, natOfDigits_toDigits]
    -- nothing is cut off, or the last digit is
    have hsplit : (∃ t, n / 10 ^ t = d) ↔ n = d ∨ ∃ t, n / 10 / 10 ^ t = d := by
      constructor
      · rintro ⟨t, ht⟩
        cases t with
        | zero => exact Or.inl (by rwa [pow_zero, Nat.div_one] at ht)
        | succ t => exact Or.inr ⟨t, by rw [← ht, Nat.div_div_eq_div_mul, pow_succ']⟩
      · rintro (h | ⟨t, ht⟩)
        · exact ⟨0, by rw [pow_zero, Nat.div_one, h]⟩
        · exact ⟨t + 1, by rw [← ht, Nat.div_div_eq_div_mul, pow_succ']⟩
    rw [hsplit]
    by_cases hn : n < 10
    · have hnone : ¬ ∃ t, n / 10 / 10 ^ t = d := by
        rintro ⟨t, ht⟩
        rw [Nat.div_eq_of_lt hn, Nat.zero_div] at ht
        omega
      rw [or_iff_left hnone, ← heq, Nat.toDigits_of_lt_base hn]
      refine ⟨fun h => ?_, fun h => by rw [h]⟩
      exact h.eq_of_length_le (List.length_pos_of_ne_nil Nat.toDigits_ne_nil)
    · rw [← heq, ← ih (n / 10) (by omega), Nat.toDigits_of_base_le (n := n) (by decide) (by omega),
        List.prefix_concat_iff]

/-- The only number that begins with a 0 is 0. -/
theorem eq_zero_of_zero_prefix {n : ℕ} (h : ['0'] <+: Nat.toDigits 10 n) : n = 0 := by
  induction n using Nat.strong_induction_on with
  | _ n ih =>
    by_cases hn : n < 10
    · rw [Nat.toDigits_of_lt_base hn, List.prefix_cons_iff] at h
      interval_cases n <;> simp_all [Nat.digitChar]
    · rw [Nat.toDigits_of_base_le (by decide) (by omega), List.prefix_concat_iff] at h
      rcases h with h | h
      · have hlen := congrArg List.length h
        have hpos := List.length_pos_of_ne_nil (Nat.toDigits_ne_nil (b := 10) (n := n / 10))
        rw [List.length_append] at hlen
        simp only [List.length_singleton] at hlen
        omega
      · have := ih (n / 10) (by omega) h
        omega

/-- A text that does not hold `c` begins one that does before `c` comes. -/
theorem prefix_append_cons_iff {a b rest : List Char} {c : Char} (hc : c ∉ a) :
    a <+: b ++ c :: rest ↔ a <+: b := by
  refine ⟨fun h => ?_, fun h => h.trans (List.prefix_append _ _)⟩
  rcases Nat.lt_or_ge b.length a.length with hlen | hlen
  · have hmem : b ++ [c] <+: a := by
      have hfront : b ++ [c] <+: b ++ c :: rest := ⟨rest, by simp⟩
      exact List.prefix_of_prefix_length_le hfront h (by simpa using hlen)
    exact absurd (hmem.subset (by simp)) hc
  · exact List.prefix_of_prefix_length_le h (List.prefix_append _ _) hlen

/-! ## Padded numbers

The fields of a date have a fixed number of digits with leading zeros. Printing in this form
and reading back are inverse to each other on the numbers the field has room for.
-/

/-- The last `k` digits of `n`, with leading zeros where there are fewer. -/
def padded : ℕ → ℕ → List Char
  | 0, _ => []
  | k + 1, n => padded k (n / 10) ++ [Nat.digitChar (n % 10)]

theorem length_padded (k n : ℕ) : (padded k n).length = k := by
  induction k generalizing n with
  | zero => rfl
  | succ k ih => rw [padded, List.length_append, ih, List.length_singleton]

theorem isDigit_padded {k n : ℕ} {c : Char} (h : c ∈ padded k n) : c.isDigit = true := by
  induction k generalizing n with
  | zero => exact absurd h List.not_mem_nil
  | succ k ih =>
    rcases List.mem_append.mp h with h | h
    · exact ih h
    · rw [List.mem_singleton.mp h, Nat.isDigit_digitChar]
      exact decide_eq_true (Nat.mod_lt n (by decide))

theorem natOfDigits_padded {k n : ℕ} (h : n < 10 ^ k) : natOfDigits (padded k n) = n := by
  induction k generalizing n with
  | zero =>
    rw [pow_zero] at h
    exact (Nat.lt_one_iff.mp h).symm
  | succ k ih =>
    have hrest := @ih (n / 10) (by
      rw [pow_succ] at h
      exact Nat.div_lt_of_lt_mul (by omega))
    rw [natOfDigits] at hrest ⊢
    rw [padded, Nat.ofDigitChars_append, hrest,
      Nat.ofDigitChars_cons_digitChar_of_lt_ten (Nat.mod_lt n (by decide)), Nat.ofDigitChars_nil]
    omega

theorem natOfDigits_append_singleton (ds : List Char) (c : Char) :
    natOfDigits (ds ++ [c]) = 10 * natOfDigits ds + (c.toNat - '0'.toNat) := by
  rw [natOfDigits, natOfDigits, Nat.ofDigitChars_append, Nat.ofDigitChars_cons,
    Nat.ofDigitChars_nil]

theorem digit_value_lt {c : Char} (h : c.isDigit = true) : c.toNat - '0'.toNat < 10 := by
  have hrange : 48 ≤ c.toNat ∧ c.toNat ≤ 57 := Char.isDigit_iff_toNat.mp h
  have hzero : '0'.toNat = 48 := rfl
  omega

theorem digitChar_digit_value {c : Char} (h : c.isDigit = true) :
    Nat.digitChar (c.toNat - '0'.toNat) = c := by
  have hlt := digit_value_lt h
  have hrange : 48 ≤ c.toNat ∧ c.toNat ≤ 57 := Char.isDigit_iff_toNat.mp h
  have hzero : '0'.toNat = 48 := rfl
  apply Char.toNat_inj.mp
  rw [Nat.toNat_digitChar_of_lt_ten hlt]
  omega

/-- Digits are the padded form of the number they stand for. -/
theorem padded_natOfDigits {ds : List Char} (h : ∀ c ∈ ds, c.isDigit = true) :
    padded ds.length (natOfDigits ds) = ds := by
  induction ds using List.reverseRecOn with
  | nil => rfl
  | append_singleton ds c ih =>
    have hc : c.isDigit = true := h c (List.mem_append_right _ (List.mem_singleton_self c))
    have hlt := digit_value_lt hc
    have hdiv : (10 * natOfDigits ds + (c.toNat - '0'.toNat)) / 10 = natOfDigits ds := by omega
    have hmod : (10 * natOfDigits ds + (c.toNat - '0'.toNat)) % 10 = c.toNat - '0'.toNat := by
      omega
    rw [List.length_append, List.length_singleton, padded, natOfDigits_append_singleton, hdiv,
      hmod, digitChar_digit_value hc, ih fun d hd => h d (List.mem_append_left _ hd)]

theorem natOfDigits_lt {ds : List Char} (h : ∀ c ∈ ds, c.isDigit = true) :
    natOfDigits ds < 10 ^ ds.length := by
  induction ds using List.reverseRecOn with
  | nil => exact Nat.one_pos
  | append_singleton ds c ih =>
    have hds := ih fun d hd => h d (List.mem_append_left _ hd)
    have hlt := digit_value_lt (h c (List.mem_append_right _ (List.mem_singleton_self c)))
    rw [List.length_append, List.length_singleton, natOfDigits_append_singleton, pow_succ]
    omega

end AndroidTools.Text
