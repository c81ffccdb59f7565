/-
Hexadecimal text and the bytes it stands for.

Two digits are a byte, the first one its high half. Read as one number the text has its first byte
on top, so the little-endian bytes of that number are the bytes of the text backwards; printing the
bytes gives the text back in lower case.

Identifiers with fields of both byte orders are read digit by digit and stored field by field. With
these lemmas each field is a slice of the text, and what is printed of the stored bytes can be
compared with the text slice by slice, without ever evaluating the number.
-/
import AndroidTools.Lib.Bytes
import AndroidTools.Lib.Text

set_option autoImplicit false

namespace AndroidTools.Hex

open AndroidTools.Bytes

/-! ## Digits

Both cases of a letter are a digit, and printing gives the lower one; that is the whole
difference between a text and what is printed of it.
-/

/-- The characters of `[a-fA-F\d]`, in an order in which the first sixteen are the digits by
value. -/
def hexDigits : List Char :=
  ['0', '1', '2', '3', '4', '5', '6', '7', '8', '9', 'a', 'b', 'c', 'd', 'e', 'f',
    'A', 'B', 'C', 'D', 'E', 'F']

def isHex (c : Char) : Bool := hexDigits.contains c

/-- The value of a digit of either case. -/
def hexValue (c : Char) : ℕ :=
  if c.toNat < 58 then c.toNat - 48 else if c.toNat < 71 then c.toNat - 55 else c.toNat - 87

/-- The lower-case digit of a value. -/
def hexChar (v : ℕ) : Char := hexDigits.getD v '0'

theorem mem_hexDigits {c : Char} (h : isHex c = true) : c ∈ hexDigits := by
  rwa [isHex, List.contains_iff_mem] at h

theorem hexValue_lt {c : Char} (h : isHex c = true) : hexValue c < 16 := by
  have hall : hexDigits.all (fun d => hexValue d < 16) = true := by decide
  exact of_decide_eq_true (List.all_eq_true.mp hall c (mem_hexDigits h))

theorem hexChar_hexValue {c : Char} (h : isHex c = true) : hexChar (hexValue c) = c.toLower := by
  have hall : hexDigits.all (fun d => hexChar (hexValue d) = d.toLower) = true := by decide
  exact of_decide_eq_true (List.all_eq_true.mp hall c (mem_hexDigits h))

/-! ## Numbers

`int(text, 16)` reads from the left, so the number is a fold with sixteen times what came
before. A text of `n` digits is a number below `16 ^ n`, which decides the field it fits
into.
-/

/-- `int(g, 16)` of hexadecimal digits. -/
def hexNat (g : List Char) : ℕ := g.foldl (fun n c => n * 16 + hexValue c) 0

theorem hexNat_foldl (n : ℕ) (g : List Char) :
    g.foldl (fun n c => n * 16 + hexValue c) n = n * 16 ^ g.length + hexNat g := by
  induction g generalizing n with
  | nil => simp [hexNat]
  | cons c g ih =>
    have hcons : hexNat (c :: g) = (0 * 16 + hexValue c) * 16 ^ g.length + hexNat g := ih _
    rw [List.foldl_cons, ih, hcons, List.length_cons, pow_succ]
    ring

theorem hexNat_cons (c : Char) (g : List Char) :
    hexNat (c :: g) = hexValue c * 16 ^ g.length + hexNat g := by
  rw [hexNat, List.foldl_cons, hexNat_foldl, zero_mul, zero_add]

theorem hexNat_lt {g : List Char} (h : g.all isHex = true) : hexNat g < 16 ^ g.length := by
  induction g with
  | nil => simp [hexNat]
  | cons c g ih =>
    rw [List.all_cons, Bool.and_eq_true] at h
    have hc := hexValue_lt h.1
    have hg := ih h.2
    rw [hexNat_cons, List.length_cons, pow_succ']
    have hmul : hexValue c * 16 ^ g.length ≤ 15 * 16 ^ g.length :=
      Nat.mul_le_mul_right _ (by omega)
    omega

/-! ## Bytes

The same digits taken two at a time. Reading text to bytes and printing them is the identity
up to the case of the letters, without any condition but an even number of digits.
-/

/-- The bytes of a text, two digits each, the first of them the high half. -/
def hexBytes : List Char → List UInt8
  | a :: b :: g => UInt8.ofNat (hexValue a * 16 + hexValue b) :: hexBytes g
  | _ => []

/-- `'%02x'` of each byte, one behind the other. -/
def hexText (bs : List UInt8) : List Char :=
  bs.flatMap fun b => [hexChar (b.toNat / 16), hexChar (b.toNat % 16)]

theorem length_hexBytes (g : List Char) : (hexBytes g).length = g.length / 2 := by
  induction g using hexBytes.induct with
  | case1 a b g ih =>
    rw [hexBytes, List.length_cons, ih, List.length_cons, List.length_cons]
    omega
  | case2 g hg =>
    match g, hg with
    | [], _ => simp [hexBytes]
    | [_], _ => simp [hexBytes]
    | a :: b :: g, hg => exact absurd rfl (hg a b g)

/-- Printing what was read gives the text in lower case. -/
theorem hexText_hexBytes {g : List Char} (h : g.all isHex = true) (heven : 2 ∣ g.length) :
    hexText (hexBytes g) = g.map Char.toLower := by
  induction g using hexBytes.induct with
  | case1 a b g ih =>
    rw [List.all_cons, List.all_cons, Bool.and_eq_true, Bool.and_eq_true] at h
    obtain ⟨ha, hb, hg⟩ := h
    have hav := hexValue_lt ha
    have hbv := hexValue_lt hb
    have hbyte : (UInt8.ofNat (hexValue a * 16 + hexValue b)).toNat
        = hexValue a * 16 + hexValue b := by
      rw [UInt8.toNat_ofNat', Nat.mod_eq_of_lt (by omega)]
    have hhigh : (hexValue a * 16 + hexValue b) / 16 = hexValue a := by omega
    have hlow : (hexValue a * 16 + hexValue b) % 16 = hexValue b := by omega
    have hrest := ih hg (by simp only [List.length_cons] at heven; omega)
    rw [hexBytes, hexText, List.flatMap_cons, hbyte, hhigh, hlow, hexChar_hexValue ha,
      hexChar_hexValue hb, ← hexText, hrest]
    rfl
  | case2 g hg =>
    match g, hg with
    | [], _ => rfl
    | [_], _ => simp at heven
    | a :: b :: g, hg => exact absurd rfl (hg a b g)

/-! ## Little-endian fields

The number of a text has the text's first byte on top, and a little-endian field stores the
lowest byte first. So storing the number writes the bytes of the text backwards, and a field
that is cut out of it by a shift and a mask is a slice of them.
-/

/-- A value shifted above a lower field and added to it has the bytes of both, the lower field's
first. -/
theorem leBytes_or {a r : ℕ} (b v : ℕ) (hr : r < 2 ^ (8 * a)) :
    leBytes (a + b) ((v <<< (8 * a) ||| r : ℕ) : ℤ) = leBytes a (r : ℤ) ++ leBytes b (v : ℤ) := by
  have hsum : ((v <<< (8 * a) ||| r : ℕ) : ℤ) = r + 2 ^ (8 * a) * v := by
    rw [← Nat.shiftLeft_add_eq_or_of_lt hr, Nat.shiftLeft_eq]
    push_cast
    ring
  rw [hsum, leBytes, List.range_add, List.map_append, List.map_map]
  congr 1
  · -- below the field only the lower value counts
    apply List.map_congr_left
    intro i hi
    rw [List.mem_range] at hi
    have hpow : (2 : ℤ) ^ (8 * a) = 2 ^ (8 * i) * (256 * 2 ^ (8 * (a - 1 - i))) := by
      have h256 : (256 : ℤ) = 2 ^ 8 := by norm_num
      rw [h256, ← pow_add, ← pow_add]
      congr 1
      omega
    rw [hpow, mul_assoc, Int.add_mul_ediv_left _ _ (by positivity), mul_assoc,
      Int.add_mul_emod_self_left]
  · apply List.map_congr_left
    intro i _
    have hlow : (r : ℤ) / 2 ^ (8 * a) = 0 :=
      Int.ediv_eq_zero_of_lt (by positivity) (by exact_mod_cast hr)
    simp only [Function.comp]
    rw [Nat.mul_add, pow_add, ← Int.ediv_ediv_of_nonneg (by positivity),
      Int.add_mul_ediv_left _ _ (by positivity), hlow, zero_add]

theorem leBytes_one {v : ℕ} : leBytes 1 (v : ℤ) = [UInt8.ofNat v] := by
  rw [leBytes_succ]
  have hmod : ((v : ℤ) % 256).toNat = v % 256 := by omega
  rw [hmod]
  congr 1
  apply UInt8.toNat_inj.mp
  rw [UInt8.toNat_ofNat', UInt8.toNat_ofNat']
  omega

/-- **The number of a text, lowest byte first, is its bytes backwards.** A field of a number that
was read from text in one go therefore has to be turned round once more, or the text to be read in
parts. -/
theorem leBytes_hexNat {g : List Char} (h : g.all isHex = true) (heven : 2 ∣ g.length) :
    leBytes (g.length / 2) (hexNat g : ℤ) = (hexBytes g).reverse := by
  induction g using hexBytes.induct with
  | case1 a b g ih =>
    rw [List.all_cons, List.all_cons, Bool.and_eq_true, Bool.and_eq_true] at h
    obtain ⟨ha, hb, hg⟩ := h
    obtain ⟨n, hn⟩ : 2 ∣ g.length := by simp only [List.length_cons] at heven; omega
    have hhalf : g.length / 2 = n := by omega
    have hpow : (16 : ℕ) ^ g.length = 2 ^ (8 * n) := by
      rw [hn, show (16 : ℕ) = 2 ^ 4 by norm_num, ← pow_mul]
      congr 1
      omega
    have hlt : hexNat g < 2 ^ (8 * n) := hpow ▸ hexNat_lt hg
    -- the first two digits are the highest byte
    have hval : hexNat (a :: b :: g)
        = (hexValue a * 16 + hexValue b) <<< (8 * n) ||| hexNat g := by
      rw [hexNat_cons, hexNat_cons, List.length_cons, pow_succ', hpow,
        ← Nat.shiftLeft_add_eq_or_of_lt hlt, Nat.shiftLeft_eq]
      ring
    have hlen : (a :: b :: g).length / 2 = n + 1 := by
      rw [List.length_cons, List.length_cons, hn]
      omega
    rw [hlen, hval, leBytes_or 1 _ hlt, leBytes_one, hexBytes, List.reverse_cons,
      ← ih hg ⟨n, hn⟩, hhalf]
  | case2 g hg =>
    match g, hg with
    | [], _ => rfl
    | [_], _ => simp at heven
    | a :: b :: g, hg => exact absurd rfl (hg a b g)

end AndroidTools.Hex
