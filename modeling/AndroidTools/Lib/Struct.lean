/-
`struct.pack` and `struct.unpack`: records of little-endian numbers without padding.

A format is the list of its fields, a width and whether the number is signed. What a field cannot
hold is not packed, and bytes that are too many or too few are not unpacked, so both are partial;
what is packed is unpacked to the same numbers (`unpack_pack`).

Records that stand in a row are read one after the other from the front of what is left. For this
`values_pack_append` says the same of bytes that only begin with a record, and `length_pack` says
where the next one begins.
-/
import AndroidTools.Lib.Bytes

set_option autoImplicit false

namespace AndroidTools.Struct

open AndroidTools.Bytes

/-- One number of a record: how many bytes it has, and whether it is signed. -/
structure Field where
  width : ℕ
  signed : Bool
  deriving Repr, DecidableEq

/-- The formats of the fields: `H`, `I` and `Q` are unsigned numbers of 2, 4 and 8 bytes, and `q`
is a signed one of 8. -/
def Field.H : Field := ⟨2, false⟩
def Field.I : Field := ⟨4, false⟩
def Field.Q : Field := ⟨8, false⟩
def Field.q : Field := ⟨8, true⟩

/-- The numbers a field has room for, which `struct.pack` refuses to go beyond. -/
def Field.Holds (f : Field) (v : ℤ) : Prop :=
  if f.signed then -256 ^ f.width ≤ 2 * v ∧ 2 * v < 256 ^ f.width else 0 ≤ v ∧ v < 256 ^ f.width

instance (f : Field) (v : ℤ) : Decidable (f.Holds v) :=
  inferInstanceAs (Decidable (if f.signed = true then
    -256 ^ f.width ≤ 2 * v ∧ 2 * v < 256 ^ f.width else 0 ≤ v ∧ v < 256 ^ f.width))

/-- The number in the bytes of a field, the first byte being the lowest. -/
def Field.value (f : Field) (s : List UInt8) : ℤ :=
  let v : ℤ := leValue s
  if f.signed ∧ 256 ^ f.width ≤ 2 * v then v - 256 ^ f.width else v

def calcsize (fmt : List Field) : ℕ := (fmt.map Field.width).sum

def pack : List Field → List ℤ → Option (List UInt8)
  | [], [] => some []
  | f :: fmt, v :: vs => if f.Holds v then (pack fmt vs).map (leBytes f.width v ++ ·) else none
  | _, _ => none

/-- The numbers at the front of some bytes, one field after the other without padding. -/
def values : List Field → List UInt8 → List ℤ
  | [], _ => []
  | f :: fmt, s => f.value (s.take f.width) :: values fmt (s.drop f.width)

def unpack (fmt : List Field) (s : List UInt8) : Option (List ℤ) :=
  if s.length = calcsize fmt then some (values fmt s) else none

theorem Field.value_leBytes {f : Field} {v : ℤ} (h : f.Holds v) :
    f.value (leBytes f.width v) = v := by
  have hpos : (0 : ℤ) < 256 ^ f.width := by positivity
  have hval := leValue_leBytes f.width v
  rw [Field.value, hval]
  rw [Field.Holds] at h
  split_ifs at h with hsigned
  · by_cases hneg : v < 0
    · rw [Int.emod_eq_add_self_emod, Int.emod_eq_of_lt (by omega) (by omega),
        if_pos ⟨hsigned, by omega⟩]
      omega
    · rw [Int.emod_eq_of_lt (by omega) (by omega), if_neg (fun hand => by omega)]
  · rw [if_neg (fun hand => hsigned hand.1), Int.emod_eq_of_lt h.1 h.2]

/-- A record packs to as many bytes as its format has, whatever the numbers are. -/
theorem length_pack {fmt : List Field} {vs : List ℤ} {b : List UInt8} (h : pack fmt vs = some b) :
    b.length = calcsize fmt := by
  induction fmt generalizing vs b with
  | nil =>
    cases vs with
    | nil =>
      rw [pack, Option.some.injEq] at h
      rw [← h]
      rfl
    | cons v vs => cases h
  | cons f fmt ih =>
    cases vs with
    | nil => cases h
    | cons v vs =>
      rw [pack] at h
      split_ifs at h
      obtain ⟨b', hb', rfl⟩ := Option.map_eq_some_iff.mp h
      rw [List.length_append, length_leBytes, ih hb', calcsize, calcsize, List.map_cons,
        List.sum_cons]

/-- What is packed is read from the front of any bytes that begin with it. -/
theorem values_pack_append {fmt : List Field} {vs : List ℤ} {b : List UInt8}
    (h : pack fmt vs = some b) (rest : List UInt8) : values fmt (b ++ rest) = vs := by
  induction fmt generalizing vs b with
  | nil =>
    cases vs with
    | nil => rfl
    | cons v vs => cases h
  | cons f fmt ih =>
    cases vs with
    | nil => cases h
    | cons v vs =>
      rw [pack] at h
      split_ifs at h with hv
      obtain ⟨b', hb', rfl⟩ := Option.map_eq_some_iff.mp h
      have hlen : (leBytes f.width v).length = f.width := length_leBytes _ _
      rw [values, List.append_assoc, List.take_left' hlen, List.drop_left' hlen, ih hb',
        Field.value_leBytes hv]

/-- **Round trip.** What is packed is unpacked to the same numbers. -/
theorem unpack_pack {fmt : List Field} {vs : List ℤ} {b : List UInt8}
    (h : pack fmt vs = some b) : unpack fmt b = some vs := by
  rw [unpack, if_pos (length_pack h)]
  have hval := values_pack_append h []
  rw [List.append_nil] at hval
  rw [hval]

end AndroidTools.Struct
