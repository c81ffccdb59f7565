/-
GUID texts: `ValidGUIDForm`, `ValidateGUID`, and the bytes an entry stores for them.

`ValidateGUID` cuts a text into eleven groups, shifts each by its own constant into one integer,
and the loop emits that integer lowest byte first. So the first three groups of the text come out
with their bytes reversed and the other eight bytes in the order of the text, which is the EFI
encoding. Printing the stored bytes gives the text back in lower case.

The patterns are matchers over characters. A canonical text is a structure of five groups with
their lengths and digits, so that every such text is covered by one statement. `push_group` is the
step of the computation: a group shifted on top of the lower ones puts its bytes behind theirs.
-/
import AndroidTools.Lib.Hex
import AndroidTools.Ptool.Loop

set_option autoImplicit false

namespace AndroidTools.Ptool

open AndroidTools.Bytes AndroidTools.Text AndroidTools.Hex

/-! ## The patterns

The two regular expressions of the source, as matchers. The first is a number of 32 digits,
the second five groups with dashes, of which the last two are cut into bytes by the pattern.
-/

/-- `([a-fA-F\d]{n})`; the continuation gets the group and the rest. -/
def hex_group {α : Type*} (n : ℕ) (k : List Char → List Char → Option α) (cs : List Char) :
    Option α :=
  if (cs.take n).length = n ∧ (cs.take n).all isHex = true then k (cs.take n) (cs.drop n) else none

/-- `0x([a-fA-F\d]{32})$`; `$` also matches before a final newline. -/
def long_form (guid : List Char) : Option (List Char) :=
  search (lit ['0', 'x'] (hex_group 32 fun g rest =>
    if rest = [] ∨ rest = ['\n'] then some g else none)) guid

/-- The eleven groups of the other pattern, in the order in which they stand. -/
structure GuidGroups where
  m1 : List Char
  m2 : List Char
  m3 : List Char
  m4 : List Char
  m5 : List Char
  m6 : List Char
  m7 : List Char
  m8 : List Char
  m9 : List Char
  m10 : List Char
  m11 : List Char
  deriving Repr, DecidableEq

/-- `([a-fA-F\d]{8})-([a-fA-F\d]{4})-([a-fA-F\d]{4})-([a-fA-F\d]{2})...`. -/
def dashed_form (guid : List Char) : Option GuidGroups :=
  search
    (hex_group 8 fun m1 => lit ['-'] <| hex_group 4 fun m2 => lit ['-'] <|
      hex_group 4 fun m3 => lit ['-'] <| hex_group 2 fun m4 => hex_group 2 fun m5 => lit ['-'] <|
      hex_group 2 fun m6 => hex_group 2 fun m7 => hex_group 2 fun m8 => hex_group 2 fun m9 =>
      hex_group 2 fun m10 => hex_group 2 fun m11 _ =>
        some ⟨m1, m2, m3, m4, m5, m6, m7, m8, m9, m10, m11⟩) guid

/-- `ValidGUIDForm`: one of the two patterns is found. -/
def valid_guid_form (guid : String) : Bool :=
  (long_form guid.toList).isSome || (dashed_form guid.toList).isSome

/-- `PARTITION_BASIC_DATA_GUID`, for a text of neither form. -/
def partition_basic_data_guid : ℕ := 0xC79926B7B668C0874433B9E5EBD0A0A2

/-- `tempGUID` of the eleven groups, each shifted by its constant. -/
def shift_groups (m : GuidGroups) : ℕ :=
  let tempGUID := hexNat m.m4 <<< 64 ||| hexNat m.m3 <<< 48 ||| hexNat m.m2 <<< 32 ||| hexNat m.m1
  let tempGUID := tempGUID ||| (hexNat m.m8 <<< 96 ||| hexNat m.m7 <<< 88 ||| hexNat m.m6 <<< 80
    ||| hexNat m.m5 <<< 72)
  tempGUID ||| (hexNat m.m11 <<< 120 ||| hexNat m.m10 <<< 112 ||| hexNat m.m9 <<< 104)

/-- `ValidateGUID`: the number for a text in one of the two forms. -/
def validate_guid (guid : String) : ℕ :=
  match long_form guid.toList with
  | some g => hexNat g
  | none =>
    match dashed_form guid.toList with
    | some m => shift_groups m
    | none => partition_basic_data_guid

/-! ## Canonical texts

A text in the usual form, as a structure with its digits. What it stands for is stated
without the program: the first three groups lowest byte first, the others as they stand.
-/

/-- A text of the form `aaaaaaaa-bbbb-cccc-dddd-eeeeeeeeeeee`, in either case. -/
structure CanonicalGuid where
  a : List Char
  b : List Char
  c : List Char
  d : List Char
  e : List Char
  length_a : a.length = 8
  length_b : b.length = 4
  length_c : c.length = 4
  length_d : d.length = 4
  length_e : e.length = 12
  hex_a : a.all isHex = true
  hex_b : b.all isHex = true
  hex_c : c.all isHex = true
  hex_d : d.all isHex = true
  hex_e : e.all isHex = true

namespace CanonicalGuid

/-- The characters of the text, with the dashes between its groups. -/
def chars (g : CanonicalGuid) : List Char :=
  g.a ++ '-' :: (g.b ++ '-' :: (g.c ++ '-' :: (g.d ++ '-' :: g.e)))

def text (g : CanonicalGuid) : String := String.ofList g.chars

/-- The EFI encoding: the first three groups little-endian, the others in the
order of the text. -/
def efi_bytes (g : CanonicalGuid) : List UInt8 :=
  (hexBytes g.a).reverse ++ (hexBytes g.b).reverse ++ (hexBytes g.c).reverse
    ++ hexBytes g.d ++ hexBytes g.e

end CanonicalGuid

/-- The canonical form of 16 stored bytes, in lower case. -/
def print_guid (bs : List UInt8) : List Char :=
  hexText (slice bs 0 4).reverse ++ '-' :: (hexText (slice bs 4 2).reverse
    ++ '-' :: (hexText (slice bs 6 2).reverse ++ '-' :: (hexText (slice bs 8 2)
    ++ '-' :: hexText (slice bs 10 6))))

/-! ## A canonical text against the patterns

The first pattern does not find such a text, since there is no `x` in it, and the second one
finds it with this cut and no other.
-/

theorem hex_group_append {α : Type*} {n : ℕ} {g : List Char}
    (k : List Char → List Char → Option α) (rest : List Char) (hlen : g.length = n)
    (hhex : g.all isHex = true) : hex_group n k (g ++ rest) = k g rest := by
  subst hlen
  rw [hex_group, List.take_left, List.drop_left, if_pos ⟨rfl, hhex⟩]

/-- A canonical text has no `x`, so the first pattern does not find it. -/
theorem long_form_canonical (g : CanonicalGuid) : long_form g.chars = none := by
  have hno : ∀ l : List Char, l.all isHex = true → 'x' ∉ l := by
    intro l hl hx
    exact absurd (List.all_eq_true.mp hl _ hx) (by decide)
  have hx : 'x' ∉ g.chars := by
    simp only [CanonicalGuid.chars, List.mem_append, List.mem_cons, not_or]
    exact ⟨hno _ g.hex_a, by decide, hno _ g.hex_b, by decide, hno _ g.hex_c, by decide,
      hno _ g.hex_d, by decide, hno _ g.hex_e⟩
  exact search_lit_eq_none_of_mem (by decide : 'x' ∈ ['0', 'x']) _ hx

/-- A group of an even number of digits, two at a time. -/
theorem exists_pairs {g : List Char} {n : ℕ} (hlen : g.length = n + 2) :
    ∃ p r, g = p ++ r ∧ p.length = 2 ∧ r.length = n :=
  ⟨g.take 2, g.drop 2, (List.take_append_drop 2 g).symm, by simp [hlen], by simp [hlen]⟩

/-- The groups of the pattern are those of the text, the last two cut into bytes. -/
structure Cut (g : CanonicalGuid) (m : GuidGroups) : Prop where
  first : m.m1 = g.a
  second : m.m2 = g.b
  third : m.m3 = g.c
  fourth : g.d = m.m4 ++ m.m5
  fifth : g.e = m.m6 ++ (m.m7 ++ (m.m8 ++ (m.m9 ++ (m.m10 ++ m.m11))))
  lengths : ∀ p ∈ [m.m4, m.m5, m.m6, m.m7, m.m8, m.m9, m.m10, m.m11], p.length = 2
  hex : ∀ p ∈ [m.m4, m.m5, m.m6, m.m7, m.m8, m.m9, m.m10, m.m11], p.all isHex = true

theorem exists_cut (g : CanonicalGuid) : ∃ m, Cut g m := by
  obtain ⟨m4, m5, hd, h4, h5⟩ := exists_pairs g.length_d
  obtain ⟨m6, r6, he, h6, hr6⟩ := exists_pairs g.length_e
  obtain ⟨m7, r7, rfl, h7, hr7⟩ := exists_pairs hr6
  obtain ⟨m8, r8, rfl, h8, hr8⟩ := exists_pairs hr7
  obtain ⟨m9, r9, rfl, h9, hr9⟩ := exists_pairs hr8
  obtain ⟨m10, m11, rfl, h10, h11⟩ := exists_pairs hr9
  have hhd := g.hex_d
  have hhe := g.hex_e
  rw [hd, List.all_append, Bool.and_eq_true] at hhd
  simp only [he, List.all_append, Bool.and_eq_true] at hhe
  obtain ⟨x6, x7, x8, x9, x10, x11⟩ := hhe
  refine ⟨⟨g.a, g.b, g.c, m4, m5, m6, m7, m8, m9, m10, m11⟩, rfl, rfl, rfl, hd, he, ?_, ?_⟩
  · simp only [List.forall_mem_cons, List.not_mem_nil, false_imp_iff, implies_true, and_true]
    exact ⟨h4, h5, h6, h7, h8, h9, h10, h11⟩
  · simp only [List.forall_mem_cons, List.not_mem_nil, false_imp_iff, implies_true, and_true]
    exact ⟨hhd.1, hhd.2, x6, x7, x8, x9, x10, x11⟩

/-- The pattern finds exactly this cut, at the front of the text. -/
theorem dashed_form_canonical {g : CanonicalGuid} {m : GuidGroups} (hm : Cut g m) :
    dashed_form g.chars = some m := by
  have hl := hm.lengths
  have hx := hm.hex
  simp only [List.forall_mem_cons, List.not_mem_nil, false_imp_iff, implies_true, and_true]
    at hl hx
  obtain ⟨l4, l5, l6, l7, l8, l9, l10, l11⟩ := hl
  obtain ⟨x4, x5, x6, x7, x8, x9, x10, x11⟩ := hx
  have hdash : ∀ {α : Type} (k : List Char → Option α) (r : List Char),
      lit ['-'] k ('-' :: r) = k r := fun k r => lit_append ['-'] k r
  apply search_of_front
  rw [CanonicalGuid.chars, hm.fourth, hm.fifth]
  simp only [List.append_assoc]
  rw [hex_group_append _ _ g.length_a g.hex_a, hdash,
    hex_group_append _ _ g.length_b g.hex_b, hdash,
    hex_group_append _ _ g.length_c g.hex_c, hdash,
    hex_group_append _ _ l4 x4, hex_group_append _ _ l5 x5, hdash,
    hex_group_append _ _ l6 x6, hex_group_append _ _ l7 x7, hex_group_append _ _ l8 x8,
    hex_group_append _ _ l9 x9, hex_group_append _ _ l10 x10]
  rw [← List.append_nil m.m11, hex_group_append _ _ l11 x11, ← hm.first, ← hm.second, ← hm.third]

/-! ## The stored bytes

The source shifts every group by a constant and adds them up. Written out lowest byte first,
the sum is the groups in the opposite order, each with its bytes turned.
-/

/-- One more group on top of the lower ones puts its bytes behind theirs, in the opposite order.
-/
theorem push_group {s a n r : ℕ} {p : List Char} (hs : s = 8 * a) (hr : r < 2 ^ (8 * a))
    (hlen : p.length = 2 * n) (hhex : p.all isHex = true) :
    hexNat p <<< s ||| r < 2 ^ (8 * (a + n)) ∧
      leBytes (a + n) ((hexNat p <<< s ||| r : ℕ) : ℤ)
        = leBytes a (r : ℤ) ++ (hexBytes p).reverse := by
  subst hs
  have hlt : hexNat p < 2 ^ (8 * n) := by
    have h := hexNat_lt hhex
    rwa [hlen, show (16 : ℕ) = 2 ^ 4 by norm_num, ← pow_mul,
      show 4 * (2 * n) = 8 * n by omega] at h
  have hhalf : p.length / 2 = n := by omega
  refine ⟨?_, ?_⟩
  · apply Nat.or_lt_two_pow
    · rw [Nat.shiftLeft_eq, Nat.mul_add, pow_add, mul_comm]
      exact Nat.mul_lt_mul_of_pos_left hlt (by positivity)
    · exact hr.trans_le (Nat.pow_le_pow_right (by norm_num) (by omega))
  · rw [leBytes_or n _ hr, ← leBytes_hexNat hhex ⟨n, hlen⟩, hhalf]

/-- The shifted groups, written from the highest to the lowest. -/
theorem shift_groups_eq (m : GuidGroups) :
    shift_groups m = hexNat m.m11 <<< 120 ||| (hexNat m.m10 <<< 112 ||| (hexNat m.m9 <<< 104 |||
      (hexNat m.m8 <<< 96 ||| (hexNat m.m7 <<< 88 ||| (hexNat m.m6 <<< 80 |||
      (hexNat m.m5 <<< 72 ||| (hexNat m.m4 <<< 64 ||| (hexNat m.m3 <<< 48 |||
      (hexNat m.m2 <<< 32 ||| hexNat m.m1))))))))) := by
  have hac : ∀ a b c d e f i j k l n : ℕ,
      (d ||| c ||| b ||| a) ||| (i ||| f ||| (e ||| l)) ||| (k ||| j ||| n)
        = k ||| (j ||| (n ||| (i ||| (f ||| (e ||| (l ||| (d ||| (c ||| (b ||| a))))))))) := by
    intros
    ac_rfl
  rw [← hac]
  simp only [shift_groups, Nat.or_assoc]

theorem reverse_hexBytes_pair {p : List Char} (h : p.length = 2) :
    (hexBytes p).reverse = hexBytes p := by
  obtain ⟨a, b, rfl⟩ := List.length_eq_two.mp h
  rfl

theorem hexBytes_pair_append {p : List Char} (h : p.length = 2) (q : List Char) :
    hexBytes (p ++ q) = hexBytes p ++ hexBytes q := by
  obtain ⟨a, b, rfl⟩ := List.length_eq_two.mp h
  rfl

/-- The integer of the groups holds the EFI bytes of the text, the lowest first. -/
theorem leBytes_shift_groups {g : CanonicalGuid} {m : GuidGroups} (hm : Cut g m) :
    leBytes 16 (shift_groups m) = g.efi_bytes := by
  have hl := hm.lengths
  have hx := hm.hex
  simp only [List.forall_mem_cons, List.not_mem_nil, false_imp_iff, implies_true, and_true]
    at hl hx
  obtain ⟨l4, l5, l6, l7, l8, l9, l10, l11⟩ := hl
  obtain ⟨x4, x5, x6, x7, x8, x9, x10, x11⟩ := hx
  have h1 : hexNat m.m1 < 2 ^ (8 * 4) := by
    have h := hexNat_lt g.hex_a
    rw [g.length_a] at h
    rw [hm.first]
    exact h.trans_le (by norm_num)
  have e1 : leBytes 4 (hexNat m.m1 : ℤ) = (hexBytes g.a).reverse := by
    have h := leBytes_hexNat g.hex_a ⟨4, g.length_a⟩
    rw [g.length_a] at h
    rw [hm.first]
    exact h
  -- each group is pushed in above the ones before it
  obtain ⟨h2, e2⟩ := push_group (s := 32) (n := 2) rfl h1 (hm.second ▸ g.length_b)
    (hm.second ▸ g.hex_b)
  obtain ⟨h3, e3⟩ := push_group (s := 48) (n := 2) rfl h2 (hm.third ▸ g.length_c)
    (hm.third ▸ g.hex_c)
  obtain ⟨h4, e4⟩ := push_group (s := 64) (n := 1) rfl h3 l4 x4
  obtain ⟨h5, e5⟩ := push_group (s := 72) (n := 1) rfl h4 l5 x5
  obtain ⟨h6, e6⟩ := push_group (s := 80) (n := 1) rfl h5 l6 x6
  obtain ⟨h7, e7⟩ := push_group (s := 88) (n := 1) rfl h6 l7 x7
  obtain ⟨h8, e8⟩ := push_group (s := 96) (n := 1) rfl h7 l8 x8
  obtain ⟨h9, e9⟩ := push_group (s := 104) (n := 1) rfl h8 l9 x9
  obtain ⟨h10, e10⟩ := push_group (s := 112) (n := 1) rfl h9 l10 x10
  obtain ⟨-, e11⟩ := push_group (s := 120) (n := 1) rfl h10 l11 x11
  -- the bytes of the number, lowest first, are the EFI order of the groups
  rw [shift_groups_eq]
  refine e11.trans ?_
  rw [e10, e9, e8, e7, e6, e5, e4, e3, e2, e1, reverse_hexBytes_pair l4,
    reverse_hexBytes_pair l5, reverse_hexBytes_pair l6, reverse_hexBytes_pair l7,
    reverse_hexBytes_pair l8, reverse_hexBytes_pair l9, reverse_hexBytes_pair l10,
    reverse_hexBytes_pair l11, CanonicalGuid.efi_bytes, hm.second, hm.third, hm.fourth, hm.fifth,
    hexBytes_pair_append l4, hexBytes_pair_append l6, hexBytes_pair_append l7,
    hexBytes_pair_append l8, hexBytes_pair_append l9, hexBytes_pair_append l10]
  simp only [List.append_assoc]

theorem validate_guid_canonical (g : CanonicalGuid) :
    valid_guid_form g.text = true ∧ leBytes 16 (validate_guid g.text) = g.efi_bytes := by
  obtain ⟨m, hm⟩ := exists_cut g
  have hchars : g.text.toList = g.chars := String.toList_ofList
  have hlong := long_form_canonical g
  have hdash := dashed_form_canonical hm
  refine ⟨?_, ?_⟩
  · rw [valid_guid_form, hchars, hdash, Option.isSome_some, Bool.or_true]
  · rw [validate_guid, hchars, hlong, hdash]
    exact leBytes_shift_groups hm

/-! ## Printing them back

Printing the stored bytes gives the text in lower case, so different texts that differ in
more than the case of letters are stored differently.
-/

/-- Printing the EFI bytes gives the text in lower case. -/
theorem print_efi_bytes (g : CanonicalGuid) :
    print_guid g.efi_bytes = g.chars.map Char.toLower := by
  have la : (hexBytes g.a).reverse.length = 4 := by
    rw [List.length_reverse, length_hexBytes, g.length_a]
  have lb : (hexBytes g.b).reverse.length = 2 := by
    rw [List.length_reverse, length_hexBytes, g.length_b]
  have lc : (hexBytes g.c).reverse.length = 2 := by
    rw [List.length_reverse, length_hexBytes, g.length_c]
  have ld : (hexBytes g.d).length = 2 := by rw [length_hexBytes, g.length_d]
  have le : (hexBytes g.e).length = 6 := by rw [length_hexBytes, g.length_e]
  -- the five fields of the 16 bytes
  have ha : slice g.efi_bytes 0 4 = (hexBytes g.a).reverse := by
    have hsplit : g.efi_bytes = [] ++ (hexBytes g.a).reverse ++ ((hexBytes g.b).reverse
        ++ ((hexBytes g.c).reverse ++ (hexBytes g.d ++ hexBytes g.e))) := by
      simp only [CanonicalGuid.efi_bytes, List.append_assoc, List.nil_append]
    exact slice_of_append hsplit rfl la
  have hb : slice g.efi_bytes 4 2 = (hexBytes g.b).reverse := by
    have hsplit : g.efi_bytes = (hexBytes g.a).reverse ++ (hexBytes g.b).reverse
        ++ ((hexBytes g.c).reverse ++ (hexBytes g.d ++ hexBytes g.e)) := by
      simp only [CanonicalGuid.efi_bytes, List.append_assoc]
    exact slice_of_append hsplit la lb
  have hc : slice g.efi_bytes 6 2 = (hexBytes g.c).reverse := by
    have hsplit : g.efi_bytes = (hexBytes g.a).reverse ++ (hexBytes g.b).reverse
        ++ (hexBytes g.c).reverse ++ (hexBytes g.d ++ hexBytes g.e) := by
      simp only [CanonicalGuid.efi_bytes, List.append_assoc]
    exact slice_of_append hsplit (by rw [List.length_append, la, lb]) lc
  have hd : slice g.efi_bytes 8 2 = hexBytes g.d := by
    have hsplit : g.efi_bytes = ((hexBytes g.a).reverse ++ (hexBytes g.b).reverse
        ++ (hexBytes g.c).reverse) ++ hexBytes g.d ++ hexBytes g.e := rfl
    exact slice_of_append hsplit (by rw [List.length_append, List.length_append, la, lb, lc]) ld
  have he : slice g.efi_bytes 10 6 = hexBytes g.e := by
    have hsplit : g.efi_bytes = ((hexBytes g.a).reverse ++ (hexBytes g.b).reverse
        ++ (hexBytes g.c).reverse ++ hexBytes g.d) ++ hexBytes g.e ++ [] :=
      (List.append_nil _).symm
    exact slice_of_append hsplit (by
      rw [List.length_append, List.length_append, List.length_append, la, lb, lc, ld]) le
  have htext : ∀ {t : List Char} (n : ℕ), t.all isHex = true → t.length = 2 * n →
      hexText (hexBytes t) = t.map Char.toLower :=
    fun n h hn => hexText_hexBytes h ⟨n, hn⟩
  rw [print_guid, ha, hb, hc, hd, he, List.reverse_reverse, List.reverse_reverse,
    List.reverse_reverse, htext 4 g.hex_a g.length_a, htext 2 g.hex_b g.length_b,
    htext 2 g.hex_c g.length_c, htext 2 g.hex_d g.length_d, htext 6 g.hex_e g.length_e]
  simp only [CanonicalGuid.chars, List.map_append, List.map_cons]
  rfl

/-! ## In the table

The way of a text from the document to the entry, as a type and as a unique GUID.
-/

/-- **A GUID text is stored in EFI form and nothing is lost**: the text is accepted, the entry has
its EFI bytes, printing them gives the text in lower case, and different texts give different
bytes. -/
theorem guid_text_stored (g : CanonicalGuid) :
    valid_guid_form g.text = true ∧
    (∀ {st : Settings} {k n j : ℕ} {rand : ℕ → ℕ} {p : Partition} {s s' : TableState},
      add_partition st k n rand j p s = .ok s' →
      (p.type = validate_guid g.text →
        slice s'.primary_gpt (entry_offset st j s.i) 16 = g.efi_bytes) ∧
      (p.uguid = some (validate_guid g.text) → st.sequentialguid = false →
        slice s'.primary_gpt (entry_offset st j s.i + 16) 16 = g.efi_bytes)) ∧
    print_guid (leBytes 16 (validate_guid g.text)) = g.chars.map Char.toLower ∧
    ∀ g' : CanonicalGuid, g.chars.map Char.toLower ≠ g'.chars.map Char.toLower →
      leBytes 16 (validate_guid g.text) ≠ leBytes 16 (validate_guid g'.text) := by
  obtain ⟨hvalid, hbytes⟩ := validate_guid_canonical g
  refine ⟨hvalid, ?_, ?_, ?_⟩
  · intro st k n j rand p s s' h
    obtain ⟨c, -, hroom, rfl⟩ := add_partition_spec h
    have hlen := length_partition_entry p (unique_partition_guid st rand j p) c.extent
    -- each guid lies inside the entry that was written
    have hwin : ∀ q, q + 16 ≤ 128 → slice (overwrite s.primary_gpt (entry_offset st j s.i)
        (partition_entry p (unique_partition_guid st rand j p) c.extent (label_bytes p)))
          (entry_offset st j s.i + q) 16
        = slice (partition_entry p (unique_partition_guid st rand j p) c.extent (label_bytes p)) q 16 := by
      intro q hq
      exact slice_overwrite_part (by rw [hlen]; exact hroom) (by rw [hlen]; exact hq)
    have hentry : partition_entry p (unique_partition_guid st rand j p) c.extent (label_bytes p)
        = leBytes 16 p.type ++ leBytes 16 (unique_partition_guid st rand j p)
          ++ (leBytes 8 c.extent.first_lba ++ leBytes 8 c.extent.last_lba
            ++ leBytes 8 (attributes p) ++ label_bytes p) := by
      simp only [partition_entry, List.append_assoc]
    refine ⟨fun htype => ?_, fun huguid hseq => ?_⟩
    · have hfront : slice (partition_entry p (unique_partition_guid st rand j p) c.extent (label_bytes p))
          0 16 = g.efi_bytes := by
        rw [hentry, slice_append_left (by simp), slice_append_left (by simp),
          slice_zero_of_le (by simp), htype, hbytes]
      exact (hwin 0 (by omega)).trans hfront
    · have hmid : slice (partition_entry p (unique_partition_guid st rand j p) c.extent (label_bytes p))
          16 16 = leBytes 16 (unique_partition_guid st rand j p) :=
        slice_of_append hentry (length_leBytes _ _) (length_leBytes _ _)
      have hguid : unique_partition_guid st rand j p = validate_guid g.text := by
        simp only [unique_partition_guid, hseq, huguid, Bool.false_eq_true, if_false]
      rw [hwin 16 (by omega), hmid, hguid, hbytes]
  · rw [hbytes, print_efi_bytes]
  · intro g' hne heq
    rw [hbytes, (validate_guid_canonical g').2] at heq
    apply hne
    rw [← print_efi_bytes, ← print_efi_bytes, heq]

/-- The text of the comment in `ValidateGUID`, in mixed case. -/
def basic_data_text : CanonicalGuid where
  a := "ebd0a0a2".toList
  b := "B9E5".toList
  c := "4433".toList
  d := "87c0".toList
  e := "68b6b72699C7".toList
  length_a := by decide
  length_b := by decide
  length_c := by decide
  length_d := by decide
  length_e := by decide
  hex_a := by decide
  hex_b := by decide
  hex_c := by decide
  hex_d := by decide
  hex_e := by decide

example : validate_guid basic_data_text.text = partition_basic_data_guid := by decide +kernel

/-- A partition with this text as its type and as its unique GUID. -/
def basic_data_partition : Partition :=
  { default_partition (validate_guid basic_data_text.text) with
    uguid := some (validate_guid basic_data_text.text) }

theorem guid_text_stored_basic_data : ∃ s', add_partition default_settings 0 1 (fun _ => 0) 0
    basic_data_partition (starting_state default_settings ⟨[], ⟨0, 0, 0, 0, 0, 0⟩⟩) = .ok s' ∧
      slice s'.primary_gpt 1024 16 = basic_data_text.efi_bytes ∧
      slice s'.primary_gpt 1040 16 = basic_data_text.efi_bytes := by
  have hok : (add_partition default_settings 0 1 (fun _ => 0) 0 basic_data_partition
      (starting_state default_settings ⟨[], ⟨0, 0, 0, 0, 0, 0⟩⟩)).isOk = true := by
    decide +kernel
  cases hs : add_partition default_settings 0 1 (fun _ => 0) 0 basic_data_partition
      (starting_state default_settings ⟨[], ⟨0, 0, 0, 0, 0, 0⟩⟩) with
  | error e =>
    rw [hs] at hok
    cases hok
  | ok s' =>
    obtain ⟨htype, huguid⟩ := (guid_text_stored basic_data_text).2.1 hs
    exact ⟨s', rfl, htype rfl, huguid rfl rfl⟩

end AndroidTools.Ptool
