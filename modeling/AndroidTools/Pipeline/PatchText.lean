/-
From the texts `ptool.py` writes into `patch0.xml` to the field updates `msp.py`
performs.

A patch names its sector and its value in text: a number, a sector counted from
the end of the disk, or a CRC of bytes from a sector on. `Patch` is the same
patch in numbers. `parse_element` reads its element back for a disk of a given
size, and `performs_op` says which field update the patch is when its numbers
fit the file. A sector above `EMMCBLD_MAX_DISK_SIZE_IN_BYTES`, 64TB, is taken
for a gigantic number and mirrored; `actual` is what becomes of it.
-/
import AndroidTools.Msp.Patching
import AndroidTools.Ptool.Loop

set_option autoImplicit false

namespace AndroidTools.Pipeline

open AndroidTools.Text AndroidTools.FieldPatch AndroidTools.Ptool AndroidTools.Msp

/-! ## Patches in numbers

A sector is counted from the start or from the end, and a value is a sector or a CRC. These
are the numbers behind the texts; `resolve` is the sector that is meant and `actual` the one
that `msp.py` comes to.
-/

/-- A sector, from the start or from the end of the disk. -/
inductive Sector where
  | front (n : ℕ)
  | back (k : ℕ)
  deriving Repr, DecidableEq

/-- The sector of a disk of `disk_sectors` that is meant. -/
def Sector.resolve (disk_sectors : ℕ) : Sector → ℤ
  | front n => n
  | back k => (disk_sectors : ℤ) - k

/-- The sector that a patch ends up with, after a number above the maximum has been mirrored. -/
def Sector.actual (disk_sectors max_sectors : ℕ) (s : Sector) : ℤ :=
  real_value disk_sectors max_sectors (s.resolve disk_sectors)

/-- What is written: a sector number (`0` is one), or a CRC of `len` bytes. -/
inductive Value where
  | sector (s : Sector)
  | crc (s : Sector) (len : ℕ)
  deriving Repr, DecidableEq

/-- A patch in numbers: the file, the field by its sector, offset and width, and the value. -/
structure Patch where
  filename : String
  sector : Sector
  offset : ℕ
  width : ℕ
  value : Value
  deriving Repr, DecidableEq

/-- The texts that stand for a sector: a number, or a number from the end with or without the
point. -/
inductive SectorText : String → Sector → Prop
  | front (n : ℕ) : SectorText (toString n) (.front n)
  | back (k : ℕ) : SectorText ("NUM_DISK_SECTORS-" ++ toString k ++ ".") (.back k)
  | back_bare (k : ℕ) : SectorText ("NUM_DISK_SECTORS-" ++ toString k ++ "") (.back k)

/-- The texts that stand for a value: a sector, or a CRC of bytes from a sector on. -/
inductive ValueText : String → Value → Prop
  | sector {text : String} {s : Sector} (h : SectorText text s) : ValueText text (.sector s)
  | crc_front (a len : ℕ) :
      ValueText ("CRC32(" ++ toString a ++ "," ++ toString len ++ ")") (.crc (.front a) len)
  | crc_back (k len : ℕ) :
      ValueText ("CRC32(NUM_DISK_SECTORS-" ++ toString k ++ ".," ++ toString len ++ ")")
        (.crc (.back k) len)

/-- The element of `patch0.xml` that stands for a patch, attribute by attribute. -/
structure PatchElement (st : Settings) (k : ℕ) (e : XmlElement) (q : Patch) : Prop where
  text : ∃ start_sector value what, SectorText start_sector q.sector ∧ ValueText value q.value ∧
    e = update_patch st k start_sector (toString q.offset) q.width value q.filename what

/-! ## Reading the texts

Each text is read back as the number it stands for, as long as the number is exact as a
double where it is read through one.
-/

section Read

variable {disk_sectors sector_size : ℕ}

theorem SectorText.handle {text : String} {s : Sector} (h : SectorText text s)
    (hs : 0 < sector_size) (hd : 0 < disk_sectors) :
    handle_num_disk_sectors (disk_sectors * sector_size) sector_size text
      = some (s.resolve disk_sectors) := by
  have hpos : 0 < disk_sectors * sector_size := Nat.mul_pos hd hs
  have hdiv : disk_sectors * sector_size / sector_size = disk_sectors := Nat.mul_div_cancel _ hs
  cases h with
  | front n => exact handle_toString n
  | back k =>
    rw [handle_from_end hpos k (by simp), hdiv]
    rfl
  | back_bare k =>
    rw [handle_from_end hpos k (by simp), hdiv]
    rfl

theorem SectorText.patterns {text : String} {s : Sector} (h : SectorText text s) :
    crc32_sector_pattern text.toList = none ∧ crc32_end_pattern text.toList = none := by
  have hdigits : ∀ k : ℕ, 'C' ∉ Nat.toDigits 10 k := by
    intro k h
    exact absurd (isDigit_toDigits h) (by decide)
  cases h with
  | front n => exact patterns_toString n
  | back k =>
    have htext : ("NUM_DISK_SECTORS-" ++ toString k ++ ".").toList
        = "NUM_DISK_SECTORS-".toList ++ (Nat.toDigits 10 k ++ ['.']) := by simp
    rw [htext]
    exact patterns_from_end (by simp [hdigits])
  | back_bare k =>
    have htext : ("NUM_DISK_SECTORS-" ++ toString k ++ "").toList
        = "NUM_DISK_SECTORS-".toList ++ Nat.toDigits 10 k := by simp
    rw [htext]
    exact patterns_from_end (hdigits k)

/-- The numbers of a value are exact as doubles, as far as they are read through one. -/
def Value.Small (disk_sectors : ℕ) : Value → Prop
  | .sector _ => True
  | .crc (.front a) len => a < 2 ^ 53 ∧ len < 2 ^ 53
  | .crc (.back k) len => k ≤ disk_sectors ∧ disk_sectors < 2 ^ 53 ∧ len < 2 ^ 53

/-- What `ReturnParsedValues` makes of a value: whether it is a CRC, its two numbers, and the
number. -/
def Value.parsed (disk_sectors : ℕ) : Value → Bool × ℤ × ℕ × ℤ
  | .sector s => (false, 0, 0, s.resolve disk_sectors)
  | .crc s len => (true, s.resolve disk_sectors, len, 0)

theorem ValueText.parse {text : String} {v : Value} (h : ValueText text v)
    (hs : 0 < sector_size) (hd : 0 < disk_sectors) (hsmall : v.Small disk_sectors) :
    parse_value (disk_sectors * sector_size) sector_size text = some (v.parsed disk_sectors) := by
  have hpos : 0 < disk_sectors * sector_size := Nat.mul_pos hd hs
  have hdiv : disk_sectors * sector_size / sector_size = disk_sectors := Nat.mul_div_cancel _ hs
  cases h with
  | sector h => exact parse_value_of_not_crc h.patterns.1 h.patterns.2 (h.handle hs hd)
  | crc_front a len => exact parse_value_crc_sector hsmall.1 hsmall.2
  | crc_back k len =>
    obtain ⟨hk, hbig, hlen⟩ := hsmall
    rw [parse_value_crc_end hpos (by rw [hdiv]; exact hk) (by rw [hdiv]; exact hbig) hlen, hdiv]
    rfl

/-- The dictionary of a patch before the real disk size is filled in. -/
def Patch.entry (disk_sectors k : ℕ) (what : String) (q : Patch) : Entry where
  filename := q.filename
  file_sector_offset := 0
  num_partition_sectors := 0
  physical_partition_number := k
  sparse := "false"
  start_sector := q.sector.resolve disk_sectors
  is_crc := (q.value.parsed disk_sectors).1
  arg0 := (q.value.parsed disk_sectors).2.1
  arg1 := (q.value.parsed disk_sectors).2.2.1
  value := (q.value.parsed disk_sectors).2.2.2
  byte_offset := q.offset
  size_in_bytes := q.width
  what := some what

/-- The numbers of a patch are exact as doubles, as far as they are read through one. -/
structure Patch.Small (disk_sectors : ℕ) (q : Patch) : Prop where
  offset : q.offset < 2 ^ 53
  width : q.width < 2 ^ 53
  value : q.value.Small disk_sectors

/-- **The element of a patch is read as the patch**, whatever its description says. -/
theorem parse_element {st : Settings} {k : ℕ} {e : XmlElement} {q : Patch}
    (h : PatchElement st k e q) (hd : 0 < disk_sectors) (hq : q.Small disk_sectors) :
    ∃ what, return_parsed_values (disk_sectors * st.sector_size_in_bytes) e
      = some (q.entry disk_sectors k what, st.sector_size_in_bytes) := by
  obtain ⟨start_sector, value, what, hstart, hvalue, rfl⟩ := h.text
  have hs := st.sector_size_pos
  have hzero : handle_num_disk_sectors (disk_sectors * st.sector_size_in_bytes)
      st.sector_size_in_bytes "0" = some 0 := handle_toString 0
  refine ⟨what, ?_⟩
  unfold return_parsed_values update_patch
  simp only [XmlElement.getD, XmlElement.get?, List.lookup_cons, List.lookup_nil, String.reduceBEq,
    Option.getD_some, Option.getD_none, Option.bind_eq_bind, Option.bind_some,
    parse_sector_size_toString hs, hzero, hstart.handle hs hd, int_of_text_toString,
    int_of_float_text_toString hq.offset, int_of_float_text_toString hq.width,
    hvalue.parse hs hd hq.value, Option.pure_def]
  rfl

end Read

/-! ## The update of a patch

A patch whose numbers fit the file is a field update. The sector of a CRC is not mirrored,
unlike the sector that is patched.
-/

/-- The number of sectors of the largest disk that the tools know. -/
def max_sectors (sector_size : ℕ) : ℕ := emmcbld_max_disk_size_in_bytes / sector_size

theorem max_sectors_le {sector_size : ℕ} (h : 512 ≤ sector_size) :
    max_sectors sector_size ≤ 2 ^ 37 :=
  (Nat.div_le_div_left h (by decide)).trans (by decide)

/-- The field update a patch performs. The sector of a CRC is not mirrored. -/
def Patch.op (disk_sectors sector_size : ℕ) (q : Patch) : FieldOp where
  dst := (q.sector.actual disk_sectors (max_sectors sector_size)).toNat * sector_size + q.offset
  width := q.width
  src := match q.value with
    | .sector s => .const (s.actual disk_sectors (max_sectors sector_size))
    | .crc s len => .checksum ((s.resolve disk_sectors).toNat * sector_size) len

/-- The numbers of a patch fit a file of `n` bytes. -/
structure Patch.Fits (disk_sectors sector_size n : ℕ) (q : Patch) : Prop where
  sector : 0 ≤ q.sector.actual disk_sectors (max_sectors sector_size)
  inside : q.offset + q.width ≤ sector_size
  room : ((q.sector.actual disk_sectors (max_sectors sector_size)).toNat + 1) * sector_size ≤ n
  value : match q.value with
    | .sector s => 0 ≤ s.actual disk_sectors (max_sectors sector_size)
    | .crc s len => 0 < q.sector.actual disk_sectors (max_sectors sector_size) ∧
        0 ≤ s.resolve disk_sectors ∧ ∃ m, 0 < m ∧ m ≤ 64 ∧ len ≤ m * sector_size ∧
          ((s.resolve disk_sectors).toNat + m) * sector_size ≤ n

/-- **A patch that fits performs its update**: with numbers that lie in the file, it is the field
update of the same numbers. -/
theorem performs_op {disk_sectors sector_size n k : ℕ} {what : String} {q : Patch}
    (hs : 0 < sector_size) (h : q.Fits disk_sectors sector_size n) :
    Performs sector_size n
      (replace_disk_size (disk_sectors * sector_size) sector_size (q.entry disk_sectors k what))
      (q.op disk_sectors sector_size) := by
  have hdiv : disk_sectors * sector_size / sector_size = disk_sectors := Nat.mul_div_cancel _ hs
  have hsector := Int.toNat_of_nonneg h.sector
  refine ⟨(q.sector.actual disk_sectors (max_sectors sector_size)).toNat, ?_, ?_⟩
  -- the place: the sector resolved, the offset in it and the width
  · refine ⟨rfl, ?_, ?_, rfl, Nat.le_add_right _ _, ?_, h.room⟩
    · rw [hsector]
      simp only [replace_disk_size, Patch.entry, hdiv]
      rfl
    · simp only [replace_disk_size, Patch.entry, Patch.op, Nat.add_sub_cancel_left]
    · have hin := h.inside
      simp only [Patch.op]
      rw [Nat.add_mul]
      omega
  -- the value: a sector counted from either end, or a CRC of whole sectors
  · have hvalue := h.value
    simp only [replace_disk_size, Patch.entry, hdiv]
    cases hv : q.value with
    | sector s =>
      rw [hv] at hvalue
      simp only [Patch.op, hv]
      exact ⟨rfl, rfl, hvalue⟩
    | crc s len =>
      rw [hv] at hvalue
      obtain ⟨hpos, harg, m, hm, hm64, hlen, hroom⟩ := hvalue
      simp only [Patch.op, hv]
      exact ⟨rfl, by omega, _, m, (Int.toNat_of_nonneg harg).symm, rfl, rfl, hm, hm64, hlen, hroom⟩

theorem Patch.Fits.inBounds {disk_sectors sector_size n : ℕ} {q : Patch} (hs : 0 < sector_size)
    (h : q.Fits disk_sectors sector_size n) : (q.op disk_sectors sector_size).InBounds n := by
  have hperforms : ∃ p, Performs sector_size n p (q.op disk_sectors sector_size) :=
    ⟨_, @performs_op _ _ _ 0 "" q hs h⟩
  obtain ⟨p, hp⟩ := hperforms
  exact hp.inBounds

/-! ## Sectors that are not mirrored

Mirroring begins at the largest disk. A sector counted from the end stays itself a little
beyond that, depending on how far from the end it is, and a sector counted from the start as
long as it is not larger than the limit.
-/

theorem actual_of_le {disk_sectors max : ℕ} {s : Sector} (h : s.resolve disk_sectors ≤ max) :
    s.actual disk_sectors max = s.resolve disk_sectors := by
  rw [Sector.actual, real_value, if_neg (by omega)]

theorem actual_front (disk_sectors : ℕ) {max n : ℕ} (h : n ≤ max) :
    (Sector.front n).actual disk_sectors max = n :=
  actual_of_le (by simpa [Sector.resolve] using h)

/-- A sector counted from the end stays itself up to two sectors above the
maximum: what is mirrored there is mirrored onto itself. -/
theorem actual_back {disk_sectors max k : ℕ} (hk : 0 < k) (h : disk_sectors ≤ max + 2) :
    (Sector.back k).actual disk_sectors max = (disk_sectors : ℤ) - k := by
  rw [Sector.actual, real_value, Sector.resolve]
  split_ifs with hmax
  · omega
  · rfl

/-- Above the maximum it is mirrored onto the sectors right above that. -/
theorem actual_back_above {disk_sectors max k : ℕ} (h : max + k < disk_sectors) :
    (Sector.back k).actual disk_sectors max = (max + k : ℕ) := by
  rw [Sector.actual, Sector.resolve, real_value, if_pos (by omega)]
  omega

/-- A sector is never mirrored below the start of the disk. -/
theorem actual_back_nonneg {disk_sectors max k : ℕ} (hk : k ≤ disk_sectors) :
    0 ≤ (Sector.back k).actual disk_sectors max := by
  rw [Sector.actual, real_value, Sector.resolve]
  split_ifs with hmax
  · omega
  · omega

end AndroidTools.Pipeline
