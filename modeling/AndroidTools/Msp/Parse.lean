/-
`msp.py` reads `rawprogram0.xml` and `patch0.xml`.

An element becomes a dictionary of numbers. A sector may be given from the end of the disk,
`NUM_DISK_SECTORS-33.`, which `HandleNUM_DISK_SECTORS` resolves while the disk size is known
and turns into a gigantic number while it is not; `ReplaceDiskSizeInSectorsWithRealValue` finds
the gigantic numbers again, by their size alone, when the disk size has been computed. A patch
value may be a CRC over a number of bytes from a sector on.

`none` is a script that ends in an exception. Two kinds of documents end here before the script
is through with them: those with a sector size of 0, which divides something sooner or later,
and those with a negative one, which the script takes as any other number and goes on to seek
and pad with. Sector sizes are numbers above 0 from here on.
-/
import AndroidTools.Lib.Text
import AndroidTools.Xml

set_option autoImplicit false

namespace AndroidTools.Msp

open AndroidTools.Text

/-- The size of the largest disk, 64TB, above which a sector number counts as one from the end. -/
def emmcbld_max_disk_size_in_bytes : ℕ := 64 * 1024 * 1024 * 1024 * 1024

/-! ## Fields

The texts of sectors and values as the source reads them, with the regular expressions as
matchers. A sector counted from the end becomes a number where the size of the disk is
known, and a number above the largest disk where it is not; that number is put right once
the size is known.
-/

/-- `HandleNUM_DISK_SECTORS` of a string. -/
def handle_num_disk_sectors (disk_size sector_size : ℕ) (field : String) : Option ℤ :=
  match search (lit "NUM_DISK_SECTORS-".toList (digits fun ds _ => some ds)) field.toList with
  | some ds =>
    if 0 < disk_size then some (((disk_size / sector_size : ℕ) : ℤ) - natOfDigits ds)
    -- without a size the number is added to the largest disk
    else some (((emmcbld_max_disk_size_in_bytes / sector_size : ℕ) : ℤ) + natOfDigits ds)
  | none =>
    match search (lit "NUM_DISK_SECTORS".toList fun _ => some ()) field.toList with
    | some _ =>
      if 0 < disk_size then some ((disk_size / sector_size : ℕ) : ℤ)
      else some ((emmcbld_max_disk_size_in_bytes / sector_size : ℕ) : ℤ)
    | none => int_of_text field

/-- `CRC32\((\d+).?,(\d+).?\)`, with the two groups as the result. -/
def crc32_sector_pattern : List Char → Option (List Char × List Char) :=
  search (lit "CRC32(".toList (digits fun a => optAny (lit [','] (digits fun b =>
    optAny (lit [')'] fun _ => some (a, b))))))

/-- `CRC32\((NUM_DISK_SECTORS-\d+).?,(\d+).?\)`; the first group without its name. -/
def crc32_end_pattern : List Char → Option (List Char × List Char) :=
  search (lit "CRC32(NUM_DISK_SECTORS-".toList (digits fun a => optAny (lit [','] (digits fun b =>
    optAny (lit [')'] fun _ => some (a, b))))))

/-- The dictionary of an element, with all the keys that a later function reads; `is_crc` is
`function == "CRC32"`. -/
structure Entry where
  filename : String
  file_sector_offset : ℤ
  num_partition_sectors : ℤ
  physical_partition_number : ℤ
  sparse : String
  start_sector : ℤ
  is_crc : Bool
  arg0 : ℤ
  arg1 : ℕ
  value : ℤ
  byte_offset : ℤ
  size_in_bytes : ℤ
  what : Option String
  deriving Repr, DecidableEq

/-- `function`, `arg0`, `arg1` and `value` of a `value` attribute. -/
def parse_value (disk_size sector_size : ℕ) (text : String) : Option (Bool × ℤ × ℕ × ℤ) :=
  match crc32_sector_pattern text.toList with
  | some (a, b) =>
    match int_of_float (natOfDigits a), int_of_float (natOfDigits b) with
    | some arg0, some arg1 => some (true, arg0, arg1.toNat, 0)
    | _, _ => none
  | none =>
    -- the second form counts from the end of the disk
    match crc32_end_pattern text.toList with
    | some (a, b) =>
      match (handle_num_disk_sectors disk_size sector_size
          ("NUM_DISK_SECTORS-" ++ String.ofList a)).bind int_of_float,
        int_of_float (natOfDigits b) with
      | some arg0, some arg1 => some (true, arg0, arg1.toNat, 0)
      | _, _ => none
    | none =>
      match handle_num_disk_sectors disk_size sector_size text with
      | some v => some (false, 0, 0, v)
      | none => none

/-- `SECTOR_SIZE = int(..)`. The source takes 0 and negative numbers too; they end here. -/
def parse_sector_size (text : String) : Option ℕ :=
  match int_of_text text with
  | some z => if 0 < z then some z.toNat else none
  | none => none

/-- `ReturnParsedValues`: the dictionary, and the new value of `SECTOR_SIZE`. -/
def return_parsed_values (disk_size : ℕ) (e : XmlElement) : Option (Entry × ℕ) := do
  let sector_size ← parse_sector_size (e.getD "SECTOR_SIZE_IN_BYTES" "512")
  let handle := handle_num_disk_sectors disk_size sector_size
  -- `num_sectors` and `offset` are the legacy names
  let num_partition_sectors ←
    handle ((e.get? "num_sectors").getD (e.getD "num_partition_sectors" "0"))
  let start_sector ← handle (e.getD "start_sector" "0")
  let file_sector_offset ← handle ((e.get? "offset").getD (e.getD "file_sector_offset" "0"))
  let physical_partition_number ← int_of_text (e.getD "physical_partition_number" "0")
  let byte_offset ← int_of_float_text (e.getD "byte_offset" "0")
  let size_in_bytes ← int_of_float_text (e.getD "size_in_bytes" "4")
  let (is_crc, arg0, arg1, value) ← parse_value disk_size sector_size (e.getD "value" "0")
  return ({
    filename := e.getD "filename" ""
    sparse := e.getD "sparse" "false"
    what := e.get? "what"
    file_sector_offset, num_partition_sectors, physical_partition_number, start_sector
    is_crc, arg0, arg1, value, byte_offset, size_in_bytes }, sector_size)

/-! ## Documents

Elements are read in order and set `SECTOR_SIZE` as they go. The numbers that stand for a
distance from the end are replaced for one element at a time, in its dictionary.
-/

/-- The global arrays and `SECTOR_SIZE`, which every element sets anew. -/
structure Arrays where
  sector_size : ℕ
  write_array : List Entry
  patch_array : List Entry
  deriving Repr, DecidableEq

/-- `ParseXML`, for `<program>` and `<patch>` elements. -/
def parse_xml (disk_size : ℕ) : List XmlElement → Arrays → Option Arrays
  | [], s => some s
  | e :: es, s =>
    if e.tag = "program" then
      if e.attrib = [] then none
      else match return_parsed_values disk_size e with
        | some (w, sector_size) =>
          parse_xml disk_size es
            { s with sector_size := sector_size, write_array := s.write_array ++ [w] }
        | none => none
    else if e.tag = "patch" then
      if e.attrib = [] then none
      else match return_parsed_values disk_size e with
        | some (p, sector_size) =>
          parse_xml disk_size es
            { s with sector_size := sector_size, patch_array := s.patch_array ++ [p] }
        | none => none
    else parse_xml disk_size es s

/-- The number itself, or the one from the end of the disk that a gigantic number stands for. -/
def real_value (disk_sectors max_sectors x : ℤ) : ℤ :=
  if 0 < x ∧ max_sectors < x then disk_sectors - (x - max_sectors) else x

theorem real_value_of_le {disk_sectors max_sectors x : ℤ} (h : x ≤ max_sectors) :
    real_value disk_sectors max_sectors x = x :=
  if_neg fun hx => absurd h (not_le.mpr hx.2)

/-- `ReplaceDiskSizeInSectorsWithRealValue`, for the dictionary of one element. -/
def replace_disk_size (disk_size sector_size : ℕ) (e : Entry) : Entry :=
  let real := real_value ((disk_size / sector_size : ℕ) : ℤ)
    ((emmcbld_max_disk_size_in_bytes / sector_size : ℕ) : ℤ)
  { e with
    start_sector := real e.start_sector
    num_partition_sectors := real e.num_partition_sectors
    file_sector_offset := real e.file_sector_offset
    value := real e.value }

/-! ## Reading the texts `ptool.py` writes

The documents are written by one program of the repository and read by another, so for each
form of text that `ptool.py` writes there is a lemma on what is read from it: plain sectors,
sectors from the end, and the two kinds of CRC.
-/

section Read

variable {disk_size sector_size : ℕ}

/-- A sector counted from the end of the disk, whether the size of the disk is known or not. -/
theorem handle_from_end_eq (disk_size sector_size k : ℕ) {tail : String}
    (htail : ∀ c, tail.toList.head? = some c → c.isDigit = false) :
    handle_num_disk_sectors disk_size sector_size ("NUM_DISK_SECTORS-" ++ toString k ++ tail)
      = if 0 < disk_size then some (((disk_size / sector_size : ℕ) : ℤ) - k)
        else some (((emmcbld_max_disk_size_in_bytes / sector_size : ℕ) : ℤ) + k) := by
  have htext : ("NUM_DISK_SECTORS-" ++ toString k ++ tail).toList
      = "NUM_DISK_SECTORS-".toList ++ (Nat.toDigits 10 k ++ tail.toList) := by simp
  have hfound : search (lit "NUM_DISK_SECTORS-".toList (digits fun ds _ => some ds))
      ("NUM_DISK_SECTORS-" ++ toString k ++ tail).toList = some (Nat.toDigits 10 k) := by
    rw [htext]
    apply search_of_front
    rw [lit_append, digits_toDigits _ _ htail]
  rw [handle_num_disk_sectors, hfound]
  dsimp only
  rw [natOfDigits_toDigits]

/-- A sector counted from the end, where the size of the disk is known. -/
theorem handle_from_end (hd : 0 < disk_size) (k : ℕ) {tail : String}
    (htail : ∀ c, tail.toList.head? = some c → c.isDigit = false) :
    handle_num_disk_sectors disk_size sector_size ("NUM_DISK_SECTORS-" ++ toString k ++ tail)
      = some (((disk_size / sector_size : ℕ) : ℤ) - k) := by
  rw [handle_from_end_eq _ _ _ htail, if_pos hd]

/-- A plain number is read as it is, also a negative one. -/
theorem handle_toString_int (z : ℤ) :
    handle_num_disk_sectors disk_size sector_size (toString z) = some z := by
  have hno : 'N' ∉ (toString z).toList := by
    have hdigits : ∀ n : ℕ, 'N' ∉ Nat.toDigits 10 n := by
      intro n h
      exact absurd (isDigit_toDigits h) (by decide)
    cases z with
    | ofNat n =>
      rw [show toString (Int.ofNat n) = toString n from rfl, toString_nat_toList]
      exact hdigits n
    | negSucc n =>
      rw [show toString (Int.negSucc n) = "-" ++ toString (n + 1) from rfl,
        String.toList_append, toString_nat_toList, List.mem_append]
      rintro (h | h)
      · exact absurd h (by decide)
      · exact hdigits _ h
  have h1 : search (lit "NUM_DISK_SECTORS-".toList (digits fun ds _ => some ds))
      (toString z).toList = none := search_lit_eq_none _ _ hno
  have h2 : search (lit "NUM_DISK_SECTORS".toList fun _ => some ()) (toString z).toList = none :=
    search_lit_eq_none _ _ hno
  rw [handle_num_disk_sectors, h1]
  dsimp only
  rw [h2]
  exact int_of_text_toString_int z

/-- A plain sector number is read as it is. -/
theorem handle_toString (n : ℕ) :
    handle_num_disk_sectors disk_size sector_size (toString n) = some (n : ℤ) :=
  handle_toString_int n

theorem parse_sector_size_toString {n : ℕ} (h : 0 < n) :
    parse_sector_size (toString n) = some n := by
  have hpos : (0 : ℤ) < n := by omega
  rw [parse_sector_size, int_of_text_toString]
  dsimp only
  rw [if_pos hpos, Int.toNat_natCast]

/-- A value in which neither pattern finds a CRC is read as a sector number. -/
theorem parse_value_of_not_crc {text : String} {v : ℤ}
    (hsector : crc32_sector_pattern text.toList = none)
    (hend : crc32_end_pattern text.toList = none)
    (hv : handle_num_disk_sectors disk_size sector_size text = some v) :
    parse_value disk_size sector_size text = some (false, 0, 0, v) := by
  rw [parse_value, hsector]
  dsimp only
  rw [hend]
  dsimp only
  rw [hv]

/-- What follows the first number of a CRC: a length and the bracket. -/
theorem crc_length_pattern {α : Type*} (f : List Char → Option α) (len : ℕ) :
    digits (fun b => optAny (lit [')'] fun _ => f b)) (Nat.toDigits 10 len ++ [')'])
      = f (Nat.toDigits 10 len) := by
  rw [digits_toDigits _ _ (by simp), optAny_keep (by simp [lit])]
  simp [lit]

/-- The CRC of bytes from a sector on is read with its two numbers. -/
theorem parse_value_crc_sector {a len : ℕ} (ha : a < 2 ^ 53) (hlen : len < 2 ^ 53) :
    parse_value disk_size sector_size ("CRC32(" ++ toString a ++ "," ++ toString len ++ ")")
      = some (true, (a : ℤ), len, 0) := by
  have htext : ("CRC32(" ++ toString a ++ "," ++ toString len ++ ")").toList
      = "CRC32(".toList ++ (Nat.toDigits 10 a ++ ',' :: (Nat.toDigits 10 len ++ [')'])) := by
    simp
  have hfound : crc32_sector_pattern
      ("CRC32(" ++ toString a ++ "," ++ toString len ++ ")").toList
      = some (Nat.toDigits 10 a, Nat.toDigits 10 len) := by
    rw [htext]
    apply search_of_front
    rw [lit_append, digits_toDigits _ _ (by simp), optAny_keep (lit_toDigits (by decide) _ _ _ _),
      ← List.singleton_append (l := Nat.toDigits 10 len ++ _), lit_append,
      crc_length_pattern (fun b => some (Nat.toDigits 10 a, b)) len]
  rw [parse_value, hfound]
  dsimp only
  rw [natOfDigits_toDigits, natOfDigits_toDigits, int_of_float_natCast ha,
    int_of_float_natCast hlen]
  simp

/-- The first pattern does not find a CRC counted from the end of the disk. -/
theorem sector_pattern_from_end {rest : List Char} (h : 'C' ∉ rest) :
    crc32_sector_pattern ("CRC32(NUM_DISK_SECTORS-".toList ++ rest) = none := by
  have hrest : ∀ k : List Char → Option (List Char × List Char),
      search (lit "CRC32(".toList k) rest = none := fun k => search_lit_eq_none _ _ h
  have hfront : "CRC32(NUM_DISK_SECTORS-".toList = ['C', 'R', 'C', '3', '2', '(', 'N', 'U', 'M',
      '_', 'D', 'I', 'S', 'K', '_', 'S', 'E', 'C', 'T', 'O', 'R', 'S', '-'] := by decide
  rw [crc32_sector_pattern, hfront]
  simp only [List.cons_append, List.nil_append, search, hrest]
  simp [lit, digits]

/-- The CRC of bytes from a sector counted from the end of a disk. -/
theorem parse_value_crc_end (hd : 0 < disk_size) {k len : ℕ}
    (hk : k ≤ disk_size / sector_size) (hsectors : disk_size / sector_size < 2 ^ 53)
    (hlen : len < 2 ^ 53) :
    parse_value disk_size sector_size
        ("CRC32(NUM_DISK_SECTORS-" ++ toString k ++ ".," ++ toString len ++ ")")
      = some (true, ((disk_size / sector_size : ℕ) : ℤ) - k, len, 0) := by
  have htext : ("CRC32(NUM_DISK_SECTORS-" ++ toString k ++ ".," ++ toString len ++ ")").toList
      = "CRC32(NUM_DISK_SECTORS-".toList
        ++ (Nat.toDigits 10 k ++ '.' :: ',' :: (Nat.toDigits 10 len ++ [')'])) := by
    simp
  -- the search has no other place to begin
  have hno : 'C' ∉ Nat.toDigits 10 k ++ '.' :: ',' :: (Nat.toDigits 10 len ++ [')']) := by
    simp only [List.mem_append, List.mem_cons, List.not_mem_nil, or_false]
    rintro (h | h | h | h | h)
    · exact absurd (isDigit_toDigits h) (by decide)
    · exact absurd h (by decide)
    · exact absurd h (by decide)
    · exact absurd (isDigit_toDigits h) (by decide)
    · exact absurd h (by decide)
  have hfound : crc32_end_pattern
      ("CRC32(NUM_DISK_SECTORS-" ++ toString k ++ ".," ++ toString len ++ ")").toList
      = some (Nat.toDigits 10 k, Nat.toDigits 10 len) := by
    rw [htext]
    apply search_of_front
    rw [lit_append, digits_toDigits _ _ (by simp)]
    apply optAny_skip (by decide)
    rw [← List.singleton_append (l := Nat.toDigits 10 len ++ _), lit_append,
      crc_length_pattern (fun b => some (Nat.toDigits 10 k, b)) len]
  -- the digits go through the text once more
  have hgroup : handle_num_disk_sectors disk_size sector_size
      ("NUM_DISK_SECTORS-" ++ String.ofList (Nat.toDigits 10 k))
      = some (((disk_size / sector_size - k : ℕ) : ℕ) : ℤ) := by
    have hstr : "NUM_DISK_SECTORS-" ++ String.ofList (Nat.toDigits 10 k)
        = "NUM_DISK_SECTORS-" ++ toString k ++ "" := by
      rw [← String.toList_inj]
      simp
    rw [hstr, handle_from_end hd k (by simp), Nat.cast_sub hk]
  rw [parse_value, htext, sector_pattern_from_end hno, ← htext]
  dsimp only
  rw [hfound]
  dsimp only
  rw [hgroup, Option.bind_some, natOfDigits_toDigits, int_of_float_natCast (by omega),
    int_of_float_natCast hlen, Nat.cast_sub hk]
  simp

/-- Neither pattern finds a CRC in a sector counted from the end of the disk. -/
theorem patterns_from_end {rest : List Char} (h : 'C' ∉ rest) :
    crc32_sector_pattern ("NUM_DISK_SECTORS-".toList ++ rest) = none ∧
      crc32_end_pattern ("NUM_DISK_SECTORS-".toList ++ rest) = none := by
  have hrest : ∀ s k, search (lit ('C' :: s) k) rest = (none : Option (List Char × List Char)) :=
    fun s k => search_lit_eq_none s k h
  have hfront : "NUM_DISK_SECTORS-".toList = ['N', 'U', 'M', '_', 'D', 'I', 'S', 'K', '_', 'S',
      'E', 'C', 'T', 'O', 'R', 'S', '-'] := by decide
  have hcrc : "CRC32(".toList = ['C', 'R', 'C', '3', '2', '('] := by decide
  have hcrc' : "CRC32(NUM_DISK_SECTORS-".toList = ['C', 'R', 'C', '3', '2', '(', 'N', 'U', 'M',
      '_', 'D', 'I', 'S', 'K', '_', 'S', 'E', 'C', 'T', 'O', 'R', 'S', '-'] := by decide
  rw [crc32_sector_pattern, crc32_end_pattern, hfront, hcrc, hcrc']
  simp only [List.cons_append, List.nil_append, search, hrest]
  simp [lit]

/-- Neither pattern finds a CRC in a number. -/
theorem patterns_toString (n : ℕ) : crc32_sector_pattern (toString n).toList = none ∧
    crc32_end_pattern (toString n).toList = none := by
  have hno : 'C' ∉ (toString n).toList := by
    rw [toString_nat_toList]
    intro h
    exact absurd (isDigit_toDigits h) (by decide)
  exact ⟨search_lit_eq_none _ _ hno, search_lit_eq_none _ _ hno⟩

end Read

/-! ## Reading a document of patches

Patches that agree on the sector size are read one by one, whatever the others are.
-/

/-- The sector size an element gives is the one the script goes on with. -/
theorem return_parsed_values_sector_size {disk_size sector_size size : ℕ} {e : XmlElement}
    {p : Entry} (hsize : parse_sector_size (e.getD "SECTOR_SIZE_IN_BYTES" "512") = some size)
    (h : return_parsed_values disk_size e = some (p, sector_size)) : sector_size = size := by
  unfold return_parsed_values at h
  simp only [hsize, Option.bind_eq_bind, Option.bind_some, Option.bind_eq_some_iff,
    Option.pure_def, Option.some.injEq, Prod.mk.injEq] at h
  obtain ⟨_, -, _, -, _, -, _, -, _, -, _, -, _, -, -, rfl⟩ := h
  rfl

theorem return_parsed_values_filename {disk_size sector_size : ℕ} {e : XmlElement} {p : Entry}
    (h : return_parsed_values disk_size e = some (p, sector_size)) :
    p.filename = e.getD "filename" "" := by
  unfold return_parsed_values at h
  simp only [Option.bind_eq_bind, Option.bind_eq_some_iff, Option.pure_def, Option.some.injEq,
    Prod.mk.injEq] at h
  obtain ⟨_, -, _, -, _, -, _, -, _, -, _, -, _, -, _, -, rfl, -⟩ := h
  rfl

/-- A document of patches that agree on the sector size is read patch by patch. -/
theorem parse_xml_patches {disk_size size : ℕ} {es : List XmlElement}
    (hes : ∀ e ∈ es, e.tag = "patch" ∧ e.attrib ≠ [] ∧
      parse_sector_size (e.getD "SECTOR_SIZE_IN_BYTES" "512") = some size)
    (s s' : Arrays) :
    parse_xml disk_size es s = some s' ↔
      ∃ ps, List.Forall₂ (fun e p => return_parsed_values disk_size e = some (p, size)) es ps ∧
        s' = { s with
          sector_size := if es = [] then s.sector_size else size
          patch_array := s.patch_array ++ ps } := by
  induction es generalizing s with
  | nil => simp [parse_xml, eq_comm]
  | cons e es ih =>
    obtain ⟨htag, hattrib, hsize⟩ := hes e (by simp)
    have hnot : ¬ e.tag = "program" := by
      rw [htag]
      decide
    rw [parse_xml, if_neg hnot, if_pos htag, if_neg hattrib]
    cases he : return_parsed_values disk_size e with
    | none =>
      refine iff_of_false (by simp) ?_
      rintro ⟨ps, hps, -⟩
      cases hps with
      | @cons _ p' _ ps hp hps =>
        rw [he] at hp
        cases hp
    | some r =>
      obtain ⟨p, size'⟩ := r
      obtain rfl := return_parsed_values_sector_size hsize he
      dsimp only
      -- the rest is read after this element, which the list of entries begins with
      rw [ih fun e' he' => hes e' (by simp [he'])]
      constructor
      · rintro ⟨ps, hps, rfl⟩
        exact ⟨p :: ps, List.Forall₂.cons he hps, by simp⟩
      · rintro ⟨ps, hps, rfl⟩
        cases hps with
        | @cons _ p' _ ps hp hps =>
          rw [he] at hp
          cases hp
          exact ⟨ps, hps, by simp⟩

end AndroidTools.Msp
