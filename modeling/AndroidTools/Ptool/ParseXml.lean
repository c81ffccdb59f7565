/-
`ParseXML`: the partition document.

The function walks over all elements of the document in one loop, whatever they are nested in, and
keeps what it has seen in global variables. A `Partition` is one dictionary that is stored in a
list and changed again by the `<file>` elements behind it, so the model keeps the dictionaries in
the order they were made and the lists hold their numbers.

The attributes of an element are handled one by one, in their order; the last one of a name
decides. An attribute may end the program, and so may an element that is where it should not be;
`ParseStop` has the texts. The settings that the functions for the tables read come from the
parser instructions at the end, with the defaults of the source.
-/
import AndroidTools.Lib.Dict
import AndroidTools.Lib.Passes
import AndroidTools.Ptool.Guid
import AndroidTools.Xml

set_option autoImplicit false

namespace AndroidTools.Ptool

open AndroidTools.Dict AndroidTools.Passes AndroidTools.Text AndroidTools.Hex

/-- An element of the document, with the text inside it. -/
structure DocElement extends XmlElement where
  text : Option String
  deriving Repr, DecidableEq

/-- How the function ends the program, with the text that it prints. -/
inductive ParseStop where
  | big_error (sz : String)
  | empty_physical_partition
  | invalid_type
  | key_error
  | type_error
  | value_error
  | name_error
  | zero_division_error
  deriving Repr, DecidableEq

/-! ## Parser instructions

The instructions are one text with assignments. The two substitutions take away blanks at
the equal signs only, so a blank elsewhere separates words.
-/

/-- `(\t| )`, the white space that the patterns know. -/
def is_blank (c : Char) : Bool := c = '\t' || c = ' '

/-- `re.sub(r"(\t| )+=","=",sz)`: a run of blanks goes if a `=` follows it. -/
def drop_before_equal : List Char → List Char
  | [] => []
  | c :: cs =>
    let rest := drop_before_equal cs
    if is_blank c ∧ rest.head? = some '=' then rest else c :: rest

/-- `re.sub(r"=(\t| )+","=",temp)`. -/
def drop_after_equal : List Char → List Char
  | [] => []
  | c :: cs =>
    let rest := drop_after_equal cs
    if c = '=' then c :: rest.dropWhile is_blank else c :: rest

/-- `AlignVariablesToEqualSigns`: no blank and no tab is left around a `=`. -/
def align_variables_to_equal_signs (sz : List Char) : List Char :=
  drop_after_equal (drop_before_equal sz)

/-- `ReturnArrayFromSpaceSeparatedList`, without the empty word of an empty text. -/
def return_array_from_space_separated_list (sz : List Char) : List (List Char) :=
  (sz.splitOnP isspace).filter (· ≠ [])

/-- `HashInstructions[temp[0].strip()] = temp[1].strip()` for a word with a `=`. -/
def add_instruction (instructions : List (String × String)) (word : List Char) :
    List (String × String) :=
  match word.splitOn '=' with
  | name :: value :: _ =>
    dictSet instructions (String.ofList (strip name), String.ofList (strip value))
  | _ => instructions

/-! ## Partitions

A dictionary of defaults, over which the attributes of an element are laid. Five of its keys
are lists, and an attribute of a file assigns the last entry; a `<file>` then appends one,
for the next file. A type is compared with the format that was decided before, or decides
it.
-/

/-- The five lists of a `Partition`; `none` in `fileoffset` is the number 0. -/
structure FileLists where
  filename : List String
  fileoffset : List (Option String)
  appsbin : List String
  sparse : List String
  filepartitionoffset : List ℤ
  deriving Repr, DecidableEq

/-- `Partition['uguid']`: `"false"`, a number, or the text of an attribute `uguid`. -/
inductive UniqueGuid where
  | absent
  | guid (n : ℕ)
  | text (s : String)
  deriving Repr, DecidableEq

/-- A `Partition`. `others` are the keys the loop stores under the attribute's name, among
them the flags that begin as `"false"`. -/
structure RawPartition where
  files : FileLists
  size_in_kb : ℤ
  label : String
  type : Option ℕ
  uguid : UniqueGuid
  performance_boundary_in_kb : ℤ
  others : List (String × String)
  deriving Repr, DecidableEq

/-- The formats `'gpt'` and `'mbr'`. -/
inductive OutputFormat where
  | gpt
  | mbr
  deriving Repr, DecidableEq

/-- `OutputToCreate`. A format from `-f` is another object than the literals, so `is` tells
it from a detected one. -/
inductive OutputToCreate where
  | undecided
  | detected (format : OutputFormat)
  | given (format : OutputFormat)
  deriving Repr, DecidableEq

/-- `if OutputToCreate is None: OutputToCreate = format`. -/
def OutputToCreate.decide (format : OutputFormat) : OutputToCreate → OutputToCreate
  | undecided => detected format
  | output => output

/-- `l[-1] = v`, for a list that is not empty. -/
def set_last {α : Type} (l : List α) (v : α) : List α := l.dropLast ++ [v]

/-- `int(value)`, which raises where the text is no number. -/
def py_int (value : String) : Except ParseStop ℤ :=
  match int_of_text value with
  | some z => .ok z
  | none => .error .value_error

/-- `ValidateTYPE` of a text, `^(0x)?([a-fA-F\d][a-fA-F\d]?)$`. -/
def validate_type_text (type : String) : Option ℕ :=
  let digits := match type.toList with
    | '0' :: 'x' :: rest => rest
    | cs => cs
  let digits := if digits.getLast? = some '\n' then digits.dropLast else digits
  if (digits.length = 1 ∨ digits.length = 2) ∧ digits.all isHex = true then some (hexNat digits)
  else none

/-- `Partition` with its defaults, as the function makes it for each element. -/
def new_partition (performance_boundary_in_kb : ℤ) : RawPartition where
  files := ⟨[""], [none], ["false"], ["false"], [0]⟩
  size_in_kb := 0
  label := "false"
  type := none
  uguid := .absent
  performance_boundary_in_kb := performance_boundary_in_kb
  others := [("readonly", "false"), ("align", "false"), ("hidden", "false"), ("system", "false"),
    ("dontautomount", "false")]

/-- `Partition['PERFORMANCE_BOUNDARY_IN_KB']` before the attributes. -/
def default_performance_boundary (instructions : List (String × String)) : Except ParseStop ℤ :=
  match dictGet instructions "PERFORMANCE_BOUNDARY_IN_KB" with
  | some value => py_int value
  | none => .ok 0

/-- The attributes a partition and a `<file>` have in common, `none` for another one. -/
def set_file_attribute (files : FileLists) (name value : String) :
    Option (Except ParseStop FileLists) :=
  if name = "name" ∨ name = "filename" then
    some (.ok { files with filename := set_last files.filename value })
  else if name = "fileoffset" then
    some (.ok { files with fileoffset := set_last files.fileoffset (some value) })
  else if name = "offset" ∨ name = "filepartitionoffset" then
    some ((py_int value).map fun z =>
      { files with filepartitionoffset := set_last files.filepartitionoffset z })
  else if name = "appsbin" then
    some (.ok { files with appsbin := set_last files.appsbin value })
  else if name = "sparse" then
    some (.ok { files with sparse := set_last files.sparse value })
  else none

/-- The `type` attribute: the first one decides the format, the others must agree. -/
def set_type (output_to_create : OutputToCreate) (value : String) :
    Except ParseStop (OutputToCreate × ℕ) :=
  if valid_guid_form value then
    if output_to_create = .detected .mbr then
      .error (.big_error
        "ERROR: Your partition.xml is possibly corrupt, please check the GUID TYPE field")
    else .ok (output_to_create.decide .gpt, validate_guid value)
  else if output_to_create = .detected .gpt then
    .error (.big_error "ERROR: Your partition.xml is possibly corrupt, please check the TYPE field")
  else
    match validate_type_text value with
    | some type => .ok (output_to_create.decide .mbr, type)
    | none => .error .invalid_type

/-- A pass of the loop over `element.items()`, for a partition. -/
def set_attribute (s : OutputToCreate × RawPartition) (a : String × String) :
    Except ParseStop (OutputToCreate × RawPartition) :=
  let (output_to_create, p) := s
  let (name, value) := a
  match set_file_attribute p.files name value with
  | some files => files.map fun files => (output_to_create, { p with files := files })
  | none =>
    if name = "label" then .ok (output_to_create, { p with label := value })
    else if name = "PERFORMANCE_BOUNDARY_IN_KB" then
      (py_int value).map fun z => (output_to_create, { p with performance_boundary_in_kb := z })
    else if name = "type" then
      (set_type output_to_create value).map fun (output_to_create, type) =>
        (output_to_create, { p with type := some type })
    else if name = "uniqueguid" then
      if valid_guid_form value then
        .ok (output_to_create, { p with uguid := .guid (validate_guid value) })
      else
        .error (.big_error
          "ERROR: Your partition.xml is possibly corrupt, please check the TYPE field")
    else if name = "size" ∨ name = "size_in_kb" then
      if value = "" then .error (.big_error "\nERROR: Invalid partition size")
      else (py_int value).map fun z =>
        (output_to_create, { p with size_in_kb := if name = "size" then z / 2 else z })
    else if name = "uguid" then .ok (output_to_create, { p with uguid := .text value })
    else .ok (output_to_create, { p with others := dictSet p.others (name, value) })

/-- The appends at the end of a `<file>`, which make room for the next one. -/
def next_file (files : FileLists) : FileLists where
  filename := files.filename ++ [""]
  fileoffset := files.fileoffset ++ [none]
  appsbin := files.appsbin ++ ["false"]
  sparse := files.sparse ++ ["false"]
  filepartitionoffset := files.filepartitionoffset ++ [0]

/-- A pass of the loop over the attributes of a `<file>`; other names are passed over. -/
def set_file (files : FileLists) (a : String × String) : Except ParseStop FileLists :=
  (set_file_attribute files a.1 a.2).getD (.ok files)

/-! ## The document

The loop over all elements in the order of the document, with the variables that it changes.
A file belongs to the last partition that came before it, wherever it stands.
-/

/-- The global variables, and the `Partition`s made so far; the variable `Partition` is the
last of them. -/
structure ParseState where
  instructions : List (String × String)
  output_to_create : OutputToCreate
  num_phy_partitions : ℕ
  partition_collection : List ℕ
  phy_partition : List (ℤ × List ℕ)
  partitions : List RawPartition
  deriving Repr, DecidableEq

/-- What is done for a `<partition>`, a `<primary>` or an `<extended>`. -/
def parse_partition (s : ParseState) (e : DocElement) : Except ParseStop ParseState := do
  if e.attrib = [] then
    throw (.big_error "ERROR: element.tag was partition, primary or extended, but it had no keys!")
  let boundary ← default_performance_boundary s.instructions
  let (output_to_create, p) ←
    e.attrib.foldlM set_attribute (s.output_to_create, new_partition boundary)
  let s := { s with output_to_create := output_to_create, partitions := s.partitions ++ [p] }
  if p.label = "EXT" then return s
  -- the new dictionary is the last one of `partitions`
  let collection := s.partition_collection ++ [s.partitions.length - 1]
  return { s with
    partition_collection := collection
    phy_partition := dictSet s.phy_partition ((s.num_phy_partitions : ℤ) - 1, collection) }

/-- What is done for a `<physical_partition>`: the next collection is begun. -/
def parse_physical_partition (s : ParseState) : Except ParseStop ParseState :=
  let s := { s with num_phy_partitions := s.num_phy_partitions + 1, partition_collection := [] }
  if (2 : ℤ) ≤ s.num_phy_partitions - s.phy_partition.length then
    .error .empty_physical_partition
  else .ok s

/-- What is done for a `<file>`: the last entries of the lists of the last partition are set. -/
def parse_file (s : ParseState) (e : DocElement) : Except ParseStop ParseState := do
  match s.partitions.getLast? with
  | none => throw .name_error
  | some p =>
    let files ← e.attrib.foldlM set_file p.files
    return { s with partitions := set_last s.partitions { p with files := next_file files } }

/-- A pass of the loop over the elements, by the tag of the element. -/
def parse_element (s : ParseState) (e : DocElement) : Except ParseStop ParseState :=
  if e.tag = "parser_instructions" then
    match e.text with
    | none => .error .type_error
    | some text =>
      let words :=
        return_array_from_space_separated_list (align_variables_to_equal_signs text.toList)
      .ok { s with instructions := words.foldl add_instruction s.instructions }
  else if e.tag = "physical_partition" then parse_physical_partition s
  else if e.tag = "partition" ∨ e.tag = "primary" ∨ e.tag = "extended" then parse_partition s e
  else if e.tag = "file" then parse_file s e
  else .ok s

/-- The global variables at the start, `output_to_create` with what `-f` gave. -/
def initial_state (output_to_create : OutputToCreate) : ParseState where
  instructions := []
  output_to_create := output_to_create
  num_phy_partitions := 0
  partition_collection := []
  phy_partition := []
  partitions := []

/-- The loop over all elements of the document. -/
def parse_elements (doc : List DocElement) (s : ParseState) : Except ParseStop ParseState :=
  doc.foldlM parse_element s

/-! ## The settings

What the instructions come to at the end, each with a pattern for its text and its own way
to be absent or bad.
-/

/-- A setting with the pattern `^(\d+)$`: `absent` without it, `bad` for another text. -/
def number_setting (instructions : List (String × String)) (name : String) (absent bad : ℕ) : ℕ :=
  match dictGet instructions name with
  | none => absent
  | some value =>
    if value.toList ≠ [] ∧ value.toList.all Char.isDigit = true then natOfDigits value.toList
    else bad

/-- A setting with the pattern `^(true)$`, in either case; `absent` is its value where it is not
given. -/
def flag_setting (instructions : List (String × String)) (name : String) (absent : Bool) : Bool :=
  match dictGet instructions name with
  | none => absent
  | some value => value.toList.map Char.toLower = ['t', 'r', 'u', 'e']

/-- `DISK_SIGNATURE`, with the pattern `^0x([\da-fA-F]+)$`. -/
def disk_signature_setting (instructions : List (String × String)) : ℕ :=
  match (dictGet instructions "DISK_SIGNATURE").map String.toList with
  | some ('0' :: 'x' :: digits) =>
    if digits ≠ [] ∧ digits.all isHex = true then hexNat digits else 0
  | _ => 0

/-- The switches of the command line that the settings keep. -/
structure CommandLine where
  output_to_create : OutputToCreate
  sequentialguid : Bool
  force128partitions : Bool
  deriving Repr, DecidableEq

/-- `HashInstructions` at the end; computing `hash_w` divides by the sector size. -/
def parse_settings (cl : CommandLine) (s : ParseState) : Except ParseStop Settings :=
  let sector_size_in_bytes := number_setting s.instructions "SECTOR_SIZE_IN_BYTES" 512 512
  if h : 0 < sector_size_in_bytes then
    .ok {
      sector_size_in_bytes
      write_protect_boundary_in_kb :=
        number_setting s.instructions "WRITE_PROTECT_BOUNDARY_IN_KB" (64 * 1024) 0
      grow_last_partition_to_fill_disk :=
        flag_setting s.instructions "GROW_LAST_PARTITION_TO_FILL_DISK" true
      write_protect_gpt_partition_table :=
        flag_setting s.instructions "WRITE_PROTECT_GPT_PARTITION_TABLE" false
      performance_boundary_in_kb :=
        number_setting s.instructions "PERFORMANCE_BOUNDARY_IN_KB" 0 0
      align_partitions_to_performance_boundary :=
        flag_setting s.instructions "ALIGN_PARTITIONS_TO_PERFORMANCE_BOUNDARY" false
      disk_signature := disk_signature_setting s.instructions
      sequentialguid := cl.sequentialguid
      force128partitions := cl.force128partitions
      output_is_gpt := s.output_to_create = .detected .gpt
      sector_size_pos := h }
  else .error .zero_division_error

/-- `ALIGN_BOUNDARY_IN_KB`. -/
def align_boundary_setting (instructions : List (String × String)) (st : Settings) : ℕ :=
  number_setting instructions "ALIGN_BOUNDARY_IN_KB" st.write_protect_boundary_in_kb
    st.write_protect_boundary_in_kb

/-- The `Partition`s of a collection, by their numbers. -/
def collected (partitions : List RawPartition) (ids : List ℕ) : List RawPartition :=
  ids.filterMap (partitions[·]?)

/-- `MinSectorsNeeded`, which each physical partition assigns anew. -/
def min_sectors_needed (st : Settings) (s : ParseState) : Except ParseStop ℤ :=
  if st.grow_last_partition_to_fill_disk then .ok 0
  else (List.range s.phy_partition.length).foldlM (fun _ j =>
    match dictGet s.phy_partition j with
    | none => .error .key_error
    | some ids =>
      let records := if 4 < ids.length then 1 + ((ids.length : ℤ) - 3) else 1
      .ok (records + ((collected s.partitions ids).map fun p =>
        convert_kb_to_sectors st p.size_in_kb).sum)) 0

/-- What `ParseXML` leaves behind: the settings, `PhyPartition` and every `Partition` made. -/
structure ParsedDocument where
  settings : Settings
  align_boundary_in_kb : ℕ
  min_sectors_needed : ℤ
  output_to_create : OutputToCreate
  phy_partition : List (ℤ × List RawPartition)
  partitions : List RawPartition

/-- `ParseXML`, of the elements in document order. -/
def parse_xml (cl : CommandLine) (doc : List DocElement) : Except ParseStop ParsedDocument := do
  let s ← parse_elements doc (initial_state cl.output_to_create)
  let settings ← parse_settings cl s
  let min_sectors_needed ← min_sectors_needed settings s
  return {
    settings
    align_boundary_in_kb := align_boundary_setting s.instructions settings
    min_sectors_needed
    output_to_create := s.output_to_create
    phy_partition := s.phy_partition.map fun e => (e.1, collected s.partitions e.2)
    partitions := s.partitions }

end AndroidTools.Ptool
