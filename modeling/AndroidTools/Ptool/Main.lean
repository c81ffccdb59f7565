/-
`ptool.py` from the partition document to the tables.

The functions for the tables read the dictionaries of `ParseXML` key by key, and raise where
a partition has no type or a value of another kind; `to_partition` is what they read. The
model reads all dictionaries first, so it may name another end than the program where a run
ends without tables for two reasons at once; a run that ends with tables is the same in both.

A run ends with the tables of one physical partition. `ptool_gpt_entries` follows the
attributes of the document into the bytes of the array, which lie behind each other only for
sectors of 512 bytes or up to four partitions.
-/
import AndroidTools.Ptool.Document
import AndroidTools.Ptool.EntryArray
import AndroidTools.Ptool.Mbr

set_option autoImplicit false

namespace AndroidTools.Ptool

open AndroidTools.Bytes AndroidTools.Dict AndroidTools.Passes AndroidTools.Text

/-! ## What the tables are made from

Between the parser and the tables stand the dictionaries of the partitions, which the two
functions read in their own ways: a key that one of them needs and does not find raises, and
the other may not look at it. A file offset is printed as it was read, so texts that are no
decimal numbers are left out of the model.
-/

/-- How a run ends without tables; `unmodelled_offset` is no end of the program. -/
inductive PtoolStop where
  | parse (e : ParseStop)
  | phy_partition_not_found
  | key_error
  | type_error
  | index_error
  | invalid_type
  | table (e : PyError)
  | mbr_table (e : Ended)
  | unmodelled_offset (value : String)
  deriving Repr, DecidableEq

/-- A file offset as it is printed again. The program prints any text, and the elements of the
tables' model have room only for the decimal form of a number. -/
def offset_of : Option String → Except PtoolStop ℤ
  | none => .ok 0
  | some value =>
    match int_of_text value with
    | some z => if toString z = value then .ok z else .error (.unmodelled_offset value)
    | none => .error (.unmodelled_offset value)

/-- The `z`-th entries of the five lists, as the functions for the tables read them. -/
def partition_file (filename : String) (fileoffset : Option String) (filepartitionoffset : ℤ)
    (sparse : String) : Except PtoolStop PartitionFile :=
  (offset_of fileoffset).map fun z => ⟨filename, z, filepartitionoffset, sparse⟩

def partition_files (files : FileLists) : Except PtoolStop (List PartitionFile) :=
  ((files.filename.zip files.fileoffset).zip (files.filepartitionoffset.zip files.sparse)).mapM
    fun x => partition_file x.1.1 x.1.2 x.2.1 x.2.2

/-- `Partition[flag] == "true"`. -/
def RawPartition.flag (p : RawPartition) (flag : String) : Bool :=
  dictGet p.others flag = some "true"

/-- `Partition['uguid']` as `CreateGPTPartitionTable` reads it, which it does not with `-g`. -/
def gpt_uguid (sequentialguid : Bool) (uguid : UniqueGuid) : Except PtoolStop (Option ℕ) :=
  if sequentialguid then .ok none
  else match uguid with
    | .absent => .ok none
    | .guid n => .ok (some n)
    | .text _ => .error .type_error

/-- What both functions take over from a dictionary of `ParseXML`. -/
def read_partition (p : RawPartition) (type : ℕ) (uguid : Option ℕ) :
    Except PtoolStop Partition := do
  match ← partition_files p.files with
  | [] => throw .index_error
  | f :: files =>
    return ⟨p.label, p.size_in_kb, type, uguid, p.flag "readonly", p.flag "hidden",
      p.flag "dontautomount", p.flag "system", p.performance_boundary_in_kb, f :: files,
      List.cons_ne_nil f files⟩

/-- A dictionary as `CreateGPTPartitionTable` reads it; it prints the type as a number. -/
def to_partition (sequentialguid : Bool) (p : RawPartition) : Except PtoolStop Partition := do
  match p.type with
  | none => throw .type_error
  | some type => read_partition p type (← gpt_uguid sequentialguid p.uguid)

/-- A dictionary as `CreateMBRPartitionTable` reads it: `ValidateTYPE` ends the run for the text that
is there without a type, the unique GUID is not read, and `bootable` need not be there. -/
def to_mbr_partition (p : RawPartition) : Except PtoolStop MbrPartition := do
  match p.type with
  | none => throw .invalid_type
  | some type => return ⟨← read_partition p type none, p.flag "align", p.flag "bootable"⟩

/-! ## The program

One run of the program for one physical partition, of a document and the switches that
matter for it. The format decides which of the two tables is made.
-/

/-- `PhyPartition[k]`; a number past the last one is reported first. -/
def physical_partition (d : ParsedDocument) (k : ℕ) : Except PtoolStop (List RawPartition) :=
  if d.phy_partition.length ≤ k then .error .phy_partition_not_found
  else match dictGet d.phy_partition (k : ℤ) with
    | some ps => .ok ps
    | none => .error .key_error

/-- `CreateGPTPartitionTable(k)` of a parsed document. -/
def gpt_of_document (d : ParsedDocument) (k : ℕ) (rand : ℕ → ℕ) : Except PtoolStop GptTables := do
  let ps ← (← physical_partition d k).mapM (to_partition d.settings.sequentialguid)
  (create_gpt_partition_table d.settings k ps rand).mapError .table

/-- `CreateMBRPartitionTable(k)` of a parsed document. -/
def mbr_of_document (d : ParsedDocument) (k : ℕ) (h : d.settings.output_is_gpt = false) :
    Except PtoolStop MbrTables := do
  let ps ← (← physical_partition d k).mapM to_mbr_partition
  (create_mbr_partition_table ⟨d.settings, d.align_boundary_in_kb, d.min_sectors_needed, h⟩ k
    ps).mapError .mbr_table

/-- The tables of one run, of either kind. -/
inductive PtoolTables where
  | gpt (out : GptTables)
  | mbr (out : MbrTables)

/-- `OutputToCreate == "gpt"`. -/
def OutputToCreate.eq_gpt (output : OutputToCreate) : Bool :=
  output = .detected .gpt || output = .given .gpt

/-- The program, of the elements of the document and for one physical partition. -/
def ptool (cl : CommandLine) (doc : List DocElement) (k : ℕ) (rand : ℕ → ℕ) :
    Except PtoolStop (ParsedDocument × PtoolTables) := do
  let d ← (parse_xml cl doc).mapError .parse
  if d.output_to_create.eq_gpt then
    let out ← gpt_of_document d k rand
    return (d, .gpt out)
  else if h : d.settings.output_is_gpt = false then
    let out ← mbr_of_document d k h
    return (d, .mbr out)
  else
    -- not reached: what `is` the detected format is also equal to it
    throw .key_error

/-! ## From the document to the array

What is known of the parser and of the table is put together: the groups of the document, in
order, are the entries of the array, each with the type, the flags and the name that its
element gives and with the range that the layout gives it.
-/

/-- `Partition[flag] == "true"` in terms of the attributes. -/
def group_flag (group : PartitionGroup) (flag : String) : Bool :=
  last_value group.1.attrib [flag] = some "true"

/-- The attributes of the entry, in terms of the flags of the group. -/
def group_attributes (group : PartitionGroup) : ℕ :=
  (if group_flag group "readonly" then 1 <<< 60 else 0) |||
    (if group_flag group "hidden" then 1 <<< 62 else 0) |||
    (if group_flag group "dontautomount" then 1 <<< 63 else 0) |||
    (if group_flag group "system" then 1 <<< 0 else 0)

/-- The name of the entry: 36 characters of two bytes, zeros behind the label. -/
def group_name (group : PartitionGroup) : List UInt8 :=
  let label := ((last_value group.1.attrib ["label"]).getD "false").toList.take 36
  label.flatMap (fun c => [c.toNat.toUInt8, 0]) ++ List.replicate (2 * (36 - label.length)) 0

/-- A part of a list has its part of a related one. -/
theorem forall₂_sublist {α β : Type} {R : α → β → Prop} {as : List α} {bs bs' : List β}
    (h : List.Forall₂ R as bs) (hsub : bs'.Sublist bs) :
    ∃ as' : List α, as'.Sublist as ∧ List.Forall₂ R as' bs' := by
  induction h generalizing bs' with
  | nil =>
    rw [List.sublist_nil] at hsub
    exact ⟨[], .slnil, by rw [hsub]; exact .nil⟩
  | @cons a b as bs hab _ ih =>
    cases hsub with
    | cons _ hsub =>
      obtain ⟨as', has', hrel⟩ := ih hsub
      exact ⟨as', has'.cons a, hrel⟩
    | cons_cons _ hsub =>
      obtain ⟨as', has', hrel⟩ := ih hsub
      exact ⟨a :: as', has'.cons_cons a, .cons hab hrel⟩

/-- The fields that `to_partition` takes over as they are. -/
theorem to_partition_fields {sequentialguid : Bool} {p : RawPartition} {q : Partition}
    (h : to_partition sequentialguid p = .ok q) :
    p.type = some q.type ∧ q.label = p.label ∧ q.readonly = p.flag "readonly" ∧
      q.hidden = p.flag "hidden" ∧ q.dontautomount = p.flag "dontautomount" ∧
      q.system = p.flag "system" := by
  rw [to_partition] at h
  split at h
  · cases h
  · next type htype =>
    obtain ⟨uguid, -, h⟩ := bind_ok h
    rw [read_partition] at h
    obtain ⟨files, -, h⟩ := bind_ok h
    split at h
    · cases h
    · cases h
      exact ⟨htype, rfl, rfl, rfl, rfl, rfl⟩

/-- A flag has the value of its last attribute; one that is not there begins as `"false"`. -/
theorem DescribedBy.flag {group : PartitionGroup} {p : RawPartition} (h : DescribedBy group p)
    {flag : String} (hflag : flag ∈ flag_attributes) : p.flag flag = group_flag group flag := by
  rw [RawPartition.flag, group_flag, h.flags flag hflag]
  cases last_value group.1.attrib [flag] with
  | none => rfl
  | some value => rfl

/-- The entry of a partition, in terms of the attributes of its group. -/
theorem partition_entry_of_group {group : PartitionGroup} {p : RawPartition} {q : Partition}
    (h : DescribedBy group p) {sequentialguid : Bool} (hq : to_partition sequentialguid p = .ok q)
    (guid : ℕ) (x : Extent) :
    ∃ type, (last_value group.1.attrib ["type"]).bind type_of = some type ∧
      partition_entry q guid x (label_bytes q)
        = leBytes 16 type ++ leBytes 16 guid ++ leBytes 8 x.first_lba ++ leBytes 8 x.last_lba
          ++ leBytes 8 (group_attributes group) ++ group_name group := by
  obtain ⟨htype, hqlabel, hreadonly, hhidden, hdont, hsystem⟩ := to_partition_fields hq
  refine ⟨q.type, h.type ▸ htype, ?_⟩
  have hattributes : attributes q = group_attributes group := by
    rw [attributes, group_attributes, hreadonly, hhidden, hdont, hsystem, h.flag (by decide),
      h.flag (by decide), h.flag (by decide), h.flag (by decide)]
  have hname : label_bytes q = group_name group := by
    rw [group_name, ← h.label, ← hqlabel]
    rfl
  rw [partition_entry, hattributes, hname]

theorem physical_partition_spec {d : ParsedDocument} {k : ℕ} {ps : List RawPartition}
    (h : physical_partition d k = .ok ps) : dictGet d.phy_partition (k : ℤ) = some ps ∧
      ps.Sublist (d.phy_partition.flatMap Prod.snd) := by
  unfold physical_partition at h
  split_ifs at h
  split at h
  · next hget =>
    cases h
    refine ⟨hget, ?_⟩
    rw [dictGet, Option.map_eq_some_iff] at hget
    obtain ⟨e, he, rfl⟩ := hget
    rw [List.flatMap_def]
    exact List.sublist_flatten_of_mem (List.mem_map_of_mem (List.mem_of_find?_eq_some he))
  · cases h

/-- What a run with GPT tables has done: the document was parsed, its partitions were read, and
the call for them returned. -/
theorem ptool_gpt {cl : CommandLine} {doc : List DocElement} {k : ℕ} {rand : ℕ → ℕ}
    {d : ParsedDocument} {out : GptTables} (h : ptool cl doc k rand = .ok (d, .gpt out)) :
    parse_xml cl doc = .ok d ∧ ∃ ps qs, physical_partition d k = .ok ps ∧
      List.Forall₂ (fun p q => to_partition d.settings.sequentialguid p = .ok q) ps qs ∧
      create_gpt_partition_table d.settings k qs rand = .ok out := by
  rw [ptool] at h
  obtain ⟨d', hparse, h⟩ := bind_ok h
  split_ifs at h with hgpt hmbr
  · obtain ⟨out', hout, h⟩ := bind_ok h
    cases h
    rw [gpt_of_document] at hout
    obtain ⟨ps, hps, hout⟩ := bind_ok hout
    obtain ⟨qs, hqs, hout⟩ := bind_ok hout
    exact ⟨mapError_ok hparse, ps, qs, hps, mapM_ok hqs, mapError_ok hout⟩
  · obtain ⟨out', -, h⟩ := bind_ok h
    cases h

/-- **From the text of the document to the bytes of the array.** The tables have an entry for
each partition stored under the number of the physical partition, in the order of the
document. Entry `j` is in sector `2 + j / 4`, and its type, its flags and its name are those of
the attributes. Only with sectors of 512 bytes, or with no more than the four entries that one
sector takes, is that where an array of entries of 128 bytes has it. -/
theorem ptool_gpt_entries {cl : CommandLine} {doc : List DocElement} {k : ℕ} {rand : ℕ → ℕ}
    {d : ParsedDocument} {out : GptTables} (h : ptool cl doc k rand = .ok (d, .gpt out))
    (hs : 512 ≤ d.settings.sector_size_in_bytes) :
    ∃ (groups : List PartitionGroup) (ps : List RawPartition),
      groups.Sublist (partition_groups doc) ∧ List.Forall₂ DescribedBy groups ps ∧
      dictGet d.phy_partition (k : ℤ) = some ps ∧ groups.length = out.placed.length ∧
      ∀ (j : ℕ) (group : PartitionGroup) (x : Extent), groups[j]? = some group →
        out.placed[j]? = some x →
        (∃ type guid, (last_value group.1.attrib ["type"]).bind type_of = some type ∧
          slice out.primary_gpt (entry_position d.settings j) 128
            = leBytes 16 type ++ leBytes 16 guid ++ leBytes 8 x.first_lba ++ leBytes 8 x.last_lba
              ++ leBytes 8 (group_attributes group) ++ group_name group) ∧
        (d.settings.sector_size_in_bytes = 512 ∨ groups.length ≤ 4 →
          entry_position d.settings j = 2 * d.settings.sector_size_in_bytes + j * 128) := by
  obtain ⟨hd, ps, qs, hps, hread, hcreate⟩ := ptool_gpt h
  have himg := gpt_images hs hcreate
  have hlen := (create_gpt_partition_table_shape hcreate).1
  obtain ⟨hdescribed, hstored⟩ := parse_xml_described hd
  obtain ⟨hget, hflat⟩ := physical_partition_spec hps
  have hsub : ps.Sublist d.partitions := by
    rw [hstored] at hflat
    exact hflat.trans List.filter_sublist
  obtain ⟨groups, hgroups, hrel⟩ := forall₂_sublist hdescribed hsub
  refine ⟨groups, ps, hgroups, hrel, hget, ?_, fun j group x hj hx => ⟨?_, fun hpacked => ?_⟩⟩
  · rw [hrel.length_eq, hread.length_eq, hlen]
  · have hjlt := (List.getElem?_eq_some_iff.mp hj).1
    have hjps : j < ps.length := by rw [← hrel.length_eq]; exact hjlt
    have hjqs : j < qs.length := by rw [← hread.length_eq]; exact hjps
    have hp : DescribedBy group ps[j] := by
      have hget := hrel.get hjlt hjps
      rw [List.get_eq_getElem, List.get_eq_getElem] at hget
      rw [List.getElem?_eq_getElem hjlt] at hj
      cases hj
      exact hget
    have hq : to_partition d.settings.sequentialguid ps[j] = .ok qs[j] := hread.get hjps hjqs
    have hslice := himg.stored j qs[j] x (List.getElem?_eq_getElem hjqs) hx
    obtain ⟨type, htype, hentry⟩ := partition_entry_of_group hp hq
      (unique_partition_guid d.settings rand j qs[j]) x
    exact ⟨type, _, htype, hslice.trans hentry⟩
  · exact entry_position_packed hpacked (List.getElem?_eq_some_iff.mp hj).1

/-- What makes a document's tables: settings without boundaries, and partitions that can be
read. -/
def plain_document (d : ParsedDocument) (k : ℕ) : Bool :=
  d.output_to_create = .detected .gpt && d.settings.sector_size_in_bytes = 512 &&
    d.settings.write_protect_boundary_in_kb = 0 && d.settings.performance_boundary_in_kb = 0 &&
    match physical_partition d k >>= List.mapM (to_partition d.settings.sequentialguid) with
    | .error _ => false
    | .ok qs => qs.length ≤ 128 && qs.all fun q =>
      q.performance_boundary_in_kb = 0 && (short_label q).all (·.toNat < 256)

theorem ptool_plain_document {cl : CommandLine} {doc : List DocElement} {d : ParsedDocument}
    (hd : parse_xml cl doc = .ok d) {k : ℕ} (h : plain_document d k = true) (rand : ℕ → ℕ) :
    ∃ out, ptool cl doc k rand = .ok (d, .gpt out) := by
  unfold plain_document at h
  rw [Bool.and_eq_true, Bool.and_eq_true, Bool.and_eq_true, Bool.and_eq_true, decide_eq_true_eq,
    decide_eq_true_eq, decide_eq_true_eq, decide_eq_true_eq] at h
  obtain ⟨⟨⟨⟨hgpt, hsector⟩, hwp⟩, hboundary⟩, hps⟩ := h
  split at hps
  · cases hps
  · next qs hqs =>
    obtain ⟨ps, hphy, hqs⟩ := bind_ok hqs
    rw [Bool.and_eq_true, decide_eq_true_eq, List.all_eq_true] at hps
    obtain ⟨hlen, hall⟩ := hps
    have hq : ∀ q ∈ qs, q.performance_boundary_in_kb = 0 ∧
        (short_label q).all (·.toNat < 256) = true := by
      intro q hq
      have h := hall q hq
      rw [Bool.and_eq_true, decide_eq_true_eq] at h
      exact h
    have husable : SettingsUsable d.settings qs :=
      ⟨fun hpos => by omega, fun hpos => by omega, fun q hmem hpos => by
        rw [(hq q hmem).1] at hpos
        exact absurd hpos (lt_irrefl 0)⟩
    obtain ⟨out, hout⟩ := create_gpt_partition_table_total (by rw [hsector]) k rand husable hlen
      fun q hmem => (hq q hmem).2
    refine ⟨out, ?_⟩
    have heq : d.output_to_create.eq_gpt = true := by
      rw [hgpt]
      rfl
    rw [ptool, hd]
    dsimp only [Except.mapError]
    rw [ok_bind, if_pos heq, gpt_of_document, hphy, ok_bind, hqs, ok_bind, hout]
    rfl

/-- The group of the partition `system` in that document. -/
def system_group : PartitionGroup :=
  (⟨⟨"partition", [("label", "system"), ("size_in_kb", "200"),
    ("type", "8C6B52AD-8A9E-4398-AD09-AE916E53AE2D")]⟩, none⟩,
    [⟨⟨"file", [("name", "system_1.img")]⟩, none⟩,
      ⟨⟨"file", [("name", "system_2.img"), ("offset", "40")]⟩, none⟩])

theorem group_of_system {group : PartitionGroup}
    (h : group ∈ partition_groups two_physical_partitions)
    (hlabel : (last_value group.1.attrib ["label"]).getD "false" = "system") :
    group = system_group := by
  have hall : ∀ g ∈ partition_groups two_physical_partitions,
      (last_value g.1.attrib ["label"]).getD "false" = "system" → g = system_group := by
    decide
  exact hall group h hlabel

/-- The entry of `system` is the first of its table. -/
theorem ptool_gpt_entries_two_physical_partitions :
    ∃ d out x guid, ptool ⟨.undecided, true, false⟩ two_physical_partitions 1 (fun j => j)
        = .ok (d, .gpt out) ∧ out.placed[0]? = some x ∧
      slice out.primary_gpt 1024 128
        = leBytes 16 (validate_guid "8C6B52AD-8A9E-4398-AD09-AE916E53AE2D") ++ leBytes 16 guid
          ++ leBytes 8 x.first_lba ++ leBytes 8 x.last_lba ++ leBytes 8 0
          ++ group_name system_group := by
  have hplain : (parse_xml ⟨.undecided, true, false⟩ two_physical_partitions).map
      (fun d => (plain_document d 1, d.settings.sector_size_in_bytes,
        (dictGet d.phy_partition 1).map fun ps => ps.map RawPartition.label))
      = .ok (true, 512, some ["system", "data"]) := by
    decide +kernel
  obtain ⟨d, hd, heq⟩ := except_map_ok hplain
  rw [Prod.mk.injEq, Prod.mk.injEq] at heq
  obtain ⟨hplain, hsector, hlabels⟩ := heq
  obtain ⟨out, hout⟩ := ptool_plain_document hd hplain fun j => j
  obtain ⟨groups, ps, hsub, hrel, hget, hlen, hentry⟩ := ptool_gpt_entries hout (by rw [hsector])
  -- the first group is that of `system`
  rw [show dictGet d.phy_partition 1 = some ps from hget, Option.map_some,
    Option.some.injEq] at hlabels
  cases hrel with
  | nil => cases hlabels
  | @cons group p groups ps hdesc hrel =>
    obtain ⟨hlabel, -⟩ := List.cons.inj hlabels
    have hgroup : group = system_group :=
      group_of_system (hsub.subset List.mem_cons_self) (hdesc.label.symm.trans hlabel)
    have hpos : 0 < out.placed.length := by
      rw [← hlen]
      exact Nat.succ_pos _
    have hx : out.placed[0]? = some out.placed[0] := List.getElem?_eq_getElem hpos
    obtain ⟨⟨type, guid, htype, hslice⟩, hposition⟩ := hentry 0 group _ rfl hx
    rw [hposition (Or.inl hsector), hsector] at hslice
    have hguid : type = validate_guid "8C6B52AD-8A9E-4398-AD09-AE916E53AE2D" := by
      rw [hgroup] at htype
      exact (Option.some.inj htype).symm
    rw [hgroup, hguid] at hslice
    exact ⟨d, out, _, guid, hout, hx, hslice⟩

end AndroidTools.Ptool
