/-
What `ParseXML` makes of a partition document.

The loop over all elements of the document is compared with a reading of it as groups, each
a partition with the `<file>` elements up to the next one. `DescribedBy` is what a
`Partition` has to do with its group: the last of its attributes of each name, and the five
lists of its files, which are filled alike and are one `FileColumn` each.

`parse_xml_spec` puts together what the loop keeps: one `Partition` for each group, each of
them (those labelled `EXT` apart) in one physical partition and in order, and, unless `-f`
has given the output format, types of one kind that decide it.
-/
import AndroidTools.Ptool.ParseXml

set_option autoImplicit false

namespace AndroidTools.Ptool

open AndroidTools.Dict AndroidTools.Passes AndroidTools.Text

/-! ## The document as groups

The description of a document, without the parser: which elements belong together, which
attribute counts when there are several, and what the five lists of files are. `FileColumn`
is one list with its attributes, its reading and its default, and each of the five is an
instance.
-/

/-- The element is a `<partition>`, a `<primary>` or an `<extended>`. -/
def DocElement.IsPartition (e : DocElement) : Prop :=
  e.tag = "partition" ∨ e.tag = "primary" ∨ e.tag = "extended"

instance (e : DocElement) : Decidable e.IsPartition := inferInstanceAs (Decidable (_ ∨ _ ∨ _))

/-- A partition, and the files behind it up to the next partition. -/
abbrev PartitionGroup := DocElement × List DocElement

/-- The groups with one element more. -/
def add_to_groups (groups : List PartitionGroup) (e : DocElement) : List PartitionGroup :=
  if e.IsPartition then groups ++ [(e, [])]
  else if e.tag = "file" then
    match groups.getLast? with
    | none => groups
    | some (p, files) => set_last groups (p, files ++ [e])
  else groups

def partition_groups (doc : List DocElement) : List PartitionGroup := doc.foldl add_to_groups []

/-- The value of the last attribute with one of the names. -/
def last_value (attrib : List (String × String)) (names : List String) : Option String :=
  (attrib.filter fun a => a.1 ∈ names).getLast?.map Prod.snd

/-- The attributes of a partition that are flags. -/
def flag_attributes : List String := ["readonly", "align", "hidden", "system", "dontautomount"]

/-- What a `type` attribute means: a GUID, or the number of a type. -/
def type_of (value : String) : Option ℕ :=
  if valid_guid_form value then some (validate_guid value) else validate_type_text value

/-- One of the five lists of a partition: the attributes that assign its last entry, what they
make of their value, and the entry that is there without one. -/
structure FileColumn (α : Type) where
  get : FileLists → List α
  attributes : List String
  read : String → α
  absent : α

def filename_column : FileColumn String := ⟨FileLists.filename, ["name", "filename"], id, ""⟩

/-- The text is kept as it is; only the entry without an attribute is a number. -/
def fileoffset_column : FileColumn (Option String) :=
  ⟨FileLists.fileoffset, ["fileoffset"], some, none⟩

def appsbin_column : FileColumn String := ⟨FileLists.appsbin, ["appsbin"], id, "false"⟩

def sparse_column : FileColumn String := ⟨FileLists.sparse, ["sparse"], id, "false"⟩

/-- A document in which `int` does not take the text is not accepted. -/
def filepartitionoffset_column : FileColumn ℤ :=
  ⟨FileLists.filepartitionoffset, ["offset", "filepartitionoffset"],
    fun value => (int_of_text value).getD 0, 0⟩

/-- The five lists of a partition's files, each with the attribute that fills it. -/
inductive IsColumn : {α : Type} → FileColumn α → Prop
  | filename : IsColumn filename_column
  | fileoffset : IsColumn fileoffset_column
  | appsbin : IsColumn appsbin_column
  | sparse : IsColumn sparse_column
  | filepartitionoffset : IsColumn filepartitionoffset_column

/-- What the attributes of an element say about a list. -/
def FileColumn.value {α : Type} (c : FileColumn α) (attrib : List (String × String)) : Option α :=
  (last_value attrib c.attributes).map c.read

/-- The list: the first `<file>` takes the place of the partition's own entry, and each one
leaves an entry without an attribute behind. -/
def FileColumn.entries {α : Type} (c : FileColumn α) (own : α) : List DocElement → List α
  | [] => [own]
  | f :: files => (c.value f.attrib).getD own :: c.entries c.absent files

/-- The last of the entries belongs to no `<file>` unless there is none. -/
theorem FileColumn.length_entries {α : Type} (c : FileColumn α) (own : α)
    (files : List DocElement) : (c.entries own files).length = files.length + 1 := by
  induction files generalizing own with
  | nil => rfl
  | cons f files ih => rw [FileColumn.entries, List.length_cons, ih, List.length_cons]

/-- What a `Partition` has from its group: its label, type and flags from the attributes of the
partition, and its five lists from these and those of the files. -/
structure DescribedBy (group : PartitionGroup) (p : RawPartition) : Prop where
  label : p.label = (last_value group.1.attrib ["label"]).getD "false"
  type : p.type = (last_value group.1.attrib ["type"]).bind type_of
  flags : ∀ flag ∈ flag_attributes,
    dictGet p.others flag = some ((last_value group.1.attrib [flag]).getD "false")
  lists : ∀ {α : Type} {c : FileColumn α}, IsColumn c →
    c.get p.files = c.entries ((c.value group.1.attrib).getD c.absent) group.2

/-- Each of the five lists has one entry more than there are `<file>`s in the group. -/
theorem DescribedBy.length_list {group : PartitionGroup} {p : RawPartition}
    (h : DescribedBy group p) {α : Type} {c : FileColumn α} (hc : IsColumn c) :
    (c.get p.files).length = group.2.length + 1 := by
  rw [h.lists hc, c.length_entries]

/-! ## One attribute

An attribute assigns one field, or the last entry of one list. For the five lists this is
one lemma; what an attribute does to the rest of a partition is `AttributeStep`.
-/

theorem last_value_append (attrib : List (String × String)) (a : String × String)
    (names : List String) :
    last_value (attrib ++ [a]) names
      = if a.1 ∈ names then some a.2 else last_value attrib names := by
  rw [last_value, List.filter_append]
  split_ifs with h
  · rw [List.filter_cons_of_pos (by simpa using h), List.filter_nil, List.getLast?_append,
      List.getLast?_singleton, Option.some_or, Option.map_some]
  · rw [List.filter_cons_of_neg (by simpa using h), List.filter_nil, List.append_nil]
    rfl

theorem FileColumn.value_append {α : Type} (c : FileColumn α) (attrib : List (String × String))
    (a : String × String) :
    c.value (attrib ++ [a]) = if a.1 ∈ c.attributes then some (c.read a.2) else c.value attrib := by
  rw [FileColumn.value, last_value_append]
  split_ifs <;> rfl

theorem last_value_append_one (attrib : List (String × String)) (a : String × String)
    (name : String) :
    last_value (attrib ++ [a]) [name]
      = if a.1 = name then some a.2 else last_value attrib [name] := by
  rw [last_value_append]
  exact if_congr List.mem_singleton rfl rfl

/-- What a file attribute does to each of the five lists. -/
theorem set_file_attribute_spec {files files' : FileLists} {name value : String}
    (h : set_file_attribute files name value = some (.ok files')) {α : Type} {c : FileColumn α}
    (hc : IsColumn c) :
    c.get files' = if name ∈ c.attributes then set_last (c.get files) (c.read value)
      else c.get files := by
  unfold set_file_attribute at h
  split_ifs at h with hname hoffset hplace happsbin hsparse
  · cases h
    rcases hname with rfl | rfl <;> cases hc <;> rfl
  · cases h
    subst hoffset
    cases hc <;> rfl
  · obtain ⟨z, hz, rfl⟩ := except_map_ok (Option.some.inj h)
    have hread : int_of_text value = some z := by
      unfold py_int at hz
      split at hz
      · next hint =>
        cases hz
        exact hint
      · cases hz
    have hcolumn : filepartitionoffset_column.read value = z := by
      change (int_of_text value).getD 0 = z
      rw [hread, Option.getD_some]
    rcases hplace with rfl | rfl <;> cases hc <;> first | rfl | (rw [hcolumn]; rfl)
  · cases h
    subst happsbin
    cases hc <;> rfl
  · cases h
    subst hsparse
    cases hc <;> rfl

/-- An attribute of a file is not one of the others. -/
theorem name_ne_of_file_attribute {files : FileLists} {name value : String}
    {r : Except ParseStop FileLists} (h : set_file_attribute files name value = some r) :
    name ≠ "label" ∧ name ≠ "type" ∧ name ∉ flag_attributes := by
  have hother : ∀ n ∈ "label" :: "type" :: flag_attributes, name ≠ n := by
    intro n hn heq
    subst heq
    have hnone : set_file_attribute files name value = none := by
      revert hn
      simp only [flag_attributes, List.mem_cons, List.not_mem_nil, or_false]
      rintro (rfl | rfl | rfl | rfl | rfl | rfl | rfl) <;> simp [set_file_attribute]
    rw [hnone] at h
    cases h
  exact ⟨hother _ (by simp), hother _ (by simp), fun hin => hother name (by simp [hin]) rfl⟩

/-- The other way round, what is none of them assigns no list. -/
theorem column_attribute_of_none {files : FileLists} {name value : String}
    (h : set_file_attribute files name value = none) {α : Type} {c : FileColumn α}
    (hc : IsColumn c) : name ∉ c.attributes := by
  unfold set_file_attribute at h
  split_ifs at h with hname hoffset hplace happsbin hsparse
  push Not at hname hplace
  cases hc <;>
    simp [filename_column, fileoffset_column, appsbin_column, sparse_column,
      filepartitionoffset_column, hname, hoffset, hplace, happsbin, hsparse]

/-- What one attribute does to a partition and to the output format. -/
structure AttributeStep (o : OutputToCreate) (p : RawPartition) (name value : String)
    (o' : OutputToCreate) (p' : RawPartition) : Prop where
  label : p'.label = if name = "label" then value else p.label
  type : p'.type = if name = "type" then type_of value else p.type
  flags : ∀ flag ∈ flag_attributes, dictGet p'.others flag
    = if name = flag then some value else dictGet p.others flag
  lists : ∀ {α : Type} {c : FileColumn α}, IsColumn c → c.get p'.files
    = if name ∈ c.attributes then set_last (c.get p.files) (c.read value) else c.get p.files
  output : if name = "type" then ∃ t, set_type o value = .ok (o', t) else o' = o

theorem set_type_eq {o o' : OutputToCreate} {value : String} {t : ℕ}
    (h : set_type o value = .ok (o', t)) : type_of value = some t := by
  unfold set_type at h
  unfold type_of
  split_ifs at h with hguid
  · cases h
    rw [if_pos hguid]
  · rw [if_neg hguid]
    split at h
    · next t' ht =>
      cases h
      exact ht
    · cases h

/-- A key on which none of the fields depends changes none of them. -/
theorem AttributeStep.of_kept {o : OutputToCreate} {p p' : RawPartition} {name value : String}
    (hname : name ∉ "label" :: "type" :: flag_attributes)
    (hfile : set_file_attribute p.files name value = none) (hlabel : p'.label = p.label)
    (htype : p'.type = p.type) (hfiles : p'.files = p.files) (hothers : p'.others = p.others) :
    AttributeStep o p name value o p' := by
  rw [List.mem_cons, List.mem_cons] at hname
  push Not at hname
  obtain ⟨hnl, hnt, hflag⟩ := hname
  refine ⟨by rw [if_neg hnl, hlabel], by rw [if_neg hnt, htype], fun flag hin => ?_,
    fun hc => by rw [if_neg (column_attribute_of_none hfile hc), hfiles], by rw [if_neg hnt]⟩
  have hne : name ≠ flag := by
    rintro rfl
    exact hflag hin
  rw [if_neg hne, hothers]

theorem set_attribute_step {o o' : OutputToCreate} {p p' : RawPartition} {name value : String}
    (h : set_attribute (o, p) (name, value) = .ok (o', p')) :
    AttributeStep o p name value o' p' := by
  unfold set_attribute at h
  dsimp only at h
  cases hfile : set_file_attribute p.files name value with
  | some r =>
    obtain ⟨hlabel, htype, hflag⟩ := name_ne_of_file_attribute hfile
    rw [hfile] at h
    cases r with
    | error e => cases h
    | ok files =>
      cases h
      refine ⟨(if_neg hlabel).symm, (if_neg htype).symm, fun flag hin => ?_,
        set_file_attribute_spec hfile, ?_⟩
      · have hne : name ≠ flag := by
          rintro rfl
          exact hflag hin
        rw [if_neg hne]
      · rw [if_neg htype]
  | none =>
    have hlists : ∀ {α : Type} {c : FileColumn α}, IsColumn c → c.get p.files
        = if name ∈ c.attributes then set_last (c.get p.files) (c.read value)
          else c.get p.files :=
      fun hc => (if_neg (column_attribute_of_none hfile hc)).symm
    rw [hfile] at h
    dsimp only at h
    split_ifs at h with hlabel hboundary htype hunique hguid hsize hempty hhalf huguid
    · -- label
      cases h
      subst hlabel
      refine ⟨rfl, rfl, fun flag hin => ?_, hlists, rfl⟩
      have hne : "label" ≠ flag := by
        rintro rfl
        exact absurd hin (by decide)
      rw [if_neg hne]
    · -- performance boundary
      subst hboundary
      obtain ⟨z, -, hz⟩ := except_map_ok h
      cases hz
      exact .of_kept (by decide) hfile rfl rfl rfl rfl
    · -- type
      subst htype
      obtain ⟨⟨o₁, t⟩, hset, hot⟩ := except_map_ok h
      cases hot
      refine ⟨rfl, (set_type_eq hset).symm, fun flag hin => ?_, hlists, ⟨t, hset⟩⟩
      have hne : "type" ≠ flag := by
        rintro rfl
        exact absurd hin (by decide)
      rw [if_neg hne]
    · -- unique GUID
      subst hunique
      cases h
      exact .of_kept (by decide) hfile rfl rfl rfl rfl
    · -- size
      subst hhalf
      obtain ⟨z, -, hz⟩ := except_map_ok h
      cases hz
      exact .of_kept (by decide) hfile rfl rfl rfl rfl
    · -- size in KB
      have hkb := hsize.resolve_left hhalf
      subst hkb
      obtain ⟨z, -, hz⟩ := except_map_ok h
      cases hz
      exact .of_kept (by decide) hfile rfl rfl rfl rfl
    · -- the key of the unique GUID itself
      subst huguid
      cases h
      exact .of_kept (by decide) hfile rfl rfl rfl rfl
    · -- any other key, the flags among them
      cases h
      refine ⟨(if_neg hlabel).symm, (if_neg htype).symm, fun flag hin => ?_, hlists,
        by rw [if_neg htype]⟩
      rw [dictGet_dictSet]
      exact if_congr eq_comm rfl rfl

/-! ## All attributes of an element

Attributes are handled one after the other, so of several for the same field the last one
counts. The types also decide the output format, in the order in which they come.
-/

/-- The `type` attributes of an element. -/
def type_values (attrib : List (String × String)) : List String :=
  (attrib.filter fun a => a.1 = "type").map Prod.snd

/-- What a list of types decides about the format. -/
def decide_types (types : List String) (o : OutputToCreate) : Except ParseStop OutputToCreate :=
  types.foldlM (fun o value => (set_type o value).map Prod.fst) o

theorem decide_types_append {types more : List String} {o o' o'' : OutputToCreate}
    (h : decide_types types o = .ok o') (h' : decide_types more o' = .ok o'') :
    decide_types (types ++ more) o = .ok o'' := by
  rw [decide_types, List.foldlM_append]
  rw [decide_types] at h h'
  rw [h, ok_bind, h']

theorem set_attributes_spec {b : ℤ} {o o' : OutputToCreate} {p' : RawPartition} {e : DocElement}
    (h : e.attrib.foldlM set_attribute (o, new_partition b) = .ok (o', p')) :
    DescribedBy (e, []) p' ∧ decide_types (type_values e.attrib) o = .ok o' := by
  obtain ⟨⟨tag, attrib⟩, text⟩ := e
  dsimp only at h ⊢
  induction attrib using List.reverseRecOn generalizing o' p' with
  | nil =>
    cases h
    refine ⟨⟨rfl, rfl, ?_, fun hc => ?_⟩, rfl⟩
    · simp [flag_attributes, new_partition, dictGet, last_value]
    · cases hc <;> rfl
  | append_singleton attrib a ih =>
    obtain ⟨name, value⟩ := a
    rw [List.foldlM_append] at h
    obtain ⟨⟨o₁, p₁⟩, hfirst, hlast⟩ := bind_ok h
    rw [List.foldlM_cons] at hlast
    obtain ⟨⟨o₂, p₂⟩, hset, hnil⟩ := bind_ok hlast
    cases hnil
    obtain ⟨hdesc, htypes⟩ := ih hfirst
    have hstep := set_attribute_step hset
    refine ⟨⟨?_, ?_, fun flag hin => ?_, fun {α c} hc => ?_⟩, ?_⟩
    · rw [hstep.label, hdesc.label, last_value_append_one]
      split_ifs <;> rfl
    · rw [hstep.type, hdesc.type, last_value_append_one]
      split_ifs <;> rfl
    · rw [hstep.flags flag hin, hdesc.flags flag hin, last_value_append_one]
      split_ifs <;> rfl
    · rw [hstep.lists hc, hdesc.lists hc, c.value_append, FileColumn.entries, FileColumn.entries]
      split_ifs <;> rfl
    · have hout := hstep.output
      rw [type_values, List.filter_append, List.map_append]
      split_ifs at hout with hname
      · obtain ⟨t, ht⟩ := hout
        refine decide_types_append htypes ?_
        rw [List.filter_cons_of_pos (by simpa using hname), List.filter_nil, decide_types,
          List.map_cons, List.foldlM_cons, ht]
        rfl
      · rw [List.filter_cons_of_neg (by simpa using hname), List.filter_nil, List.map_nil,
          List.append_nil, hout]
        exact htypes

/-- After the attributes of a `<file>` each of the five lists ends with what they say about it. -/
theorem set_files_spec {files files' : FileLists} {attrib : List (String × String)}
    (h : attrib.foldlM set_file files = .ok files') {α : Type} {c : FileColumn α}
    (hc : IsColumn c) :
    c.get files' = match c.value attrib with
      | none => c.get files
      | some v => set_last (c.get files) v := by
  induction attrib using List.reverseRecOn generalizing files' with
  | nil =>
    cases h
    rfl
  | append_singleton attrib a ih =>
    obtain ⟨name, value⟩ := a
    rw [List.foldlM_append] at h
    obtain ⟨files₁, hfirst, hlast⟩ := bind_ok h
    rw [List.foldlM_cons] at hlast
    obtain ⟨files₂, hset, hnil⟩ := bind_ok hlast
    cases hnil
    have hlist₁ := ih hfirst
    rw [c.value_append]
    unfold set_file at hset
    dsimp only at hset ⊢
    cases hfile : set_file_attribute files₁ name value with
    | none =>
      rw [hfile] at hset
      cases hset
      rw [if_neg (column_attribute_of_none hfile hc)]
      exact hlist₁
    | some r =>
      rw [hfile, Option.getD_some] at hset
      subst hset
      rw [set_file_attribute_spec hfile hc]
      split_ifs with hin
      · rw [hlist₁]
        cases c.value attrib with
        | none => rfl
        | some v => simp only [set_last, List.dropLast_concat]
      · exact hlist₁

theorem FileColumn.entries_append {α : Type} (c : FileColumn α) (own : α)
    (files : List DocElement) (f : DocElement) :
    c.entries own (files ++ [f])
      = (match c.value f.attrib with
        | none => c.entries own files
        | some v => set_last (c.entries own files) v) ++ [c.absent] := by
  induction files generalizing own with
  | nil =>
    rw [List.nil_append, FileColumn.entries, FileColumn.entries, FileColumn.entries]
    cases c.value f.attrib <;> rfl
  | cons g files ih =>
    rw [List.cons_append, FileColumn.entries, FileColumn.entries, ih]
    have hne : c.entries c.absent files ≠ [] := by
      rw [← List.length_pos_iff, c.length_entries]
      exact Nat.succ_pos _
    cases c.value f.attrib with
    | none => rfl
    | some v =>
      dsimp only
      rw [set_last, set_last, List.dropLast_cons_of_ne_nil hne, List.cons_append, List.cons_append]

/-! ## The loop over the elements

`ParseInvariant` says what holds when a part of the document is done: the partitions are
described by the groups of that part, and are stored in order, once each. Each kind of
element has a lemma for its pass.
-/

/-- The `type` attributes of all partitions of a document. -/
def document_types (doc : List DocElement) : List String :=
  (doc.filter fun e => e.IsPartition).flatMap fun e => type_values e.attrib

/-- The numbers of the partitions that are stored, those labelled `EXT` apart. -/
def stored_ids (partitions : List RawPartition) : List ℕ :=
  (List.range partitions.length).filter fun i =>
    (partitions[i]?.map RawPartition.label) ≠ some "EXT"

/-- The physical partitions in order: those before, and the one being filled. -/
structure Filled (s : ParseState) (front : List (ℤ × List ℕ)) : Prop where
  phy_partition : s.phy_partition = front ++
    if s.partition_collection = [] then []
    else [((s.num_phy_partitions : ℤ) - 1, s.partition_collection)]
  below : ∀ e ∈ front, e.1 < (s.num_phy_partitions : ℤ) - 1 ∧ e.2 ≠ []
  increasing : front.Pairwise fun e e' => e.1 < e'.1

/-- The physical partitions are numbered upwards, the one being filled last. -/
theorem Filled.pairwise_lt {s : ParseState} {front : List (ℤ × List ℕ)} (h : Filled s front) :
    s.phy_partition.Pairwise fun e e' => e.1 < e'.1 := by
  rw [h.phy_partition, List.pairwise_append]
  refine ⟨h.increasing, ?_, fun x hx y hy => ?_⟩
  · split_ifs
    · exact .nil
    · exact List.pairwise_singleton _ _
  · split_ifs at hy
    · cases hy
    · rw [List.mem_singleton] at hy
      subst hy
      exact (h.below x hx).1

/-- They have numbers below their count, and none of them is empty. -/
theorem Filled.lt_and_ne_nil {s : ParseState} {front : List (ℤ × List ℕ)} (h : Filled s front)
    {x : ℤ × List ℕ} (hx : x ∈ s.phy_partition) :
    x.1 < (s.num_phy_partitions : ℤ) ∧ x.2 ≠ [] := by
  rw [h.phy_partition, List.mem_append] at hx
  rcases hx with hx | hx
  · obtain ⟨hlt, hne⟩ := h.below x hx
    exact ⟨by omega, hne⟩
  · split_ifs at hx with hcoll
    · cases hx
    · rw [List.mem_singleton] at hx
      subst hx
      exact ⟨by omega, hcoll⟩

/-- What holds when the elements `doc` are done: the partitions made so far are described by the
groups of these elements, and are stored as they should be. -/
structure ParseInvariant (o : OutputToCreate) (doc : List DocElement) (s : ParseState) : Prop where
  described : List.Forall₂ DescribedBy (partition_groups doc) s.partitions
  types : decide_types (document_types doc) o = .ok s.output_to_create
  stored : s.phy_partition.flatMap Prod.snd = stored_ids s.partitions
  filled : ∃ front, Filled s front
  tags : s.num_phy_partitions = (doc.filter fun e => e.tag = "physical_partition").length

section Step

variable {o : OutputToCreate} {doc : List DocElement} {s s' : ParseState} {e : DocElement}

theorem partition_groups_append (doc : List DocElement) (e : DocElement) :
    partition_groups (doc ++ [e]) = add_to_groups (partition_groups doc) e := by
  rw [partition_groups, List.foldl_append]
  rfl

theorem document_types_append (doc : List DocElement) (e : DocElement) :
    document_types (doc ++ [e])
      = document_types doc ++ if e.IsPartition then type_values e.attrib else [] := by
  rw [document_types, List.filter_append, List.flatMap_append]
  congr 1
  split_ifs with h
  · rw [List.filter_cons_of_pos (by simpa using h), List.filter_nil]
    simp
  · rw [List.filter_cons_of_neg (by simpa using h)]
    rfl

/-- An element of no interest, and one with instructions, leave the groups and the partitions as
they are. -/
theorem ParseInvariant.other (h : ParseInvariant o doc s) (htag : e.tag ≠ "physical_partition")
    (hpart : ¬ e.IsPartition) (hfile : e.tag ≠ "file")
    (instructions : List (String × String)) :
    ParseInvariant o (doc ++ [e]) { s with instructions := instructions } := by
  refine ⟨?_, ?_, h.stored, ?_, ?_⟩
  · rw [partition_groups_append, add_to_groups, if_neg hpart, if_neg hfile]
    exact h.described
  · rw [document_types_append, if_neg hpart, List.append_nil]
    exact h.types
  · obtain ⟨front, hfilled⟩ := h.filled
    exact ⟨front, ⟨hfilled.phy_partition, hfilled.below, hfilled.increasing⟩⟩
  · rw [List.filter_append, List.filter_cons_of_neg (by simpa using htag), List.filter_nil,
      List.append_nil]
    exact h.tags

theorem ParseInvariant.physical_partition (h : ParseInvariant o doc s)
    (htag : e.tag = "physical_partition") (hparse : parse_physical_partition s = .ok s') :
    ParseInvariant o (doc ++ [e]) s' := by
  have hpart : ¬ e.IsPartition := by
    rw [DocElement.IsPartition, htag]
    decide
  have hfile : e.tag ≠ "file" := by
    rw [htag]
    decide
  rw [parse_physical_partition] at hparse
  dsimp only at hparse
  split_ifs at hparse with hempty
  cases hparse
  refine ⟨?_, ?_, h.stored, ?_, ?_⟩
  · rw [partition_groups_append, add_to_groups, if_neg hpart, if_neg hfile]
    exact h.described
  · rw [document_types_append, if_neg hpart, List.append_nil]
    exact h.types
  · obtain ⟨front, hfilled⟩ := h.filled
    refine ⟨s.phy_partition, ⟨by simp, fun x hx => ?_, hfilled.pairwise_lt⟩⟩
    obtain ⟨hlt, hne⟩ := hfilled.lt_and_ne_nil hx
    dsimp only
    exact ⟨by omega, hne⟩
  · rw [List.filter_append, List.filter_cons_of_pos (by simpa using htag), List.filter_nil,
      List.length_append, List.length_singleton, ← h.tags]

theorem parse_partition_cases (h : parse_partition s e = .ok s') :
    ∃ b o' p, e.attrib.foldlM set_attribute (s.output_to_create, new_partition b) = .ok (o', p) ∧
      ((p.label = "EXT" ∧
          s' = { s with output_to_create := o', partitions := s.partitions ++ [p] }) ∨
        (p.label ≠ "EXT" ∧
          s' = { s with
            output_to_create := o'
            partitions := s.partitions ++ [p]
            partition_collection := s.partition_collection ++ [s.partitions.length]
            phy_partition := dictSet s.phy_partition
              ((s.num_phy_partitions : ℤ) - 1,
                s.partition_collection ++ [s.partitions.length]) })) := by
  unfold parse_partition at h
  split_ifs at h with hattrib
  · cases h
  obtain ⟨b, -, h⟩ := bind_ok h
  obtain ⟨⟨o', p⟩, hattr, h⟩ := bind_ok h
  refine ⟨b, o', p, hattr, ?_⟩
  dsimp only at h
  split_ifs at h with hext
  · cases h
    exact .inl ⟨hext, rfl⟩
  · cases h
    refine .inr ⟨hext, ?_⟩
    rw [List.length_append, List.length_singleton, Nat.add_sub_cancel]

theorem stored_ids_congr {partitions partitions' : List RawPartition}
    (h : partitions.map RawPartition.label = partitions'.map RawPartition.label) :
    stored_ids partitions = stored_ids partitions' := by
  have hlen : partitions.length = partitions'.length := by
    rw [← List.length_map (f := RawPartition.label), h, List.length_map]
  rw [stored_ids, stored_ids, hlen]
  simp only [← List.getElem?_map, h]

theorem stored_ids_append (partitions : List RawPartition) (p : RawPartition) :
    stored_ids (partitions ++ [p])
      = stored_ids partitions ++ if p.label = "EXT" then [] else [partitions.length] := by
  rw [stored_ids, List.length_append, List.length_singleton, List.range_succ, List.filter_append]
  congr 1
  · apply List.filter_congr
    intro i hi
    rw [List.getElem?_append_left (List.mem_range.mp hi)]
  · have hlast : (partitions ++ [p])[partitions.length]? = some p := by simp
    split_ifs with hext
    · rw [List.filter_cons_of_neg (by simp [hext]), List.filter_nil]
    · rw [List.filter_cons_of_pos (by simp [hext]), List.filter_nil]

/-- The collection of a physical partition goes under its key again, in its place. -/
theorem Filled.dictSet_collection {front : List (ℤ × List ℕ)} (h : Filled s front)
    (collection : List ℕ) :
    dictSet s.phy_partition ((s.num_phy_partitions : ℤ) - 1, collection)
      = front ++ [((s.num_phy_partitions : ℤ) - 1, collection)] := by
  have hne : ∀ x ∈ front, x.1 ≠ (s.num_phy_partitions : ℤ) - 1 := fun x hx =>
    ne_of_lt (h.below x hx).1
  rw [h.phy_partition]
  split_ifs with hcoll
  · rw [List.append_nil]
    apply dictSet_of_new
    rw [List.mem_map]
    rintro ⟨x, hx, hkey⟩
    exact hne x hx hkey
  · exact dictSet_concat hne _ _

theorem ParseInvariant.partition (h : ParseInvariant o doc s) (hpart : e.IsPartition)
    (hparse : parse_partition s e = .ok s') : ParseInvariant o (doc ++ [e]) s' := by
  have htag : e.tag ≠ "physical_partition" := by
    rcases hpart with htag | htag | htag <;> rw [htag] <;> decide
  obtain ⟨b, o', p, hattr, hcases⟩ := parse_partition_cases hparse
  obtain ⟨hdesc, htypes⟩ := set_attributes_spec hattr
  have hdescribed :
      List.Forall₂ DescribedBy (partition_groups (doc ++ [e])) (s.partitions ++ [p]) := by
    rw [partition_groups_append, add_to_groups, if_pos hpart]
    exact List.rel_append h.described (.cons hdesc .nil)
  have htypes' : decide_types (document_types (doc ++ [e])) o = .ok o' := by
    rw [document_types_append, if_pos hpart]
    exact decide_types_append h.types htypes
  have htags : s.num_phy_partitions
      = ((doc ++ [e]).filter fun e => e.tag = "physical_partition").length := by
    rw [List.filter_append, List.filter_cons_of_neg (by simpa using htag), List.filter_nil,
      List.append_nil]
    exact h.tags
  obtain ⟨front, hfilled⟩ := h.filled
  rcases hcases with ⟨hext, rfl⟩ | ⟨hext, rfl⟩
  · refine ⟨hdescribed, htypes', ?_, ⟨front, ?_⟩, htags⟩
    · dsimp only
      rw [stored_ids_append, if_pos hext, List.append_nil]
      exact h.stored
    · exact ⟨hfilled.phy_partition, hfilled.below, hfilled.increasing⟩
  · have hset := hfilled.dictSet_collection (s.partition_collection ++ [s.partitions.length])
    refine ⟨hdescribed, htypes', ?_, ⟨front, ?_, hfilled.below, hfilled.increasing⟩, htags⟩
    · dsimp only
      have hstored := h.stored
      rw [hfilled.phy_partition, List.flatMap_append] at hstored
      rw [stored_ids_append, if_neg hext, ← hstored, hset, List.flatMap_append, List.append_assoc]
      congr 1
      split_ifs with hcoll
      · rw [hcoll]
        rfl
      · simp
    · dsimp only
      rw [if_neg (List.append_ne_nil_of_right_ne_nil _ (List.cons_ne_nil _ _)), hset]

theorem forall₂_concat {α β : Type} {R : α → β → Prop} {as : List α} {bs : List β} {a : α} {b : β} :
    List.Forall₂ R (as ++ [a]) (bs ++ [b]) ↔ List.Forall₂ R as bs ∧ R a b := by
  rw [← List.forall₂_reverse_iff, List.reverse_append, List.reverse_append, List.reverse_singleton,
    List.reverse_singleton, List.singleton_append, List.singleton_append, List.forall₂_cons,
    List.forall₂_reverse_iff]
  exact and_comm

theorem ParseInvariant.file (h : ParseInvariant o doc s) (hfile : e.tag = "file")
    (hparse : parse_file s e = .ok s') : ParseInvariant o (doc ++ [e]) s' := by
  have hpart : ¬ e.IsPartition := by
    rw [DocElement.IsPartition, hfile]
    decide
  have htag : e.tag ≠ "physical_partition" := by
    rw [hfile]
    decide
  rcases List.eq_nil_or_concat' s.partitions with hnil | ⟨before, p, hlast⟩
  · rw [parse_file, hnil] at hparse
    cases hparse
  rw [parse_file, hlast, List.getLast?_concat] at hparse
  obtain ⟨files, hfiles, hs⟩ := bind_ok hparse
  cases hs
  have hdescribed := h.described
  rw [hlast] at hdescribed
  rcases List.eq_nil_or_concat' (partition_groups doc) with hnil | ⟨groups, ⟨owner, owned⟩, hgroups⟩
  · rw [hnil] at hdescribed
    cases before <;> cases hdescribed
  rw [hgroups, forall₂_concat] at hdescribed
  obtain ⟨hbefore, hdesc⟩ := hdescribed
  refine ⟨?_, ?_, ?_, ?_, ?_⟩
  · rw [partition_groups_append, add_to_groups, if_neg hpart, if_pos hfile, hgroups,
      List.getLast?_concat]
    dsimp only
    rw [set_last, set_last, List.dropLast_concat, List.dropLast_concat, forall₂_concat]
    refine ⟨hbefore, hdesc.label, hdesc.type, hdesc.flags, fun {α c} hc => ?_⟩
    have hnext : c.get (next_file files) = c.get files ++ [c.absent] := by
      cases hc <;> rfl
    rw [c.entries_append, ← hdesc.lists hc, hnext, set_files_spec hfiles hc]
  · rw [document_types_append, if_neg hpart, List.append_nil]
    exact h.types
  · dsimp only
    rw [h.stored]
    apply stored_ids_congr
    rw [hlast, set_last, List.dropLast_concat, List.map_append, List.map_append, List.map_singleton,
      List.map_singleton]
  · obtain ⟨front, hfilled⟩ := h.filled
    exact ⟨front, ⟨hfilled.phy_partition, hfilled.below, hfilled.increasing⟩⟩
  · rw [List.filter_append, List.filter_cons_of_neg (by simpa using htag), List.filter_nil,
      List.append_nil]
    exact h.tags

/-- One pass of the loop keeps the invariant, whatever the element is. -/
theorem ParseInvariant.step (h : ParseInvariant o doc s) (hparse : parse_element s e = .ok s') :
    ParseInvariant o (doc ++ [e]) s' := by
  unfold parse_element at hparse
  split_ifs at hparse with hinst hphys hpart hfile
  · have hnot : e.tag ≠ "physical_partition" ∧ ¬ e.IsPartition ∧ e.tag ≠ "file" := by
      rw [DocElement.IsPartition, hinst]
      decide
    split at hparse
    · cases hparse
    · cases hparse
      exact h.other hnot.1 hnot.2.1 hnot.2.2 _
  · exact h.physical_partition hphys hparse
  · exact h.partition hpart hparse
  · exact h.file hfile hparse
  · cases hparse
    exact h.other hphys hpart hfile _

theorem parse_elements_invariant {doc : List DocElement} {s : ParseState}
    (h : parse_elements doc (initial_state o) = .ok s) : ParseInvariant o doc s := by
  induction doc using List.reverseRecOn generalizing s with
  | nil =>
    cases h
    exact ⟨.nil, rfl, rfl, ⟨[], rfl, by simp, .nil⟩, rfl⟩
  | append_singleton doc e ih =>
    rw [parse_elements, List.foldlM_append] at h
    obtain ⟨s₁, hfirst, h⟩ := bind_ok h
    rw [List.foldlM_cons] at h
    obtain ⟨s₂, hlast, h⟩ := bind_ok h
    cases h
    exact (ih hfirst).step hlast

end Step

/-! ## The keys of `PhyPartition`

The physical partitions are numbered by their tags. A tag that comes while the one before it
is still without partitions ends the program, so the numbers are without a gap, as long as
no partition stands in front of the first tag.
-/

/-- No partition stands in front of the first `<physical_partition>`. -/
def Placed (doc : List DocElement) : Prop :=
  ∀ before e after, doc = before ++ e :: after → e.IsPartition →
    ∃ x ∈ before, x.tag = "physical_partition"

/-- The keys of `PhyPartition` are `0, 1, ...`; only the last tag can be without one. -/
structure Contiguous (s : ParseState) : Prop where
  keys : s.phy_partition.map Prod.fst = (List.range s.phy_partition.length).map Nat.cast
  before : s.num_phy_partitions = 0 → s.phy_partition = [] ∧ s.partition_collection = []
  tags : 0 < s.num_phy_partitions →
    s.num_phy_partitions = s.phy_partition.length + if s.partition_collection = [] then 1 else 0

section Keys

variable {o : OutputToCreate} {s s' : ParseState} {e : DocElement}

theorem Contiguous.physical_partition (h : Contiguous s)
    (hparse : parse_physical_partition s = .ok s') : Contiguous s' := by
  rw [parse_physical_partition] at hparse
  dsimp only at hparse
  split_ifs at hparse with hempty
  cases hparse
  refine ⟨h.keys, fun hzero => absurd hzero (by simp), fun _ => ?_⟩
  dsimp only
  rw [if_pos rfl]
  rcases Nat.eq_zero_or_pos s.num_phy_partitions with hzero | hpos
  · rw [hzero, (h.before hzero).1]
    rfl
  · have htags := h.tags hpos
    push_cast at hempty
    split_ifs at htags with hcoll <;> omega

theorem Contiguous.partition (h : Contiguous s) (hpos : 0 < s.num_phy_partitions)
    {front : List (ℤ × List ℕ)} (hfilled : Filled s front)
    (hparse : parse_partition s e = .ok s') : Contiguous s' := by
  obtain ⟨b, o', p, -, hcases⟩ := parse_partition_cases hparse
  have htags := h.tags hpos
  rcases hcases with ⟨-, rfl⟩ | ⟨-, rfl⟩
  · exact ⟨h.keys, h.before, h.tags⟩
  · have hset := hfilled.dictSet_collection (s.partition_collection ++ [s.partitions.length])
    have hne : s.partition_collection ++ [s.partitions.length] ≠ [] :=
      List.append_ne_nil_of_right_ne_nil _ (List.cons_ne_nil _ _)
    have hphy := hfilled.phy_partition
    refine ⟨?_, fun hzero => absurd hzero hpos.ne', fun _ => ?_⟩
    · dsimp only
      have hkeys := h.keys
      rw [hset, List.map_append, List.map_singleton, List.length_append, List.length_singleton]
      split_ifs at hphy htags with hcoll
      · rw [hphy, List.append_nil] at hkeys htags
        rw [hkeys, List.range_succ, List.map_append, List.map_singleton, htags]
        congr 2
        push_cast
        ring
      · rw [hphy, List.map_append, List.map_singleton, List.length_append,
          List.length_singleton] at hkeys
        exact hkeys
    · dsimp only
      rw [if_neg hne, hset, List.length_append, List.length_singleton]
      split_ifs at hphy htags with hcoll
      · rw [htags, hphy, List.append_nil]
      · rw [htags, hphy, List.length_append, List.length_singleton]

theorem Contiguous.step (h : Contiguous s) {doc : List DocElement} (hinv : ParseInvariant o doc s)
    (hpos : e.IsPartition → 0 < s.num_phy_partitions) (hparse : parse_element s e = .ok s') :
    Contiguous s' := by
  unfold parse_element at hparse
  split_ifs at hparse with hinst hphys hpart hfile
  · split at hparse
    · cases hparse
    · cases hparse
      exact ⟨h.keys, h.before, h.tags⟩
  · exact h.physical_partition hparse
  · obtain ⟨front, hfilled⟩ := hinv.filled
    exact h.partition (hpos hpart) hfilled hparse
  · rw [parse_file] at hparse
    split at hparse
    · cases hparse
    · obtain ⟨files, -, hs⟩ := bind_ok hparse
      cases hs
      exact ⟨h.keys, h.before, h.tags⟩
  · cases hparse
    exact h

theorem parse_elements_contiguous {doc : List DocElement} (hplaced : Placed doc)
    (h : parse_elements doc (initial_state o) = .ok s) : Contiguous s := by
  induction doc using List.reverseRecOn generalizing s with
  | nil =>
    cases h
    exact ⟨rfl, fun _ => ⟨rfl, rfl⟩, fun hpos => absurd hpos (lt_irrefl 0)⟩
  | append_singleton doc e ih =>
    have hdoc := h
    rw [parse_elements, List.foldlM_append] at h
    obtain ⟨s₁, hfirst, h⟩ := bind_ok h
    rw [List.foldlM_cons] at h
    obtain ⟨s₂, hlast, h⟩ := bind_ok h
    cases h
    have hplaced' : Placed doc := by
      intro before x after heq
      exact hplaced before x (after ++ [e]) (by rw [heq]; simp)
    have hinv := parse_elements_invariant hfirst
    refine (ih hplaced' hfirst).step hinv (fun hpart => ?_) hlast
    obtain ⟨x, hx, hxtag⟩ := hplaced doc e [] rfl hpart
    rw [hinv.tags, List.length_pos_iff_exists_mem]
    exact ⟨x, List.mem_filter.mpr ⟨hx, by simpa using hxtag⟩⟩

end Keys

/-! ## The types

A format given with `-f` is not changed. Otherwise the first type decides it, and any later
type has to be of the same kind.
-/

/-- A format from `-f` is compared with no type, so no type changes it. -/
theorem decide_types_given {types : List String} {format : OutputFormat} {o : OutputToCreate}
    (h : decide_types types (.given format) = .ok o) : o = .given format := by
  induction types using List.reverseRecOn generalizing o with
  | nil =>
    cases h
    rfl
  | append_singleton types value ih =>
    rw [decide_types, List.foldlM_append] at h
    obtain ⟨o₁, hfirst, h⟩ := bind_ok h
    rw [List.foldlM_cons] at h
    obtain ⟨o₂, hlast, h⟩ := bind_ok h
    cases h
    obtain rfl := ih hfirst
    obtain ⟨⟨o₃, t⟩, hset, ho⟩ := except_map_ok hlast
    cases ho
    unfold set_type at hset
    split_ifs at hset
    · cases hset
      rfl
    · split at hset
      · cases hset
        rfl
      · cases hset

/-- The types of a document without `-f`: none, GUIDs only, or bytes only. -/
inductive OneKind (types : List String) : OutputToCreate → Prop
  | none (h : types = []) : OneKind types .undecided
  | gpt (hne : types ≠ []) (h : ∀ value ∈ types, valid_guid_form value = true) :
    OneKind types (.detected .gpt)
  | mbr (hne : types ≠ [])
    (h : ∀ value ∈ types, valid_guid_form value = false ∧ (validate_type_text value).isSome) :
    OneKind types (.detected .mbr)

theorem decide_types_kind {types : List String} {o : OutputToCreate}
    (h : decide_types types .undecided = .ok o) : OneKind types o := by
  induction types using List.reverseRecOn generalizing o with
  | nil =>
    cases h
    exact .none rfl
  | append_singleton types value ih =>
    rw [decide_types, List.foldlM_append] at h
    obtain ⟨o₁, hfirst, h⟩ := bind_ok h
    rw [List.foldlM_cons] at h
    obtain ⟨o₂, hlast, h⟩ := bind_ok h
    cases h
    obtain ⟨⟨o₃, t⟩, hset, ho⟩ := except_map_ok hlast
    cases ho
    have hne : types ++ [value] ≠ [] := List.append_ne_nil_of_right_ne_nil _ (List.cons_ne_nil _ _)
    have hkind := ih hfirst
    unfold set_type at hset
    split_ifs at hset with hguid hmbr hgpt
    · cases hkind with
      | none hnil =>
        cases hset
        subst hnil
        exact .gpt hne (by simpa using hguid)
      | gpt _ hall =>
        cases hset
        refine .gpt hne fun v hv => ?_
        rcases List.mem_append.mp hv with hv | hv
        · exact hall v hv
        · rw [List.mem_singleton.mp hv]
          exact hguid
      | mbr => exact absurd rfl hmbr
    · split at hset
      · next type htype =>
        have hsome : valid_guid_form value = false ∧ (validate_type_text value).isSome :=
          ⟨by simpa using hguid, by rw [htype]; rfl⟩
        cases hkind with
        | none hnil =>
          cases hset
          subst hnil
          exact .mbr hne (by simpa using hsome)
        | gpt => exact absurd rfl hgpt
        | mbr _ hall =>
          cases hset
          refine .mbr hne fun v hv => ?_
          rcases List.mem_append.mp hv with hv | hv
          · exact hall v hv
          · rw [List.mem_singleton.mp hv]
            exact hsome
      · cases hset

/-! ## The result

What the loop has kept, read off at the end of the document.
-/

theorem mem_stored_ids_lt {partitions : List RawPartition} {i : ℕ} (h : i ∈ stored_ids partitions) :
    i < partitions.length := List.mem_range.mp (List.mem_filter.mp h).1

theorem collected_stored_ids (partitions : List RawPartition) :
    collected partitions (stored_ids partitions)
      = partitions.filter fun p => p.label ≠ "EXT" := by
  induction partitions using List.reverseRecOn with
  | nil => rfl
  | append_singleton partitions p ih =>
    have hold : collected (partitions ++ [p]) (stored_ids partitions)
        = collected partitions (stored_ids partitions) := by
      apply List.filterMap_congr
      intro i hi
      exact List.getElem?_append_left (mem_stored_ids_lt hi)
    rw [stored_ids_append, collected, List.filterMap_append, ← collected, hold, ih,
      List.filter_append]
    congr 1
    split_ifs with hext
    · rw [List.filter_cons_of_neg (by simpa using hext)]
      rfl
    · rw [List.filter_cons_of_pos (by simpa using hext)]
      simp

/-- The two parts of the result that the tables are followed back to. -/
theorem parse_xml_described {cl : CommandLine} {doc : List DocElement} {d : ParsedDocument}
    (h : parse_xml cl doc = .ok d) :
    List.Forall₂ DescribedBy (partition_groups doc) d.partitions ∧
      d.phy_partition.flatMap Prod.snd = d.partitions.filter fun p => p.label ≠ "EXT" := by
  rw [parse_xml] at h
  obtain ⟨s, hs, h⟩ := bind_ok h
  obtain ⟨settings, -, h⟩ := bind_ok h
  obtain ⟨min_sectors, -, h⟩ := bind_ok h
  cases h
  have hinv := parse_elements_invariant hs
  refine ⟨hinv.described, ?_⟩
  dsimp only
  rw [← collected_stored_ids, ← hinv.stored, collected, List.filterMap_flatMap, List.flatMap_map]
  rfl

/-- **What a document is parsed to.** Every group is one partition, with its five lists; the
partitions are stored once and in order, apart from those labelled `EXT`; the physical
partitions are in order, none is empty, and they are numbered from 0 when none of them is
missing its tag. The format of `-f` stays; without it all types are of the kind of the table
that is made. -/
theorem parse_xml_spec {cl : CommandLine} {doc : List DocElement} {d : ParsedDocument}
    (h : parse_xml cl doc = .ok d) :
    List.Forall₂ DescribedBy (partition_groups doc) d.partitions ∧
      d.phy_partition.flatMap Prod.snd = (d.partitions.filter fun p => p.label ≠ "EXT") ∧
      d.phy_partition.Pairwise (fun e e' => e.1 < e'.1) ∧ (∀ e ∈ d.phy_partition, e.2 ≠ []) ∧
      (Placed doc →
        d.phy_partition.map Prod.fst = (List.range d.phy_partition.length).map Nat.cast) ∧
      (cl.output_to_create = .undecided → OneKind (document_types doc) d.output_to_create) ∧
      ∀ format, cl.output_to_create = .given format → d.output_to_create = .given format := by
  obtain ⟨hdescribed, hstored⟩ := parse_xml_described h
  rw [parse_xml] at h
  obtain ⟨s, hs, h⟩ := bind_ok h
  obtain ⟨settings, -, h⟩ := bind_ok h
  obtain ⟨min_sectors, -, h⟩ := bind_ok h
  cases h
  have hinv := parse_elements_invariant hs
  obtain ⟨front, hfilled⟩ := hinv.filled
  have hphy := hfilled.phy_partition
  refine ⟨hdescribed, hstored, ?_, ?_, fun hplaced => ?_, fun hundecided => ?_,
    fun format hgiven => ?_⟩
  · dsimp only
    rw [List.pairwise_map]
    exact hfilled.pairwise_lt
  · dsimp only
    rw [List.forall_mem_map]
    intro x hx hnil
    have hne : x.2 ≠ [] := (hfilled.lt_and_ne_nil hx).2
    obtain ⟨i, hi⟩ := List.exists_mem_of_ne_nil _ hne
    have hstored : i ∈ stored_ids s.partitions := by
      rw [← hinv.stored]
      exact List.mem_flatMap.mpr ⟨x, hx, hi⟩
    have hnone := List.filterMap_eq_nil_iff.mp hnil i hi
    rw [List.getElem?_eq_none_iff] at hnone
    exact absurd (mem_stored_ids_lt hstored) (by omega)
  · dsimp only
    rw [List.map_map, List.length_map]
    exact (parse_elements_contiguous hplaced hs).keys
  · have htypes := hinv.types
    rw [hundecided] at htypes
    exact decide_types_kind htypes
  · have htypes := hinv.types
    rw [hgiven] at htypes
    exact decide_types_given htypes

/-- Two physical partitions, the second one of three partitions with two files and a label
`EXT`. -/
def two_physical_partitions : List DocElement := [
  ⟨⟨"configuration", []⟩, none⟩,
  ⟨⟨"parser_instructions", []⟩,
    some "\n WRITE_PROTECT_BOUNDARY_IN_KB = 0\n GROW_LAST_PARTITION_TO_FILL_DISK\t=\tfalse\n"⟩,
  ⟨⟨"physical_partition", []⟩, none⟩,
  ⟨⟨"partition", [("label", "SBL1"), ("size_in_kb", "100"), ("readonly", "true"),
    ("type", "DEA0BA2C-CBDD-4805-B4F9-F428251C3E98"), ("filename", "sbl1.mbn")]⟩, none⟩,
  ⟨⟨"physical_partition", []⟩, none⟩,
  ⟨⟨"partition", [("label", "system"), ("size_in_kb", "200"),
    ("type", "8C6B52AD-8A9E-4398-AD09-AE916E53AE2D")]⟩, none⟩,
  ⟨⟨"file", [("name", "system_1.img")]⟩, none⟩,
  ⟨⟨"file", [("name", "system_2.img"), ("offset", "40")]⟩, none⟩,
  ⟨⟨"extended", [("label", "EXT")]⟩, none⟩,
  ⟨⟨"partition", [("label", "data"), ("type", "0x0123456789abcdef0123456789ABCDEF")]⟩, none⟩]

theorem two_physical_partitions_parsed :
    ∃ d, parse_xml ⟨.undecided, true, false⟩ two_physical_partitions = .ok d ∧
      d.phy_partition.map (fun e => (e.1, e.2.map fun p => (p.label, p.files.filename)))
        = [(0, [("SBL1", ["sbl1.mbn"])]),
          (1, [("system", ["system_1.img", "system_2.img", ""]), ("data", [""])])] := by
  have hok : (parse_xml ⟨.undecided, true, false⟩ two_physical_partitions).map
      (fun d => d.phy_partition.map fun e => (e.1, e.2.map fun p => (p.label, p.files.filename)))
      = .ok [(0, [("SBL1", ["sbl1.mbn"])]),
          (1, [("system", ["system_1.img", "system_2.img", ""]), ("data", [""])])] := by
    decide +kernel
  exact except_map_ok hok

theorem parse_xml_two_physical_partitions :
    ∃ d, parse_xml ⟨.undecided, true, false⟩ two_physical_partitions = .ok d ∧
      List.Forall₂ DescribedBy (partition_groups two_physical_partitions) d.partitions ∧
      d.phy_partition.map Prod.fst = [0, 1] ∧
      OneKind (document_types two_physical_partitions) d.output_to_create := by
  obtain ⟨d, hd, hphy⟩ := two_physical_partitions_parsed
  obtain ⟨hdescribed, -, -, -, hkeys, htypes, -⟩ := parse_xml_spec hd
  have hlen : d.phy_partition.length = 2 := by
    have hlen := congrArg List.length hphy
    rw [List.length_map] at hlen
    exact hlen
  refine ⟨d, hd, hdescribed, ?_, htypes rfl⟩
  rw [hkeys, hlen]
  · decide
  · -- the first tag of interest is that of a physical partition
    intro before e after heq hpart
    rcases before with _ | ⟨a, _ | ⟨b, _ | ⟨x, before⟩⟩⟩
    · cases heq
      exact absurd hpart (by decide)
    · cases heq
      exact absurd hpart (by decide)
    · cases heq
      exact absurd hpart (by decide)
    · refine ⟨x, by simp, ?_⟩
      have hx : two_physical_partitions[2]? = some x := by
        rw [heq]
        rfl
      cases hx
      rfl

end AndroidTools.Ptool
