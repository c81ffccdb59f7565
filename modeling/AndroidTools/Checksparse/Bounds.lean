/-
Where the elements go that stand for a sparse image.

`main` hands `genfile` the start sector of the element and nothing else: how many sectors the
partition has is never looked at, and each copy gets the size of its chunk file in its place. So
the copies stay inside the partition exactly if the RAW chunks of the image do
(`stays_inside_iff`). `PerformWrite` cuts a file that is larger than its partition; it cannot do
so here, since the copies no longer say how large that is.

The proof has two parts. `genfile`'s results are read off the runs of the image, whose last sector
`runs_end_iff` compares with the partition. That these results stand in the place of the element
when the loop has ended is an invariant of the loop, `InPlace`, which a turn for the element
brings about and every other turn keeps.
-/
import AndroidTools.Checksparse.Expansion
import AndroidTools.Checksparse.LiveList
import AndroidTools.Lib.Skip

set_option autoImplicit false

namespace AndroidTools.Checksparse

open Bytes Msp Text Skip

/-! ## `genfile` on the files that are found

The loop of `main` takes the answers of `genfile` as a parameter. Here they become those of
`genfile` itself, on the files that `find_file` finds for the elements, and the condition on
a file is `EndsWithin`, which looks at the chunks of the image and at no result.
-/

/-- A file as `find_file` finds it: its name in two parts, and its content. -/
structure ImageFile where
  file_name : String
  file_ext : String
  content : List UInt8
  deriving DecidableEq, Repr

/-- `int(xml_element.attrib[name])`. -/
def int_attrib (e : XmlElement) (name : String) : Option ℤ := (e.get? name).bind int_of_text

/-- `genfile(filename, int(xml_element.attrib['start_sector']), output_path)`, where these
files are found for the elements. -/
def genfile_answers (files : NodeId → Option ImageFile) : Answers := fun id e =>
  match files id, int_attrib e "start_sector" with
  | some f, some start =>
    (genfile f.file_name f.file_ext f.content start fun _ => none).map Output.results
  | _, _ => .error .raised

/-- The first sector of an element, and the first one after it. -/
def sector_range (e : XmlElement) : Option (ℤ × ℤ) :=
  (int_attrib e "start_sector").bind fun start =>
    (int_attrib e "num_partition_sectors").map fun num => (start, start + num)

/-- What has been put in the place of child `i` covers no sector that `e` does not cover. -/
def StaysInside (t : LoopState) (i : ℕ) (e : XmlElement) : Prop :=
  ∀ m ∈ t.children, (∃ k, m.id = .copy (.child i) k) →
    ∃ r r', sector_range m.element = some r ∧ sector_range e = some r' ∧
      Set.Ico r.1 r.2 ⊆ Set.Ico r'.1 r'.2

/-- Every RAW chunk that is not empty ends within the first `n` sectors of the image. -/
def Image.EndsWithin (i : Image) (n : ℤ) : Prop :=
  ∀ a c b, i.chunks = a ++ c :: b → c.IsRaw → 0 < c.sectors i.header →
    (((a ++ [c]).map (Chunk.sectors i.header)).sum : ℕ) ≤ n

/-! ## Runs

A run of RAW chunks ends where its last chunk ends, so a bound on the ends of the chunks
with data is one on the ends of the runs, and the other way round.
-/

/-- **The runs end where the last RAW chunk with data ends.** -/
theorem runs_end_iff (i : Image) (s n : ℤ) :
    (∀ r ∈ (Runs.of i s).runs, 0 < r.sectors i.header →
        r.start + (r.sectors i.header : ℕ) ≤ s + n) ↔ i.EndsWithin n := by
  obtain ⟨h, chunks⟩ := i
  rw [Image.EndsWithin]
  dsimp only
  -- the induction is on the last chunk, which a run takes in or not
  induction chunks using List.reverseRecOn with
  | nil => simp [Runs.of, Runs.start]
  | append_singleton done c ih =>
    have hplaced := placed_of ⟨h, done⟩ s
    dsimp only at hplaced
    rw [@forall_split_concat _ done c fun a c => c.IsRaw → 0 < c.sectors h →
      (((a ++ [c]).map (Chunk.sectors h)).sum : ℕ) ≤ n, ← ih]
    have hof : Runs.of ⟨h, done ++ [c]⟩ s = (Runs.of ⟨h, done⟩ s).add h c := by
      rw [Runs.of, List.foldl_append]
      rfl
    have hsum : (((done ++ [c]).map (Chunk.sectors h)).sum : ℕ)
        = (done.map (Chunk.sectors h)).sum + c.sectors h := by simp
    have hsector := hplaced.sector
    rw [hof, hsum]
    generalize Runs.of ⟨h, done⟩ s = st at hplaced hsector ⊢
    have hopen : st.is_open = true → st.runs ≠ [] := by
      intro ho
      obtain ⟨init, r, -, hinit, -⟩ := hplaced.is_open ho
      simp [hinit]
    rcases add_cases h st c hopen with ⟨hraw, hruns⟩ | ⟨hraw, -, hruns⟩
      | ⟨hraw, hgoes, init, r, hinit, hruns⟩
    · -- no run changes
      rw [hruns]
      exact ⟨fun hall => ⟨hall, fun hr => absurd hr hraw⟩, And.left⟩
    · -- the chunk is a run of its own
      have hone : SparseRun.sectors h ⟨st.sector, [c]⟩ = c.sectors h := by simp [SparseRun.sectors]
      rw [hruns, List.forall_mem_append, List.forall_mem_singleton, hone]
      refine and_congr_right fun _ => ⟨fun hend _ hc => ?_, fun hend hc => ?_⟩
      · have := hend hc
        dsimp only at this
        omega
      · have := hend hraw hc
        dsimp only
        omega
    · -- the last run ends where the chunk ends
      obtain ⟨init', r', -, hinit', hlast, -⟩ := hplaced.is_open hgoes
      obtain ⟨rfl, hr⟩ := List.append_inj' (hinit'.symm.trans hinit) rfl
      obtain rfl : r' = r := (List.cons.inj hr).1
      rw [hruns, hinit, List.forall_mem_append, List.forall_mem_singleton, List.forall_mem_append,
        List.forall_mem_singleton, sectors_concat, and_assoc]
      refine and_congr_right fun _ => ?_
      dsimp only
      constructor
      · intro hend
        refine ⟨fun hpos => ?_, fun _ hc => ?_⟩
        · have := hend (by omega)
          push_cast at this
          omega
        · have := hend (by omega)
          push_cast at this
          omega
      · rintro ⟨hrun, hchunk⟩ hpos
        rcases Nat.eq_zero_or_pos (c.sectors h) with hzero | hc
        · have := hrun (by omega)
          push_cast
          omega
        · have := hchunk hraw hc
          push_cast
          omega

/-! ## What is put in place of an element

`InPlace` follows one marked child through the turns of the loop: until its turn it stands
where it stood, and from then on its results stand in its place. The later turns only touch
marked nodes, and the copies are not marked any more, so nothing takes them away.
-/

section InPlace

variable {genfile : Answers} {s s' t : LoopState} {j : ℕ} {n m : Node}

/-- What is new after a turn is the element itself, edited, or one of the copies that are put in
its place. -/
theorem Turn.mem (h : Turn genfile s j n s') (hm : m ∈ s'.children) :
    m ∈ s.children ∨ n.Marked ∧ ∃ e, without_sparse n.element = some e ∧
      (m = ⟨n.id, e⟩ ∨ ∃ results, genfile n.id e = .ok results ∧ m ∈ new_nodes n.id e results) := by
  cases h with
  | other => exact Or.inl hm
  | rejected e hn he hanswer =>
    rcases List.mem_or_eq_of_mem_set hm with hm | rfl
    · exact Or.inl hm
    · exact Or.inr ⟨hn, e, he, Or.inl rfl⟩
  | accepted e results hn he hanswer =>
    have hm := List.mem_of_mem_eraseP hm
    have hm : m ∈ s.children.set j ⟨n.id, e⟩ ∨ m ∈ new_nodes n.id e results := by
      rw [← List.take_append_drop s.position (s.children.set j ⟨n.id, e⟩)]
      simp only [List.mem_append] at hm ⊢
      tauto
    rcases hm with hm | hm
    · rcases List.mem_or_eq_of_mem_set hm with hm | rfl
      · exact Or.inl hm
      · exact Or.inr ⟨hn, e, he, Or.inl rfl⟩
    · exact Or.inr ⟨hn, e, he, Or.inr ⟨results, hanswer, hm⟩⟩

/-- A turn takes away no node but the marked one it is about. -/
theorem Turn.mem_kept (hj : s.children[j]? = some n) (h : Turn genfile s j n s')
    (hm : m ∈ s.children) (hne : n.Marked → m.id ≠ n.id) : m ∈ s'.children := by
  obtain ⟨hlt, rfl⟩ := List.getElem?_eq_some_iff.mp hj
  have hset : ∀ e, m.id ≠ s.children[j].id → m ∈ s.children.set j e := by
    intro e hid
    obtain ⟨k, hk, rfl⟩ := List.getElem_of_mem hm
    have hkj : j ≠ k := by
      rintro rfl
      exact hid rfl
    exact List.mem_iff_getElem.mpr ⟨k, by simpa using hk, by rw [List.getElem_set_of_ne hkj]⟩
  cases h with
  | other => exact hm
  | rejected e hn => exact hset _ (hne hn)
  | accepted e results hn =>
    have hid := hne hn
    refine (List.mem_eraseP_of_neg (by simpa using hid)).mpr ?_
    have hin := hset ⟨s.children[j].id, e⟩ hid
    rw [← List.take_append_drop s.position (s.children.set j _)] at hin
    simp only [List.mem_append] at hin ⊢
    tauto

/-- The results stand for child `i`, which was read as `e`, once `genfile` has been called
for it. -/
structure InPlace (i : ℕ) (e : XmlElement) (results : List Result) (s : LoopState) : Prop where
  source : ∀ m ∈ s.children, m.id = .child i → m.Marked → m.element = e
  copies : ∀ m ∈ s.children, (∃ k, m.id = .copy (.child i) k) →
    ∃ e', without_sparse e = some e' ∧ m ∈ new_nodes (.child i) e' results
  present : .child i ∈ s.calls →
    ∃ e', without_sparse e = some e' ∧ ∀ m ∈ new_nodes (.child i) e' results, m ∈ s.children

variable {i : ℕ} {e : XmlElement} {results : List Result}

theorem not_marked_of_new_nodes {e' : XmlElement} (he : without_sparse e = some e')
    (hm : m ∈ new_nodes (.child i) e' results) : ¬ m.Marked :=
  @new_nodes_not_marked ⟨.child i, e⟩ e' he results m hm

theorem eq_of_new_call {calls : List NodeId} {id id' : NodeId} (hbefore : id ∉ calls)
    (h : id ∈ calls ++ [id']) : id' = id := by
  rcases List.mem_append.mp h with h | h
  · exact absurd h hbefore
  · exact (List.mem_singleton.mp h).symm

/-- **A turn** keeps the copies that are in place, and makes those of the element it is about. -/
theorem InPlace.turn
    (hanswer : ∀ e', without_sparse e = some e' → genfile (.child i) e' = .ok results)
    (hj : s.children[j]? = some n) (hturn : Turn genfile s j n s') (hs : InPlace i e results s) :
    InPlace i e results s' := by
  have hn := List.mem_of_getElem? hj
  -- a copy is not marked, so the turn is not at one
  have hcopy : n.Marked → ∀ k, n.id ≠ .copy (.child i) k := by
    intro hmarked k hid
    obtain ⟨e', he', hnew⟩ := hs.copies n hn ⟨k, hid⟩
    exact not_marked_of_new_nodes he' hnew hmarked
  refine ⟨fun m hm hid hmarked => ?_, ?_, fun hcalls => ?_⟩
  · rcases hturn.mem hm with hm | ⟨hnmarked, e', he', rfl | ⟨results', -, hnew⟩⟩
    · exact hs.source m hm hid hmarked
    · exact absurd hmarked (not_marked_of_found (found_sparse_edited hnmarked he'))
    · obtain ⟨k, result, rfl⟩ := mem_new_nodes hnew
      cases hid
  · rintro m hm ⟨k, hid⟩
    rcases hturn.mem hm with hm | ⟨hnmarked, e', he', rfl | ⟨results', hok, hnew⟩⟩
    · exact hs.copies m hm ⟨k, hid⟩
    · exact absurd hid (hcopy hnmarked k)
    · obtain ⟨k', result, rfl⟩ := mem_new_nodes hnew
      obtain ⟨hsource, rfl⟩ := NodeId.copy.inj hid
      rw [hs.source n hn hsource hnmarked] at he'
      rw [hsource] at hok hnew
      obtain rfl : results = results' := Except.ok.inj ((hanswer e' he').symm.trans hok)
      rw [hsource]
      exact ⟨e', he', hnew⟩
  · by_cases hbefore : .child i ∈ s.calls
    · obtain ⟨e', he', hall⟩ := hs.present hbefore
      refine ⟨e', he', fun m hm => hturn.mem_kept hj (hall m hm) fun hmarked hid => ?_⟩
      obtain ⟨k, result, rfl⟩ := mem_new_nodes hm
      exact hcopy hmarked k hid.symm
    · cases hturn with
      | other => exact absurd hcalls hbefore
      | rejected e' hmarked he' hrejected =>
        have hid := eq_of_new_call hbefore hcalls
        rw [hs.source n hn hid hmarked] at he'
        rw [hid, hanswer e' he'] at hrejected
        cases hrejected
      | accepted e' results' hmarked he' hok =>
        have hid := eq_of_new_call hbefore hcalls
        rw [hs.source n hn hid hmarked] at he'
        rw [hid] at hok
        obtain rfl : results = results' := Except.ok.inj ((hanswer e' he').symm.trans hok)
        refine ⟨e', he', fun m hm => ?_⟩
        obtain ⟨k, result, rfl⟩ := mem_new_nodes hm
        refine (List.mem_eraseP_of_neg (by simp [hid])).mpr ?_
        rw [hid]
        exact List.mem_append_left _ (List.mem_append_right _ hm)

/-- **At the end of the loop** the results of an element stand in its place. -/
theorem in_place_of_main_loop {children : List XmlElement}
    (hanswer : ∀ e', without_sparse e = some e' → genfile (.child i) e' = .ok results)
    (hi : children[i]? = some e) (h : main_loop genfile children = some t) :
    InPlace i e results t := by
  refine replace_invariant (fun s j n s' hj hturn => InPlace.turn hanswer hj hturn) ?_ h
  -- at the start a node is one of the two comments or a child in its place
  have hstart : ∀ m ∈ comments ++ child_nodes children,
      (∃ k, m.id = .comment k) ∨ ∃ k, children[k]? = some m.element ∧ m.id = .child k := by
    intro m hm
    rcases List.mem_append.mp hm with hm | hm
    · rcases List.mem_pair.mp hm with rfl | rfl
      · exact Or.inl ⟨0, rfl⟩
      · exact Or.inl ⟨1, rfl⟩
    · obtain ⟨k, hk, rfl⟩ := List.mem_mapIdx.mp hm
      exact Or.inr ⟨k, List.getElem?_eq_getElem hk, rfl⟩
  refine ⟨fun m hm hid _ => ?_, ?_, fun hcalls => absurd hcalls List.not_mem_nil⟩
  · rcases hstart m hm with ⟨k, hk⟩ | ⟨k, hk, hchild⟩
    · rw [hid] at hk
      cases hk
    · obtain rfl : i = k := NodeId.child.inj (hid.symm.trans hchild)
      exact Option.some.inj (hk.symm.trans hi)
  · rintro m hm ⟨k, hid⟩
    rcases hstart m hm with ⟨k', hk⟩ | ⟨k', -, hk⟩ <;>
      · rw [hid] at hk
        cases hk

end InPlace

/-! ## Staying inside

For a sound image the results are the runs of its RAW chunks, from the start sector of the
element on. What stands in the list in the end therefore covers the sectors of the runs, and
these are inside the partition exactly if the chunks are.
-/

/-- The results of `genfile` for a sound image. -/
def image_results (f : ImageFile) (i : Image) (start : ℤ) : List Result :=
  (Runs.of i start).runs.mapIdx (run_result i.header f.file_name f.file_ext)

theorem genfile_answers_sound {files : NodeId → Option ImageFile} {id : NodeId} {f : ImageFile}
    {i : Image} {e : XmlElement} {start : ℤ} (hf : files id = some f)
    (hread : read_image f.content = some i) (hsound : i.Sound)
    (hstart : int_attrib e "start_sector" = some start) :
    genfile_answers files id e = .ok (image_results f i start) := by
  rcases genfile_ok_iff f.file_name f.file_ext f.content start fun _ => none with
    ⟨i', hread', -, out, hok, hout⟩ | ⟨hno, -⟩
  · obtain rfl : i = i' := Option.some.inj (hread.symm.trans hread')
    rw [genfile_answers, hf, hstart]
    dsimp only
    rw [hok, image_results, ← hout.results]
    rfl
  · exact absurd hsound (hno i hread)

/-- The range of a copy is that of its result. -/
theorem sector_range_new_element (e : XmlElement) (result : Result) :
    sector_range (new_element e result)
      = some (result.start_sector, result.start_sector + (result.num_partition_sectors : ℕ)) := by
  rw [sector_range, int_attrib, int_attrib, new_element, XmlElement.get?_set_self,
    XmlElement.get?_set_of_ne _ _ (by decide), XmlElement.get?_set_self, Option.bind_some,
    Option.bind_some, int_of_text_toString_int, int_of_text_toString]
  rfl

/-- The copies stay inside the partition exactly if the runs of the image end in time. -/
theorem InPlace.inside_iff {t : LoopState} {i : ℕ} {e : XmlElement} {s n : ℤ} {f : ImageFile}
    {image : Image} (hplace : InPlace i e (image_results f image s) t)
    (hcalled : .child i ∈ t.calls) (hrange : sector_range e = some (s, s + n)) :
    StaysInside t i e ↔ ∀ r ∈ (Runs.of image s).runs, 0 < r.sectors image.header →
      r.start + (r.sectors image.header : ℕ) ≤ s + n := by
  obtain ⟨e', he', hpresent⟩ := hplace.present hcalled
  constructor
  · intro hinside r hr hpos
    obtain ⟨k, hk⟩ := List.mem_iff_getElem?.mp hr
    have hnew : Node.mk (.copy (.child i) k) (new_element e'
        (run_result image.header f.file_name f.file_ext k r)) ∈
          new_nodes (.child i) e' (image_results f image s) :=
      List.mem_iff_getElem?.mpr ⟨k, by simp [new_nodes, image_results, hk]⟩
    obtain ⟨p, q, hp, hq, hsub⟩ := hinside _ (hpresent _ hnew) ⟨k, rfl⟩
    rw [sector_range_new_element] at hp
    obtain rfl := Option.some.inj hp
    obtain rfl := Option.some.inj (hrange.symm.trans hq)
    dsimp only [run_result] at hsub
    exact ((Set.Ico_subset_Ico_iff (by omega)).mp hsub).2
  · rintro hend m hm hcopy
    obtain ⟨e'', he'', hnew⟩ := hplace.copies m hm hcopy
    obtain ⟨k, hk, rfl⟩ := List.mem_mapIdx.mp hnew
    refine ⟨_, _, sector_range_new_element _ _, hrange, ?_⟩
    rw [image_results, List.length_mapIdx] at hk
    simp only [image_results, List.getElem_mapIdx, run_result]
    have hr := List.getElem_mem hk
    rcases Nat.eq_zero_or_pos ((Runs.of image s).runs[k].sectors image.header) with hzero | hpos
    · -- a run of empty chunks covers nothing
      rw [hzero, Nat.cast_zero, add_zero, Set.Ico_self]
      exact Set.empty_subset _
    · exact Set.Ico_subset_Ico ((placed_of image s).within _ hr).1 (hend _ hr hpos)

theorem sound_of_genfile {f : ImageFile} {image : Image} {s : ℤ} {store : Store} {out : Output}
    (hread : read_image f.content = some image)
    (hgenfile : genfile f.file_name f.file_ext f.content s store = .ok out) : image.Sound := by
  rcases genfile_ok_iff f.file_name f.file_ext f.content s store with
    ⟨image', hread', hsound, -⟩ | ⟨-, stop, herr⟩
  · obtain rfl : image = image' := Option.some.inj (hread.symm.trans hread')
    exact hsound
  · rw [hgenfile] at herr
    cases herr

/-- An element with a sound image is handed to `genfile` with its start sector, so the results for
that sector stand in its place at the end. -/
theorem in_place_of_sound {files : NodeId → Option ImageFile} {children : List XmlElement}
    {t : LoopState} {i : ℕ} {e : XmlElement} {s n : ℤ} {f : ImageFile} {image : Image}
    (h : main_loop (genfile_answers files) children = some t) (hi : children[i]? = some e)
    (hrange : sector_range e = some (s, s + n)) (hf : files (.child i) = some f)
    (hread : read_image f.content = some image) (hsound : image.Sound) :
    InPlace i e (image_results f image s) t := by
  have hstart : int_attrib e "start_sector" = some s := by
    obtain ⟨start, hstart, hmap⟩ := Option.bind_eq_some_iff.mp hrange
    obtain ⟨num, -, hpair⟩ := Option.map_eq_some_iff.mp hmap
    rw [hstart, (Prod.mk.inj hpair).1]
  refine in_place_of_main_loop (fun e' he' => genfile_answers_sound hf hread hsound ?_) hi h
  rw [int_attrib, (get?_without_sparse he').2.2.2]
  exact hstart

/-- **Unsparsing stays inside the partition exactly if the RAW chunks do.** The condition is on
the image alone: every RAW chunk that is not empty ends within the sectors of the partition. -/
theorem stays_inside_iff {files : NodeId → Option ImageFile} {children : List XmlElement}
    {t : LoopState} {i : ℕ} {e : XmlElement} {s n : ℤ} {f : ImageFile} {image : Image}
    {out : Output} (h : main_loop (genfile_answers files) children = some t)
    (hi : children[i]? = some e) (hcalled : .child i ∈ t.calls)
    (hrange : sector_range e = some (s, s + n))
    (hf : files (.child i) = some f) (hread : read_image f.content = some image)
    (hgenfile : genfile f.file_name f.file_ext f.content s (fun _ => none) = .ok out) :
    StaysInside t i e ↔ image.EndsWithin n := by
  have hplace := in_place_of_sound h hi hrange hf hread (sound_of_genfile hread hgenfile)
  rw [hplace.inside_iff hcalled hrange, runs_end_iff]

/-! ## An image that is larger than its partition

One image of two blocks, in a partition of eight sectors and in one of a single sector. The
first run shows that the hypotheses can be met, the second that the partition's size is
never looked at.
-/

/-- A sparse image of two RAW blocks of 512 bytes, which become one chunk file of two sectors. -/
def two_raw_blocks : Image :=
  ⟨⟨SPARSE_HEADER_MAGIC, 1, 0, 28, 12, 512, 2, 1, 0⟩,
    [⟨⟨CHUNK_TYPE_RAW, 0, 2, 1036⟩, List.replicate 1024 7⟩]⟩

def two_raw_blocks_file : ImageFile where
  file_name := "system"
  file_ext := ".img"
  content :=
    leBytes 4 SPARSE_HEADER_MAGIC ++ leBytes 2 1 ++ leBytes 2 0 ++ leBytes 2 28 ++ leBytes 2 12
      ++ leBytes 4 512 ++ leBytes 4 2 ++ leBytes 4 1 ++ leBytes 4 0
      ++ leBytes 2 CHUNK_TYPE_RAW ++ leBytes 2 0 ++ leBytes 4 2 ++ leBytes 4 1036
      ++ List.replicate 1024 7

theorem two_raw_blocks_sound : two_raw_blocks.Sound where
  magic := rfl
  major_version := rfl
  chunks := by
    rw [two_raw_blocks, List.forall_mem_singleton]
    exact ⟨Or.inl ⟨rfl, rfl⟩, rfl⟩
  total_blks := rfl

theorem two_raw_blocks_read : read_image two_raw_blocks_file.content = some two_raw_blocks := by
  decide +kernel

/-- A `<program>` of `num` sectors from sector 40 on. -/
def sparse_program_of (num : String) : XmlElement :=
  ⟨"program", [("filename", "system.img"), ("num_partition_sectors", num), ("size_in_KB", "4"),
    ("sparse", "true"), ("start_sector", "40")]⟩

/-- Every element's file is the one of two blocks. -/
def two_raw_blocks_found : NodeId → Option ImageFile := fun _ => some two_raw_blocks_file

theorem two_raw_blocks_answers :
    genfile_answers two_raw_blocks_found = fun _ e =>
      match int_attrib e "start_sector" with
      | some start => .ok (image_results two_raw_blocks_file two_raw_blocks start)
      | none => .error .raised := by
  funext id e
  cases hstart : int_attrib e "start_sector" with
  | none => rw [genfile_answers, hstart]; rfl
  | some start => exact genfile_answers_sound rfl two_raw_blocks_read two_raw_blocks_sound hstart

/-- The loop ends, and the element is gone through `genfile`. -/
theorem two_raw_blocks_run (num : String) (hnum : num = "1" ∨ num = "8") :
    ∃ t out, main_loop (genfile_answers two_raw_blocks_found) [sparse_program_of num] = some t ∧
      .child 0 ∈ t.calls ∧
      genfile two_raw_blocks_file.file_name two_raw_blocks_file.file_ext two_raw_blocks_file.content
        40 (fun _ => none) = .ok out := by
  have hrun : (turns (genfile_answers two_raw_blocks_found) 5 0
      ⟨comments ++ child_nodes [sparse_program_of num], 1, 0, []⟩).any
        (fun t => .child 0 ∈ t.calls) = true := by
    rw [two_raw_blocks_answers]
    rcases hnum with rfl | rfl <;> decide +kernel
  obtain ⟨t, ht, hcalled⟩ := (Option.any_eq_true _ _).mp hrun
  rcases genfile_ok_iff two_raw_blocks_file.file_name two_raw_blocks_file.file_ext
    two_raw_blocks_file.content 40 fun _ => none with ⟨i, -, -, out, hout, -⟩ | ⟨hno, -⟩
  · exact ⟨t, out, replace_of_turns ht, of_decide_eq_true hcalled, hout⟩
  · exact absurd two_raw_blocks_sound (hno _ two_raw_blocks_read)

/-- In a partition of eight sectors the two blocks stay inside. -/
theorem stays_inside_iff_eight :
    ∃ t, main_loop (genfile_answers two_raw_blocks_found) [sparse_program_of "8"] = some t ∧
      (StaysInside t 0 (sparse_program_of "8") ↔ two_raw_blocks.EndsWithin 8) := by
  obtain ⟨t, out, hrun, hcalled, hout⟩ := two_raw_blocks_run "8" (Or.inr rfl)
  have hrange : sector_range (sparse_program_of "8") = some (40, 40 + 8) := by decide +kernel
  exact ⟨t, hrun, stays_inside_iff hrun rfl hcalled hrange rfl two_raw_blocks_read hout⟩

/-- The chunk file goes over the sector after a partition of one sector. -/
theorem not_stays_inside_one :
    ∃ t, main_loop (genfile_answers two_raw_blocks_found) [sparse_program_of "1"] = some t ∧
      .child 0 ∈ t.calls ∧ ¬ StaysInside t 0 (sparse_program_of "1") := by
  obtain ⟨t, out, hrun, hcalled, -⟩ := two_raw_blocks_run "1" (Or.inl rfl)
  have hrange : sector_range (sparse_program_of "1") = some (40, 40 + 1) := by decide +kernel
  have hplace := in_place_of_sound (i := 0) hrun rfl hrange rfl two_raw_blocks_read
    two_raw_blocks_sound
  refine ⟨t, hrun, hcalled, fun hinside => ?_⟩
  have hend := (hplace.inside_iff hcalled hrange).mp hinside ⟨40, two_raw_blocks.chunks⟩
    (List.mem_singleton.mpr rfl) (by decide)
  exact absurd hend (by decide)

end AndroidTools.Checksparse
