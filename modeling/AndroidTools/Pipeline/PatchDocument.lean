/-
Documents of patches.

A document whose elements stand for patches is read, entry for entry, when the numbers in it are
exact as doubles; otherwise the reader rounds them or stops. `run_document` is what `msp.py` then
does with a document that is read: it patches with the entries, after the numbers above 64TB have
been replaced. `performs_of_entries` turns the entries into field updates, so that a run over a
document becomes a run of a program.

Nothing here depends on which patches they are. The documents of GPT and of MBR calls are both
lists of such elements, and each of them is only identified as one.
-/
import AndroidTools.Pipeline.PatchText

set_option autoImplicit false

namespace AndroidTools.Pipeline

open AndroidTools.Crc AndroidTools.FieldPatch AndroidTools.Ptool AndroidTools.Msp

/-! ## Elements

The texts that `UpdatePatch` is called with, each with the number it stands for.
-/

section Elements

variable {st : Settings} {k : ℕ}

@[simp] theorem update_patch_filename (start_sector byte_offset : String) (size_in_bytes : ℕ)
    (value filename what : String) :
    (update_patch st k start_sector byte_offset size_in_bytes value filename what).getD
      "filename" "" = filename := by
  simp [update_patch, XmlElement.getD, XmlElement.get?, List.lookup_cons]

@[simp] theorem update_patch_what (start_sector byte_offset : String) (size_in_bytes : ℕ)
    (value filename what : String) :
    (update_patch st k start_sector byte_offset size_in_bytes value filename what).getD
      "what" "" = what := by
  simp [update_patch, XmlElement.getD, XmlElement.get?, List.lookup_cons]

theorem patch_element {filename start_sector byte_offset text what : String} {sector : Sector}
    {offset width : ℕ} {value : Value} (hstart : SectorText start_sector sector)
    (hoffset : byte_offset = toString offset) (hvalue : ValueText text value) :
    PatchElement st k (update_patch st k start_sector byte_offset width text filename what)
      ⟨filename, sector, offset, width, value⟩ :=
  ⟨start_sector, text, what, hstart, hvalue, by rw [hoffset]⟩

theorem front_text {text : String} {n : ℕ} (h : text = toString n) :
    SectorText text (.front n) := h ▸ .front n

theorem back_text {text : String} {n : ℕ} (h : text = "NUM_DISK_SECTORS-" ++ toString n ++ ".") :
    SectorText text (.back n) := h ▸ .back n

theorem back_value {text : String} {n : ℕ} (h : text = "NUM_DISK_SECTORS-" ++ toString n ++ ".") :
    ValueText text (.sector (.back n)) := .sector (back_text h)

theorem zero_value : ValueText "0" (.sector (.front 0)) := .sector (front_text (by decide))

theorem crc_front_value {front rest : String} {a len : ℕ}
    (hfront : front = "CRC32(" ++ toString a ++ ",") (hrest : rest = toString len ++ ")") :
    ValueText (front ++ rest) (.crc (.front a) len) := by
  rw [hfront, hrest, ← String.append_assoc]
  exact .crc_front a len

theorem crc_back_value {front rest : String} {a len : ℕ}
    (hfront : front = "CRC32(NUM_DISK_SECTORS-" ++ toString a ++ ".,")
    (hrest : rest = toString len ++ ")") :
    ValueText (front ++ rest) (.crc (.back a) len) := by
  rw [hfront, hrest, ← String.append_assoc]
  exact .crc_back a len

/-- Every element that `UpdatePatch` emits is a patch of the call's sector size. -/
theorem update_patch_reads (start_sector byte_offset : String) (size_in_bytes : ℕ)
    (value filename what : String) :
    let e := update_patch st k start_sector byte_offset size_in_bytes value filename what
    e.tag = "patch" ∧ e.attrib ≠ [] ∧
      parse_sector_size (e.getD "SECTOR_SIZE_IN_BYTES" "512") = some st.sector_size_in_bytes := by
  refine ⟨rfl, by simp [update_patch], ?_⟩
  simp only [update_patch, XmlElement.getD, XmlElement.get?, List.lookup_cons, String.reduceBEq,
    Option.getD_some]
  exact parse_sector_size_toString st.sector_size_pos

end Elements

/-! ## Reading the document

A document is read entry by entry, or not at all when one of its numbers cannot be read. The
entries are kept with the elements they come from, in the same order, so filtering and
replacing can be followed on either side.
-/

section Document

variable {st : Settings} {k disk_sectors : ℕ} (hd : 0 < disk_sectors)

include hd

omit hd in
/-- What is on the right of a relation of lists has its partner on the left. -/
theorem exists_left {α β : Type*} {R : α → β → Prop} {l : List α} {m : List β}
    (h : List.Forall₂ R l m) {b : β} (hb : b ∈ m) : ∃ a ∈ l, R a b := by
  induction h with
  | nil => cases hb
  | @cons a c l m hR h ih =>
    rcases List.mem_cons.mp hb with rfl | hb
    · exact ⟨a, by simp, hR⟩
    · obtain ⟨a', ha', hR'⟩ := ih hb
      exact ⟨a', by simp [ha'], hR'⟩

/-- Elements that stand for patches are read as these patches, one by one. -/
theorem entries_of_elements {es : List XmlElement} {entries : List Entry} {qs : List Patch}
    (hparse : List.Forall₂ (fun e p => return_parsed_values
      (disk_sectors * st.sector_size_in_bytes) e = some (p, st.sector_size_in_bytes)) es entries)
    (helements : List.Forall₂ (PatchElement st k) es qs)
    (hsmall : ∀ q ∈ qs, q.Small disk_sectors) :
    List.Forall₂ (fun p q => ∃ what, p = Patch.entry disk_sectors k what q) entries qs := by
  induction hparse generalizing qs with
  | nil =>
    cases helements
    exact .nil
  | cons he hes ih =>
    cases helements with
    | cons hq hqs =>
      refine .cons ?_ (ih hqs fun q hmem => hsmall q (by simp [hmem]))
      obtain ⟨what, hwhat⟩ := parse_element hq hd (hsmall _ (by simp))
      rw [he] at hwhat
      exact ⟨what, (Prod.mk.inj (Option.some.inj hwhat)).1⟩

/-- The document of a call can be read when the numbers in it are exact. -/
theorem entries_exist {es : List XmlElement}
    (helements : ∀ e ∈ es, ∃ q : Patch, q.Small disk_sectors ∧ PatchElement st k e q) :
    ∃ entries, List.Forall₂ (fun e p => return_parsed_values
      (disk_sectors * st.sector_size_in_bytes) e = some (p, st.sector_size_in_bytes))
      es entries := by
  induction es with
  | nil => exact ⟨[], .nil⟩
  | cons e es ih =>
    obtain ⟨q, hsmall, hq⟩ := helements e (by simp)
    obtain ⟨what, hwhat⟩ := parse_element hq hd hsmall
    obtain ⟨entries, hentries⟩ := ih fun e' he' => helements e' (by simp [he'])
    exact ⟨_ :: entries, .cons hwhat hentries⟩

/-- The entries are those that are read from the document, in its order. -/
def ReadAs (st : Settings) (disk_sectors : ℕ) : List XmlElement → List Entry → Prop :=
  List.Forall₂ fun e p => return_parsed_values (disk_sectors * st.sector_size_in_bytes) e
    = some (p, st.sector_size_in_bytes)

/-- A run whose document is read patches with the entries read. -/
theorem run_document {es : List XmlElement} {entries : List Entry}
    (hes : ∀ e ∈ es, e.tag = "patch" ∧ e.attrib ≠ [] ∧
      parse_sector_size (e.getD "SECTOR_SIZE_IN_BYTES" "512") = some st.sector_size_in_bytes)
    (hne : es ≠ []) (hread : ReadAs st disk_sectors es entries) (mode : Patching)
    (target : String) (files : Store) :
    run_patches mode (disk_sectors * st.sector_size_in_bytes) target es files
      = perform_patching mode st.sector_size_in_bytes target (entries.map
          (replace_disk_size (disk_sectors * st.sector_size_in_bytes) st.sector_size_in_bytes))
          files := by
  have hpos : disk_sectors * st.sector_size_in_bytes ≠ 0 :=
    (Nat.mul_pos hd st.sector_size_pos).ne'
  have hparse := (parse_xml_patches hes ⟨512, [], []⟩ _).mpr ⟨entries, hread, rfl⟩
  rw [run_patches, if_neg hpos, hparse]
  simp only [if_neg hne, List.nil_append]

omit hd in
/-- What is read for files, or for the disk, and with the real disk size. -/
theorem filter_read {es : List XmlElement} {entries : List Entry}
    (hread : ReadAs st disk_sectors es entries) (keep : String → Bool) :
    ReadAs st disk_sectors (es.filter fun e => keep (e.getD "filename" ""))
      (entries.filter fun p => keep p.filename) := by
  refine List.rel_filter ?_ hread
  intro e p he
  dsimp only
  rw [return_parsed_values_filename he]

omit hd in
theorem filter_replace (disk_size sector_size : ℕ) (entries : List Entry) (keep : String → Bool) :
    (entries.map (replace_disk_size disk_size sector_size)).filter (fun p => keep p.filename)
      = (entries.filter fun p => keep p.filename).map (replace_disk_size disk_size sector_size) :=
  List.filter_map

omit hd in
/-- Entries of patches that fit perform the updates of the patches. -/
theorem performs_of_entries {φ : Type*} {fields : List φ} {entries : List Entry}
    (patch : φ → Patch) (op : φ → FieldOp) (size : φ → ℕ)
    (hentries : List.Forall₂ (fun p q => ∃ what, p = Patch.entry disk_sectors k what q) entries
      (fields.map patch))
    (hfits : ∀ f ∈ fields, (patch f).Fits disk_sectors st.sector_size_in_bytes (size f) ∧
      (patch f).op disk_sectors st.sector_size_in_bytes = op f) :
    List.Forall₂ (fun p f => p.filename = (patch f).filename ∧
        Performs st.sector_size_in_bytes (size f) p (op f))
      (entries.map
        (replace_disk_size (disk_sectors * st.sector_size_in_bytes) st.sector_size_in_bytes))
      fields := by
  rw [List.forall₂_map_left_iff]
  rw [List.forall₂_map_right_iff] at hentries
  induction hentries with
  | nil => exact .nil
  | @cons p f entries fields hp hentries ih =>
    obtain ⟨what, rfl⟩ := hp
    obtain ⟨hfit, hop⟩ := hfits f (by simp)
    refine .cons ⟨rfl, ?_⟩ (ih fun g hg => hfits g (by simp [hg]))
    rw [← hop]
    exact performs_op st.sector_size_pos hfit

end Document

end AndroidTools.Pipeline
