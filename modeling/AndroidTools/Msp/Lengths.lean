/-
`PerformWrite` by the lengths of the files.

How many bytes are written for an element, and where, depends on the numbers of the element and
on the length of its file, never on what the file holds. So a run can be followed on lengths
alone: a table that gives the length of each file, and a pass that lengthens the target if bytes
are written behind its end. `length_pass` is that pass, and `lengths_of_run` says that it follows
the run of the source step by step.

What this is for are statements about when the writes of a run are where they should be. They
can be made about the elements and the lengths of the files, without a word about the state in
which the loop comes to an element: `Writes` says of an element and a length that the loop comes
to the element, that its file then has that length, and that at least a byte of it is written.
The one file whose length changes on the way is the target, which an element may name as its own
file. The others have the length they have before the run.
-/
import AndroidTools.Msp.Write

set_option autoImplicit false

namespace AndroidTools.Msp

open AndroidTools.Bytes AndroidTools.Writes

/-! ## The table of lengths

Which bytes a run of `PerformWrite` writes depends on the files only through their lengths,
and on the run only through what it has done to them. So the state that matters is a table
of lengths, and a pass changes one entry of it at most, that of the target. `length_pass` is
that step, computed from the numbers of the element.
-/

/-- The length of each file that is there; `none` for one that is not. -/
abbrev Lengths := String → Option ℕ

/-- The lengths of the files of a store. -/
def lengths_of (files : Store) : Lengths := fun name => (files name).map List.length

/-- At least a byte is written for an element whose file has `length` bytes: it has a name, its
offset is in the file, and its start sector is on the disk. -/
structure WritesByte (sector_size disk_size : ℕ) (w : Entry) (length : ℕ) : Prop where
  named : w.filename ≠ ""
  offset : 0 ≤ w.file_sector_offset
  start : 0 ≤ w.start_sector
  on_disk : w.start_sector ≤ ((disk_size / sector_size : ℕ) : ℤ)
  left : (w.file_sector_offset * sector_size).toNat < length

instance (sector_size disk_size : ℕ) (w : Entry) (length : ℕ) :
    Decidable (WritesByte sector_size disk_size w length) :=
  decidable_of_iff (w.filename ≠ "" ∧ 0 ≤ w.file_sector_offset ∧ 0 ≤ w.start_sector ∧
      w.start_sector ≤ ((disk_size / sector_size : ℕ) : ℤ) ∧
      (w.file_sector_offset * sector_size).toNat < length)
    ⟨fun h => ⟨h.1, h.2.1, h.2.2.1, h.2.2.2.1, h.2.2.2.2⟩,
      fun h => ⟨h.named, h.offset, h.start, h.on_disk, h.left⟩⟩

/-- The byte of the disk at which an element is written. -/
def write_position (sector_size : ℕ) (w : Entry) : ℕ := w.start_sector.toNat * sector_size

/-- The byte behind the last one that is written for an element whose file has `length` bytes. -/
def write_end (sector_size : ℕ) (w : Entry) (length : ℕ) : ℕ :=
  write_position sector_size w + written_length sector_size length w

/-- A pass of the loop. The target ends where the bytes of the element do, if it ended before. -/
def length_pass (sector_size disk_size : ℕ) (target : String) (lengths : Lengths) (w : Entry) :
    Lengths :=
  match lengths w.filename, lengths target with
  | some length, some image =>
    if WritesByte sector_size disk_size w length then
      Function.update lengths target (some (max image (write_end sector_size w length)))
    else lengths
  | _, _ => lengths

/-- The lengths when these elements have had their turns, in the order of the list. -/
def lengths_after (sector_size disk_size : ℕ) (target : String) (files : Store)
    (before : List Entry) : Lengths :=
  before.foldl (length_pass sector_size disk_size target) (lengths_of files)

/-- The loop over `l` comes to `w`, whose file then has `length` bytes, and writes at least one
byte of it. The target has to be there, and no element in front of `w` makes the loop leave. -/
structure WritesAt (sector_size disk_size : ℕ) (target : String) (l : List Entry) (files : Store)
    (w : Entry) (length : ℕ) : Prop where
  target_there : (files target).isSome
  reached : ∃ before after, l = before ++ w :: after ∧
    (∀ v ∈ before, ¬ Stops sector_size disk_size files v) ∧
    lengths_after sector_size disk_size target files before w.filename = some length
  writes_byte : WritesByte sector_size disk_size w length

/-! ## The table follows the run

An abstraction of the faithful loop: the lengths of the files after a pass are `length_pass`
of those before it, and so on for a whole run. A file that is not the target keeps its
length, so what a run finds of a file is what was there at its beginning.
-/

section Follow

variable {sector_size disk_size : ℕ} {target : String} {s t : WriteState} {w : Entry}

/-- A pass writes nothing exactly if the numbers and the length say so. -/
theorem writes_byte_iff {file : List UInt8} (hfile : s.files w.filename = some file)
    (htarget : (s.files target).isSome) :
    WritesByte sector_size disk_size w file.length ↔
      ¬ WritesNothing sector_size disk_size target s w := by
  have hthere : s.files target ≠ none := Option.isSome_iff_ne_none.mp htarget
  constructor
  · rintro ⟨hname, hoffset, hstart, hdisk, hleft⟩ (h | h | h | h | h | h)
    · exact hname h
    · exact hthere h
    · omega
    · omega
    · omega
    · have := h file hfile
      omega
  · intro h
    unfold WritesNothing at h
    push Not at h
    obtain ⟨hname, -, hoffset, hstart, hdisk, file', hfile', hleft⟩ := h
    rw [hfile, Option.some.injEq] at hfile'
    rw [← hfile'] at hleft
    exact ⟨hname, hoffset, hstart, hdisk, hleft⟩

/-- **A pass that goes on does to the lengths what `length_pass` says.** -/
theorem lengths_of_pass (hs : 0 < sector_size)
    (hrun : perform_write_one sector_size disk_size target s w = .done t) :
    lengths_of t.files = length_pass sector_size disk_size target (lengths_of s.files) w := by
  by_cases hnothing : WritesNothing sector_size disk_size target s w
  · -- the files stay, and so do the lengths
    have hfiles := (pass_writes_nothing hs hnothing).1
    rw [hrun, Run.state_done] at hfiles
    rw [hfiles, length_pass]
    cases hfile : s.files w.filename with
    | none => simp [lengths_of, hfile]
    | some file =>
      cases himage : s.files target with
      | none => simp [lengths_of, hfile, himage]
      | some image =>
        have hno : ¬ WritesByte sector_size disk_size w file.length := by
          rw [writes_byte_iff hfile (by rw [himage]; rfl)]
          exact not_not_intro hnothing
        simp [lengths_of, hfile, himage, hno]
  · obtain ⟨file, image, bytes, hfile, himage, hbytes, hne, -, -, hwrite⟩ := pass_writes hs hnothing
    obtain rfl := Run.done.inj (hrun.symm.trans hwrite)
    have hbyte : WritesByte sector_size disk_size w file.length :=
      (writes_byte_iff hfile (by rw [himage]; rfl)).mpr hnothing
    have hlength : (overwrite image (write_position sector_size w) bytes).length
        = max image.length (write_end sector_size w file.length) := by
      rw [length_overwrite hne, length_written hbytes, write_end]
    funext name
    rw [length_pass]
    by_cases hname : name = target
    · subst hname
      simp only [lengths_of, hfile, himage, Option.map_some, if_pos hbyte, Function.update_self,
        WriteState.write_target]
      exact congrArg some hlength
    · simp only [lengths_of, hfile, himage, Option.map_some, if_pos hbyte,
        Function.update_of_ne hname, WriteState.write_other hname]

/-- **A run that goes on does to the lengths what its passes do**, one after the other. -/
theorem lengths_of_run (hs : 0 < sector_size) {before : List Entry}
    (hrun : perform_write sector_size disk_size target before s = .done t) :
    lengths_of t.files = lengths_after sector_size disk_size target s.files before := by
  rw [lengths_after]
  induction before generalizing s with
  | nil =>
    obtain rfl := Run.done.inj hrun
    rfl
  | cons v before ih =>
    rw [perform_write, Run.each_cons] at hrun
    obtain ⟨u, hu, hrun⟩ := Run.bind_eq_done.mp hrun
    rw [ih hrun, lengths_of_pass hs hu, List.foldl_cons]

/-- A pass changes the length of the target at most, and no file comes or goes. -/
theorem length_pass_cases (sector_size disk_size : ℕ) (target : String) (lengths : Lengths)
    (v : Entry) :
    length_pass sector_size disk_size target lengths v = lengths ∨
      ∃ image n, lengths target = some image ∧
        length_pass sector_size disk_size target lengths v
          = Function.update lengths target (some n) := by
  rw [length_pass]
  cases lengths v.filename with
  | none => exact .inl rfl
  | some length =>
    cases himage : lengths target with
    | none => exact .inl rfl
    | some image =>
      dsimp only
      split_ifs
      · exact .inr ⟨image, _, rfl, rfl⟩
      · exact .inl rfl

theorem length_pass_other {lengths : Lengths} {name : String} (hname : name ≠ target) (v : Entry) :
    length_pass sector_size disk_size target lengths v name = lengths name := by
  rcases length_pass_cases sector_size disk_size target lengths v with h | ⟨image, n, -, h⟩
  · rw [h]
  · rw [h, Function.update_of_ne hname]

theorem length_pass_isSome (lengths : Lengths) (v : Entry) (name : String) :
    (length_pass sector_size disk_size target lengths v name).isSome = (lengths name).isSome := by
  by_cases hname : name = target
  · subst hname
    rcases length_pass_cases sector_size disk_size name lengths v with h | ⟨image, n, himage, h⟩
    · rw [h]
    · rw [h, Function.update_self, himage, Option.isSome_some, Option.isSome_some]
  · rw [length_pass_other hname]

/-- A run neither creates nor deletes a file, as far as the table goes. -/
theorem lengths_after_isSome (files : Store) (before : List Entry) (name : String) :
    (lengths_after sector_size disk_size target files before name).isSome
      = (files name).isSome := by
  rw [lengths_after]
  induction before using List.reverseRecOn with
  | nil => exact Option.isSome_map
  | append_singleton before v ih =>
    rw [List.foldl_append, List.foldl_cons, List.foldl_nil, length_pass_isSome, ih]

/-- **The file of an element has the length it had before the run**, if it is not the target. -/
theorem lengths_after_other {files : Store} {before : List Entry} {name : String}
    (hname : name ≠ target) :
    lengths_after sector_size disk_size target files before name
      = (files name).map List.length := by
  rw [lengths_after]
  induction before using List.reverseRecOn with
  | nil => rfl
  | append_singleton before v ih =>
    rw [List.foldl_append, List.foldl_cons, List.foldl_nil, length_pass_other hname, ih]

/-! ## The turns that write

Statements about what a run writes are turned into statements about elements and lengths,
which can be checked without running the loop. The conditions of several results are stated
in this form.
-/

/-- The turns of the loop at which a byte is written, in terms of the elements and the lengths. -/
theorem turn_writes_byte_iff (hs : 0 < sector_size) {l : List Entry}
    (hnames : ∀ w ∈ l, w.filename ≠ "") {length : ℕ} :
    (∃ u file, Run.Turn (perform_write_one sector_size disk_size target) l s w u ∧
        ¬ WritesNothing sector_size disk_size target u w ∧ u.files w.filename = some file ∧
        file.length = length) ↔
      WritesAt sector_size disk_size target l s.files w length := by
  have hthere : ∀ before u, Run.each (perform_write_one sector_size disk_size target) before s
      = .done u → (u.files target).isSome = (s.files target).isSome := by
    intro before u hrun
    rw [← @lengths_after_isSome sector_size disk_size target s.files before target,
      ← lengths_of_run hs hrun, lengths_of, Option.isSome_map]
  constructor
  · rintro ⟨u, file, ⟨before, after, rfl, hrun⟩, hsome, hfile, rfl⟩
    have htarget : (u.files target).isSome :=
      Option.isSome_iff_ne_none.mpr fun hnone => hsome (.inr (.inl hnone))
    have htarget' : (s.files target).isSome := (hthere before u hrun) ▸ htarget
    have hnames' : ∀ v ∈ before, v.filename ≠ "" :=
      fun v hv => hnames v (List.mem_append_left _ hv)
    have hbefore := (perform_write_done_iff hs hnames' htarget').mp ⟨u, hrun⟩
    refine ⟨htarget', ⟨before, after, rfl, hbefore, ?_⟩, (writes_byte_iff hfile htarget).mpr hsome⟩
    rw [← lengths_of_run hs hrun, lengths_of, hfile, Option.map_some]
  · rintro ⟨htarget, ⟨before, after, rfl, hbefore, hlength⟩, hbyte⟩
    have hnames' : ∀ v ∈ before, v.filename ≠ "" :=
      fun v hv => hnames v (List.mem_append_left _ hv)
    obtain ⟨u, hrun⟩ := (perform_write_done_iff hs hnames' htarget).mpr hbefore
    rw [← lengths_of_run hs hrun, lengths_of, Option.map_eq_some_iff] at hlength
    obtain ⟨file, hfile, rfl⟩ := hlength
    have htarget' : (u.files target).isSome := (hthere before u hrun).trans htarget
    exact ⟨u, file, ⟨before, after, rfl, hrun⟩, (writes_byte_iff hfile htarget').mp hbyte, hfile,
      rfl⟩

/-- A turn writes from the position of its element to the end that the length gives. -/
theorem turn_writes_iff (hs : 0 < sector_size) {l : List Entry}
    (hnames : ∀ w ∈ l, w.filename ≠ "") {position last : ℕ} :
    TurnWrites sector_size disk_size target l s w position last ↔
      ∃ length, WritesAt sector_size disk_size target l s.files w length ∧
        position = write_position sector_size w ∧ last = write_end sector_size w length := by
  constructor
  · rintro ⟨u, file, hturn, hsome, hfile, hposition, hlast⟩
    refine ⟨file.length, (turn_writes_byte_iff hs hnames).mp ⟨u, file, hturn, hsome, hfile, rfl⟩,
      hposition, ?_⟩
    rw [hlast, hposition, write_end, write_position]
  · rintro ⟨length, hwrites, rfl, rfl⟩
    obtain ⟨u, file, hturn, hsome, hfile, rfl⟩ := (turn_writes_byte_iff hs hnames).mpr hwrites
    exact ⟨u, file, hturn, hsome, hfile, rfl, rfl⟩

/-- **The bytes a run writes, from the elements and the lengths**: those from the position of an
element to its end, for each length with which the loop comes to it. -/
theorem exists_write_at_iff (hs : 0 < sector_size) {l : List Entry}
    (hnames : ∀ w ∈ l, w.filename ≠ "") (hwrites : s.writes = []) {position last : ℕ} :
    (∃ length, WritesAt sector_size disk_size target l s.files w length ∧
        position = write_position sector_size w ∧ last = write_end sector_size w length) ↔
      ∃ v ∈ (perform_write sector_size disk_size target l s).state.writes, v.bytes ≠ [] ∧
        v.element = w ∧ v.position = position ∧ v.last = last := by
  rw [← turn_writes_iff hs hnames]
  exact exists_write_iff hs hwrites

end Follow

/-- Where at least a byte is written the end is behind the position. -/
theorem WritesByte.position_lt {sector_size disk_size : ℕ} (hs : 0 < sector_size) {w : Entry}
    {length : ℕ} (h : WritesByte sector_size disk_size w length) :
    write_position sector_size w < write_end sector_size w length := by
  have hpos : written_length sector_size length w ≠ 0 := by
    rw [Ne, written_length_eq_zero hs, not_le]
    exact h.left
  rw [write_end]
  omega

end AndroidTools.Msp
