/-
Straight-line programs of field updates on byte files.

A `FieldOp` writes a little-endian field whose value is a constant or a checksum
of a window of the same file. A list of them is a program without branches, so
two questions have general answers, and this file gives both.

* **What survives a re-run?** A program forgets an earlier run of itself when
  each checksum reads only bytes that are not stale: neither left over from the
  earlier run nor not yet refreshed by this one. `Fresh` is that condition, a
  definite-assignment check over the list, and `runOps_runOps` is the
  conclusion: running `p` after `q` is running `p`, whatever `q` wrote, as long
  as `p` refreshes every byte `q` may have touched.
* **May the files be patched after they are laid out on a larger one?** A file
  placed at `base` is patched there by the shifted program. `runPlaced_sim` is
  the simulation over any number of files with disjoint places, and
  `runPlaced_frame` says nothing else on the larger file moves.

The checksum is a parameter throughout; no property of it is used.
-/
import AndroidTools.Lib.Bytes

set_option autoImplicit false

namespace AndroidTools.FieldPatch

open AndroidTools.Bytes

/-! ## Programs

A program is a list of updates, each of which overwrites one little-endian field, either
with a constant or with a checksum of a window of the file as it is at that moment. Most of
what is needed about it is where bytes stay: an update leaves everything outside its field,
so what the end of a program does not touch is already there when the end begins.
-/

/-- Where a field's new value comes from: a constant, or the checksum of a window of the same
file. -/
inductive Source where
  | const (v : ℤ)
  | checksum (pos len : ℕ)
  deriving Repr, DecidableEq

/-- Write the `width`-byte little-endian field at `dst`. -/
structure FieldOp where
  dst : ℕ
  width : ℕ
  src : Source
  deriving Repr, DecidableEq

section Programs

variable (crc : List UInt8 → ℕ)

/-- The value a source has in the file `f`. -/
def Source.value (f : List UInt8) : Source → ℤ
  | .const v => v
  | .checksum pos len => crc (slice f pos len)

/-- One update: the value of the source is taken from the file as it is, and written to the field.
-/
def FieldOp.apply (f : List UInt8) (op : FieldOp) : List UInt8 :=
  overwrite f op.dst (leBytes op.width (op.src.value crc f))

/-- A whole program, one update after the other. -/
def runOps (ops : List FieldOp) (f : List UInt8) : List UInt8 :=
  ops.foldl (FieldOp.apply crc) f

/-- Byte `i` is read by the source. -/
def Source.Reads (i : ℕ) : Source → Prop
  | .const _ => False
  | .checksum pos len => pos ≤ i ∧ i < pos + len

/-- Byte `i` is written by the update. -/
def FieldOp.Writes (op : FieldOp) (i : ℕ) : Prop := op.dst ≤ i ∧ i < op.dst + op.width

/-- The update stays inside a file of `n` bytes. -/
def FieldOp.InBounds (n : ℕ) (op : FieldOp) : Prop :=
  op.dst + op.width ≤ n ∧
    match op.src with
    | .const _ => True
    | .checksum pos len => pos + len ≤ n

@[simp] theorem runOps_nil (f : List UInt8) : runOps crc [] f = f := rfl

@[simp] theorem runOps_cons (op : FieldOp) (ops : List FieldOp) (f : List UInt8) :
    runOps crc (op :: ops) f = runOps crc ops (op.apply crc f) := rfl

theorem runOps_append (ops ops' : List FieldOp) (f : List UInt8) :
    runOps crc (ops ++ ops') f = runOps crc ops' (runOps crc ops f) :=
  List.foldl_append

theorem FieldOp.length_apply {op : FieldOp} {f : List UInt8} (h : op.InBounds f.length) :
    (op.apply crc f).length = f.length :=
  length_overwrite_of_le (by rw [length_leBytes]; exact h.1)

theorem length_runOps {ops : List FieldOp} {f : List UInt8}
    (h : ∀ op ∈ ops, op.InBounds f.length) : (runOps crc ops f).length = f.length := by
  induction ops generalizing f with
  | nil => rfl
  | cons op ops ih =>
    have hop := FieldOp.length_apply crc (h op (by simp))
    rw [runOps_cons, ih (by rw [hop]; exact fun o ho => h o (by simp [ho])), hop]

/-- An update leaves the bytes it does not write. -/
theorem FieldOp.getElem?_apply_of_not_writes {op : FieldOp} {f : List UInt8}
    (h : op.InBounds f.length) {i : ℕ} (hi : ¬ op.Writes i) :
    (op.apply crc f)[i]? = f[i]? := by
  have hi' : ¬ (op.dst ≤ i ∧ i < op.dst + op.width) := hi
  rw [FieldOp.apply, getElem?_overwrite (by rw [length_leBytes]; exact h.1), length_leBytes,
    if_neg hi']

/-- A program leaves the bytes none of its updates writes. -/
theorem getElem?_runOps_of_not_writes {ops : List FieldOp} {f : List UInt8}
    (h : ∀ op ∈ ops, op.InBounds f.length) {i : ℕ} (hi : ∀ op ∈ ops, ¬ op.Writes i) :
    (runOps crc ops f)[i]? = f[i]? := by
  induction ops generalizing f with
  | nil => rfl
  | cons op ops ih =>
    have hop := FieldOp.length_apply crc (h op (by simp))
    rw [runOps_cons, ih (by rw [hop]; exact fun o ho => h o (by simp [ho]))
      (fun o ho => hi o (by simp [ho])),
      FieldOp.getElem?_apply_of_not_writes crc (h op (by simp)) (hi op (by simp))]

/-- A window no update writes reads the same after the program. -/
theorem slice_runOps_of_disjoint {ops : List FieldOp} {f : List UInt8}
    (h : ∀ op ∈ ops, op.InBounds f.length) {pos len : ℕ}
    (hd : ∀ op ∈ ops, pos + len ≤ op.dst ∨ op.dst + op.width ≤ pos) :
    slice (runOps crc ops f) pos len = slice f pos len := by
  apply slice_congr
  intro i hi
  apply getElem?_runOps_of_not_writes crc h
  intro op hop hw
  have hdisj := hd op hop
  have hlo := hw.1
  have hhi := hw.2
  omega

/-- The field an update writes reads back as the update's value. -/
theorem FieldOp.slice_apply {op : FieldOp} {f : List UInt8} (h : op.InBounds f.length) :
    slice (op.apply crc f) op.dst op.width = leBytes op.width (op.src.value crc f) := by
  have hw := length_leBytes op.width (op.src.value crc f)
  have hs := slice_overwrite_self (d := leBytes op.width (op.src.value crc f))
    (f := f) (by rw [hw]; exact h.1)
  rwa [hw] at hs

/-- An update inside a window, seen through the window: the same field of the window is
overwritten. -/
theorem FieldOp.slice_apply_inside {f : List UInt8} {base p n w : ℕ} {src : Source}
    (hin : p + w ≤ n) (hn : base + n ≤ f.length) :
    slice (FieldOp.apply crc f ⟨base + p, w, src⟩) base n
      = overwrite (slice f base n) p (leBytes w (src.value crc f)) :=
  slice_overwrite_inside (by rw [length_leBytes]; exact hin) hn

/-- An update clear of a window leaves what is read there. -/
theorem FieldOp.slice_apply_apart {f : List UInt8} {op : FieldOp} {pos len : ℕ}
    (h : op.dst + op.width ≤ f.length)
    (hapart : pos + len ≤ op.dst ∨ op.dst + op.width ≤ pos) :
    slice (op.apply crc f) pos len = slice f pos len :=
  slice_overwrite_of_disjoint (by rw [length_leBytes]; exact h)
    (by rw [length_leBytes]; exact hapart)

/-- The field an update writes reads back when the program ends, if no later update
touches it. -/
theorem slice_runOps_at (before : List FieldOp) (op : FieldOp) (after : List FieldOp)
    {f : List UInt8} (h : ∀ o ∈ before ++ op :: after, o.InBounds f.length)
    (hafter : ∀ o ∈ after, op.dst + op.width ≤ o.dst ∨ o.dst + o.width ≤ op.dst) :
    slice (runOps crc (before ++ op :: after) f) op.dst op.width
      = leBytes op.width (op.src.value crc (runOps crc before f)) := by
  have hbefore : (runOps crc before f).length = f.length :=
    length_runOps crc fun o ho => h o (by simp [ho])
  have hop : op.InBounds (runOps crc before f).length := by
    rw [hbefore]
    exact h op (by simp)
  rw [runOps_append, runOps_cons, slice_runOps_of_disjoint crc _ hafter,
    FieldOp.slice_apply crc hop]
  rw [FieldOp.length_apply crc hop, hbefore]
  exact fun o ho => h o (by simp [ho])

/-- What the end of a program does not touch is as the beginning of the program leaves it. -/
theorem slice_runOps_append (before after : List FieldOp) {f : List UInt8}
    (h : ∀ o ∈ before ++ after, o.InBounds f.length) {pos len : ℕ}
    (hafter : ∀ o ∈ after, pos + len ≤ o.dst ∨ o.dst + o.width ≤ pos) :
    slice (runOps crc (before ++ after) f) pos len = slice (runOps crc before f) pos len := by
  have hbefore : (runOps crc before f).length = f.length :=
    length_runOps crc fun o ho => h o (by simp [ho])
  rw [runOps_append, slice_runOps_of_disjoint crc _ hafter]
  rw [hbefore]
  exact fun o ho => h o (by simp [ho])

/-! ## Running a program again

A later run starts from a file that an earlier one has changed. Whether this can be seen
afterwards depends on two things: every byte the earlier run may have written has to be
written again, and no checksum may be taken over a byte that is still to be written. `Fresh`
is the second, update by update; the set of stale bytes shrinks along the program, which is
what the induction follows.
-/

/-- `f` and `g` have the same length and agree off the bytes in `U`. -/
def AgreeOff (U : ℕ → Prop) (f g : List UInt8) : Prop :=
  f.length = g.length ∧ ∀ i, ¬ U i → f[i]? = g[i]?

/-- Each checksum of the program reads no byte that is in `U` and has not been
written by an earlier update. -/
def Fresh : (ℕ → Prop) → List FieldOp → Prop
  | _, [] => True
  | U, op :: ops =>
    (∀ i, op.src.Reads i → ¬ U i) ∧ Fresh (fun i => U i ∧ ¬ op.Writes i) ops

/-- Fewer stale bytes do no harm: a program that is fresh for some bytes is fresh for any part of
them. -/
theorem Fresh.mono {U V : ℕ → Prop} {ops : List FieldOp} (h : Fresh V ops)
    (hUV : ∀ i, U i → V i) : Fresh U ops := by
  induction ops generalizing U V with
  | nil => trivial
  | cons op ops ih =>
    exact ⟨fun i hr hu => h.1 i hr (hUV i hu), ih h.2 fun i hi => ⟨hUV i hi.1, hi.2⟩⟩

/-- Constants read nothing, so only what comes behind them can read something stale. -/
theorem fresh_append {U : ℕ → Prop} {consts ops : List FieldOp}
    (hconst : ∀ op ∈ consts, ∃ v, op.src = .const v)
    (h : Fresh (fun i => U i ∧ ∀ op ∈ consts, ¬ op.Writes i) ops) : Fresh U (consts ++ ops) := by
  induction consts generalizing U with
  | nil => exact h.mono fun i hi => ⟨hi, by simp⟩
  | cons op consts ih =>
    obtain ⟨v, hv⟩ := hconst op (by simp)
    refine ⟨fun i hr => ?_, ih (fun o ho => hconst o (by simp [ho])) (h.mono fun i hi => ?_)⟩
    · rw [hv] at hr
      exact hr.elim
    · exact ⟨hi.1.1, List.forall_mem_cons.mpr ⟨hi.1.2, hi.2⟩⟩

theorem AgreeOff.mono {U V : ℕ → Prop} {f g : List UInt8} (h : AgreeOff U f g)
    (hUV : ∀ i, U i → V i) : AgreeOff V f g :=
  ⟨h.1, fun i hi => h.2 i fun hu => hi (hUV i hu)⟩

theorem AgreeOff.eq {U : ℕ → Prop} {f g : List UInt8} (h : AgreeOff U f g)
    (hU : ∀ i, ¬ U i) : f = g :=
  List.ext_getElem? fun i => h.2 i (hU i)

/-- A source that reads no stale byte has the same value in both files. -/
theorem Source.value_agree {U : ℕ → Prop} {f g : List UInt8} {src : Source}
    (h : AgreeOff U f g) (hr : ∀ i, src.Reads i → ¬ U i) :
    src.value crc f = src.value crc g := by
  cases src with
  | const v => rfl
  | checksum pos len =>
    have hs : slice f pos len = slice g pos len :=
      slice_congr fun i hi => h.2 _ (hr _ ⟨Nat.le_add_right _ _, by omega⟩)
    simp only [Source.value, hs]

/-- One update shrinks the set of bytes on which two files may differ. -/
theorem FieldOp.apply_agree {U : ℕ → Prop} {f g : List UInt8} {op : FieldOp}
    (hb : op.InBounds f.length) (h : AgreeOff U f g) (hr : ∀ i, op.src.Reads i → ¬ U i) :
    AgreeOff (fun i => U i ∧ ¬ op.Writes i) (op.apply crc f) (op.apply crc g) := by
  have hb' : op.InBounds g.length := h.1 ▸ hb
  refine ⟨by rw [FieldOp.length_apply crc hb, FieldOp.length_apply crc hb', h.1], ?_⟩
  intro i hi
  by_cases hw : op.Writes i
  · have hw' : op.dst ≤ i ∧ i < op.dst + op.width := hw
    rw [FieldOp.apply, FieldOp.apply, Source.value_agree crc h hr,
      getElem?_overwrite (by rw [length_leBytes]; exact hb.1),
      getElem?_overwrite (by rw [length_leBytes]; exact hb'.1), length_leBytes,
      if_pos hw', if_pos hw']
  · rw [FieldOp.getElem?_apply_of_not_writes crc hb hw,
      FieldOp.getElem?_apply_of_not_writes crc hb' hw]
    exact h.2 i fun hu => hi ⟨hu, hw⟩

/-- A fresh program makes two files agree on everything it writes. -/
theorem runOps_agree {U : ℕ → Prop} {f g : List UInt8} {ops : List FieldOp}
    (hb : ∀ op ∈ ops, op.InBounds f.length) (h : AgreeOff U f g) (hfresh : Fresh U ops) :
    AgreeOff (fun i => U i ∧ ∀ op ∈ ops, ¬ op.Writes i) (runOps crc ops f)
      (runOps crc ops g) := by
  induction ops generalizing U f g with
  | nil => exact h.mono fun i hu => ⟨hu, by simp⟩
  | cons op ops ih =>
    have hop := FieldOp.length_apply crc (hb op (by simp))
    have hstep := FieldOp.apply_agree crc (hb op (by simp)) h hfresh.1
    refine (ih (by rw [hop]; exact fun o ho => hb o (by simp [ho])) hstep hfresh.2).mono ?_
    rintro i ⟨⟨hu, hw⟩, hrest⟩
    refine ⟨hu, fun o ho => ?_⟩
    rcases List.mem_cons.mp ho with rfl | ho
    · exact hw
    · exact hrest o ho

/-- **A run leaves no trace under a later one.** When every byte `q` may write is
rewritten by `p`, and no checksum of `p` reads such a byte before `p` has
rewritten it, running `p` after `q` is running `p`. -/
theorem runOps_runOps {p q : List FieldOp} {f : List UInt8}
    (hp : ∀ op ∈ p, op.InBounds f.length) (hq : ∀ op ∈ q, op.InBounds f.length)
    (hcover : ∀ i, (∃ op ∈ q, op.Writes i) → ∃ op ∈ p, op.Writes i)
    (hfresh : Fresh (fun i => ∃ op ∈ q, op.Writes i) p) :
    runOps crc p (runOps crc q f) = runOps crc p f := by
  have hlen := length_runOps crc hq
  have hagree : AgreeOff (fun i => ∃ op ∈ q, op.Writes i) (runOps crc q f) f :=
    ⟨hlen, fun i hi => getElem?_runOps_of_not_writes crc hq
      (fun op hop hw => hi ⟨op, hop, hw⟩)⟩
  refine (runOps_agree crc (by rw [hlen]; exact hp) hagree hfresh).eq ?_
  rintro i ⟨hwritten, hnot⟩
  obtain ⟨op, hop, hw⟩ := hcover i hwritten
  exact hnot op hop hw

/-! ## Patching a file where it is placed

Several files are placed in a larger one, each at its base, and an update of one of them is
shifted to its place. `runPlaced_sim` is a simulation: patching the places is placing the
patched files, as long as the places do not overlap. The frame condition, that nothing
outside the places moves, is separate and needs only that the updates stay inside their
files.
-/

/-- The update for the same file placed at `base` of a larger one. -/
def FieldOp.shift (base : ℕ) (op : FieldOp) : FieldOp where
  dst := base + op.dst
  width := op.width
  src := match op.src with
    | .const v => .const v
    | .checksum pos len => .checksum (base + pos) len

/-- A source read through its place on the larger file. -/
theorem Source.value_shift {base n : ℕ} {op : FieldOp} {d : List UInt8}
    (hb : op.InBounds n) :
    (op.shift base).src.value crc d = op.src.value crc (slice d base n) := by
  obtain ⟨dst, width, src⟩ := op
  cases src with
  | const v => rfl
  | checksum pos len =>
    simp only [FieldOp.shift, Source.value]
    rw [slice_slice d base n pos len hb.2]

/-- The shifted update does to the place what the update does to the file. -/
theorem FieldOp.slice_apply_shift {base n : ℕ} {op : FieldOp} {d : List UInt8}
    (hb : op.InBounds n) (hd : base + n ≤ d.length) :
    slice ((op.shift base).apply crc d) base n = op.apply crc (slice d base n) := by
  rw [FieldOp.apply, FieldOp.apply, Source.value_shift crc hb]
  exact slice_overwrite_inside (by rw [length_leBytes]; exact hb.1) hd

/-- The shifted update touches nothing outside the place it was shifted to. -/
theorem FieldOp.getElem?_apply_shift {base n : ℕ} {op : FieldOp} {d : List UInt8}
    (hb : op.InBounds n) (hd : base + n ≤ d.length) {i : ℕ}
    (hi : i < base ∨ base + n ≤ i) : ((op.shift base).apply crc d)[i]? = d[i]? := by
  have hw : (op.shift base).dst + (leBytes (op.shift base).width
      ((op.shift base).src.value crc d)).length ≤ d.length := by
    rw [length_leBytes]
    have := hb.1
    simp only [FieldOp.shift]
    omega
  have hend := hb.1
  rw [FieldOp.apply, getElem?_overwrite hw, if_neg]
  rw [length_leBytes]
  simp only [FieldOp.shift]
  omega

theorem FieldOp.length_apply_shift {base n : ℕ} {op : FieldOp} {d : List UInt8}
    (hb : op.InBounds n) (hd : base + n ≤ d.length) :
    ((op.shift base).apply crc d).length = d.length := by
  refine length_overwrite_of_le ?_
  rw [length_leBytes]
  have := hb.1
  simp only [FieldOp.shift]
  omega

section Placed

variable {ι : Type*} [DecidableEq ι]

/-- Run updates tagged with the file they are for. -/
def runTagged (ops : List (ι × FieldOp)) (files : ι → List UInt8) : ι → List UInt8 :=
  ops.foldl (fun fs op => Function.update fs op.1 (op.2.apply crc (fs op.1))) files

/-- Run the same updates on one file on which file `t` is placed at `base t`. -/
def runPlaced (base : ι → ℕ) (ops : List (ι × FieldOp)) (d : List UInt8) : List UInt8 :=
  ops.foldl (fun d op => (op.2.shift (base op.1)).apply crc d) d

/-- The places of different files do not overlap. -/
def DisjointPlaces (base size : ι → ℕ) : Prop :=
  ∀ s t, s ≠ t → base s + size s ≤ base t ∨ base t + size t ≤ base s

/-- A tagged program runs each file's own updates, in order, on that file. -/
theorem runTagged_apply (ops : List (ι × FieldOp)) (files : ι → List UInt8) (t : ι) :
    runTagged crc ops files t
      = runOps crc ((ops.filter (·.1 = t)).map (·.2)) (files t) := by
  induction ops generalizing files with
  | nil => rfl
  | cons op ops ih =>
    rw [runTagged, List.foldl_cons]
    change runTagged crc ops _ t = _
    rw [ih]
    by_cases h : op.1 = t
    · subst h
      simp
    · rw [List.filter_cons_of_neg (by simpa using h), Function.update_of_ne (Ne.symm h)]

/-- The step of the simulation: one tagged update, seen at the place of `t`. -/
theorem slice_apply_placed {base size : ι → ℕ} (hdisj : DisjointPlaces base size)
    {op : ι × FieldOp} {files : ι → List UInt8} {d : List UInt8}
    (hb : op.2.InBounds (size op.1)) (hd : ∀ t, base t + size t ≤ d.length)
    (hsim : ∀ t, slice d (base t) (size t) = files t) (t : ι) :
    slice ((op.2.shift (base op.1)).apply crc d) (base t) (size t)
      = Function.update files op.1 (op.2.apply crc (files op.1)) t := by
  by_cases h : t = op.1
  · subst h
    rw [Function.update_self, FieldOp.slice_apply_shift crc hb (hd op.1), hsim]
  · rw [Function.update_of_ne h, ← hsim t]
    apply slice_congr
    intro i hi
    apply FieldOp.getElem?_apply_shift crc hb (hd op.1)
    have := hdisj t op.1 h
    omega

/-- **Patching the laid-out files is patching the files.** -/
theorem runPlaced_sim {base size : ι → ℕ} (hdisj : DisjointPlaces base size)
    {ops : List (ι × FieldOp)} {files : ι → List UInt8} {d : List UInt8}
    (hb : ∀ op ∈ ops, op.2.InBounds (size op.1)) (hd : ∀ t, base t + size t ≤ d.length)
    (hsim : ∀ t, slice d (base t) (size t) = files t) (t : ι) :
    slice (runPlaced crc base ops d) (base t) (size t) = runTagged crc ops files t := by
  induction ops generalizing files d with
  | nil => exact hsim t
  | cons op ops ih =>
    have hop := hb op (by simp)
    have hlen := FieldOp.length_apply_shift crc hop (hd op.1)
    exact ih (fun o ho => hb o (by simp [ho])) (by rw [hlen]; exact hd)
      (slice_apply_placed crc hdisj hop hd hsim)

omit [DecidableEq ι] in
/-- No byte outside the places moves, and the length stays. -/
theorem runPlaced_frame {base size : ι → ℕ} {ops : List (ι × FieldOp)} {d : List UInt8}
    (hb : ∀ op ∈ ops, op.2.InBounds (size op.1)) (hd : ∀ t, base t + size t ≤ d.length) :
    (runPlaced crc base ops d).length = d.length ∧
      ∀ i, (∀ t, i < base t ∨ base t + size t ≤ i) →
        (runPlaced crc base ops d)[i]? = d[i]? := by
  induction ops generalizing d with
  | nil => exact ⟨rfl, fun _ _ => rfl⟩
  | cons op ops ih =>
    have hop := hb op (by simp)
    have hlen := FieldOp.length_apply_shift crc hop (hd op.1)
    obtain ⟨ihlen, ihframe⟩ := ih (fun o ho => hb o (by simp [ho])) (by rw [hlen]; exact hd)
    refine ⟨ihlen.trans hlen, fun i hi => ?_⟩
    exact (ihframe i hi).trans (FieldOp.getElem?_apply_shift crc hop (hd op.1) (hi op.1))

end Placed

end Programs

end AndroidTools.FieldPatch
