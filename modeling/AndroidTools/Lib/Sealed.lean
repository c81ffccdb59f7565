/-
Sealed headers.

A header holds fields, a checksum of a body stored elsewhere in the file, and a checksum of
itself. The order in which a program must bring it up to date is fixed: the fields, the checksum
of the body, then zeros where the header's own checksum goes, then that checksum. `Seal` is the
last three steps.

A program of constants followed by a seal leaves every field at its value (`sealed_field`), the
body's checksum right (`sealed_body`) and the header's own checksum right (`sealed_header`); and
it leaves no trace of an earlier program for the same fields (`sealed_rerun`), because a seal
reads nothing that the program has not refreshed.
-/
import AndroidTools.Lib.FieldPatch

set_option autoImplicit false

namespace AndroidTools.FieldPatch

open AndroidTools.Bytes

/-- Where a header keeps its two checksums, of `width` bytes each. -/
structure Seal where
  body : ℕ
  body_length : ℕ
  body_field : ℕ
  header : ℕ
  header_length : ℕ
  own_field : ℕ
  width : ℕ

/-- The steps that seal a header, in the order they must have: the checksum of the body, zeros for
the header's own checksum, and that checksum. -/
def Seal.ops (s : Seal) : List FieldOp :=
  [⟨s.body_field, s.width, .checksum s.body s.body_length⟩,
    ⟨s.own_field, s.width, .const 0⟩,
    ⟨s.own_field, s.width, .checksum s.header s.header_length⟩]

/-- The bytes `[p, p + n)` and `[q, q + m)` do not meet. -/
def Apart (p n q m : ℕ) : Prop := p + n ≤ q ∨ q + m ≤ p

/-- The checksums lie outside the body and do not overlap. -/
structure Seal.Proper (s : Seal) : Prop where
  body_body : Apart s.body s.body_length s.body_field s.width
  body_own : Apart s.body s.body_length s.own_field s.width
  body_field_own : Apart s.body_field s.width s.own_field s.width

/-- An update of a field: it writes a constant, clear of the two checksums. -/
structure Seal.Field (s : Seal) (op : FieldOp) : Prop where
  const : ∃ v, op.src = .const v
  body_field : Apart op.dst op.width s.body_field s.width
  own_field : Apart op.dst op.width s.own_field s.width

section Sealed

variable (crc : List UInt8 → ℕ) {s : Seal} {fields : List FieldOp} {f : List UInt8}

/-- The header with zeros where its own checksum goes, which is what that checksum is of. -/
def Seal.zeroed (s : Seal) (f : List UInt8) : List UInt8 :=
  slice (overwrite f s.own_field (leBytes s.width 0)) s.header s.header_length

/-- After a sealed program the body's checksum is the checksum of the body as the program leaves
it. -/
theorem sealed_body (hs : s.Proper) (h : ∀ o ∈ fields ++ s.ops, o.InBounds f.length) :
    slice (runOps crc (fields ++ s.ops) f) s.body_field s.width
      = leBytes s.width
          (crc (slice (runOps crc (fields ++ s.ops) f) s.body s.body_length)) := by
  have hread := slice_runOps_at crc fields ⟨s.body_field, s.width, .checksum s.body s.body_length⟩
    [⟨s.own_field, s.width, .const 0⟩,
      ⟨s.own_field, s.width, .checksum s.header s.header_length⟩] h (by
      have hown := hs.body_field_own
      simp only [List.forall_mem_cons, List.not_mem_nil, false_implies, implies_true, and_true]
      exact ⟨hown, hown⟩)
  have hbody : slice (runOps crc (fields ++ s.ops) f) s.body s.body_length
      = slice (runOps crc fields f) s.body s.body_length := by
    refine slice_runOps_append crc fields s.ops h ?_
    have hfield := hs.body_body
    have hown := hs.body_own
    simp only [Seal.ops, List.forall_mem_cons, List.not_mem_nil, false_implies, implies_true,
      and_true]
    exact ⟨hfield, hown, hown⟩
  rw [hbody]
  exact hread

/-- After a sealed program the header's own checksum is that of the header with zeros in its
place. -/
theorem sealed_header (h : ∀ o ∈ fields ++ s.ops, o.InBounds f.length) :
    slice (runOps crc (fields ++ s.ops) f) s.own_field s.width
      = leBytes s.width (crc (s.zeroed (runOps crc (fields ++ s.ops) f))) := by
  -- the file before the last step, and with zeros in the field
  set g := runOps crc (fields ++ [⟨s.body_field, s.width, .checksum s.body s.body_length⟩]) f
    with hg
  set z := overwrite g s.own_field (leBytes s.width 0) with hz
  have hall : runOps crc (fields ++ s.ops) f = overwrite z s.own_field
      (leBytes s.width (crc (slice z s.header s.header_length))) := by
    rw [Seal.ops, runOps_append, runOps_cons, runOps_cons, runOps_cons, runOps_nil, hz, hg,
      runOps_append, runOps_cons, runOps_nil]
    rfl
  have hglen : g.length = f.length := by
    refine length_runOps crc fun o ho => h o ?_
    rcases List.mem_append.mp ho with ho | ho
    · exact List.mem_append_left _ ho
    · rw [List.mem_singleton.mp ho]
      simp [Seal.ops]
  have hroom : s.own_field + s.width ≤ g.length := by
    rw [hglen]
    exact (h ⟨s.own_field, s.width, .const 0⟩ (by simp [Seal.ops])).1
  have hw : ∀ v : ℤ, s.own_field + (leBytes s.width v).length ≤ g.length := by
    intro v
    rw [length_leBytes]
    exact hroom
  have hzlen : z.length = g.length := length_overwrite_of_le (hw 0)
  have hzeroed : s.zeroed (runOps crc (fields ++ s.ops) f) = slice z s.header s.header_length := by
    rw [Seal.zeroed, hall, overwrite_overwrite (by rw [hzlen]; exact hw _) (by simp), hz,
      overwrite_overwrite (hw _) (by simp)]
  have hself := slice_overwrite_self (show s.own_field
    + (leBytes s.width (crc (slice z s.header s.header_length))).length ≤ z.length by
      rw [hzlen]
      exact hw _)
  rw [length_leBytes] at hself
  rw [hzeroed, hall]
  exact hself

/-- After a sealed program every field holds the constant that the program has for it. -/
theorem sealed_field (hfields : ∀ o ∈ fields, s.Field o)
    (hpair : fields.Pairwise fun o o' => Apart o.dst o.width o'.dst o'.width)
    (h : ∀ o ∈ fields ++ s.ops, o.InBounds f.length) {op : FieldOp} (hop : op ∈ fields) {v : ℤ}
    (hv : op.src = .const v) :
    slice (runOps crc (fields ++ s.ops) f) op.dst op.width = leBytes op.width v := by
  obtain ⟨before, after, rfl⟩ := List.append_of_mem hop
  have hfield := hfields op hop
  have hafter := (List.pairwise_cons.mp (List.pairwise_append.mp hpair).2.1).1
  rw [List.append_assoc, List.cons_append] at h ⊢
  have hread := slice_runOps_at crc before op (after ++ s.ops) h (by
    intro o ho
    rcases List.mem_append.mp ho with ho | ho
    · exact hafter o ho
    · have hbody := hfield.body_field
      have hown := hfield.own_field
      simp only [Seal.ops, List.mem_cons, List.not_mem_nil, or_false] at ho
      rcases ho with rfl | rfl | rfl
      · exact hbody
      · exact hown
      · exact hown)
  rw [hread, hv]
  rfl

/-! ## Running again

Sealing a header again, after its fields have been set to other values, gives what it would
have given at once. The checksums are the reason that this is not obvious, since they read
what an earlier seal has written; the order of the steps puts every byte they read in place
first.
-/

/-- A seal reads nothing stale: a byte that an earlier program for the same fields may have left
behind is written again before a checksum reads it. -/
theorem fresh_sealed (hs : s.Proper) (hfields : ∀ o ∈ fields, s.Field o) {U : ℕ → Prop}
    (hU : ∀ i, U i → (∃ o ∈ fields, o.Writes i) ∨ ∃ o ∈ s.ops, o.Writes i) :
    Fresh U (fields ++ s.ops) := by
  have hstale : ∀ i, (U i ∧ ∀ o ∈ fields, ¬ o.Writes i) →
      (s.body_field ≤ i ∧ i < s.body_field + s.width) ∨
        (s.own_field ≤ i ∧ i < s.own_field + s.width) := by
    rintro i ⟨hi, hnot⟩
    rcases hU i hi with ⟨o, ho, hw⟩ | ⟨o, ho, hw⟩
    · exact absurd hw (hnot o ho)
    · simp only [Seal.ops, List.mem_cons, List.not_mem_nil, or_false] at ho
      rcases ho with rfl | rfl | rfl
      · exact Or.inl hw
      · exact Or.inr hw
      · exact Or.inr hw
  refine fresh_append (fun o ho => (hfields o ho).const) ⟨?_, ?_, ?_, trivial⟩
  · -- the body holds neither checksum
    rintro i ⟨hlo, hhi⟩ hi
    have hbody := hs.body_body
    have hown := hs.body_own
    unfold Apart at hbody hown
    rcases hstale i hi with h | h <;> omega
  · exact fun i hr => hr.elim
  · rintro i - ⟨⟨hi, hbody⟩, hown⟩
    rcases hstale i hi with h | h
    · exact hbody h
    · exact hown h

/-- **A sealed program leaves no trace of an earlier one** for the same fields,
whatever the values were. -/
theorem sealed_rerun (hs : s.Proper) (hfields : ∀ o ∈ fields, s.Field o) {fields' : List FieldOp}
    (hsame : List.Forall₂ (fun o o' => o.dst = o'.dst ∧ o.width = o'.width) fields fields')
    (h : ∀ o ∈ fields ++ s.ops, o.InBounds f.length)
    (h' : ∀ o ∈ fields' ++ s.ops, o.InBounds f.length) :
    runOps crc (fields ++ s.ops) (runOps crc (fields' ++ s.ops) f)
      = runOps crc (fields ++ s.ops) f := by
  -- the fields of the two runs lie in the same places
  have hwrites : ∀ i, (∃ o ∈ fields', o.Writes i) → ∃ o ∈ fields, o.Writes i := by
    intro i
    induction hsame with
    | nil => exact id
    | @cons o o' fields fields' ho hrest ih =>
      rintro ⟨p, hp, hw⟩
      rcases List.mem_cons.mp hp with rfl | hp
      · refine ⟨o, by simp, ?_⟩
        unfold FieldOp.Writes at hw ⊢
        rw [ho.1, ho.2]
        exact hw
      · obtain ⟨q, hq, hqw⟩ := ih (fun r hr => hfields r (by simp [hr]))
          (fun r hr => h r (by simp at hr ⊢; tauto)) (fun r hr => h' r (by simp at hr ⊢; tauto))
          ⟨p, hp, hw⟩
        exact ⟨q, by simp [hq], hqw⟩
  have hcover : ∀ i, (∃ o ∈ fields' ++ s.ops, o.Writes i) →
      (∃ o ∈ fields, o.Writes i) ∨ ∃ o ∈ s.ops, o.Writes i := by
    rintro i ⟨o, ho, hw⟩
    rcases List.mem_append.mp ho with ho | ho
    · exact Or.inl (hwrites i ⟨o, ho, hw⟩)
    · exact Or.inr ⟨o, ho, hw⟩
  refine runOps_runOps crc h h' (fun i hi => ?_) (fresh_sealed hs hfields hcover)
  rcases hcover i hi with ⟨o, ho, hw⟩ | ⟨o, ho, hw⟩
  · exact ⟨o, List.mem_append_left _ ho, hw⟩
  · exact ⟨o, List.mem_append_right _ ho, hw⟩

end Sealed

end AndroidTools.FieldPatch
