/-
Records one after another, read from pieces.

A framing gives each record items that a reader takes back from the front of any buffer
that begins with them, and of which fewer never look like a record. A reader that keeps
what it cannot read yet and puts it before the next piece then sees the same records
however a stream is cut; `head_cases` says what it finds at each of its looks, and
`no_record_left` that no record is left when no piece is.

Behind the last record a stream may hold the beginning of another one, or blank items.
-/
import Mathlib.Tactic

set_option autoImplicit false

namespace AndroidTools.Framing

variable {α μ ε : Type*}

/-- What a reader finds at the front of a buffer: a record and what is behind it, too little
to tell, the mark behind which nothing is, or an error. -/
inductive Head (α μ ε : Type*) where
  | record (m : μ) (rest : List α)
  | more
  | stop
  | fail (e : ε)
  deriving Repr, DecidableEq

/-- The records that are `ok` are read back from what they are encoded in, whatever comes behind,
and less than a whole record is never taken for one. -/
structure Framed (head : List α → Head α μ ε) (enc : μ → List α) (ok : μ → Prop) : Prop where
  nonempty : ∀ m, ok m → enc m ≠ []
  whole : ∀ m, ok m → ∀ rest, head (enc m ++ rest) = .record m rest
  cut : ∀ m, ok m → ∀ x y, x ++ y = enc m → y ≠ [] → head x = .more

/-- The stream of some records, one behind the other, and what is behind the last of them. -/
def stream (enc : μ → List α) (ms : List μ) (tail : List α) : List α := ms.flatMap enc ++ tail

@[simp] theorem stream_nil (enc : μ → List α) (tail : List α) : stream enc [] tail = tail := by
  rw [stream, List.flatMap_nil, List.nil_append]

@[simp] theorem stream_cons (enc : μ → List α) (m : μ) (ms : List μ) (tail : List α) :
    stream enc (m :: ms) tail = enc m ++ stream enc ms tail := by
  rw [stream, stream, List.flatMap_cons, List.append_assoc]

/-- A tail that holds no record: it only ever looks too short, or it is blank wherever a
reader looks at it. -/
def Quiet (head : List α → Head α μ ε) (tail : List α) : Prop :=
  (∀ x, x <+: tail → head x = .more) ∨ (∀ x, x <:+: tail → head x = .more ∨ head x = .stop)

variable {head : List α → Head α μ ε} {enc : μ → List α} {ok : μ → Prop}

/-- Too little of a record is quiet, so a stream may end in the middle of one. -/
theorem Framed.quiet_of_cut (h : Framed head enc ok) {m : μ} (hm : ok m) {x y : List α}
    (hxy : x ++ y = enc m) (hy : y ≠ []) : Quiet head x := by
  left
  rintro p ⟨q, rfl⟩
  refine h.cut m hm p (q ++ y) (by rw [← hxy, List.append_assoc]) ?_
  exact fun hnil => hy (List.append_eq_nil_iff.mp hnil).2

/-- **One look.** The buffer begins with the next record; or with too little of what is left;
or the records are over, and what is left is quiet behind the mark too. -/
theorem head_cases (h : Framed head enc ok) {ms : List μ} (hms : ∀ m ∈ ms, ok m)
    {tail : List α} (htail : Quiet head tail) {x y : List α} (hxy : x ++ y = stream enc ms tail) :
    (∃ m ms' x', ms = m :: ms' ∧ x = enc m ++ x' ∧ x' ++ y = stream enc ms' tail ∧
        head x = .record m x') ∨
      head x = .more ∨ (ms = [] ∧ head x = .stop ∧ Quiet head y) := by
  cases ms with
  | nil =>
    rw [stream_nil] at hxy
    rcases htail with hshort | hblank
    · exact .inr (.inl (hshort x ⟨y, hxy⟩))
    · rcases hblank x ⟨[], y, by simpa using hxy⟩ with hmore | hstop
      · exact .inr (.inl hmore)
      · refine .inr (.inr ⟨rfl, hstop, .inr ?_⟩)
        rintro z ⟨a, b, rfl⟩
        exact hblank z ⟨x ++ a, b, by simpa [List.append_assoc] using hxy⟩
  | cons m ms =>
    have hm := hms m List.mem_cons_self
    rw [stream_cons] at hxy
    rcases List.append_eq_append_iff.mp hxy with ⟨a, hcut, -⟩ | ⟨a, hwhole, hrest⟩
    · by_cases ha : a = []
      · subst ha
        rw [List.append_nil] at hcut
        refine .inl ⟨m, ms, [], rfl, by rw [List.append_nil, hcut], ?_, ?_⟩
        · rw [← hcut] at hxy
          exact List.append_cancel_left hxy
        · have := h.whole m hm []
          rwa [List.append_nil, hcut] at this
      · exact .inr (.inl (h.cut m hm x a hcut.symm ha))
    · exact .inl ⟨m, ms, a, rfl, hwhole, hrest.symm, by rw [hwhole, h.whole m hm]⟩

/-- A buffer with all that is left of the stream is too short only behind the records. A reader
that has been given everything and still asks for more has read all of them. -/
theorem no_record_left (h : Framed head enc ok) {ms : List μ} (hms : ∀ m ∈ ms, ok m)
    {tail : List α} (hmore : head (stream enc ms tail) = .more) : ms = [] := by
  cases ms with
  | nil => rfl
  | cons m ms =>
    rw [stream_cons, h.whole m (hms m List.mem_cons_self)] at hmore
    cases hmore

end AndroidTools.Framing
