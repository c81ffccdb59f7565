/-
A property of a stream, looked for piece by piece.

A program that reads a stream in pieces and looks into each piece by itself finds what it looks
for only if it lies in one piece. For a property that a list keeps whatever stands around it
(`Spreads`), a stream has it as soon as one of its pieces has. The converse holds along the whole
stream exactly when the property never comes about across the border in front of a piece, which is
`Uncut`.

`found_iff_uncut` states both directions at every point of the stream, not only at its end.
-/
import Mathlib.Data.List.Induction

set_option autoImplicit false

namespace AndroidTools.Stream

variable {α : Type*} {P : List α → Prop}

/-- A list with the property has it inside any other. -/
structure Spreads (P : List α → Prop) : Prop where
  append_left : ∀ {a : List α}, P a → ∀ b, P (a ++ b)
  append_right : ∀ {b : List α}, P b → ∀ a, P (a ++ b)

/-- No piece completes the property together with what came before it, unless one of the
two has it alone. -/
def Uncut (P : List α → Prop) (pieces : List (List α)) : Prop :=
  ∀ before piece after, pieces = before ++ piece :: after →
    P (before.flatten ++ piece) → P before.flatten ∨ P piece

theorem Spreads.flatten (h : Spreads P) {pieces : List (List α)} {piece : List α}
    (hmem : piece ∈ pieces) (hpiece : P piece) : P pieces.flatten := by
  obtain ⟨before, after, rfl⟩ := List.append_of_mem hmem
  rw [List.flatten_append, List.flatten_cons]
  exact h.append_right (h.append_left hpiece _) _

theorem Uncut.of_append {before after : List (List α)} (h : Uncut P (before ++ after)) :
    Uncut P before := by
  rintro b piece a rfl
  exact h b piece (a ++ after) (by rw [List.append_assoc, List.cons_append])

theorem uncut_nil : Uncut P [] := by
  rintro before piece after h
  exact absurd h.symm (List.append_ne_nil_of_right_ne_nil _ (List.cons_ne_nil _ _))

/-- One more piece adds one condition, on the border in front of it: the borders before have had
theirs. -/
theorem uncut_concat {pieces : List (List α)} {last : List α} :
    Uncut P (pieces ++ [last]) ↔
      Uncut P pieces ∧ (P (pieces.flatten ++ last) → P pieces.flatten ∨ P last) := by
  constructor
  · exact fun h => ⟨h.of_append, h pieces last [] rfl⟩
  · rintro ⟨h, hlast⟩ before piece after heq
    rcases List.eq_nil_or_concat after with rfl | ⟨after, a, rfl⟩
    · obtain ⟨rfl, hsame⟩ := List.append_inj' heq rfl
      obtain rfl := (List.cons.inj hsame).1
      exact hlast
    · rw [List.concat_eq_append, ← List.cons_append, ← List.append_assoc] at heq
      obtain ⟨rfl, -⟩ := List.append_inj' heq rfl
      exact h before piece after rfl

/-- Of an uncut stream with the property some piece has it. -/
theorem Uncut.exists_piece (hnil : ¬ P []) {pieces : List (List α)} (h : Uncut P pieces)
    (hstream : P pieces.flatten) : ∃ piece ∈ pieces, P piece := by
  induction pieces using List.reverseRecOn with
  | nil => exact absurd hstream hnil
  | append_singleton before piece ih =>
    obtain ⟨hearlier, hborder⟩ := uncut_concat.mp h
    rw [List.flatten_concat] at hstream
    rcases hborder hstream with hbefore | hpiece
    · obtain ⟨p, hp, hfound⟩ := ih hearlier hbefore
      exact ⟨p, List.mem_append_left _ hp, hfound⟩
    · exact ⟨piece, List.mem_append_right _ List.mem_cons_self, hpiece⟩

/-- **Looking at the pieces finds the property of the stream at every point of it exactly
when it is never cut.** -/
theorem found_iff_uncut (hspread : Spreads P) (hnil : ¬ P []) (pieces : List (List α)) :
    (∀ read, read <+: pieces → ((∃ piece ∈ read, P piece) ↔ P read.flatten)) ↔
      Uncut P pieces := by
  constructor
  · rintro h before piece after rfl hjoined
    -- the stream as it stands once this piece has been read
    rw [← List.flatten_concat] at hjoined
    have hprefix : before ++ [piece] <+: before ++ piece :: after :=
      ⟨after, by rw [List.append_assoc, List.singleton_append]⟩
    obtain ⟨p, hp, hfound⟩ := (h _ hprefix).mpr hjoined
    rcases List.mem_append.mp hp with hbefore | hlast
    · exact Or.inl (hspread.flatten hbefore hfound)
    · exact Or.inr (List.mem_singleton.mp hlast ▸ hfound)
  · rintro h read ⟨rest, rfl⟩
    constructor
    · rintro ⟨piece, hmem, hpiece⟩
      exact hspread.flatten hmem hpiece
    · exact h.of_append.exists_piece hnil

end AndroidTools.Stream
