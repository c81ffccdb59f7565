/-
`log_loop` of `dumpkmsg.cpp`: one turn over a buffer of kernel messages.

The loop looks for a newline or for the end of the buffer, and hands what stands before it to
`write_message`. Its index goes up in the body and once more in the loop header, so the byte after
a message is never looked at. It is written with the next message, unless there is none: a newline
in the last place but one ends the loop, and the last byte stays where it is.

So a byte can be lost in one place only, and the question is whether the loop looks at the byte in
front of it. `loses` follows the loop as far as that, and `loses_iff` gives the answer by counting
the newlines that stand directly before the last byte.
-/
import Mathlib.Tactic

set_option autoImplicit false

namespace AndroidTools.Dumpkmsg

/-- `'\n'`, the byte at which the loop ends a message. -/
def newline : UInt8 := 10

/-- A message in the buffer: where it starts, and its length. -/
structure Message where
  cur : ℕ
  size : ℕ
  deriving DecidableEq, Repr

/-- The bytes that `write_message` gets for the message. -/
def Message.bytes (kbuffer : List UInt8) (m : Message) : List UInt8 :=
  (kbuffer.drop m.cur).take m.size

/-- The `for` loop over what `klogctl` has read, from index `i` on: the messages
it hands to `write_message`. -/
def messages (kbuffer : List UInt8) (i cur : ℕ) : List Message :=
  if i < kbuffer.length then
    if kbuffer[i]? = some newline ∨ i = kbuffer.length - 1 then
      -- `i++` in the body, and the one of the loop header after it
      ⟨cur, i + 1 - cur⟩ :: messages kbuffer (i + 1 + 1) (i + 1)
    else messages kbuffer (i + 1) cur
  else []
termination_by kbuffer.length - i

/-- One turn of `log_loop`: the messages from the front of the buffer on. -/
def log_loop_turn (kbuffer : List UInt8) : List Message := messages kbuffer 0 0

/-- Every byte is written, in messages that end with their line or with the buffer. -/
def AllWritten (kbuffer : List UInt8) : Prop :=
  ((log_loop_turn kbuffer).map (Message.bytes kbuffer)).flatten = kbuffer ∧
    ∀ m ∈ log_loop_turn kbuffer, m.bytes kbuffer ≠ [] ∧
      ((m.bytes kbuffer).getLast? = some newline ∨ m.cur + m.size = kbuffer.length)

/-! ## The loop

Messages are made where the index stands on a newline or on the last byte. So every message
ends with the byte the loop stopped at, and none is empty.
-/

section Loop

variable {kbuffer : List UInt8} {i cur : ℕ}

theorem messages_of_le (h : kbuffer.length ≤ i) : messages kbuffer i cur = [] := by
  rw [messages, if_neg (by omega)]

/-- A message has at least the byte the loop stopped at, and ends with it. -/
theorem mem_messages (h : cur ≤ i) {m : Message} (hm : m ∈ messages kbuffer i cur) :
    0 < m.size ∧ m.cur + m.size ≤ kbuffer.length ∧
      (kbuffer[m.cur + m.size - 1]? = some newline ∨ m.cur + m.size = kbuffer.length) := by
  fun_induction messages kbuffer i cur with
  | case1 i cur hi hend ih =>
    rcases List.mem_cons.mp hm with rfl | hm
    · have hlast : cur + (i + 1 - cur) = i + 1 := by omega
      refine ⟨by dsimp only; omega, by dsimp only; omega, ?_⟩
      dsimp only
      rw [hlast, Nat.add_sub_cancel]
      exact hend.imp_right fun h => by omega
    · exact ih (by omega) hm
  | case2 i cur hi hend ih => exact ih (by omega) hm
  | case3 i cur hi => simp at hm

end Loop

/-! ## What is lost

`loses` follows the loop through the bytes it still has to look at, and forgets where the
messages begin. A byte behind a newline is passed over, so of newlines in a row the loop
looks at every other one; only the row directly before the last byte matters.
-/

/-- Whether the loop loses the last byte, told along the bytes it still has to look at. -/
def loses : List UInt8 → Bool
  | [] => false
  | [_] => false
  | [b, _] => b = newline
  | b :: c :: d :: rest => if b = newline then loses (d :: rest) else loses (c :: d :: rest)

/-- The newlines that stand directly before the last byte. -/
def newlines_before_last (kbuffer : List UInt8) : ℕ :=
  (kbuffer.dropLast.reverse.takeWhile fun b => b = newline).length

/-- Bytes between two places of the buffer, and what comes after them. -/
theorem take_append_drop_of_le {kbuffer : List UInt8} {cur i : ℕ} (h : cur ≤ i) :
    (kbuffer.drop cur).take (i - cur) ++ kbuffer.drop i = kbuffer.drop cur := by
  have hdrop : (kbuffer.drop cur).drop (i - cur) = kbuffer.drop i := by
    rw [List.drop_drop]
    congr 1
    omega
  rw [← hdrop, List.take_append_drop]

/-- From index `i` on, everything from `cur` is written, but for the last byte if the
loop loses it. -/
theorem flatten_messages {kbuffer : List UInt8} {i cur : ℕ} (hi : i < kbuffer.length)
    (h : cur ≤ i) :
    ((messages kbuffer i cur).map (Message.bytes kbuffer)).flatten
      = if loses (kbuffer.drop i) then (kbuffer.drop cur).dropLast else kbuffer.drop cur := by
  fun_induction messages kbuffer i cur with
  | case3 i cur hno => exact absurd hi hno
  | case1 i cur _ hend ih =>
    have hsplit := @take_append_drop_of_le kbuffer cur (i + 1) (by omega)
    rw [List.map_cons, List.flatten_cons, Message.bytes]
    dsimp only
    rcases (by omega : i + 1 = kbuffer.length ∨ i + 2 = kbuffer.length ∨ i + 2 < kbuffer.length)
      with hone | htwo | hmore
    · -- the message ends with the buffer
      have hnil : kbuffer.drop (i + 1) = [] := List.drop_eq_nil_of_le (by omega)
      have hrest : kbuffer.drop i = [kbuffer[i]] := by
        rw [List.drop_eq_getElem_cons hi, hnil]
      rw [messages_of_le (by omega), hrest, loses, if_neg (by simp), List.map_nil,
        List.flatten_nil, ← hnil]
      exact hsplit
    · -- one byte is left, and the loop steps over it
      have hb : kbuffer[i] = newline := by
        rcases hend with hb | hlast
        · rwa [List.getElem?_eq_getElem hi, Option.some.injEq] at hb
        · omega
      have hrest : kbuffer.drop i = [kbuffer[i], kbuffer[i + 1]] := by
        rw [List.drop_eq_getElem_cons hi, List.drop_eq_getElem_cons (by omega),
          List.drop_eq_nil_of_le (by omega)]
      have hlast : kbuffer.drop (i + 1) = [kbuffer[i + 1]] := by
        rw [List.drop_eq_getElem_cons (by omega), List.drop_eq_nil_of_le (by omega)]
      rw [messages_of_le (by omega), hrest, loses, if_pos (by simp [hb]), List.map_nil,
        List.flatten_nil, List.append_nil]
      rw [hlast] at hsplit
      conv_rhs => rw [← hsplit, List.dropLast_concat]
    · -- the next message begins behind the byte that is stepped over
      have hb : kbuffer[i] = newline := by
        rcases hend with hb | hlast
        · rwa [List.getElem?_eq_getElem hi, Option.some.injEq] at hb
        · omega
      have hrest : loses (kbuffer.drop i) = loses (kbuffer.drop (i + 2)) := by
        rw [List.drop_eq_getElem_cons hi, List.drop_eq_getElem_cons (by omega : i + 1 < _),
          List.drop_eq_getElem_cons (by omega : i + 1 + 1 < _), loses, if_pos hb]
      rw [ih hmore (by omega), hrest]
      split_ifs
      · have hne : kbuffer.drop (i + 1) ≠ [] :=
          List.ne_nil_of_length_pos (by rw [List.length_drop]; omega)
        conv_rhs => rw [← hsplit, List.dropLast_append_of_ne_nil hne]
      · exact hsplit
  | case2 i cur _ hend ih =>
    -- inside a message
    have hmore : i + 1 < kbuffer.length := by
      by_contra hno
      exact hend (Or.inr (by omega))
    have hb : kbuffer[i] ≠ newline := by
      intro hb
      exact hend (Or.inl (by rw [List.getElem?_eq_getElem hi, hb]))
    have hrest : loses (kbuffer.drop i) = loses (kbuffer.drop (i + 1)) := by
      rw [List.drop_eq_getElem_cons hi, List.drop_eq_getElem_cons hmore]
      cases hdrop : kbuffer.drop (i + 1 + 1) with
      | nil => simp [loses, hb]
      | cons d rest => rw [loses, if_neg hb]
    rw [ih hmore (by omega), hrest]

theorem newlines_before_last_le (l : List UInt8) : newlines_before_last l ≤ l.length - 1 := by
  have hpre := List.takeWhile_prefix (l := l.dropLast.reverse) fun b => decide (b = newline)
  have h := hpre.length_le
  rwa [List.length_reverse, List.length_dropLast] at h

/-- A byte in front of the buffer counts if newlines follow it up to the last byte. -/
theorem newlines_before_last_cons (b : UInt8) {l : List UInt8} (hl : l ≠ []) :
    newlines_before_last (b :: l)
      = if newlines_before_last l = l.length - 1 ∧ b = newline then newlines_before_last l + 1
        else newlines_before_last l := by
  unfold newlines_before_last
  rw [List.dropLast_cons_of_ne_nil hl, List.reverse_cons, List.takeWhile_append,
    List.length_reverse, List.length_dropLast]
  by_cases hall : (l.dropLast.reverse.takeWhile fun b => b = newline).length = l.length - 1
  · rw [if_pos hall, List.length_append, List.length_reverse, List.length_dropLast, hall]
    by_cases hb : b = newline
    · simp [hb]
    · simp [hb]
  · rw [if_neg hall, if_neg (fun h => hall h.1)]

/-- **The last byte is lost after an odd number of newlines.** Two newlines in a row make one
message; the loop looks at every other byte of such a run. -/
theorem loses_iff (l : List UInt8) : loses l = true ↔ newlines_before_last l % 2 = 1 := by
  fun_induction loses l with
  | case1 => simp [newlines_before_last]
  | case2 b => simp [newlines_before_last]
  | case3 b c =>
    by_cases hb : b = newline <;> simp [newlines_before_last, hb]
  | case4 c d rest ih =>
    have hc := newlines_before_last_cons c (List.cons_ne_nil d rest)
    have hb := newlines_before_last_cons newline (List.cons_ne_nil c (d :: rest))
    rw [List.length_cons] at hc hb
    rw [List.length_cons] at hb
    simp only [and_true] at hb
    have hle := newlines_before_last_le (d :: rest)
    rw [List.length_cons] at hle
    rw [ih]
    split_ifs at hb hc <;> omega
  | case5 b c d rest hb ih =>
    rw [ih, newlines_before_last_cons b (by simp), if_neg (fun h => hb h.2)]

/-! ## No byte is lost

The messages in a row are the buffer, but for its last byte where that is lost. What is left
is to say of the messages that each ends where a message should.
-/

/-- **Every byte is written exactly when the newlines before the last byte pair up.** The
condition is on the buffer alone, and an empty buffer has nothing to lose. -/
theorem all_written_iff (kbuffer : List UInt8) :
    AllWritten kbuffer ↔ kbuffer = [] ∨ newlines_before_last kbuffer % 2 = 0 := by
  have hends : ∀ m ∈ log_loop_turn kbuffer, m.bytes kbuffer ≠ [] ∧
      ((m.bytes kbuffer).getLast? = some newline ∨ m.cur + m.size = kbuffer.length) := by
    intro m hm
    obtain ⟨hpos, hle, hlast⟩ := mem_messages le_rfl hm
    have hlen : (m.bytes kbuffer).length = m.size := by
      rw [Message.bytes, List.length_take, List.length_drop]
      omega
    refine ⟨List.ne_nil_of_length_pos (by omega), hlast.imp_left fun h => ?_⟩
    rw [List.getLast?_eq_getElem?, hlen, Message.bytes, List.getElem?_take,
      if_pos (by omega), List.getElem?_drop, ← Nat.add_sub_assoc hpos]
    exact h
  -- what remains is that the messages joined are the buffer
  rw [AllWritten, and_iff_left hends]
  by_cases hnil : kbuffer = []
  · rw [hnil, log_loop_turn, messages_of_le (by simp)]
    simp
  rw [log_loop_turn, flatten_messages (List.length_pos_of_ne_nil hnil) le_rfl, List.drop_zero,
    or_iff_right hnil]
  have hlen := List.length_pos_of_ne_nil hnil
  have hloses := loses_iff kbuffer
  -- the messages joined are the buffer, or all of it but its last byte
  by_cases hlost : loses kbuffer = true
  · rw [if_pos hlost]
    have hodd := hloses.mp hlost
    constructor
    · intro h
      have hshort := congrArg List.length h
      rw [List.length_dropLast] at hshort
      omega
    · intro h
      omega
  · rw [if_neg hlost]
    have heven : ¬ newlines_before_last kbuffer % 2 = 1 := fun h => hlost (hloses.mpr h)
    exact ⟨fun _ => by omega, fun _ => rfl⟩

/-- `"\na"`: the empty line is written, the byte after it is not. -/
theorem not_all_written_newline_a : ¬ AllWritten [10, 97] := by
  rintro ⟨h, -⟩
  rw [log_loop_turn, flatten_messages (by decide) le_rfl] at h
  exact absurd h (by decide)

end AndroidTools.Dumpkmsg
