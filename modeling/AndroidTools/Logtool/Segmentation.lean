/-
The verdict on an answer that is tested piece by piece.

The thread of the port reads bytes, at most 1024 at a time, and makes a string of each
read on its own. With `check` every such string is tested on its own, those equal to
CRLF apart: one with the key is a success, one without it a repetition while there are
some left, and a failure after that. So every piece that is not dropped counts, and
cutting one byte further changes the outcome.

How bytes become characters is the platform's `new String(buffer, 0, ret)`, the
parameter `decode`. A character of several bytes can be cut in two by a read, and both
halves decode to something else; nothing is assumed that would rule this out. All that
the result on a whole answer needs is that no single byte decodes to CRLF.
-/
import AndroidTools.Lib.Tries
import AndroidTools.Logtool.SerialPort

set_option autoImplicit false

namespace AndroidTools.Logtool

open AndroidTools.Tries

/-! ## Delivery

A read gives bytes, and every piece is decoded on its own before it is compared. So the
pieces of an answer are cut from its bytes, at any place and of any size up to the buffer,
and what is posted are texts.
-/

/-- `SERIAL_BUFFER`, the most bytes that one read gives. -/
def serial_buffer : ℕ := 1024

section Delivery

variable (decode : List UInt8 → Text)

/-- What `run` posts to the handler: neither an empty piece nor a lone CRLF. -/
def posted (piece : List UInt8) : Bool := piece ≠ [] && decode piece ≠ at_end

/-- The pieces that `run` reads, handled one after the other; a piece that is not posted changes
nothing. -/
def deliver (d : ModemDevice) :
    SerialPortControl → List (List UInt8) → SerialPortControl × List PortEffect
  | s, [] => (s, [])
  | s, piece :: pieces =>
    if posted decode piece then
      let handled := get_at_result s d (decode piece)
      let rest := deliver d handled.1 pieces
      (rest.1, handled.2 ++ rest.2)
    else deliver d s pieces

end Delivery

/-- The result messages, and how often the command was written again. -/
structure Outcome where
  results : List MainEvent
  resent : ℕ
  deriving Repr, DecidableEq

def result_of : PortEffect → Option MainEvent
  | .sent m => some m.what
  | .wrote _ => none

def is_write : PortEffect → Bool
  | .sent _ => false
  | .wrote _ => true

def outcome_of (effects : List PortEffect) : Outcome :=
  ⟨effects.filterMap result_of, effects.countP is_write⟩

def outcome (decode : List UInt8 → Text) (d : ModemDevice) (s : SerialPortControl)
    (pieces : List (List UInt8)) : Outcome :=
  outcome_of (deliver decode d s pieces).2

/-- The pieces are what successive reads can return of the bytes of a response. -/
structure IsCut (response : List UInt8) (pieces : List (List UInt8)) : Prop where
  joined : pieces.flatten = response
  sized : ∀ p ∈ pieces, p ≠ [] ∧ p.length ≤ serial_buffer

/-! ## The outcome from the pieces

What the handler does with a piece depends on one bit of it, whether it contains the key.
`verdicts` is the list of these bits, and `outcome_eq` computes the outcome from it: the
first misses are answered by repetitions while there are some left, and every other verdict
is a result.
-/

/-- How often a miss is still answered by a repetition. -/
def repeats_left (s : SerialPortControl) : ℕ :=
  if s.repeate then (s.max_time - s.current_send_times).toNat else 0

/-- Which of the posted pieces contain the key, one verdict for each of them. -/
def verdicts (decode : List UInt8 → Text) (key : Text) (pieces : List (List UInt8)) : List Bool :=
  (pieces.filter (posted decode)).map fun p => decide (key <:+: decode p)

def result_event : Bool → MainEvent
  | true => .result_success
  | false => .result_fail

/-- Two cuts come to the same: their verdicts agree behind the misses that are answered by a
repetition, and equally many of these are used up. -/
def SameVerdicts (decode : List UInt8 → Text) (s : SerialPortControl)
    (P Q : List (List UInt8)) : Prop :=
  dropMisses (repeats_left s) (verdicts decode s.success_key P)
      = dropMisses (repeats_left s) (verdicts decode s.success_key Q) ∧
    min (repeats_left s) ((verdicts decode s.success_key P).count false)
      = min (repeats_left s) ((verdicts decode s.success_key Q).count false)

section Verdicts

variable {decode : List UInt8 → Text} {piece : List UInt8}

theorem verdicts_of_not_posted (h : ¬ posted decode piece = true) (key : Text)
    (pieces : List (List UInt8)) :
    verdicts decode key (piece :: pieces) = verdicts decode key pieces := by
  rw [verdicts, List.filter_cons_of_neg h]
  rfl

theorem verdicts_of_posted (h : posted decode piece = true) (key : Text)
    (pieces : List (List UInt8)) :
    verdicts decode key (piece :: pieces)
      = decide (key <:+: decode piece) :: verdicts decode key pieces := by
  rw [verdicts, List.filter_cons_of_pos h]
  rfl

theorem length_verdicts (key : Text) (pieces : List (List UInt8)) :
    (verdicts decode key pieces).length = (pieces.filter (posted decode)).length :=
  List.length_map _

end Verdicts

theorem outcome_of_append (es fs : List PortEffect) :
    outcome_of (es ++ fs) = ⟨(outcome_of es).results ++ (outcome_of fs).results,
      (outcome_of es).resent + (outcome_of fs).resent⟩ := by
  rw [outcome_of, List.filterMap_append, List.countP_append]
  rfl

theorem outcome_of_sent (m : MainMessage) : outcome_of [.sent m] = ⟨[m.what], 0⟩ := rfl

theorem outcome_of_wrote (buffer : Text) : outcome_of [.wrote buffer] = ⟨[], 1⟩ := rfl

section Pieces

variable {s : SerialPortControl} {d : ModemDevice} {piece : Text}

/-- A piece with the key is reported as a success, and the number of time-outs goes back to 0. -/
theorem get_at_result_hit (hcheck : s.check_already_delay = true)
    (hkey : s.success_key <:+: piece) :
    get_at_result s d piece = ({ s with time_outs := 0 },
      [.sent (result_message { s with time_outs := 0 } .result_success piece)]) := by
  rw [get_at_result_of_check hcheck]
  exact @send_next_of_contains { s with time_outs := 0 } _ hkey d

/-- A piece without it is a failure when nothing is left to repeat. -/
theorem get_at_result_miss (hcheck : s.check_already_delay = true)
    (hkey : ¬ s.success_key <:+: piece) (hleft : repeats_left s = 0) :
    get_at_result s d piece = ({ s with time_outs := 0 },
      [.sent (result_message { s with time_outs := 0 } .result_fail piece)]) := by
  rw [get_at_result_of_check hcheck, send_next, if_neg hkey]
  unfold repeats_left at hleft
  by_cases htimes : s.current_send_times = s.max_time
  · rw [if_pos htimes]
  · have hnot : ¬ s.repeate = true := by
      intro hrepeat
      rw [if_pos hrepeat] at hleft
      apply htimes
      bv_omega
    rw [if_neg htimes, if_neg hnot]

/-- A piece without the success key, with a repetition left: the command is written again, and one
repetition less is left. -/
theorem get_at_result_repeat (hcheck : s.check_already_delay = true)
    (hport : s.serial_port = true) (hexist : d.exist = true) (hwrites : d.writes = true)
    (hkey : ¬ s.success_key <:+: piece) {n : ℕ} (hleft : repeats_left s = n + 1) :
    ∃ buffer, get_at_result s d piece = ({ s with
        current_send_times := s.current_send_times + 1, time_outs := 1 }, [.wrote buffer]) ∧
      repeats_left { s with current_send_times := s.current_send_times + 1, time_outs := 1 }
        = n := by
  unfold repeats_left at hleft
  have hrepeat : s.repeate = true := by
    by_contra hnot
    rw [if_neg hnot] at hleft
    cases hleft
  rw [if_pos hrepeat] at hleft
  have htimes : ¬ s.current_send_times = s.max_time := by
    intro heq
    rw [heq, BitVec.sub_self] at hleft
    cases hleft
  refine ⟨s.command.getD ['n', 'u', 'l', 'l'] ++ at_end, ?_, ?_⟩
  · rw [get_at_result_of_check hcheck, send_next, if_neg hkey, if_neg htimes, if_pos hrepeat]
    dsimp only
    rw [if_pos hport, send_repeat_command, hexist, if_neg (by decide), write_command, hport,
      if_neg (by decide), if_pos hwrites]
  · rw [repeats_left, if_pos hrepeat]
    dsimp only
    bv_omega

end Pieces

section Cuts

variable {decode : List UInt8 → Text}

/-- What a delivery reports and which misses are left over, from the verdicts on its pieces alone.
-/
theorem outcome_eq {d : ModemDevice} (hexist : d.exist = true) (hwrites : d.writes = true)
    {s : SerialPortControl} (hport : s.serial_port = true) (hcheck : s.check_already_delay = true)
    (pieces : List (List UInt8)) :
    outcome decode d s pieces
      = ⟨(dropMisses (repeats_left s) (verdicts decode s.success_key pieces)).map result_event,
        min (repeats_left s) ((verdicts decode s.success_key pieces).count false)⟩ := by
  induction pieces generalizing s with
  | nil =>
    rw [outcome, deliver, verdicts, List.filter_nil, List.map_nil, dropMisses_nil,
      List.count_nil, Nat.min_zero]
    rfl
  | cons piece pieces ih =>
    rw [outcome, deliver]
    -- an empty piece or a lone CRLF is not posted and changes nothing
    by_cases hposted : posted decode piece = true
    · rw [if_pos hposted, verdicts_of_posted hposted]
      dsimp only
      rw [outcome_of_append]
      -- a hit is reported and clears the counter; a miss repeats while repeats are left
      by_cases hkey : s.success_key <:+: decode piece
      · have hrest := @ih { s with time_outs := 0 } hport hcheck
        rw [outcome] at hrest
        rw [get_at_result_hit hcheck hkey, hrest, decide_eq_true hkey, dropMisses_true,
          List.count_cons_of_ne (by decide), outcome_of_sent]
        dsimp only
        rw [Nat.zero_add]
        rfl
      · rw [decide_eq_false hkey, List.count_cons_self]
        cases hleft : repeats_left s with
        | zero =>
          have hrest := @ih { s with time_outs := 0 } hport hcheck
          rw [outcome] at hrest
          rw [get_at_result_miss hcheck hkey hleft, hrest, outcome_of_sent]
          dsimp only
          change repeats_left { s with time_outs := 0 } = 0 at hleft
          rw [hleft, Nat.zero_min, Nat.zero_min, dropMisses, dropMisses]
          rfl
        | succ n =>
          obtain ⟨buffer, hget, hn⟩ :=
            get_at_result_repeat hcheck hport hexist hwrites hkey hleft
          have hrest := @ih { s with
            current_send_times := s.current_send_times + 1, time_outs := 1 } hport hcheck
          rw [outcome, hn] at hrest
          rw [hget, hrest, dropMisses, outcome_of_wrote]
          dsimp only
          rw [List.nil_append, Nat.add_min_add_right, Nat.add_comm]
    · rw [if_neg hposted, verdicts_of_not_posted hposted]
      exact ih hport hcheck

/-- Every piece that is not dropped is a result or a repetition. -/
theorem outcome_total {d : ModemDevice} (hexist : d.exist = true) (hwrites : d.writes = true)
    {s : SerialPortControl} (hport : s.serial_port = true) (hcheck : s.check_already_delay = true)
    (pieces : List (List UInt8)) :
    (outcome decode d s pieces).results.length + (outcome decode d s pieces).resent
      = (pieces.filter (posted decode)).length := by
  rw [outcome_eq hexist hwrites hport hcheck, List.length_map, length_dropMisses, length_verdicts]

/-! ## Two ways to cut

If all cuts of an answer gave the same outcome, so would the cut behind every byte and the
one that leaves the first two bytes together. The first has one piece more, none of its
pieces is dropped, and every piece that is not dropped counts; so an answer of two bytes
already has two outcomes.
-/

/-- A response that is cut behind every byte. -/
def singles (response : List UInt8) : List (List UInt8) := response.map fun b => [b]

theorem posted_singleton (hsingle : ∀ b, decode [b] ≠ at_end) (b : UInt8) :
    posted decode [b] = true := by
  rw [posted, Bool.and_eq_true, decide_eq_true_iff, decide_eq_true_iff]
  exact ⟨List.cons_ne_nil b [], hsingle b⟩

theorem filter_singles (hsingle : ∀ b, decode [b] ≠ at_end) (response : List UInt8) :
    (singles response).filter (posted decode) = singles response := by
  rw [List.filter_eq_self]
  intro p hp
  obtain ⟨b, -, rfl⟩ := List.mem_map.mp hp
  exact posted_singleton hsingle b

theorem flatten_singles (response : List UInt8) : (singles response).flatten = response := by
  induction response with
  | nil => rfl
  | cons b response ih =>
    rw [singles, List.map_cons, List.flatten_cons, ← singles, ih]
    rfl

theorem singles_sized {response p : List UInt8} (hp : p ∈ singles response) :
    p ≠ [] ∧ p.length ≤ serial_buffer := by
  obtain ⟨b, -, rfl⟩ := List.mem_map.mp hp
  exact ⟨List.cons_ne_nil b [], Nat.le_add_left 1 1023⟩

theorem singles_isCut (response : List UInt8) : IsCut response (singles response) :=
  ⟨flatten_singles response, fun _ => singles_sized⟩

/-- The cut behind every byte but the first is a cut as well. -/
theorem first_pair_isCut (x y : UInt8) (response : List UInt8) :
    IsCut (x :: y :: response) ([x, y] :: singles response) := by
  refine ⟨?_, fun p hp => ?_⟩
  · rw [List.flatten_cons, flatten_singles]
    rfl
  · rcases List.mem_cons.mp hp with rfl | hp
    · exact ⟨List.cons_ne_nil x [y], Nat.le_add_left 2 1022⟩
    · exact singles_sized hp

/-- A response of one byte or none has only one cut. -/
theorem IsCut.unique {response : List UInt8} (h : response.length ≤ 1) {P : List (List UInt8)}
    (hP : IsCut response P) : P = singles response := by
  obtain ⟨hjoined, hsized⟩ := hP
  cases P with
  | nil =>
    subst hjoined
    rfl
  | cons p P =>
    have hp := (hsized p List.mem_cons_self).1
    have hpos := List.length_pos_iff.mpr hp
    rw [List.flatten_cons] at hjoined
    have hlen := congrArg List.length hjoined
    rw [List.length_append] at hlen
    have hrest : P = [] := by
      cases P with
      | nil => rfl
      | cons q P =>
        have hq := List.length_pos_iff.mpr (hsized q (by simp)).1
        rw [List.flatten_cons, List.length_append] at hlen
        omega
    subst hrest
    rw [List.flatten_nil, List.append_nil] at hjoined
    obtain ⟨b, rfl⟩ := List.length_eq_one_iff.mp (show p.length = 1 by
      rw [hjoined] at hpos ⊢
      omega)
    subst hjoined
    rfl

/-- A response of two bytes or more has two cuts with different outcomes: cut behind every byte
it has one posted piece more. -/
theorem outcome_singles_ne (hsingle : ∀ b, decode [b] ≠ at_end) {d : ModemDevice}
    (hexist : d.exist = true) (hwrites : d.writes = true) {s : SerialPortControl}
    (hport : s.serial_port = true) (hcheck : s.check_already_delay = true) (x y : UInt8)
    (response : List UInt8) :
    outcome decode d s (singles (x :: y :: response))
      ≠ outcome decode d s ([x, y] :: singles response) := by
  intro heq
  have hall := @outcome_total decode d hexist hwrites s hport hcheck (singles (x :: y :: response))
  have hpair := @outcome_total decode d hexist hwrites s hport hcheck ([x, y] :: singles response)
  rw [heq, hpair, filter_singles hsingle] at hall
  have hshort := List.length_filter_le (posted decode) ([x, y] :: singles response)
  rw [hall] at hshort
  simp [singles] at hshort

/-- A command that `sendCommand` reports as sent went to a device that takes writes. -/
theorem send_command_sent {s : SerialPortControl} {d : ModemDevice} {a : CommandArgs}
    (hport : s.serial_port = true) (h : (send_command s d a).2.2 = true) :
    d.exist = true ∧ d.writes = true ∧ (send_command s d a).1.serial_port = true ∧
      (send_command s d a).1.check_already_delay = a.check := by
  rw [send_command] at h ⊢
  by_cases hexist : d.exist = false
  · rw [if_pos hexist] at h
    cases h
  rw [if_neg hexist] at h ⊢
  dsimp only at h ⊢
  rw [write_command] at h ⊢
  dsimp only at h ⊢
  rw [hport, if_neg (by decide)] at h ⊢
  by_cases hwrites : d.writes = true
  · rw [if_pos hwrites]
    exact ⟨(Bool.not_eq_false _).mp hexist, hwrites, rfl, rfl⟩
  · rw [if_neg hwrites] at h
    cases h

theorem result_event_injective : Function.Injective result_event := by
  intro v w h
  cases v <;> cases w <;> first | rfl | cases h

/-- **Cuts agree exactly when their verdicts do, and all cuts of a response agree exactly when
there is only one.** -/
theorem verdict_cut_iff (hsingle : ∀ b, decode [b] ≠ at_end) {s : SerialPortControl}
    {d : ModemDevice} {a : CommandArgs} (hport : s.serial_port = true) (hcheck : a.check = true)
    (hsent : (send_command s d a).2.2 = true) (response : List UInt8) :
    (∀ P Q, IsCut response P → IsCut response Q →
      (outcome decode d (send_command s d a).1 P = outcome decode d (send_command s d a).1 Q
        ↔ SameVerdicts decode (send_command s d a).1 P Q)) ∧
    ((∀ P Q, IsCut response P → IsCut response Q →
      outcome decode d (send_command s d a).1 P = outcome decode d (send_command s d a).1 Q)
        ↔ response.length ≤ 1) := by
  obtain ⟨hexist, hwrites, hopen, hchecked⟩ := send_command_sent hport hsent
  rw [hcheck] at hchecked
  refine ⟨fun P Q _ _ => ?_, fun h => ?_, fun h P Q hP hQ => ?_⟩
  · rw [outcome_eq hexist hwrites hopen hchecked, outcome_eq hexist hwrites hopen hchecked,
      Outcome.mk.injEq, (List.map_injective_iff.mpr result_event_injective).eq_iff]
    rfl
  · by_contra hlong
    match response, hlong, h with
    | [], hlong, _ => exact hlong (Nat.zero_le 1)
    | [b], hlong, _ => exact hlong le_rfl
    | x :: y :: response, _, h =>
      exact outcome_singles_ne hsingle hexist hwrites hopen hchecked x y response
        (h _ _ (singles_isCut _) (first_pair_isCut x y response))
  · rw [hP.unique h, hQ.unique h]

end Cuts

/-- A fresh object with its port open, and `AT` sent with the key `OK`. -/
def fresh_port : SerialPortControl := { main_handler := 0, serial_port := true }

def at_args : CommandArgs := ⟨0, ['A', 'T'], ['O', 'K'], 1, true, true⟩

/-- `new String` for the characters of ASCII; other bytes, which are never a character of their
own, become the replacement character here. -/
def decode_ascii (bytes : List UInt8) : Text :=
  bytes.map fun b => if b < 128 then Char.ofNat b.toNat else Char.ofNat 0xFFFD

theorem decode_ascii_single (b : UInt8) : decode_ascii [b] ≠ at_end := by
  intro h
  cases congrArg List.length h

/-- A response of one byte, `O`. -/
theorem verdict_cut_iff_fresh :
    (send_command fresh_port ⟨true, true⟩ at_args).2.2 = true ∧
      ((∀ P Q, IsCut [79] P → IsCut [79] Q →
        outcome decode_ascii ⟨true, true⟩ (send_command fresh_port ⟨true, true⟩ at_args).1 P
          = outcome decode_ascii ⟨true, true⟩ (send_command fresh_port ⟨true, true⟩ at_args).1 Q)
        ↔ ([79] : List UInt8).length ≤ 1) :=
  ⟨rfl, (@verdict_cut_iff decode_ascii decode_ascii_single fresh_port ⟨true, true⟩ at_args rfl rfl
    rfl [79]).2⟩

/-- `OK` in one piece is a success, in two it is two repetitions. -/
theorem ok_cut_in_two :
    IsCut [79, 75] [[79, 75]] ∧ IsCut [79, 75] [[79], [75]] ∧
      outcome decode_ascii ⟨true, true⟩ (send_command fresh_port ⟨true, true⟩ at_args).1 [[79, 75]]
        = ⟨[.result_success], 0⟩ ∧
      outcome decode_ascii ⟨true, true⟩ (send_command fresh_port ⟨true, true⟩ at_args).1
        [[79], [75]] = ⟨[], 2⟩ ∧
      ¬ ∀ P Q, IsCut [79, 75] P → IsCut [79, 75] Q →
        outcome decode_ascii ⟨true, true⟩ (send_command fresh_port ⟨true, true⟩ at_args).1 P
          = outcome decode_ascii ⟨true, true⟩
            (send_command fresh_port ⟨true, true⟩ at_args).1 Q := by
  have hone : IsCut [79, 75] [[79, 75]] := ⟨rfl, by decide⟩
  have htwo : IsCut [79, 75] [[79], [75]] := ⟨rfl, by decide⟩
  refine ⟨hone, htwo, by decide, by decide, fun h => ?_⟩
  exact absurd (h _ _ hone htwo) (by decide)

end AndroidTools.Logtool
