/-
`SerialPortControl`: AT commands and the verdict on their answers.

The handler tests what the port delivers against the success key of the current
command. In the mode without `check` the text is appended to `mMessage` and tested
300 ms after the last piece; nothing ever empties `mMessage`, and a new command does
not take back the delayed check of the one before. So a check can find its key in
text that was received for other commands.

What a check finds follows from the events alone, and `History` says how: which key
is wanted and in which mode, the text accumulated before the current command and the
text received since, and whether a check is waiting. `Agrees` is the invariant that
ties the fields of the object to it through every step. The condition under which
all reported successes are the command's own, `NoStaleCheck`, speaks of the history
only.
-/
import Mathlib.Tactic

set_option autoImplicit false

namespace AndroidTools.Logtool

/-! ## The object

The object and what it has waiting: a delayed check, a time-out, the text that it
accumulates. What it does outside is a list of effects, and what it asks of the device is
given with each event.
-/

/-- A Java string, as far as it is appended, compared and searched. -/
abbrev Text := List Char

/-- `AT_END`, a line break by itself. -/
def at_end : Text := ['\r', '\n']

/-- `REPEAT_DEFAULT`, the number of repetitions that a new object starts with. -/
def repeat_default : BitVec 32 := 5

/-- The events that are sent to `mMainHandler`. -/
inductive MainEvent where
  | result_fail
  | result_success
  | time_out_no_response
  deriving Repr, DecidableEq

/-- A message to the main handler `target`; an empty one has neither `obj` nor data. -/
structure MainMessage where
  target : ℕ
  what : MainEvent
  obj : Option Text
  arg1 : ℤ
  command : Option Text
  deriving Repr, DecidableEq

/-- What a step does outside the object: it writes to the port, or sends a message. -/
inductive PortEffect where
  | wrote (buffer : Text)
  | sent (m : MainMessage)
  deriving Repr, DecidableEq

/-- What `isDeviceExist` and `mSerialPort.write` would answer at the time of the step. -/
structure ModemDevice where
  exist : Bool
  writes : Bool
  deriving Repr, DecidableEq

/-- `SerialPortControl`, with the callbacks it has waiting: `delayed` is `mRunnable`
on `mHandler`, `time_outs` counts `mTimeOutRunnable`. -/
structure SerialPortControl where
  main_handler : ℕ
  serial_port : Bool
  command : Option Text := none
  max_time : BitVec 32 := repeat_default
  success_key : Text := []
  current_send_times : BitVec 32 := 0
  mode : ℤ := 0
  repeate : Bool := true
  check_already_delay : Bool := true
  message : Text := []
  delayed : Bool := false
  time_outs : ℕ := 0
  deriving Repr, DecidableEq

/-- The arguments of `sendCommand`. -/
structure CommandArgs where
  handler : ℕ
  command : Text
  success_key : Text
  mode : ℤ
  repeate : Bool
  check : Bool
  deriving Repr, DecidableEq

/-! ## The functions

Each function of the source takes the object and returns it with its effects. The delayed
check and the time-out are callbacks; they do something only while they are waiting.
-/

/-- `mSerialPort.write` of the command, `none` for the `IOException`. -/
def write_command (s : SerialPortControl) (d : ModemDevice) : Option (List PortEffect) :=
  if s.serial_port = false then some []
  else if d.writes then some [.wrote (s.command.getD ['n', 'u', 'l', 'l'] ++ at_end)]
  else none

/-- `sendCommand`: the object, what is done outside, and the value returned. -/
def send_command (s : SerialPortControl) (d : ModemDevice) (a : CommandArgs) :
    SerialPortControl × List PortEffect × Bool :=
  if d.exist = false then (s, [], false)
  else
    let s : SerialPortControl := { s with
      repeate := a.repeate
      check_already_delay := a.check
      command := some a.command
      success_key := a.success_key
      current_send_times := 0
      mode := a.mode
      main_handler := a.handler }
    match write_command s d with
    | some done => ({ s with current_send_times := 1, time_outs := s.time_outs + 1 }, done, true)
    | none => (s, [], false)

/-- `sendRepeatCommand`. -/
def send_repeat_command (s : SerialPortControl) (d : ModemDevice) :
    SerialPortControl × List PortEffect :=
  if d.exist = false then (s, [])
  else
    match write_command s d with
    | some done => ({ s with time_outs := s.time_outs + 1 }, done)
    | none => (s, [])

/-- `sendSuccess` and `sendFail`. -/
def result_message (s : SerialPortControl) (what : MainEvent) (obj : Text) : MainMessage :=
  ⟨s.main_handler, what, some obj, s.mode, s.command⟩

/-- `sendNext`; the message carries the text itself. -/
def send_next (s : SerialPortControl) (d : ModemDevice) (result : Text) :
    SerialPortControl × List PortEffect :=
  if s.success_key <:+: result then (s, [.sent (result_message s .result_success result)])
  else if s.current_send_times = s.max_time then
    (s, [.sent (result_message s .result_fail result)])
  else if s.repeate then
    let s := { s with current_send_times := s.current_send_times + 1 }
    if s.serial_port then send_repeat_command s d else (s, [])
  else (s, [.sent (result_message s .result_fail result)])

/-- `handleMessage` of `EVENT_GET_AT_RESULT`, for a text that the port has delivered. -/
def get_at_result (s : SerialPortControl) (d : ModemDevice) (result : Text) :
    SerialPortControl × List PortEffect :=
  let s := { s with time_outs := 0 }
  if s.check_already_delay = false then
    ({ s with message := s.message ++ result, delayed := true }, [])
  else send_next s d result

/-- `mRunnable`, which tests the accumulated text; it can fire only while it is waiting. -/
def delayed_check (s : SerialPortControl) (d : ModemDevice) : SerialPortControl × List PortEffect :=
  if s.delayed then send_next { s with delayed := false } d s.message else (s, [])

/-- `mTimeOutRunnable`, which reports a failure; it can fire only while it is waiting. -/
def time_out (s : SerialPortControl) : SerialPortControl × List PortEffect :=
  if s.time_outs = 0 then (s, [])
  else ({ s with time_outs := s.time_outs - 1 },
    [.sent ⟨s.main_handler, .time_out_no_response, none, 0, none⟩])

/-! ## Runs

Events come in any order. Beside the object stands a `History`, computed from the events
alone: what was received for the current command, and what had been accumulated before. The
property and the condition are both stated with it, so neither depends on what the object
has in its fields.
-/

/-- What happens to the object, with the device as it is then. -/
inductive PortEvent where
  | send_command (d : ModemDevice) (a : CommandArgs)
  | set_repeat_max_times (time : BitVec 32)
  | chunk (d : ModemDevice) (text : Text)
  | delayed_check (d : ModemDevice)
  | time_out
  deriving Repr, DecidableEq

def SerialPortControl.step (s : SerialPortControl) :
    PortEvent → SerialPortControl × List PortEffect
  | .send_command d a => ((send_command s d a).1, (send_command s d a).2.1)
  | .set_repeat_max_times time => ({ s with max_time := time }, [])
  | .chunk d text => get_at_result s d text
  | .delayed_check d => delayed_check s d
  | .time_out => time_out s

/-- A new object after the events, one after the other. -/
def control (handler : ℕ) (port : Bool) (es : List PortEvent) : SerialPortControl :=
  es.foldl (fun s e => (s.step e).1) { main_handler := handler, serial_port := port }

/-- What the events say of the current command: its key and mode, the text that was accumulated
before it, the text received since it was sent, and whether a delayed check is waiting. -/
structure History where
  key : Text := []
  check : Bool := true
  earlier : Text := []
  received : Text := []
  waiting : Bool := false
  deriving Repr, DecidableEq

/-- A command that finds the device adds the text of the one before to what was accumulated, if
that one accumulated its text, and starts without text of its own; it does not take the waiting
check back. -/
def History.step (h : History) : PortEvent → History
  | .send_command d a =>
    if d.exist = false then h
    else { h with
      key := a.success_key
      check := a.check
      earlier := h.earlier ++ if h.check then [] else h.received
      received := [] }
  | .chunk _ text =>
    { h with received := h.received ++ text, waiting := h.waiting || !h.check }
  | .delayed_check _ => { h with waiting := false }
  | .set_repeat_max_times _ => h
  | .time_out => h

def history (es : List PortEvent) : History := es.foldl History.step {}

/-- A success sent in this step is backed by the text received since the command. -/
def SuccessIsOwn (s : SerialPortControl) (h : History) (e : PortEvent) : Prop :=
  ∀ m, .sent m ∈ (s.step e).2 → m.what = .result_success → h.key <:+: (h.step e).received

/-- A check is waiting, and the key of the current command is in the text accumulated before it
and since, but not in what was received for the command alone. A command with `check`
accumulates nothing. -/
def Stale (h : History) : Prop :=
  h.waiting = true ∧ h.key <:+: h.earlier ++ (if h.check then [] else h.received) ∧
    ¬ h.key <:+: h.received

/-- Every success that the run reports is the current command's own. -/
def OwnSuccesses (handler : ℕ) (port : Bool) (es : List PortEvent) : Prop :=
  ∀ front e back, es = front ++ e :: back →
    SuccessIsOwn (control handler port front) (history front) e

/-- No delayed check of the run is stale when it fires. -/
def NoStaleCheck (es : List PortEvent) : Prop :=
  ∀ front d back, es = front ++ .delayed_check d :: back → ¬ Stale (history front)

/-! ## One step

A success is reported for a text that contains the key and for no other, so it is enough to
know which text was tested.
-/

theorem mem_write_command {s : SerialPortControl} {d : ModemDevice} {done : List PortEffect}
    (h : write_command s d = some done) (m : MainMessage) : .sent m ∉ done := by
  unfold write_command at h
  intro hm
  split_ifs at h
  · obtain rfl := Option.some.inj h
    exact absurd hm List.not_mem_nil
  · obtain rfl := Option.some.inj h
    cases List.mem_singleton.mp hm

/-- Sending a command reports nothing. -/
theorem mem_send_command {s : SerialPortControl} {d : ModemDevice} {a : CommandArgs}
    (m : MainMessage) : .sent m ∉ (send_command s d a).2.1 := by
  unfold send_command
  split_ifs
  · exact List.not_mem_nil
  · dsimp only
    split
    · next done hdone => exact mem_write_command hdone m
    · exact List.not_mem_nil

theorem mem_send_repeat_command {s : SerialPortControl} {d : ModemDevice} (m : MainMessage) :
    .sent m ∉ (send_repeat_command s d).2 := by
  unfold send_repeat_command
  split_ifs
  · exact List.not_mem_nil
  · split
    · next done hdone => exact mem_write_command hdone m
    · exact List.not_mem_nil

/-- A success is sent for a text that contains the key and for no other. -/
theorem contains_of_send_next {s : SerialPortControl} {d : ModemDevice} {result : Text}
    {m : MainMessage} (hm : .sent m ∈ (send_next s d result).2) (hwhat : m.what = .result_success) :
    s.success_key <:+: result := by
  unfold send_next at hm
  dsimp only at hm
  split_ifs at hm with hkey
  · exact hkey
  · cases List.mem_singleton.mp hm
    cases hwhat
  · exact absurd hm (mem_send_repeat_command m)
  · exact absurd hm List.not_mem_nil
  · cases List.mem_singleton.mp hm
    cases hwhat

/-- A text that contains the key is reported as a success, and nothing else happens. -/
theorem send_next_of_contains {s : SerialPortControl} {result : Text}
    (h : s.success_key <:+: result) (d : ModemDevice) :
    send_next s d result = (s, [.sent (result_message s .result_success result)]) := if_pos h

theorem get_at_result_of_delay {s : SerialPortControl} (h : s.check_already_delay = false)
    (d : ModemDevice) (result : Text) :
    get_at_result s d result
      = ({ s with time_outs := 0, message := s.message ++ result, delayed := true }, []) :=
  if_pos h

theorem get_at_result_of_check {s : SerialPortControl} (h : s.check_already_delay = true)
    (d : ModemDevice) (result : Text) :
    get_at_result s d result = send_next { s with time_outs := 0 } d result :=
  if_neg (by
    dsimp only
    rw [h]
    decide)

/-! ## The object and the history

`Agrees` is the invariant between the object and the history. Its last part is the defect:
the object's text is all that was accumulated since it was made, because nothing empties it.
-/

/-- The object holds what the events say: nothing ever empties `mMessage`. -/
structure Agrees (s : SerialPortControl) (h : History) : Prop where
  key : s.success_key = h.key
  check : s.check_already_delay = h.check
  waiting : s.delayed = h.waiting
  message : s.message = h.earlier ++ if h.check then [] else h.received

/-- A step that changes none of the four fields agrees with what is unchanged in the history. -/
theorem Agrees.of_kept {s s' : SerialPortControl} {h : History} (hs : Agrees s h)
    (hkey : s'.success_key = s.success_key)
    (hcheck : s'.check_already_delay = s.check_already_delay)
    (hwaiting : s'.delayed = s.delayed) (hmessage : s'.message = s.message) : Agrees s' h where
  key := hkey.trans hs.key
  check := hcheck.trans hs.check
  waiting := hwaiting.trans hs.waiting
  message := hmessage.trans hs.message

theorem Agrees.send_repeat_command {s : SerialPortControl} {h : History} (hs : Agrees s h)
    (d : ModemDevice) : Agrees (send_repeat_command s d).1 h := by
  unfold Logtool.send_repeat_command
  split_ifs
  · exact hs
  · split
    · exact hs.of_kept rfl rfl rfl rfl
    · exact hs

theorem Agrees.send_next {s : SerialPortControl} {h : History} (hs : Agrees s h)
    (d : ModemDevice) (result : Text) : Agrees (send_next s d result).1 h := by
  have hagain : Agrees { s with current_send_times := s.current_send_times + 1 } h :=
    hs.of_kept rfl rfl rfl rfl
  unfold Logtool.send_next
  dsimp only
  split_ifs
  · exact hs
  · exact hs
  · exact hagain.send_repeat_command d
  · exact hagain
  · exact hs

theorem Agrees.send_command {s : SerialPortControl} {h : History} (hs : Agrees s h)
    (d : ModemDevice) (a : CommandArgs) :
    Agrees (send_command s d a).1 (h.step (.send_command d a)) := by
  rw [Logtool.send_command, History.step]
  by_cases hexist : d.exist = false
  · rw [if_pos hexist, if_pos hexist]
    exact hs
  -- whether the write goes through or not, the fields of the command are set
  · have hmessage : s.message
        = (h.earlier ++ if h.check then [] else h.received) ++ if a.check then [] else [] := by
      rw [ite_self, List.append_nil, hs.message]
    rw [if_neg hexist, if_neg hexist]
    dsimp only
    split
    · exact ⟨rfl, rfl, hs.waiting, hmessage⟩
    · exact ⟨rfl, rfl, hs.waiting, hmessage⟩

theorem Agrees.get_at_result {s : SerialPortControl} {h : History} (hs : Agrees s h)
    (d : ModemDevice) (text : Text) :
    Agrees (get_at_result s d text).1 (h.step (.chunk d text)) := by
  have hmessage := hs.message
  cases hcheck : h.check with
  | false =>
    rw [hcheck] at hmessage
    rw [get_at_result_of_delay (hs.check.trans hcheck)]
    refine ⟨hs.key, hs.check, ?_, ?_⟩
    · simp only [History.step, hcheck, Bool.not_false, Bool.or_true]
    · simp only [History.step, hcheck, hmessage, List.append_assoc, Bool.false_eq_true, if_false]
  | true =>
    rw [get_at_result_of_check (hs.check.trans hcheck)]
    -- the text is tested at once and kept nowhere
    have hkept : Agrees { s with time_outs := 0 } (h.step (.chunk d text)) := by
      refine ⟨hs.key, hs.check, ?_, ?_⟩
      · simp only [History.step, hcheck, hs.waiting, Bool.not_true, Bool.or_false]
      · simp only [History.step, hcheck, hmessage, if_true]
    exact hkept.send_next d text

theorem Agrees.delayed_check {s : SerialPortControl} {h : History} (hs : Agrees s h)
    (d : ModemDevice) : Agrees (delayed_check s d).1 (h.step (.delayed_check d)) := by
  rw [Logtool.delayed_check]
  by_cases hdelayed : s.delayed = true
  · have hfired : Agrees { s with delayed := false } (h.step (.delayed_check d)) :=
      ⟨hs.key, hs.check, rfl, hs.message⟩
    rw [if_pos hdelayed]
    exact hfired.send_next d s.message
  · rw [if_neg hdelayed]
    rw [Bool.not_eq_true] at hdelayed
    exact ⟨hs.key, hs.check, hdelayed, hs.message⟩

/-- **The object agrees with the history** after every step, if it did before. -/
theorem Agrees.step {s : SerialPortControl} {h : History} (hs : Agrees s h) (e : PortEvent) :
    Agrees (s.step e).1 (h.step e) := by
  cases e with
  | send_command d a => exact hs.send_command d a
  | set_repeat_max_times time => exact hs.of_kept rfl rfl rfl rfl
  | chunk d text => exact hs.get_at_result d text
  | delayed_check d => exact hs.delayed_check d
  | time_out =>
    change Agrees (time_out s).1 h
    unfold Logtool.time_out
    split_ifs
    · exact hs
    · exact hs.of_kept rfl rfl rfl rfl

theorem agrees (handler : ℕ) (port : Bool) (es : List PortEvent) :
    Agrees (control handler port es) (history es) := by
  induction es using List.reverseRecOn with
  | nil => exact ⟨rfl, rfl, rfl, rfl⟩
  | append_singleton es e ih =>
    rw [control, history, List.foldl_append, List.foldl_append]
    exact ih.step e

/-! ## Whose success it is

A chunk that is tested at once is text of the current command. A delayed check tests what
was accumulated, and that is the only way a success can be another command's.
-/

section OneStep

variable {s : SerialPortControl} {h : History}

/-- A chunk that is tested at once is text of the current command. -/
theorem chunk_is_own (hs : Agrees s h) (d : ModemDevice) (text : Text) :
    SuccessIsOwn s h (.chunk d text) := by
  intro m hm hwhat
  have hmem : .sent m ∈ (get_at_result s d text).2 := hm
  cases hcheck : s.check_already_delay with
  | false =>
    rw [get_at_result_of_delay hcheck] at hmem
    exact absurd hmem List.not_mem_nil
  | true =>
    rw [get_at_result_of_check hcheck] at hmem
    have hkey := contains_of_send_next hmem hwhat
    rw [← hs.key]
    exact hkey.trans (List.suffix_append _ _).isInfix

/-- The delayed check reports its own success exactly when it is not stale. -/
theorem delayed_check_is_own_iff (hs : Agrees s h) (d : ModemDevice) :
    SuccessIsOwn s h (.delayed_check d) ↔ ¬ Stale h := by
  have hstep : s.step (.delayed_check d) = delayed_check s d := rfl
  rw [Stale, ← hs.key, ← hs.message, ← hs.waiting]
  constructor
  · rintro hown ⟨hdelayed, hkey, hnot⟩
    have hsent := @send_next_of_contains { s with delayed := false } _ hkey d
    rw [SuccessIsOwn, hstep, delayed_check, if_pos hdelayed, hsent, ← hs.key] at hown
    exact hnot (hown _ (List.mem_singleton_self _) rfl)
  · intro hnot m hm hwhat
    rw [hstep, delayed_check] at hm
    split_ifs at hm with hdelayed
    · have hkey := contains_of_send_next hm hwhat
      by_contra hforeign
      rw [← hs.key] at hforeign
      exact hnot ⟨hdelayed, hkey, hforeign⟩
    · exact absurd hm List.not_mem_nil

/-- Only the delayed check can report a success that is not the command's own. -/
theorem success_is_own_iff (hs : Agrees s h) (e : PortEvent) :
    SuccessIsOwn s h e ↔ ∀ d, e = .delayed_check d → ¬ Stale h := by
  cases e with
  | send_command d a =>
    exact ⟨fun _ d' h => (by cases h), fun _ m hm => absurd hm (mem_send_command m)⟩
  | set_repeat_max_times time =>
    exact ⟨fun _ d' h => (by cases h), fun _ m hm => absurd hm List.not_mem_nil⟩
  | chunk d text =>
    exact ⟨fun _ d' h => (by cases h), fun _ => chunk_is_own hs d text⟩
  | delayed_check d =>
    rw [delayed_check_is_own_iff hs]
    exact ⟨fun h _ _ => h, fun h => h d rfl⟩
  | time_out =>
    refine ⟨fun _ d' h => (by cases h), fun _ m hm hwhat => ?_⟩
    have hmem : .sent m ∈ (time_out s).2 := hm
    unfold time_out at hmem
    split_ifs at hmem
    · exact absurd hmem List.not_mem_nil
    · cases List.mem_singleton.mp hmem
      cases hwhat

end OneStep

/-- **Every reported success is the command's own exactly when no check fires stale.** For every
sequence of events; the condition speaks of keys and texts, not of the object. -/
theorem own_successes_iff (handler : ℕ) (port : Bool) (es : List PortEvent) :
    OwnSuccesses handler port es ↔ NoStaleCheck es := by
  constructor
  · intro hown front d back hes
    exact (delayed_check_is_own_iff (agrees handler port front) d).mp
      (hown front (.delayed_check d) back hes)
  · intro hno front e back hes
    refine (success_is_own_iff (agrees handler port front) e).mpr fun d he => ?_
    subst he
    exact hno front d back hes

/-- A command that is answered OK, and one that is answered ERROR. -/
def answered_error : List PortEvent :=
  [.send_command ⟨true, true⟩ ⟨0, ['A', 'T'], ['O', 'K'], 1, false, false⟩,
    .chunk ⟨true, true⟩ ['O', 'K'], .delayed_check ⟨true, true⟩,
    .send_command ⟨true, true⟩ ⟨0, ['A', 'T', 'I'], ['O', 'K'], 1, false, false⟩,
    .chunk ⟨true, true⟩ ['E', 'R', 'R', 'O', 'R'], .delayed_check ⟨true, true⟩]

/-- The second of these two commands was answered with an error, and is reported successful as
well. -/
theorem answered_error_succeeds :
    .sent ⟨0, .result_success, some ['O', 'K', 'E', 'R', 'R', 'O', 'R'], 1, some ['A', 'T', 'I']⟩
        ∈ ((control 0 true (answered_error.take 5)).step (.delayed_check ⟨true, true⟩)).2 ∧
      (history (answered_error.take 5)).received = ['E', 'R', 'R', 'O', 'R'] ∧
      ¬ OwnSuccesses 0 true answered_error := by
  refine ⟨by decide, by decide, fun h => ?_⟩
  have hown := h (answered_error.take 5) (.delayed_check ⟨true, true⟩) [] rfl
  have hnot := (delayed_check_is_own_iff (agrees 0 true (answered_error.take 5)) _).mp hown
  exact hnot ⟨by decide, by decide, by decide⟩

end AndroidTools.Logtool
