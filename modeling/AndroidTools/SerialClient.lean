/-
`serial_client`: from the command line to the bytes written on the port.

Every `-c`, `-z` and `-w` decodes its argument into the front of the one buffer `s_atCommand` and
appends its terminator with `strlcat`, which starts from the end of the string in the buffer.
Nothing clears the buffer in between, so behind a shorter argument the tail of an earlier one is
still there. `left_over` is the length the earlier options leave, and the last command goes out
alone exactly when its decoded argument covers that length.

The functions of the source are modelled on a buffer of bytes, with C strings in it. For options
whose arguments decode, `next_string` says what one of them does to the string in the buffer, and
the run over a command line follows from it by induction over the options.
-/
import AndroidTools.Lib.CString
import AndroidTools.Lib.Hex

set_option autoImplicit false

namespace AndroidTools.SerialClient

open AndroidTools.Bytes AndroidTools.CString AndroidTools.Hex AndroidTools.Text

/-! ## `StringProcess`

The decoder of an argument, over the rest of the array it reads from and the buffer it
writes to. Where it would read what was never set, it has no result.
-/

/-- `BUFFSIZE`, the size of the buffers. -/
def buffsize : ℕ := 1024

def to_char (b : UInt8) : Char := Char.ofNat b.toNat

/-- `(uint8_t)strtoul(num, NULL, 16)` of at most two characters. -/
def strtoul16 (num : List UInt8) : UInt8 :=
  match ((cstr num).map to_char).dropWhile isspace with
  | '-' :: cs => UInt8.ofNat (2 ^ 64 - hexNat (cs.takeWhile isHex))
  | '+' :: cs => UInt8.ofNat (hexNat (cs.takeWhile isHex))
  | cs => UInt8.ofNat (hexNat (cs.takeWhile isHex))

/-- The loop of `StringProcess` on the rest of `tmpString`, `n` being `len - i`. It
is `none` when it reads behind the terminator, where `tmpString` is not set. -/
def process_loop : List UInt8 → ℕ → ℕ → List UInt8 → Option (ℤ × List UInt8)
  | _, 0, _, buf => some (0, buf)
  | [], _ + 1, _, _ => none
  | c :: cs, n + 1, j, buf =>
    -- anything but a backslash
    if c ≠ 0x5C then (put buf j c).bind (process_loop cs n (j + 1))
    else
      match cs with
      | [] => none
      | e :: cs =>
        if e = 0x78 then
          -- two hexadecimal digits, for three bytes of the count
          match cs with
          | h :: l :: cs => (put buf j (strtoul16 [h, l])).bind (process_loop cs (n - 3) (j + 1))
          | _ => none
        else if e = 0x72 then (put buf j 0x0D).bind (process_loop cs (n - 1) (j + 1))
        else some (-1, buf)

/-- `StringProcess`: the return value, and `s_atCommand` as it is left. -/
def string_process (pString s_atCommand : List UInt8) : Option (ℤ × List UInt8) :=
  let len := pString.length
  if len = 0 then some (-1, s_atCommand)
  else process_loop (pString.take (buffsize - 1) ++ [0]) len 0 s_atCommand

/-! ## `GetArgs`

The options from left to right, with the buffer carried along. Each of the three that take a
command has its own terminator.
-/

structure ClientState where
  s_atCommand : List UInt8
  s_isWait : Bool
  acDeviceName1 : List UInt8
  deriving Repr, DecidableEq

/-- What the switch of an option appends, for the three that take a command. -/
def switch_terminator (sw : UInt8) : Option (List UInt8) :=
  if sw = 0x63 then some [0x0D]
  else if sw = 0x7A then some [0x1A, 0x0D]
  else if sw = 0x77 then some [0x0D]
  else none

/-- `case 'c'`, `'z'` and `'w'`: a failed `StringProcess` leaves with its code. -/
def append_command (sw : UInt8) (pString term : List UInt8) (st : ClientState) :
    Option (ℤ × ClientState) :=
  (string_process pString st.s_atCommand).map fun r =>
    if r.1 < 0 then (r.1, { st with s_atCommand := r.2 })
    else (0, { st with
      s_atCommand := strlcat r.2 term
      s_isWait := if sw = 0x77 then false else st.s_isWait })

/-- `GetArgs` from `argv[i]` on. The argument of a last option is `NULL`. -/
def get_args : List (List UInt8) → ClientState → Option (ℤ × ClientState)
  | [], st => some (0, st)
  | arg :: rest, st =>
    if arg.head? = some 0x2D then
      match switch_terminator (arg.getD 1 0) with
      | some term =>
        match rest with
        | [] => none
        | pString :: rest =>
          (append_command (arg.getD 1 0) pString term st).bind fun r =>
            if r.1 < 0 then some r else get_args rest r.2
      | none => if arg.getD 1 0 = 0x68 then some (1, st) else some (-1, st)
    else
      let r := strlcpy st.acDeviceName1 arg
      if r.1 = 0 then some (-1, st) else get_args rest { st with acDeviceName1 := r.2 }

/-! ## `main`

Both buffers are cleared, the options are read, and the string in the buffer is written,
unless it is empty.
-/

/-- How `main` ends: with undefined behaviour, before the device is opened, without
anything to write, or with a buffer handed to `write`. -/
inductive ClientResult where
  | undefined
  | returned (code : ℤ)
  | silent
  | wrote (bytes : List UInt8)
  deriving Repr, DecidableEq

/-- The static buffers after the two `memset`s. -/
def cleared_state : ClientState := ⟨hold buffsize [], true, hold 4096 []⟩

/-- `main` on the arguments behind the command name, with a device that opens. -/
def client_main (argv : List (List UInt8)) : ClientResult :=
  match get_args argv cleared_state with
  | none => .undefined
  | some (ret, st) =>
    if ret = -1 then .returned (-1)
    else if ret = 1 then .returned 0
    else if st.s_atCommand.getD 0 0 ≠ 0 then .wrote (cstr st.s_atCommand)
    else .silent

/-! ## Options

A command line as its user means it: options with arguments, and what each argument stands
for. `left_over` is about lengths only, as whether an option covers the earlier ones does
not depend on their bytes.
-/

/-- What an argument stands for: `\r` is a carriage return, `\xHH` a byte other than
zero, every other character itself. -/
inductive Decodes : List UInt8 → List UInt8 → Prop
  | nil : Decodes [] []
  | char {c : UInt8} {a d : List UInt8} : c ≠ 0 → c ≠ 0x5C → Decodes a d →
      Decodes (c :: a) (c :: d)
  | cr {a d : List UInt8} : Decodes a d → Decodes (0x5C :: 0x72 :: a) (0x0D :: d)
  | hex {h l v : UInt8} {a d : List UInt8} : isHex (to_char h) = true → isHex (to_char l) = true →
      v = UInt8.ofNat (hexValue (to_char h) * 16 + hexValue (to_char l)) → v ≠ 0 →
      Decodes a d → Decodes (0x5C :: 0x78 :: h :: l :: a) (v :: d)

inductive Switch where
  | c
  | z
  | w
  deriving Repr, DecidableEq

/-- The argument `-c`, `-z` or `-w`. -/
def Switch.text : Switch → List UInt8
  | c => [0x2D, 0x63]
  | z => [0x2D, 0x7A]
  | w => [0x2D, 0x77]

/-- CR, and `0x1A` CR for `-z`. -/
def Switch.terminator : Switch → List UInt8
  | c => [0x0D]
  | z => [0x1A, 0x0D]
  | w => [0x0D]

/-- An option with a short argument of valid escapes only, and what the argument decodes to. -/
structure CommandOption where
  switch : Switch
  argument : List UInt8
  decoded : List UInt8
  short : argument.length < 1020
  decodes : Decodes argument decoded

/-- The command line of a list of options. -/
def command_line (opts : List CommandOption) : List (List UInt8) :=
  opts.flatMap fun o => [o.switch.text, o.argument]

/-- The length of the string that a list of options leaves in the buffer: each
covers at least what is there, and adds its terminator. -/
def left_over (opts : List CommandOption) : ℕ :=
  opts.foldl (fun n o => max n o.decoded.length + o.switch.terminator.length) 0

/-! ## Decoding

The loop over an argument that decodes stores its bytes over the front of the buffer, by
induction over the units of the argument.
-/

theorem zero_not_mem_of_decodes {a d : List UInt8} (h : Decodes a d) : (0 : UInt8) ∉ d := by
  induction h with
  | nil => exact List.not_mem_nil
  | char hc _ _ ih => exact fun hm => (List.mem_cons.mp hm).elim hc.symm ih
  | cr _ ih => exact fun hm => (List.mem_cons.mp hm).elim (by decide) ih
  | hex _ _ _ hv _ ih => exact fun hm => (List.mem_cons.mp hm).elim hv.symm ih

theorem length_le_of_decodes {a d : List UInt8} (h : Decodes a d) : d.length ≤ a.length := by
  induction h with
  | nil => exact le_rfl
  | char _ _ _ ih => simp only [List.length_cons]; omega
  | cr _ ih => simp only [List.length_cons]; omega
  | hex _ _ _ _ _ ih => simp only [List.length_cons]; omega

theorem decoded_ne_nil {a d : List UInt8} (h : Decodes a d) (ha : a ≠ []) : d ≠ [] := by
  cases h with
  | nil => exact absurd rfl ha
  | char _ _ _ => exact List.cons_ne_nil _ _
  | cr _ => exact List.cons_ne_nil _ _
  | hex _ _ _ _ _ => exact List.cons_ne_nil _ _

/-- Two hexadecimal digits are the byte they stand for. -/
theorem strtoul16_hex {h l : UInt8} (hh : isHex (to_char h) = true)
    (hl : isHex (to_char l) = true) :
    strtoul16 [h, l] = UInt8.ofNat (hexValue (to_char h) * 16 + hexValue (to_char l)) := by
  have hzero : ∀ b : UInt8, isHex (to_char b) = true → b ≠ 0 := by
    rintro b hb rfl
    exact absurd hb (by decide)
  have hspace : hexDigits.all (fun c => isspace c = false ∧ c ≠ '-' ∧ c ≠ '+') = true := by decide
  have hstr : cstr [h, l] = [h, l] := by
    simp [cstr, hzero h hh, hzero l hl]
  obtain ⟨hs, hminus, hplus⟩ :=
    of_decide_eq_true (List.all_eq_true.mp hspace _ (mem_hexDigits hh))
  have hdrop : ((cstr [h, l]).map to_char).dropWhile isspace = [to_char h, to_char l] := by
    rw [hstr]
    simp [hs]
  have htake : [to_char h, to_char l].takeWhile isHex = [to_char h, to_char l] := by
    simp [hh, hl]
  rw [strtoul16, hdrop]
  split
  · rename_i cs heq
    exact absurd (List.cons.inj heq).1 hminus
  · rename_i cs heq
    exact absurd (List.cons.inj heq).1 hplus
  · rw [htake, hexNat_cons, hexNat_cons]
    simp [hexNat]

/-- Storing one byte and then the others is storing them in a row. -/
theorem overwrite_cons (buf : List UInt8) (j : ℕ) (c : UInt8) (d : List UInt8) :
    overwrite buf j (c :: d) = overwrite (overwrite buf j [c]) (j + 1) d := by
  have h := overwrite_append buf [c] d j
  rw [List.length_singleton, List.singleton_append] at h
  exact h.symm

theorem process_loop_char {c : UInt8} (hc : c ≠ 0x5C) (cs : List UInt8) (n j : ℕ)
    (buf : List UInt8) :
    process_loop (c :: cs) (n + 1) j buf = (put buf j c).bind (process_loop cs n (j + 1)) := by
  rw [process_loop.eq_def]
  exact if_pos hc

theorem process_loop_cr (cs : List UInt8) (n j : ℕ) (buf : List UInt8) :
    process_loop (0x5C :: 0x72 :: cs) (n + 1) j buf
      = (put buf j 0x0D).bind (process_loop cs (n - 1) (j + 1)) := by
  rw [process_loop.eq_def]
  dsimp only
  rw [if_neg (by decide), if_neg (by decide), if_pos rfl]

theorem process_loop_hex (h l : UInt8) (cs : List UInt8) (n j : ℕ) (buf : List UInt8) :
    process_loop (0x5C :: 0x78 :: h :: l :: cs) (n + 1) j buf
      = (put buf j (strtoul16 [h, l])).bind (process_loop cs (n - 3) (j + 1)) := by
  rw [process_loop.eq_def]
  dsimp only
  rw [if_neg (by decide), if_pos rfl]

/-- Storing a byte keeps the length of the buffer. -/
theorem length_overwrite_byte {buf : List UInt8} {j : ℕ} (hj : j < buf.length) (c : UInt8) :
    (overwrite buf j [c]).length = buf.length :=
  length_overwrite_of_le (by rw [List.length_singleton]; omega)

/-- A decoded argument lies over the front of the buffer. -/
theorem process_loop_decodes {a d : List UInt8} (h : Decodes a d) (tail : List UInt8) (j : ℕ)
    (buf : List UInt8) (hroom : j + d.length ≤ buf.length) :
    process_loop (a ++ tail) a.length j buf = some (0, overwrite buf j d) := by
  induction h generalizing j buf with
  | nil => rw [List.length_nil, process_loop, overwrite_nil]
  | @char c a d _ hb _ ih =>
    rw [List.length_cons] at hroom
    have hj : j < buf.length := by omega
    have hlen := length_overwrite_byte hj c
    rw [List.cons_append, List.length_cons, process_loop_char hb, put_of_lt hj, Option.bind_some,
      ih _ _ (by omega), ← overwrite_cons]
  | @cr a d _ ih =>
    rw [List.length_cons] at hroom
    have hj : j < buf.length := by omega
    have hlen := length_overwrite_byte hj 0x0D
    rw [List.cons_append, List.cons_append, List.length_cons, List.length_cons, process_loop_cr,
      put_of_lt hj, Option.bind_some, Nat.add_sub_cancel, ih _ _ (by omega), ← overwrite_cons]
  | @hex h l v a d hh hl hval _ _ ih =>
    rw [List.length_cons] at hroom
    have hj : j < buf.length := by omega
    have hlen := length_overwrite_byte hj v
    have hskip : a.length + 1 + 1 + 1 - 3 = a.length := by omega
    simp only [List.cons_append, List.length_cons]
    rw [process_loop_hex, strtoul16_hex hh hl, ← hval, put_of_lt hj, Option.bind_some, hskip,
      ih _ _ (by omega), ← overwrite_cons]

/-! ## One option

An option replaces the front of the string in the buffer and appends its terminator behind
the end of the string, which can be the end of an earlier one.
-/

/-- The string in the buffer after an option. -/
def next_string (s : List UInt8) (o : CommandOption) : List UInt8 :=
  (o.decoded ++ s.drop o.decoded.length ++ o.switch.terminator).take (buffsize - 1)

/-- A string the buffer can hold. -/
structure Held (s : List UInt8) : Prop where
  no_zero : (0 : UInt8) ∉ s
  length_lt : s.length < buffsize

theorem decoded_length_lt (o : CommandOption) : o.decoded.length < 1020 :=
  (length_le_of_decodes o.decodes).trans_lt o.short

theorem zero_not_mem_terminator (sw : Switch) : (0 : UInt8) ∉ sw.terminator := by
  cases sw <;> decide

theorem held_next_string {s : List UInt8} (hs : Held s) (o : CommandOption) :
    Held (next_string s o) where
  no_zero := by
    intro hm
    have hm := List.mem_of_mem_take hm
    rw [List.mem_append, List.mem_append] at hm
    rcases hm with (hm | hm) | hm
    · exact zero_not_mem_of_decodes o.decodes hm
    · exact hs.no_zero (List.mem_of_mem_drop hm)
    · exact zero_not_mem_terminator _ hm
  length_lt := by
    have hcut := List.length_take_le (buffsize - 1)
      (o.decoded ++ s.drop o.decoded.length ++ o.switch.terminator)
    exact hcut.trans_lt (by decide)

/-- An option with an empty argument fails. -/
theorem string_process_empty (buf : List UInt8) : string_process [] buf = some (-1, buf) := rfl

/-- An argument that is not empty is decoded over the string in the buffer, whose tail stays. -/
theorem string_process_option {o : CommandOption} (ho : o.argument ≠ []) {s : List UInt8}
    (hs : Held s) : string_process o.argument (hold buffsize s)
      = some (0, hold buffsize (o.decoded ++ s.drop o.decoded.length)) := by
  have hshort := o.short
  have hdec := decoded_length_lt o
  have hlen : o.argument.length ≠ 0 := fun h => ho (List.length_eq_zero_iff.mp h)
  have htake : o.argument.take (buffsize - 1) = o.argument :=
    List.take_of_length_le (by rw [buffsize]; omega)
  have hroom : 0 + o.decoded.length ≤ (hold buffsize s).length := by
    rw [length_hold hs.length_lt.le, buffsize]
    omega
  rw [string_process, if_neg hlen, htake, process_loop_decodes o.decodes _ _ _ hroom,
    overwrite_hold hs.length_lt.le (by rw [buffsize]; omega)]

theorem get_args_switch (sw : Switch) (arg : List UInt8) (rest : List (List UInt8))
    (st : ClientState) : get_args (sw.text :: arg :: rest) st
      = (append_command (sw.text.getD 1 0) arg sw.terminator st).bind fun r =>
          if r.1 < 0 then some r else get_args rest r.2 := by
  cases sw <;> rfl

theorem get_args_empty {o : CommandOption} (ho : o.argument = []) (rest : List (List UInt8))
    (st : ClientState) : get_args (o.switch.text :: o.argument :: rest) st = some (-1, st) := by
  rw [get_args_switch, append_command, ho, string_process_empty]
  rfl

theorem get_args_option {o : CommandOption} (ho : o.argument ≠ []) {s : List UInt8} (hs : Held s)
    (rest : List (List UInt8)) {st : ClientState} (hst : st.s_atCommand = hold buffsize s) :
    ∃ st' : ClientState, st'.s_atCommand = hold buffsize (next_string s o) ∧
      get_args (o.switch.text :: o.argument :: rest) st = get_args rest st' := by
  have hover : Held (o.decoded ++ s.drop o.decoded.length) := by
    refine ⟨fun hm => ?_, ?_⟩
    · rcases List.mem_append.mp hm with hm | hm
      · exact zero_not_mem_of_decodes o.decodes hm
      · exact hs.no_zero (List.mem_of_mem_drop hm)
    · have hdec := decoded_length_lt o
      have hlen := hs.length_lt
      rw [buffsize] at hlen ⊢
      rw [List.length_append, List.length_drop]
      omega
  rw [get_args_switch, append_command, hst, string_process_option ho hs]
  refine ⟨_, ?_, rfl⟩
  exact strlcat_hold hover.no_zero hover.length_lt o.switch.terminator

/-! ## The command line

Option by option. The string in the buffer only gets longer, so the last option goes out
alone if it covers all that was there.
-/

theorem command_line_cons (o : CommandOption) (opts : List CommandOption) :
    command_line (o :: opts) = o.switch.text :: o.argument :: command_line opts := rfl

/-- An empty argument anywhere ends the run with -1. -/
theorem get_args_of_empty {opts : List CommandOption} (h : ∃ o ∈ opts, o.argument = [])
    {s : List UInt8} (hs : Held s) {st : ClientState} (hst : st.s_atCommand = hold buffsize s) :
    ∃ st', get_args (command_line opts) st = some (-1, st') := by
  induction opts generalizing s st with
  | nil => simp at h
  | cons o opts ih =>
    rw [command_line_cons]
    by_cases ho : o.argument = []
    · exact ⟨st, get_args_empty ho _ _⟩
    · obtain ⟨st', hst', hget⟩ := get_args_option ho hs (command_line opts) hst
      rw [hget]
      refine ih ?_ (held_next_string hs o) hst'
      obtain ⟨p, hp, hempty⟩ := h
      rcases List.mem_cons.mp hp with rfl | hp
      · exact absurd hempty ho
      · exact ⟨p, hp, hempty⟩

theorem get_args_of_nonempty {opts : List CommandOption} (h : ∀ o ∈ opts, o.argument ≠ [])
    {s : List UInt8} (hs : Held s) {st : ClientState} (hst : st.s_atCommand = hold buffsize s) :
    Held (opts.foldl next_string s) ∧
      ∃ st', get_args (command_line opts) st = some (0, st') ∧
        st'.s_atCommand = hold buffsize (opts.foldl next_string s) := by
  induction opts generalizing s st with
  | nil => exact ⟨hs, st, rfl, hst⟩
  | cons o opts ih =>
    obtain ⟨st', hst', hget⟩ := get_args_option (h o List.mem_cons_self) hs (command_line opts) hst
    rw [command_line_cons, hget, List.foldl_cons]
    exact ih (fun p hp => h p (List.mem_cons_of_mem o hp)) (held_next_string hs o) hst'

/-- The string grows to cover the argument, then by the terminator. -/
theorem length_next_string (s : List UInt8) (o : CommandOption) :
    (next_string s o).length
      = min (buffsize - 1) (max s.length o.decoded.length + o.switch.terminator.length) := by
  rw [next_string, List.length_take, List.length_append, List.length_append, List.length_drop]
  congr 1
  omega

theorem length_foldl_next_string (opts : List CommandOption) (s : List UInt8) (n : ℕ)
    (hs : s.length = min (buffsize - 1) n) :
    (opts.foldl next_string s).length = min (buffsize - 1)
      (opts.foldl (fun n o => max n o.decoded.length + o.switch.terminator.length) n) := by
  induction opts generalizing s n with
  | nil => exact hs
  | cons o opts ih =>
    have hdec := decoded_length_lt o
    rw [List.foldl_cons, List.foldl_cons]
    apply ih
    rw [length_next_string, hs, buffsize]
    omega

/-- The last option's bytes go out alone where nothing of the earlier ones is left. -/
theorem next_string_eq_iff {s : List UInt8} (o : CommandOption) :
    next_string s o = o.decoded ++ o.switch.terminator ↔ s.length ≤ o.decoded.length := by
  have hdec := decoded_length_lt o
  have hterm : o.switch.terminator.length ≤ 2 := by cases o.switch <;> decide
  constructor
  · intro h
    have hlen := congrArg List.length h
    rw [length_next_string, List.length_append, buffsize] at hlen
    omega
  · intro h
    rw [next_string, List.drop_eq_nil_of_le h, List.append_nil, List.take_of_length_le]
    rw [List.length_append, buffsize]
    omega

/-- **The last command goes out alone exactly when it covers what is left over.** For every list
of options with arguments that decode; an empty argument ends the run. -/
theorem sends_last_iff (earlier : List CommandOption) (last : CommandOption) :
    client_main (command_line (earlier ++ [last]))
        = .wrote (last.decoded ++ last.switch.terminator) ↔
      (∀ o ∈ earlier ++ [last], o.argument ≠ []) ∧ left_over earlier ≤ last.decoded.length := by
  have hstart : Held [] := ⟨List.not_mem_nil, by decide⟩
  have hcleared : cleared_state.s_atCommand = hold buffsize [] := rfl
  by_cases hne : ∀ o ∈ earlier ++ [last], o.argument ≠ []
  · obtain ⟨hheld, st', hget, hst'⟩ := get_args_of_nonempty hne hstart hcleared
    have hlast : (earlier ++ [last]).foldl next_string []
        = next_string (earlier.foldl next_string []) last := by
      rw [List.foldl_append, List.foldl_cons, List.foldl_nil]
    rw [hlast] at hheld hst'
    -- what is sent begins with a character, so the command is not empty
    have hfirst : st'.s_atCommand.getD 0 0 ≠ 0 := by
      have hdne := decoded_ne_nil last.decodes (hne last (by simp))
      obtain ⟨c, d, hcd⟩ := List.exists_cons_of_ne_nil hdne
      have hc : c ∈ last.decoded := by rw [hcd]; exact List.mem_cons_self
      rw [hst', hold, next_string, hcd]
      rintro rfl
      exact zero_not_mem_of_decodes last.decodes hc
    have hmain : client_main (command_line (earlier ++ [last]))
        = .wrote (next_string (earlier.foldl next_string []) last) := by
      rw [client_main, hget]
      dsimp only
      rw [if_neg (by decide), if_neg (by decide), if_pos hfirst, hst', cstr_hold hheld.no_zero]
    have hlen := length_foldl_next_string earlier [] 0 rfl
    have hdec := decoded_length_lt last
    -- the last string stands alone where it covers what the earlier ones left
    rw [hmain, ClientResult.wrote.injEq, next_string_eq_iff, hlen, left_over, buffsize]
    constructor
    · intro h
      exact ⟨hne, by omega⟩
    · rintro ⟨-, h⟩
      omega
  · constructor
    · intro h
      push Not at hne
      obtain ⟨st', hget⟩ := get_args_of_empty hne hstart hcleared
      rw [client_main, hget] at h
      cases h
    · intro h
      exact absurd h.1 hne

/-- `AT` after `ATZZ`: the buffer holds `ATZZ`, CR, and one more CR. -/
def atzz : CommandOption where
  switch := .c
  argument := [0x41, 0x54, 0x5A, 0x5A]
  decoded := [0x41, 0x54, 0x5A, 0x5A]
  short := by decide
  decodes := .char (by decide) (by decide) (.char (by decide) (by decide)
    (.char (by decide) (by decide) (.char (by decide) (by decide) .nil)))

def at_only : CommandOption where
  switch := .c
  argument := [0x41, 0x54]
  decoded := [0x41, 0x54]
  short := by decide
  decodes := .char (by decide) (by decide) (.char (by decide) (by decide) .nil)

theorem at_not_sent_alone :
    client_main (command_line [atzz, at_only]) = .wrote [0x41, 0x54, 0x5A, 0x5A, 0x0D, 0x0D] ∧
      ¬ client_main (command_line ([atzz] ++ [at_only]))
        = .wrote (at_only.decoded ++ at_only.switch.terminator) := by
  have hrun : client_main (command_line [atzz, at_only])
      = .wrote [0x41, 0x54, 0x5A, 0x5A, 0x0D, 0x0D] := by decide +kernel
  refine ⟨hrun, ?_⟩
  rw [List.singleton_append, hrun]
  decide

end AndroidTools.SerialClient
