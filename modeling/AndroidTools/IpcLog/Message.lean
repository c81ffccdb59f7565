/-
The messages of an IPC log (ipc_logging.py).

A message is a type, a size and that many bytes: the time, on newer logs the QTimer, and
the text, each with a type and a size of its own. `LogMessageString.pack` refuses what a
size byte cannot count; what it packs, `LogMessageString.unpack` takes back from the front
of any buffer, and `at_head` does not take it from less.

`pack` is given a number of seconds, and `struct.pack` stores what is left of the double
`fTimestamp * 1.0E9` without its fraction: 1.001 seconds are 1000999999 nanoseconds in the
log. That conversion is the parameter `nanoseconds`, of which nothing is assumed. What is
unpacked is kept as the number in the log, which the source multiplies by 1.0E-9 to print it.
-/
import AndroidTools.Lib.Bytes
import AndroidTools.Lib.Framing
import AndroidTools.Lib.Passes

set_option autoImplicit false

namespace AndroidTools.IpcLog

open AndroidTools.Bytes AndroidTools.Framing AndroidTools.Passes

/-! ## Types and errors

Errors are values with the data their texts are made of, because an assertion's text is
written to the output. The dump of a piece of data in such a text is bounded, and says so
with three dots.
-/

def TSV_TYPE_TIMESTAMP : ℕ := 1
def TSV_TYPE_BYTE_ARRAY : ℕ := 4
def TSV_TYPE_QTIMER : ℕ := 5
def TSV_TYPE_STRING : ℕ := 2

/-- What stops the reading: the assertions of the file, the exception of `struct`, and that of
`None` where data are expected. -/
inductive IpcError where
  | invalid_message_size (size : ℕ)
  | timestamp
  | msg_size
  | byte_array (msg_type : ℕ)
  | invalid_message_type
  | unknown_message_type (msg_type : ℕ) (iter_data : List UInt8)
  | no_starting_page
  | missing_log_pages (max_page num_pages : ℕ)
  | could_not_unpack
  | struct_error
  | type_error
  deriving Repr, DecidableEq

/-- `c` in hexadecimal digits, with zeros in front up to `width`. -/
def hex_padded (width n : ℕ) : String :=
  let digits := Nat.toDigits 16 n
  String.ofList (List.replicate (width - digits.length) '0' ++ digits)

def quotechars (chars : List UInt8) : String :=
  String.ofList (chars.map fun c =>
    if (Char.ofNat c.toNat).isAlphanum then Char.ofNat c.toNat else '.')

/-- `hex_to_str`: the lines of the dump, then `...` where there are more than the limit. -/
def hex_to_str (chars : List UInt8) (width nLineLimit : ℕ) : String :=
  let lines := (chars.toChunks width).mapIdx fun i line =>
    hex_padded 8 (i * width) ++ " " ++ " ".intercalate (line.map fun c => hex_padded 2 c.toNat) ++
      String.join (List.replicate (width - line.length) "   ") ++ " " ++ quotechars line
  let output := if nLineLimit < lines.length then lines.take (nLineLimit + 1) ++ ["..."] else lines
  "\n".intercalate output ++ "\n"

/-- The text of an `AssertionError`; the last two are none. -/
def IpcError.assertion : IpcError → Option String
  | .invalid_message_size size => some s!"Invalid message size {size}"
  | .timestamp => some "timestamp"
  | .msg_size => some "msg size"
  | .byte_array msg_type => some s!"{msg_type} != {TSV_TYPE_BYTE_ARRAY}"
  | .invalid_message_type => some "invalid message type"
  | .unknown_message_type msg_type iter_data =>
      some ("Unknown message type 0x" ++ hex_padded 1 msg_type ++ "\n" ++
        hex_to_str iter_data 16 10)
  | .no_starting_page => some "Unable to find starting page"
  | .missing_log_pages max_page num_pages =>
      some s!"Missing log pages: max page {max_page}, num pages {num_pages}"
  | .could_not_unpack => some "Could not unpack page header"
  | .struct_error | .type_error => none

/-! ## The parts of a message

Each part has a header of two bytes, a type and a size, and a value behind it. `unpack`
hands the rest of the data on, so that the parts of a message are read one after the other
from one buffer.
-/

/-- The header in front of a message or a value: its type and the size of what follows, a byte
each. -/
structure LogTSV where
  msg_type : ℕ
  msg_size : ℕ
  deriving Repr, DecidableEq

def LogTSV.unpack : List UInt8 → Except IpcError (LogTSV × List UInt8)
  | msg_type :: msg_size :: data => .ok (⟨msg_type.toNat, msg_size.toNat⟩, data)
  | data => .error (.invalid_message_size data.length)

def LogTSV.pack (tsv : LogTSV) : Except IpcError (List UInt8) :=
  if tsv.msg_type < 256 ∧ tsv.msg_size < 256 then
    .ok [UInt8.ofNat tsv.msg_type, UInt8.ofNat tsv.msg_size]
  else .error .struct_error

/-- `unpack` of `TsvTimestamp` and of `TsvQTimer`: a number of eight bytes. -/
def unpack_time (tsv_type : ℕ) (data : List UInt8) : Except IpcError (ℕ × List UInt8) := do
  let (tsv, data) ← LogTSV.unpack data
  if tsv.msg_type ≠ tsv_type then .error .timestamp
  else if tsv.msg_size ≠ 8 then .error .msg_size
  else if data.length < 8 then .error .struct_error
  else .ok (leValue (data.take 8), data.drop 8)

/-- `struct.pack('<Q', time)` behind a header, which the time stamp and the QTimer have in common.
-/
def pack_time (tsv_type time : ℕ) : Except IpcError (List UInt8) := do
  let data ← LogTSV.pack ⟨tsv_type, 8⟩
  if time < 256 ^ 8 then .ok (data ++ leBytes 8 time) else .error .struct_error

def TsvTimestamp.unpack := unpack_time TSV_TYPE_TIMESTAMP

/-- `nanoseconds` is the integer of `fTimestamp * 1.0E9`, `none` for what has none. -/
def TsvTimestamp.pack {τ : Type} (nanoseconds : τ → Option ℕ) (fTimestamp : τ) :
    Except IpcError (List UInt8) :=
  match nanoseconds fTimestamp with
  | some time => pack_time TSV_TYPE_TIMESTAMP time
  | none => .error .struct_error

def TsvQTimer.unpack := unpack_time TSV_TYPE_QTIMER
def TsvQTimer.pack := pack_time TSV_TYPE_QTIMER

/-- The slices are short when the data are. -/
def TsvByteArray.unpack (data : List UInt8) : Except IpcError (List UInt8 × List UInt8) := do
  let (tsv, data) ← LogTSV.unpack data
  if tsv.msg_type ≠ TSV_TYPE_BYTE_ARRAY then .error (.byte_array tsv.msg_type)
  else .ok (data.take tsv.msg_size, data.drop tsv.msg_size)

def TsvByteArray.pack (data : List UInt8) : Except IpcError (List UInt8) := do
  let lst ← LogTSV.pack ⟨TSV_TYPE_BYTE_ARRAY, data.length⟩
  return lst ++ data

/-! ## Messages

A message is a header whose value is made of parts. `at_head` is what the reader does with a
buffer: it reads a message if all of it is there, asks for more data if not, and stops where
the type is 0.
-/

/-- What `LogMessageString.pack` is given; only the newer logs have a QTimer. -/
structure MessageArgs (τ : Type) where
  fTimestamp : τ
  strMessage : List UInt8
  fQTimer : Option ℕ
  deriving Repr, DecidableEq

/-- A message of a log, with the numbers that are in it. -/
structure LogMessageString where
  timestamp : ℕ
  qtimer : Option ℕ
  strMessage : List UInt8
  deriving Repr, DecidableEq

def LogMessageString.unpack (data : List UInt8) (tsv : LogTSV) (qtimer : Bool) :
    Except IpcError (LogMessageString × List UInt8) :=
  if tsv.msg_type ≠ TSV_TYPE_STRING then .error .invalid_message_type
  else do
    let (timestamp, data) ← TsvTimestamp.unpack data
    if qtimer then
      let (time, data) ← TsvQTimer.unpack data
      let (strMessage, data) ← TsvByteArray.unpack data
      return (⟨timestamp, some time, strMessage⟩, data)
    else
      let (strMessage, data) ← TsvByteArray.unpack data
      return (⟨timestamp, none, strMessage⟩, data)

/-- `pack` of the QTimer, if the message has one. -/
def pack_qtimer : Option ℕ → Except IpcError (List UInt8)
  | none => .ok []
  | some time => TsvQTimer.pack time

def LogMessageString.pack {τ : Type} (nanoseconds : τ → Option ℕ) (m : MessageArgs τ) :
    Except IpcError (List UInt8) := do
  let timestamp ← TsvTimestamp.pack nanoseconds m.fTimestamp
  let qtimer ← pack_qtimer m.fQTimer
  let strMessage ← TsvByteArray.pack m.strMessage
  let data := timestamp ++ qtimer ++ strMessage
  let tsv ← LogTSV.pack ⟨TSV_TYPE_STRING, data.length⟩
  return tsv ++ data

/-- What `LogPage.next` finds at the front of `iter_data`; `qtimer` for the newer logs. -/
def at_head (qtimer : Bool) (iter_data : List UInt8) : Head UInt8 LogMessageString IpcError :=
  if iter_data.length < 2 then .more
  else match LogTSV.unpack iter_data with
    | .error e => .fail e
    | .ok (tsv, data) =>
      if data.length < tsv.msg_size then .more
      else if tsv.msg_type = 0 then .stop
      else if tsv.msg_type = TSV_TYPE_STRING then
        match LogMessageString.unpack data tsv qtimer with
        | .error e => .fail e
        | .ok (msg, rest) => .record msg rest
      else .fail (.unknown_message_type tsv.msg_type iter_data)

/-! ## What is packed is unpacked

The bytes of a message are given by a formula, and both directions go through it: `pack`
yields the formula exactly where the numbers fit, and `unpack` takes it from the front of
any buffer that begins with it. The rest of the buffer is untouched, which is what makes
messages a stream.
-/

/-- The bytes of a time: a type, the size 8 and the number. -/
def time_bytes (tsv_type time : ℕ) : List UInt8 := UInt8.ofNat tsv_type :: 8 :: leBytes 8 time

/-- The bytes behind the header of a message: the time, the QTimer if there is one, and the text.
-/
def LogMessageString.data (m : LogMessageString) : List UInt8 :=
  time_bytes TSV_TYPE_TIMESTAMP m.timestamp ++
    (m.qtimer.elim [] (time_bytes TSV_TYPE_QTIMER) ++
      UInt8.ofNat TSV_TYPE_BYTE_ARRAY :: UInt8.ofNat m.strMessage.length :: m.strMessage)

def LogMessageString.bytes (m : LogMessageString) : List UInt8 :=
  UInt8.ofNat TSV_TYPE_STRING :: UInt8.ofNat m.data.length :: m.data

/-- A message whose times are numbers of eight bytes and whose size is a byte. -/
structure LogMessageString.Fits (m : LogMessageString) : Prop where
  timestamp : m.timestamp < 256 ^ 8
  qtimer : ∀ time, m.qtimer = some time → time < 256 ^ 8
  size : m.data.length < 256

/-- The message that is in the log when one is packed. -/
def MessageArgs.logged {τ : Type} (nanoseconds : τ → Option ℕ) (m : MessageArgs τ) :
    Option LogMessageString :=
  (nanoseconds m.fTimestamp).map fun time => ⟨time, m.fQTimer, m.strMessage⟩

@[simp] theorem length_time_bytes (tsv_type time : ℕ) : (time_bytes tsv_type time).length = 10 := by
  rw [time_bytes, List.length_cons, List.length_cons, length_leBytes]

theorem pack_time_eq {tsv_type time : ℕ} (htype : tsv_type < 256) :
    pack_time tsv_type time
      = if time < 256 ^ 8 then .ok (time_bytes tsv_type time) else .error .struct_error := by
  have hsize : 8 < 256 := by decide
  rw [pack_time, LogTSV.pack, if_pos ⟨htype, hsize⟩]
  rfl

theorem TsvByteArray.pack_eq (data : List UInt8) :
    TsvByteArray.pack data
      = if data.length < 256 then
          .ok (UInt8.ofNat TSV_TYPE_BYTE_ARRAY :: UInt8.ofNat data.length :: data)
        else .error .struct_error := by
  have htype : TSV_TYPE_BYTE_ARRAY < 256 := by decide
  rw [TsvByteArray.pack, LogTSV.pack]
  by_cases h : data.length < 256
  · rw [if_pos h, if_pos ⟨htype, h⟩]
    rfl
  · rw [if_neg h, if_neg (fun hand => h hand.2)]
    rfl

theorem pack_time_ok_iff {tsv_type time : ℕ} (htype : tsv_type < 256) {b : List UInt8} :
    pack_time tsv_type time = .ok b ↔ time < 256 ^ 8 ∧ b = time_bytes tsv_type time := by
  rw [pack_time_eq htype]
  split_ifs with h
  · rw [Except.ok.injEq, and_iff_right h, eq_comm]
  · exact ⟨fun hok => hok.elim, fun hand => absurd hand.1 h⟩

theorem TsvByteArray.pack_ok_iff {data b : List UInt8} :
    TsvByteArray.pack data = .ok b ↔ data.length < 256 ∧
      b = UInt8.ofNat TSV_TYPE_BYTE_ARRAY :: UInt8.ofNat data.length :: data := by
  rw [TsvByteArray.pack_eq]
  split_ifs with h
  · rw [Except.ok.injEq, and_iff_right h, eq_comm]
  · exact ⟨fun hok => hok.elim, fun hand => absurd hand.1 h⟩

theorem pack_qtimer_ok_iff {qtimer : Option ℕ} {b : List UInt8} :
    pack_qtimer qtimer = .ok b ↔ (∀ time, qtimer = some time → time < 256 ^ 8) ∧
      b = qtimer.elim [] (time_bytes TSV_TYPE_QTIMER) := by
  cases qtimer with
  | none => simp [pack_qtimer, eq_comm]
  | some time =>
    have htype : TSV_TYPE_QTIMER < 256 := by decide
    rw [pack_qtimer, TsvQTimer.pack, pack_time_ok_iff htype]
    simp

theorem LogMessageString.length_data (m : LogMessageString) :
    m.data.length = 12 + m.qtimer.elim 0 (fun _ => 10) + m.strMessage.length := by
  rw [LogMessageString.data]
  cases m.qtimer with
  | none => simp; omega
  | some time => simp; omega

/-- **What `pack` packs.** It succeeds for the messages whose numbers fit, and only for them. -/
theorem LogMessageString.pack_ok_iff {τ : Type} (nanoseconds : τ → Option ℕ) (m : MessageArgs τ)
    (b : List UInt8) :
    LogMessageString.pack nanoseconds m = .ok b ↔
      ∃ l, m.logged nanoseconds = some l ∧ l.Fits ∧ b = l.bytes := by
  have htime : TSV_TYPE_TIMESTAMP < 256 := by decide
  have hstring : TSV_TYPE_STRING < 256 := by decide
  rw [LogMessageString.pack, TsvTimestamp.pack, MessageArgs.logged]
  cases hns : nanoseconds m.fTimestamp with
  | none =>
    constructor
    · intro h
      cases h
    · rintro ⟨l, hl, -⟩
      cases hl
  | some time =>
    have hlen := (LogMessageString.mk time m.fQTimer m.strMessage).length_data
    dsimp only at hlen ⊢
    constructor
    · intro h
      obtain ⟨timestamp, htimestamp, h⟩ := bind_ok h
      obtain ⟨qtimer, hqtimer, h⟩ := bind_ok h
      obtain ⟨text, htext, h⟩ := bind_ok h
      obtain ⟨hts, rfl⟩ := (pack_time_ok_iff htime).mp htimestamp
      obtain ⟨hqt, rfl⟩ := pack_qtimer_ok_iff.mp hqtimer
      obtain ⟨-, rfl⟩ := TsvByteArray.pack_ok_iff.mp htext
      obtain ⟨tsv, htsv, h⟩ := bind_ok h
      cases h
      rw [LogTSV.pack] at htsv
      split_ifs at htsv with hsize
      cases htsv
      rw [List.append_assoc] at hsize ⊢
      exact ⟨_, rfl, ⟨hts, hqt, hsize.2⟩, rfl⟩
    · rintro ⟨l, hl, hfits, rfl⟩
      cases hl
      have hsize : (LogMessageString.mk time m.fQTimer m.strMessage).data.length < 256 :=
        hfits.size
      have htext : m.strMessage.length < 256 := by omega
      rw [(pack_time_ok_iff htime).mpr ⟨hfits.timestamp, rfl⟩, ok_bind,
        pack_qtimer_ok_iff.mpr ⟨hfits.qtimer, rfl⟩, ok_bind,
        TsvByteArray.pack_ok_iff.mpr ⟨htext, rfl⟩, ok_bind]
      dsimp only
      rw [List.append_assoc, LogTSV.pack, if_pos ⟨hstring, hfits.size⟩]
      rfl

theorem toNat_ofNat {n : ℕ} (h : n < 256) : (UInt8.ofNat n).toNat = n := by
  rw [UInt8.toNat_ofNat']
  exact Nat.mod_eq_of_lt h

theorem unpack_time_append {tsv_type time : ℕ} (htype : tsv_type < 256) (htime : time < 256 ^ 8)
    (rest : List UInt8) :
    unpack_time tsv_type (time_bytes tsv_type time ++ rest) = .ok (time, rest) := by
  have hlen : (leBytes 8 (time : ℤ)).length = 8 := length_leBytes _ _
  have hnine : ¬ (leBytes 8 (time : ℤ) ++ rest).length < 8 := by
    rw [List.length_append, hlen]
    omega
  rw [unpack_time, time_bytes, List.cons_append, List.cons_append, LogTSV.unpack, ok_bind]
  dsimp only
  rw [toNat_ofNat htype, if_neg (not_not.mpr rfl), if_neg (by decide), if_neg hnine,
    List.take_left' hlen, List.drop_left' hlen, leValue_leBytes_natCast htime]

theorem TsvByteArray.unpack_append {text : List UInt8} (h : text.length < 256)
    (rest : List UInt8) :
    TsvByteArray.unpack (UInt8.ofNat TSV_TYPE_BYTE_ARRAY :: UInt8.ofNat text.length :: text ++ rest)
      = .ok (text, rest) := by
  have htype : TSV_TYPE_BYTE_ARRAY < 256 := by decide
  rw [TsvByteArray.unpack, List.cons_append, List.cons_append, LogTSV.unpack, ok_bind]
  dsimp only
  rw [toNat_ofNat htype, toNat_ofNat h, if_neg (not_not.mpr rfl), List.take_left' rfl,
    List.drop_left' rfl]

theorem LogMessageString.unpack_data_append {m : LogMessageString} (hm : m.Fits) (size : ℕ)
    (rest : List UInt8) :
    LogMessageString.unpack (m.data ++ rest) ⟨TSV_TYPE_STRING, size⟩ m.qtimer.isSome
      = .ok (m, rest) := by
  have htime : TSV_TYPE_TIMESTAMP < 256 := by decide
  have hqtype : TSV_TYPE_QTIMER < 256 := by decide
  have hlen := m.length_data
  have hsize := hm.size
  have htext : m.strMessage.length < 256 := by omega
  obtain ⟨timestamp, qtimer, strMessage⟩ := m
  have hfirst := unpack_time_append htime hm.timestamp
  have hthird := TsvByteArray.unpack_append htext rest
  rw [LogMessageString.unpack, if_neg (not_not.mpr rfl), LogMessageString.data, List.append_assoc,
    TsvTimestamp.unpack]
  dsimp only [Option.elim] at hfirst hthird ⊢
  cases qtimer with
  | none =>
    rw [hfirst, ok_bind, List.nil_append]
    dsimp only [Option.isSome]
    rw [if_neg Bool.false_ne_true, hthird]
    rfl
  | some time =>
    have hsecond := unpack_time_append hqtype (hm.qtimer time rfl)
    rw [hfirst, ok_bind, List.append_assoc]
    dsimp only [Option.isSome]
    rw [if_pos rfl, TsvQTimer.unpack, hsecond, ok_bind, hthird]
    rfl

/-! ## What is unpacked is taken away

Whatever is unpacked successfully leaves a shorter buffer, also when the bytes were never
packed by anybody. The loop over the messages ends because of that.
-/

theorem LogTSV.unpack_length {data rest : List UInt8} {tsv : LogTSV}
    (h : LogTSV.unpack data = .ok (tsv, rest)) : rest.length + 2 = data.length := by
  cases data with
  | nil => cases h
  | cons a data =>
    cases data with
    | nil => cases h
    | cons b data =>
      cases h
      rfl

theorem unpack_time_length {tsv_type time : ℕ} {data rest : List UInt8}
    (h : unpack_time tsv_type data = .ok (time, rest)) : rest.length ≤ data.length := by
  obtain ⟨⟨tsv, data'⟩, htsv, h⟩ := bind_ok h
  have hlen := LogTSV.unpack_length htsv
  dsimp only at h
  split_ifs at h
  cases h
  rw [List.length_drop]
  omega

theorem TsvByteArray.unpack_length {text data rest : List UInt8}
    (h : TsvByteArray.unpack data = .ok (text, rest)) : rest.length ≤ data.length := by
  obtain ⟨⟨tsv, data'⟩, htsv, h⟩ := bind_ok h
  have hlen := LogTSV.unpack_length htsv
  dsimp only at h
  split_ifs at h
  cases h
  rw [List.length_drop]
  omega

theorem LogMessageString.unpack_length {data rest : List UInt8} {tsv : LogTSV} {qtimer : Bool}
    {m : LogMessageString} (h : LogMessageString.unpack data tsv qtimer = .ok (m, rest)) :
    rest.length ≤ data.length := by
  rw [LogMessageString.unpack] at h
  split_ifs at h with htype hqtimer
  · obtain ⟨⟨timestamp, data₁⟩, hfirst, h⟩ := bind_ok h
    obtain ⟨⟨time, data₂⟩, hsecond, h⟩ := bind_ok h
    obtain ⟨⟨text, data₃⟩, hthird, h⟩ := bind_ok h
    have hlen₁ := unpack_time_length hfirst
    have hlen₂ := unpack_time_length hsecond
    have hlen₃ := TsvByteArray.unpack_length hthird
    cases h
    omega
  · obtain ⟨⟨timestamp, data₁⟩, hfirst, h⟩ := bind_ok h
    obtain ⟨⟨text, data₃⟩, hthird, h⟩ := bind_ok h
    have hlen₁ := unpack_time_length hfirst
    have hlen₃ := TsvByteArray.unpack_length hthird
    cases h
    omega

/-! ## The framing

Packed messages form a framing in the sense of the library: each is read back from the front
of whatever follows it, and from less than all of it nothing is read. What may stand behind
the last message, zeros or a message that is cut off, never looks like one.
-/

theorem at_head_cons {qtimer : Bool} (msg_type msg_size : UInt8) (data : List UInt8) :
    at_head qtimer (msg_type :: msg_size :: data)
      = if data.length < msg_size.toNat then .more
        else if msg_type.toNat = 0 then .stop
        else if msg_type.toNat = TSV_TYPE_STRING then
          match LogMessageString.unpack data ⟨msg_type.toNat, msg_size.toNat⟩ qtimer with
          | .error e => .fail e
          | .ok (msg, rest) => .record msg rest
        else .fail (.unknown_message_type msg_type.toNat (msg_type :: msg_size :: data)) := by
  rw [at_head, if_neg (by rw [List.length_cons, List.length_cons]; omega), LogTSV.unpack]

/-- Reading a message takes at least two bytes away, whatever they look like. -/
theorem at_head_shrinks {qtimer : Bool} {data rest : List UInt8} {m : LogMessageString}
    (h : at_head qtimer data = .record m rest) : rest.length < data.length := by
  rw [at_head] at h
  split_ifs at h
  cases htsv : LogTSV.unpack data with
  | error e =>
    rw [htsv] at h
    cases h
  | ok p =>
    obtain ⟨tsv, data'⟩ := p
    have hlen := LogTSV.unpack_length htsv
    rw [htsv] at h
    dsimp only at h
    split_ifs at h
    cases hmsg : LogMessageString.unpack data' tsv qtimer with
    | error e =>
      rw [hmsg] at h
      cases h
    | ok q =>
      have hrest := LogMessageString.unpack_length hmsg
      rw [hmsg] at h
      cases h
      omega

/-- In a buffer of less than two bytes there is no message to read. -/
theorem at_head_of_lt {qtimer : Bool} {data : List UInt8} (h : data.length < 2) :
    at_head qtimer data = .more := by
  rw [at_head, if_pos h]

/-- The messages that a log of the kind holds: the numbers fit, and there is a QTimer exactly if
the kind has one. -/
def Loggable (qtimer : Bool) (m : LogMessageString) : Prop := m.Fits ∧ m.qtimer.isSome = qtimer

/-- **Packed messages are a framing.** What `pack` packs is read from the front of any buffer and
from no shorter piece of it, and what is left is the rest. -/
theorem framed (qtimer : Bool) :
    Framed (at_head qtimer) LogMessageString.bytes (Loggable qtimer) where
  nonempty m _ := List.cons_ne_nil _ _
  whole m hm rest := by
    obtain ⟨hfits, rfl⟩ := hm
    have hstring : TSV_TYPE_STRING < 256 := by decide
    have hnonzero : TSV_TYPE_STRING ≠ 0 := by decide
    have hlong : ¬ (m.data ++ rest).length < m.data.length := by
      rw [List.length_append]
      omega
    rw [LogMessageString.bytes, List.cons_append, List.cons_append, at_head_cons,
      toNat_ofNat hfits.size, toNat_ofNat hstring, if_neg hlong, if_neg hnonzero, if_pos rfl,
      LogMessageString.unpack_data_append hfits]
  cut m hm x y hxy hy := by
    have hlen : x.length < m.bytes.length := by
      rw [← hxy, List.length_append]
      have := List.length_pos_iff.mpr hy
      omega
    cases x with
    | nil => exact at_head_of_lt (by simp)
    | cons a x =>
      cases x with
      | nil => exact at_head_of_lt (by simp)
      | cons b x =>
        rw [LogMessageString.bytes, List.cons_append, List.cons_append, List.cons.injEq,
          List.cons.injEq] at hxy
        obtain ⟨rfl, rfl, hdata⟩ := hxy
        rw [LogMessageString.bytes] at hlen
        simp only [List.length_cons] at hlen
        rw [at_head_cons, toNat_ofNat hm.1.size, if_pos (by omega)]

/-- Zeros are blank: their type says that there are no more messages. -/
theorem at_head_zeros {qtimer : Bool} {data : List UInt8} (h : ∀ b ∈ data, b = 0) :
    at_head qtimer data = .more ∨ at_head qtimer data = .stop := by
  by_cases hlen : data.length < 2
  · exact .inl (at_head_of_lt hlen)
  · obtain ⟨a, b, data, rfl⟩ : ∃ a b rest, data = a :: b :: rest := by
      cases data with
      | nil => simp at hlen
      | cons a data =>
        cases data with
        | nil => simp at hlen
        | cons b data => exact ⟨a, b, data, rfl⟩
    have ha : a = 0 := h a List.mem_cons_self
    have hb : b = 0 := h b (List.mem_cons_of_mem _ List.mem_cons_self)
    subst ha hb
    rw [at_head_cons]
    exact .inr rfl

theorem quiet_of_zeros {qtimer : Bool} {tail : List UInt8} (h : ∀ b ∈ tail, b = 0) :
    Quiet (at_head qtimer) tail :=
  .inr fun _ hx => at_head_zeros fun b hb => h b (hx.subset hb)

/-- What may be behind the messages of a log: zeros, or a message that is cut off. -/
def Unwritten (qtimer : Bool) (tail : List UInt8) : Prop :=
  (∀ b ∈ tail, b = 0) ∨
    ∃ (l : LogMessageString) (rest : List UInt8), Loggable qtimer l ∧ tail ++ rest = l.bytes ∧
      rest ≠ []

theorem Unwritten.quiet {qtimer : Bool} {tail : List UInt8} (h : Unwritten qtimer tail) :
    Quiet (at_head qtimer) tail := by
  rcases h with hzeros | ⟨l, rest, hl, hcut, hrest⟩
  · exact quiet_of_zeros hzeros
  · exact (framed qtimer).quiet_of_cut hl hcut hrest

/-- The messages that are in a log when those of a list are packed. -/
def LoggedAs {τ : Type} (nanoseconds : τ → Option ℕ) :
    List (MessageArgs τ) → List LogMessageString → Prop :=
  List.Forall₂ fun m l => m.logged nanoseconds = some l

theorem LoggedAs.unique {τ : Type} {nanoseconds : τ → Option ℕ} {ms : List (MessageArgs τ)}
    {ls ls' : List LogMessageString} (h : LoggedAs nanoseconds ms ls)
    (h' : LoggedAs nanoseconds ms ls') : ls = ls' := by
  induction h generalizing ls' with
  | nil =>
    cases h'
    rfl
  | cons hl _ ih =>
    cases h' with
    | cons hl' h' => rw [ih h', Option.some.inj (hl.symm.trans hl')]

/-- Messages that are packed are loggable, and their bytes are what they are packed in. -/
theorem packed_messages {τ : Type} {nanoseconds : τ → Option ℕ} {qtimer : Bool}
    {ms : List (MessageArgs τ)} {bs : List (List UInt8)}
    (h : ms.mapM (LogMessageString.pack nanoseconds) = .ok bs)
    (hq : ∀ m ∈ ms, m.fQTimer.isSome = qtimer) :
    ∃ ls, LoggedAs nanoseconds ms ls ∧ (∀ l ∈ ls, Loggable qtimer l) ∧
      bs.flatten = ls.flatMap LogMessageString.bytes := by
  have hall := mapM_ok h
  clear h
  induction hall with
  | nil => exact ⟨[], .nil, by simp, rfl⟩
  | @cons m b ms bs hb _ ih =>
    rw [List.forall_mem_cons] at hq
    obtain ⟨l, hl, hfits, rfl⟩ := (LogMessageString.pack_ok_iff nanoseconds m b).mp hb
    obtain ⟨ls, hls, hloggable, hbs⟩ := ih hq.2
    have hqtimer : l.qtimer = m.fQTimer := by
      rw [MessageArgs.logged, Option.map_eq_some_iff] at hl
      obtain ⟨time, -, rfl⟩ := hl
      rfl
    refine ⟨l :: ls, .cons hl hls, List.forall_mem_cons.mpr ⟨⟨hfits, ?_⟩, hloggable⟩, ?_⟩
    · rw [hqtimer]
      exact hq.1
    · rw [List.flatten_cons, List.flatMap_cons, hbs]

/-- Seconds as exact fractions, without the rounding of doubles: an instance of the conversion. -/
def exact_nanoseconds (fTimestamp : ℚ) : Option ℕ :=
  if 0 ≤ fTimestamp then some (fTimestamp * 10 ^ 9).floor.toNat else none

end AndroidTools.IpcLog
