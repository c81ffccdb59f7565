/-
Waiting for the answer to a command.

`ReceiveDataFromChan1` looks for `OK` and `ERROR` in every piece that `read` returns, never across
two of them. So it signals as soon as the bytes received so far contain an answer exactly when the
first answer of the stream is not cut by the end of a piece.

What a piece contains is a property that a list keeps whatever stands around it, so the library's
result on properties looked for piece by piece applies. What is left to show is that the searches
see exactly the piece that was just read: the buffer keeps older bytes behind it, but a terminator
is stored at its end. A delivery is any way to cut the stream into pieces that fit the buffer.
-/
import AndroidTools.Lib.Stream
import AndroidTools.SerialClient

set_option autoImplicit false

namespace AndroidTools.SerialClient

open AndroidTools.Bytes AndroidTools.CString AndroidTools.Stream

/-! ## `ReceiveDataFromChan1`

The loop of the thread, on what the reads return. It ends with a signal when a search
succeeds or at the end of the file, and without one when a read fails.
-/

/-- What `read` returns: -1, or the bytes read, none at the end of the file. -/
inductive ReadResult where
  | error
  | bytes (piece : List UInt8)
  deriving Repr, DecidableEq

/-- Where the thread is after some reads: before the next one, or behind the loop,
with or without a signal. -/
inductive Receiving where
  | reading
  | stopped (signal : Bool)
  deriving Repr, DecidableEq

def tolower (c : UInt8) : UInt8 := if 0x41 ≤ c ∧ c ≤ 0x5A then c + 0x20 else c

/-- `strcasestr` finds the needle, in any case, in the string at the front of the bytes. -/
def strcasestr (haystack needle : List UInt8) : Bool :=
  decide ((cstr needle).map tolower <:+: (cstr haystack).map tolower)

/-- The string `"OK"`. -/
def ok : List UInt8 := [0x4F, 0x4B]

/-- The string `"ERROR"`. -/
def error : List UInt8 := [0x45, 0x52, 0x52, 0x4F, 0x52]

/-- The loop, on what the reads return one after the other. -/
def receive_data_from_chan1 (s_atCommand : List UInt8) :
    List UInt8 → List ReadResult → Receiving
  | _, [] => .reading
  | _, .error :: _ => .stopped false
  | buffer, .bytes piece :: reads =>
    if piece.length = 0 then .stopped true
    else
      -- `buffer[bytes] = '\0'`
      let buffer := overwrite buffer 0 (piece ++ [0])
      if s_atCommand.getD 0 0 ≠ 0 then
        if strcasestr buffer ok || strcasestr buffer error then .stopped true
        else receive_data_from_chan1 s_atCommand buffer reads
      else receive_data_from_chan1 s_atCommand buffer reads

/-! ## Answers

A delivery is a stream cut into pieces. What the thread sees depends on the cuts, and what
the stream contains does not, so the two are compared over all deliveries of a stream.
-/

/-- The bytes contain `OK` or `ERROR`, in any case. -/
def Answers (bytes : List UInt8) : Prop :=
  ok.map tolower <:+: bytes.map tolower ∨ error.map tolower <:+: bytes.map tolower

instance (bytes : List UInt8) : Decidable (Answers bytes) :=
  inferInstanceAs (Decidable (_ ∨ _))

/-- The pieces are what successive reads can return of a stream without zero bytes. -/
structure IsDelivery (stream : List UInt8) (pieces : List (List UInt8)) : Prop where
  joined : pieces.flatten = stream
  nonempty : ∀ p ∈ pieces, p ≠ []
  short : ∀ p ∈ pieces, p.length ≤ buffsize - 1
  no_zero : (0 : UInt8) ∉ stream

/-- At every point of a delivery the thread has signalled and stopped if and only if the
bytes received so far contain an answer. -/
def Prompt (s_atCommand buffer : List UInt8) (pieces : List (List UInt8)) : Prop :=
  ∀ read, read <+: pieces →
    (receive_data_from_chan1 s_atCommand buffer (read.map .bytes) = .stopped true
      ↔ Answers read.flatten)

theorem answers_spreads : Spreads Answers where
  append_left := by
    intro a h b
    rw [Answers, List.map_append]
    exact h.imp List.infix_append_of_infix_left List.infix_append_of_infix_left
  append_right := by
    intro b h a
    rw [Answers, List.map_append]
    exact h.imp List.infix_append_of_infix_right List.infix_append_of_infix_right

theorem not_answers_nil : ¬ Answers [] := by decide

section Delivery

variable {s_atCommand : List UInt8}

/-- The two searches see the piece that was just read, and nothing behind it. -/
theorem strcasestr_piece {piece : List UInt8} (h0 : (0 : UInt8) ∉ piece) (buffer : List UInt8) :
    (strcasestr (overwrite buffer 0 (piece ++ [0])) ok
        || strcasestr (overwrite buffer 0 (piece ++ [0])) error) = true ↔ Answers piece := by
  have hstr : cstr (overwrite buffer 0 (piece ++ [0])) = piece := by
    rw [overwrite, if_neg (by simp), List.take_zero, List.nil_append, List.append_assoc,
      List.singleton_append, cstr_append_zero h0]
  have hok : cstr ok = ok := by decide
  have herror : cstr error = error := by decide
  rw [Bool.or_eq_true, strcasestr, strcasestr, hstr, hok, herror, decide_eq_true_iff,
    decide_eq_true_iff, Answers]

/-- One piece: the thread stops at it, or goes on behind it. -/
theorem receive_piece (hcommand : s_atCommand.getD 0 0 ≠ 0) {piece : List UInt8}
    (hne : piece ≠ []) (h0 : (0 : UInt8) ∉ piece) (buffer : List UInt8)
    (reads : List ReadResult) :
    receive_data_from_chan1 s_atCommand buffer (.bytes piece :: reads)
      = if Answers piece then .stopped true
        else receive_data_from_chan1 s_atCommand (overwrite buffer 0 (piece ++ [0])) reads := by
  have hlen : piece.length ≠ 0 := fun h => hne (List.length_eq_zero_iff.mp h)
  rw [receive_data_from_chan1, if_neg hlen]
  dsimp only
  rw [if_pos hcommand]
  simp only [strcasestr_piece h0]

/-- All pieces: the thread stops with a signal at the first one with an answer. -/
theorem receive_pieces (hcommand : s_atCommand.getD 0 0 ≠ 0) {pieces : List (List UInt8)}
    (hne : ∀ p ∈ pieces, p ≠ []) (h0 : ∀ p ∈ pieces, (0 : UInt8) ∉ p) (buffer : List UInt8) :
    receive_data_from_chan1 s_atCommand buffer (pieces.map .bytes)
      = if ∃ p ∈ pieces, Answers p then .stopped true else .reading := by
  induction pieces generalizing buffer with
  | nil => simp [receive_data_from_chan1]
  | cons piece pieces ih =>
    rw [List.map_cons, receive_piece hcommand (hne _ List.mem_cons_self) (h0 _ List.mem_cons_self),
      ih (fun p hp => hne p (List.mem_cons_of_mem _ hp))
        (fun p hp => h0 p (List.mem_cons_of_mem _ hp))]
    by_cases hpiece : Answers piece
    · rw [if_pos hpiece, if_pos ⟨piece, List.mem_cons_self, hpiece⟩]
    · simp only [List.exists_mem_cons_iff, hpiece, if_false, false_or]

theorem IsDelivery.no_zero_piece {stream : List UInt8} {pieces : List (List UInt8)}
    (h : IsDelivery stream pieces) : ∀ p ∈ pieces, (0 : UInt8) ∉ p :=
  fun _ hp hzero => h.no_zero (h.joined ▸ List.mem_flatten_of_mem hp hzero)

section Cut

variable {stream : List UInt8} {pieces : List (List UInt8)}

theorem prompt_iff_uncut (hcommand : s_atCommand.getD 0 0 ≠ 0) (h : IsDelivery stream pieces)
    (buffer : List UInt8) : Prompt s_atCommand buffer pieces ↔ Uncut Answers pieces := by
  rw [← found_iff_uncut answers_spreads not_answers_nil]
  refine forall₂_congr fun read hread => ?_
  have hin : ∀ p ∈ read, p ∈ pieces := fun p hp => hread.subset hp
  rw [receive_pieces hcommand (fun p hp => h.nonempty p (hin p hp))
    (fun p hp => h.no_zero_piece p (hin p hp))]
  refine iff_congr ?_ Iff.rfl
  split_ifs with hfound <;> simp [hfound]

/-- An uncut delivery ends as the whole stream says. -/
theorem receive_of_uncut (hcommand : s_atCommand.getD 0 0 ≠ 0) (h : IsDelivery stream pieces)
    (hcut : Uncut Answers pieces) (buffer : List UInt8) :
    receive_data_from_chan1 s_atCommand buffer (pieces.map .bytes)
      = if Answers stream then .stopped true else .reading := by
  have hfound := (found_iff_uncut answers_spreads not_answers_nil pieces).mpr hcut pieces
    List.prefix_rfl
  rw [receive_pieces hcommand h.nonempty h.no_zero_piece]
  simp only [hfound, h.joined]

end Cut

/-- **The thread signals as soon as the bytes received contain an answer, and with two
deliveries of one stream ends alike, exactly when neither cuts the first answer.** -/
theorem prompt_and_alike_iff (hcommand : s_atCommand.getD 0 0 ≠ 0) {stream : List UInt8}
    {pieces pieces' : List (List UInt8)} (h : IsDelivery stream pieces)
    (h' : IsDelivery stream pieces') (buffer : List UInt8) :
    (Prompt s_atCommand buffer pieces ∧ Prompt s_atCommand buffer pieces' ∧
        receive_data_from_chan1 s_atCommand buffer (pieces.map .bytes)
          = receive_data_from_chan1 s_atCommand buffer (pieces'.map .bytes)) ↔
      Uncut Answers pieces ∧ Uncut Answers pieces' := by
  rw [prompt_iff_uncut hcommand h, prompt_iff_uncut hcommand h']
  constructor
  · rintro ⟨hcut, hcut', -⟩
    exact ⟨hcut, hcut'⟩
  · rintro ⟨hcut, hcut'⟩
    refine ⟨hcut, hcut', ?_⟩
    rw [receive_of_uncut hcommand h hcut, receive_of_uncut hcommand h' hcut']

end Delivery

/-- The command `AT` and CR, in its buffer. -/
def at_command : List UInt8 := hold buffsize [0x41, 0x54, 0x0D]

/-- `\r\nOK\r\n`, in one piece and behind its first two bytes in a second one. -/
def ok_whole : List (List UInt8) := [[0x0D, 0x0A, 0x4F, 0x4B, 0x0D, 0x0A]]

def ok_second : List (List UInt8) := [[0x0D, 0x0A], [0x4F, 0x4B, 0x0D, 0x0A]]

/-- The answer in two pieces, with the border inside the `OK`. -/
def ok_cut : List (List UInt8) := [[0x0D, 0x0A, 0x4F], [0x4B, 0x0D, 0x0A]]

theorem ok_deliveries : IsDelivery ok_whole.flatten ok_whole ∧
    IsDelivery ok_whole.flatten ok_second ∧ IsDelivery ok_whole.flatten ok_cut :=
  ⟨⟨by decide, by decide, by decide, by decide⟩, ⟨by decide, by decide, by decide, by decide⟩,
    ⟨by decide, by decide, by decide, by decide⟩⟩

theorem ok_whole_and_second :
    Prompt at_command (hold buffsize []) ok_whole ∧
      Prompt at_command (hold buffsize []) ok_second ∧
      receive_data_from_chan1 at_command (hold buffsize []) (ok_whole.map .bytes)
        = receive_data_from_chan1 at_command (hold buffsize []) (ok_second.map .bytes) :=
  (prompt_and_alike_iff (by decide) ok_deliveries.1 ok_deliveries.2.1 (hold buffsize [])).mpr
    ⟨uncut_concat.mpr ⟨uncut_nil, by decide⟩,
      uncut_concat.mpr ⟨uncut_concat.mpr ⟨uncut_nil, by decide⟩, by decide⟩⟩

/-- The whole answer is seen, and the cut one is not. -/
theorem ok_cut_not_seen :
    IsDelivery ok_whole.flatten ok_cut ∧ Answers ok_cut.flatten ∧
      receive_data_from_chan1 at_command (hold buffsize []) (ok_whole.map .bytes)
        = .stopped true ∧
      receive_data_from_chan1 at_command (hold buffsize []) (ok_cut.map .bytes) = .reading ∧
      ¬ Prompt at_command (hold buffsize []) ok_cut := by
  have hwhole : receive_data_from_chan1 at_command (hold buffsize []) (ok_whole.map .bytes)
      = .stopped true := by decide +kernel
  have hcut : receive_data_from_chan1 at_command (hold buffsize []) (ok_cut.map .bytes)
      = .reading := by decide +kernel
  refine ⟨ok_deliveries.2.2, by decide, hwhole, hcut, fun h => ?_⟩
  have hstop := (h ok_cut List.prefix_rfl).mpr (by decide)
  rw [hcut] at hstop
  cases hstop

end AndroidTools.SerialClient
