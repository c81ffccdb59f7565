/-
The pages of an IPC log (ipc_logging.py).

A page is a header and what was written behind it. `pack` and `unpack` are about the header, and
what does not fit on a page is handed back to be put on the next one (`LogPage.unpack_of_front`).
The pages of a log are a ring: what a page begins with is put behind what the page before it could
not read, and the page that is written again while it is read has its newest part in front of its
oldest, which is read behind the last page.

In the source a page has references to its neighbours, which it changes while it is iterated. Here
the pages refer to each other by their places in the ring, and a call of `next` takes and returns
the whole ring; the last section says which pages it can change, and how.
-/
import AndroidTools.IpcLog.Message
import AndroidTools.Lib.Modify
import AndroidTools.Lib.Struct

set_option autoImplicit false

namespace AndroidTools.IpcLog

open AndroidTools.Bytes AndroidTools.Framing AndroidTools.Modify

/-! ## Pages

The four versions of a page differ in the header and in whether messages have a QTimer; the
class of a page says which of them it is. `iter_data` and `previousData` are the two lists
that change while the ring is iterated.
-/

def MAGIC : ℕ := 0x52784425
def NMAGIC : ℕ := 2 ^ 32 - 1 - MAGIC
def V0_PAGE_HDR_SIZE : ℕ := 4 * 4 + 2 * 2 + 2 * 4
def V1_PAGE_HDR_SIZE : ℕ := 0x40
def V1_PAGE_HDR_SIZE_64 : ℕ := 0x48
def PAGE_SIZE : ℕ := 4 * 1024
def FULL_PAGE_WRITE_OFFSET : ℕ := 0xFFFF

/-- `LogPage_v0` to `LogPage_v3`, the versions of a page. -/
inductive LogPageClass where
  | v0 | v1 | v2 | v3
  deriving Repr, DecidableEq

/-- Whether `next` unpacks messages with a QTimer. -/
def LogPageClass.qtimer : LogPageClass → Bool
  | v0 | v1 => false
  | v2 | v3 => true

/-- A page; the times and the offset of the context are 0 in version 0. `iter_data` is `None`
before the page is iterated and after its end was pushed on. -/
structure LogPage where
  version : LogPageClass
  page_header_size : ℕ
  log_id : ℕ
  page_num : ℕ
  read_offset : ℕ
  write_offset : ℕ
  start_time : ℕ
  end_time : ℕ
  context_offset : ℤ
  data : List UInt8
  previousData : Option (List UInt8)
  nextData : Option (List UInt8)
  iter_data : Option (List UInt8)
  iterated : Bool
  deriving Repr, DecidableEq

/-- `__init__` of a page of this version. -/
def LogPage.init (version : LogPageClass) : LogPage where
  version := version
  page_header_size := match version with
    | .v0 => V0_PAGE_HDR_SIZE
    | .v1 | .v2 | .v3 => V1_PAGE_HDR_SIZE
  log_id := 0
  page_num := 0
  read_offset := 0
  write_offset := 0
  start_time := 0
  end_time := 0
  context_offset := 0
  data := []
  previousData := none
  nextData := none
  iter_data := none
  iterated := false

/-! ## `pack` and `unpack`

A page is of fixed size. `pack` fills one with as much of the payload as fits behind the
header and hands the rest back, and `unpack` takes the fields of the header and all that
stands behind it.
-/

section Formats

open Struct

/-- `headerBinaryFormat`: `<IIIIHH` for version 0, and `<IIIHHQQQq` for the later ones. -/
def LogPageClass.headerBinaryFormat : LogPageClass → List Field
  | v0 => [.I, .I, .I, .I, .H, .H]
  | v1 | v2 | v3 => [.I, .I, .I, .H, .H, .Q, .Q, .Q, .q]

/-- The numbers of a header, in the order of the format. -/
def LogPage.header (p : LogPage) : List ℤ :=
  match p.version with
  | .v0 => [MAGIC, NMAGIC, p.log_id, p.page_num, p.read_offset, p.write_offset]
  | .v1 | .v2 | .v3 => [MAGIC, NMAGIC, p.page_num, p.read_offset, p.write_offset, p.log_id,
      p.start_time, p.end_time, p.context_offset]

/-- `unpack`: the page with the fields of the header, and whether the numbers that mark a
page are there. The top bit of the page number is masked off. -/
def LogPage.unpack (p : LogPage) (data : List UInt8) : Except IpcError (LogPage × Bool) :=
  let fmt := p.version.headerBinaryFormat
  match p.version, Struct.unpack fmt (data.take (calcsize fmt)) with
  | .v0, some [magic, nmagic, log_id, page_num, read_offset, write_offset] =>
    .ok ({ p with
        data := data
        log_id := log_id.toNat
        page_num := page_num.toNat % 2 ^ 31
        read_offset := read_offset.toNat
        write_offset := write_offset.toNat },
      magic = MAGIC ∧ nmagic = NMAGIC)
  | .v1, some [magic, nmagic, page_num, read_offset, write_offset, log_id, start_time, end_time,
      context_offset]
  | .v2, some [magic, nmagic, page_num, read_offset, write_offset, log_id, start_time, end_time,
      context_offset]
  | .v3, some [magic, nmagic, page_num, read_offset, write_offset, log_id, start_time, end_time,
      context_offset] =>
    .ok ({ p with
        data := data
        log_id := log_id.toNat
        page_num := page_num.toNat % 2 ^ 31
        read_offset := read_offset.toNat
        write_offset := write_offset.toNat
        start_time := start_time.toNat
        end_time := end_time.toNat
        context_offset := context_offset },
      magic = MAGIC ∧ nmagic = NMAGIC)
  | _, _ => .error .struct_error

/-- `pack` of a page with the given header: its data, and what does not fit. -/
def LogPage.pack (p : LogPage) (strPayload : List UInt8) :
    Except IpcError (LogPage × Option (List UInt8)) :=
  match Struct.pack p.version.headerBinaryFormat p.header with
  | none => .error .struct_error
  | some header =>
    let data := header ++ List.replicate (p.page_header_size - header.length) 0 ++ strPayload
    if PAGE_SIZE < data.length then
      .ok ({ p with data := data.take PAGE_SIZE }, some (data.drop PAGE_SIZE))
    else .ok ({ p with data := data }, none)

/-- `pack_continue`: more of the payload is put on the page, and what does not fit is handed back.
-/
def LogPage.pack_continue (p : LogPage) (strPayload : List UInt8) :
    LogPage × Option (List UInt8) :=
  let data := p.data ++ strPayload
  if PAGE_SIZE < data.length then
    ({ p with data := data.take PAGE_SIZE }, some (data.drop PAGE_SIZE))
  else ({ p with data := data }, none)

end Formats

/-! ## What is packed is unpacked

Only the header has to come back; what is behind it is whatever was put there. The formats
are those of `struct`, so the round trip is the library's.
-/

/-- A page that is only made: nobody has iterated it, and in version 0 it has no times. -/
structure LogPage.New (p : LogPage) : Prop where
  previousData : p.previousData = none
  nextData : p.nextData = none
  iter_data : p.iter_data = none
  iterated : p.iterated = false
  page_num : p.page_num < 2 ^ 31
  times : p.version = .v0 → p.start_time = 0 ∧ p.end_time = 0 ∧ p.context_offset = 0

theorem calcsize_headerBinaryFormat_le (v : LogPageClass) :
    Struct.calcsize v.headerBinaryFormat ≤ PAGE_SIZE := by
  cases v <;> decide

/-- A page that begins with the header of `made`, and has nothing else but data. -/
def LogPage.Begun (made p : LogPage) : Prop :=
  ∃ header, Struct.pack made.version.headerBinaryFormat made.header = some header ∧
    p = { made with data := p.data } ∧
    p.data.take (Struct.calcsize made.version.headerBinaryFormat) = header

theorem LogPage.begun_of_pack {p p' : LogPage} {strPayload : List UInt8}
    {overflow : Option (List UInt8)} (h : p.pack strPayload = .ok (p', overflow)) :
    p.Begun p' := by
  rw [LogPage.pack] at h
  cases hheader : Struct.pack p.version.headerBinaryFormat p.header with
  | none =>
    rw [hheader] at h
    cases h
  | some header =>
    have hlen := Struct.length_pack hheader
    have hfront : ∀ rest : List UInt8,
        (header ++ rest).take (Struct.calcsize p.version.headerBinaryFormat) = header :=
      fun rest => List.take_left' hlen
    rw [hheader] at h
    dsimp only at h
    refine ⟨header, hheader, ?_⟩
    split_ifs at h
    · cases h
      refine ⟨rfl, ?_⟩
      dsimp only
      rw [List.take_take, Nat.min_eq_left (calcsize_headerBinaryFormat_le p.version),
        List.append_assoc, hfront]
    · cases h
      refine ⟨rfl, ?_⟩
      dsimp only
      rw [List.append_assoc, hfront]

/-- A page that more is put on to keeps the header that it began with. -/
theorem LogPage.Begun.continue {made p p' : LogPage} {strPayload : List UInt8}
    {overflow : Option (List UInt8)} (hp : made.Begun p)
    (h : p.pack_continue strPayload = (p', overflow)) : made.Begun p' := by
  obtain ⟨header, hheader, hmade, hfront⟩ := hp
  have hlen := Struct.length_pack hheader
  have hle : Struct.calcsize made.version.headerBinaryFormat ≤ p.data.length := by
    have htake := congrArg List.length hfront
    rw [List.length_take, hlen] at htake
    omega
  refine ⟨header, hheader, ?_⟩
  rw [LogPage.pack_continue] at h
  split_ifs at h
  · cases h
    refine ⟨by rw [hmade], ?_⟩
    dsimp only
    rw [List.take_take, Nat.min_eq_left (calcsize_headerBinaryFormat_le made.version),
      List.take_append_of_le_length hle, hfront]
  · cases h
    refine ⟨by rw [hmade], ?_⟩
    dsimp only
    rw [List.take_append_of_le_length hle, hfront]

/-- **The header of a page comes back**, whatever is behind it, and the data are what follows. -/
theorem LogPage.unpack_of_front {p : LogPage} {header data : List UInt8} (hnew : p.New)
    (hheader : Struct.pack p.version.headerBinaryFormat p.header = some header)
    (hfront : data.take (Struct.calcsize p.version.headerBinaryFormat) = header) :
    (LogPage.init p.version).unpack data
      = .ok ({ p with
          data := data
          page_header_size := (LogPage.init p.version).page_header_size }, true) := by
  have hunpack := Struct.unpack_pack hheader
  have hnum := Nat.mod_eq_of_lt hnew.page_num
  obtain ⟨hprevious, hnext, hiter, hiterated, -, htimes⟩ := hnew
  obtain ⟨version, page_header_size, log_id, page_num, read_offset, write_offset, start_time,
    end_time, context_offset, olddata, previousData, nextData, iter_data, iterated⟩ := p
  dsimp only at *
  subst hprevious hnext hiter hiterated
  cases version with
  | v0 =>
    obtain ⟨rfl, rfl, rfl⟩ := htimes rfl
    rw [LogPage.unpack]
    dsimp only [LogPage.init]
    rw [hfront, hunpack]
    simp only [LogPage.header, Int.toNat_natCast, hnum, and_self, decide_true]
  | v1 =>
    rw [LogPage.unpack]
    dsimp only [LogPage.init]
    rw [hfront, hunpack]
    simp only [LogPage.header, Int.toNat_natCast, hnum, and_self, decide_true]
  | v2 =>
    rw [LogPage.unpack]
    dsimp only [LogPage.init]
    rw [hfront, hunpack]
    simp only [LogPage.header, Int.toNat_natCast, hnum, and_self, decide_true]
  | v3 =>
    rw [LogPage.unpack]
    dsimp only [LogPage.init]
    rw [hfront, hunpack]
    simp only [LogPage.header, Int.toNat_natCast, hnum, and_self, decide_true]

/-! ## Iterating a ring

A call of `next` of one page changes up to three: it pulls what the next page has in front
of its read position, gives a message from its own bytes, and pushes what is left to the
next page when there is no whole message. So the call takes the ring and returns it.
-/

/-- `iter_data` and `previousData` as `__iter__` takes them from the page. -/
def LogPage.written (p : LogPage) : List UInt8 × Option (List UInt8) :=
  let read_iter := p.read_offset + p.page_header_size
  let write_iter := p.write_offset + p.page_header_size
  if p.read_offset = FULL_PAGE_WRITE_OFFSET ∧ p.write_offset = FULL_PAGE_WRITE_OFFSET then
    (p.data.drop p.page_header_size, none)
  else if p.write_offset = FULL_PAGE_WRITE_OFFSET then (p.data.drop read_iter, none)
  else if p.read_offset = FULL_PAGE_WRITE_OFFSET then
    ((p.data.take write_iter).drop p.page_header_size, none)
  else if p.write_offset ≤ p.read_offset then
    if p.page_num = 0 ∧ p.read_offset = p.write_offset then
      (p.data.drop p.page_header_size, none)
    else (p.data.drop read_iter, some ((p.data.take write_iter).drop p.page_header_size))
  else ((p.data.take write_iter).drop read_iter, none)

/-- The place of `nextPage` in the ring. -/
def next_place (ring : List LogPage) (k : ℕ) : ℕ := (k + 1) % ring.length

/-- The place of `previousPage` in the ring. -/
def previous_place (ring : List LogPage) (k : ℕ) : ℕ := (k + ring.length - 1) % ring.length

/-- A list of bytes that the page at a place has; nothing where there are none. -/
def data_at (ring : List LogPage) (field : LogPage → Option (List UInt8)) (k : ℕ) : List UInt8 :=
  ((ring[k]?).bind field).getD []

/-- `__iter__` of the page at a place: it counts as iterated, and reads its own bytes behind what
was pushed on to it. -/
def iter (ring : List LogPage) (k : ℕ) : List LogPage :=
  let carried := data_at ring LogPage.nextData (previous_place ring k)
  ring.modify k fun p =>
    { p with
      iterated := true
      previousData := p.written.2
      iter_data := some (carried ++ p.written.1) }

/-- What a call of `next` of a page does: it returns a message, stops the iteration, or raises. -/
inductive NextResult where
  | message (m : LogMessageString)
  | stop_iteration
  | raised (e : IpcError)
  deriving Repr, DecidableEq

/-- The data in front of the read position of the next page are put behind the page's own. -/
def pull_previous (ring : List LogPage) (k : ℕ) : List LogPage :=
  let previousData := data_at ring LogPage.previousData (next_place ring k)
  if previousData = [] then ring
  else
    (ring.modify k fun p => { p with iter_data := p.iter_data.map (· ++ previousData) }).modify
      (next_place ring k) fun p => { p with previousData := none }

/-- The end of a page is pushed on to the next one. -/
def LogPage.push (iter_data : List UInt8) (p : LogPage) : LogPage :=
  { p with nextData := some iter_data, iter_data := none }

/-- The page with what is left behind the message that was read. -/
def LogPage.keep (rest : List UInt8) (p : LogPage) : LogPage := { p with iter_data := some rest }

/-- `next` of the page at a place. Where the page raises, what is left in `iter_data` is not
looked at again. -/
def next (ring : List LogPage) (k : ℕ) : NextResult × List LogPage :=
  let ring := pull_previous ring k
  match ring[k]? with
  | none => (.raised .type_error, ring)
  | some p =>
    match p.iter_data with
    | none => (.raised .type_error, ring)
    | some iter_data =>
      match at_head p.version.qtimer iter_data with
      | .more => (.stop_iteration, ring.modify k (LogPage.push iter_data))
      | .stop => (.stop_iteration, ring)
      | .record m rest => (.message m, ring.modify k (LogPage.keep rest))
      | .fail e => (.raised e, ring)

/-! ## Which pages change, and how

For each of the operations, what the page at every place is afterwards. All that is proved
about the loop uses these lemmas, and none of it opens `next` again.
-/

theorem data_at_eq_of_some {ring : List LogPage} {field : LogPage → Option (List UInt8)} {k : ℕ}
    {p : LogPage} (h : ring[k]? = some p) : data_at ring field k = (field p).getD [] := by
  rw [data_at, h, Option.bind_some]

theorem data_at_eq_nil {ring : List LogPage} {field : LogPage → Option (List UInt8)} {k : ℕ}
    (h : ∀ p ∈ ring, (field p).getD [] = []) : data_at ring field k = [] := by
  rw [data_at]
  cases hp : ring[k]? with
  | none => rfl
  | some p => exact h p (List.mem_of_getElem? hp)

/-- Pages that have the same data give the same, whatever else is different. -/
theorem data_at_congr {ring ring' : List LogPage} {field : LogPage → Option (List UInt8)}
    (h : ring'.map field = ring.map field) (k : ℕ) :
    data_at ring' field k = data_at ring field k := by
  have hjoin : ∀ l : List LogPage, ((l[k]?).bind field) = ((l.map field)[k]?).join := by
    intro l
    rw [List.getElem?_map]
    cases l[k]? with
    | none => rfl
    | some p => rfl
  rw [data_at, data_at, hjoin, hjoin, h]

@[simp] theorem length_iter (ring : List LogPage) (k : ℕ) : (iter ring k).length = ring.length := by
  rw [iter, List.length_modify]

@[simp] theorem length_pull_previous (ring : List LogPage) (k : ℕ) :
    (pull_previous ring k).length = ring.length := by
  rw [pull_previous]
  split_ifs
  · rfl
  · rw [List.length_modify, List.length_modify]

theorem iter_getElem?_self {ring : List LogPage} {k : ℕ} {p : LogPage} (h : ring[k]? = some p) :
    (iter ring k)[k]? = some
      { p with
        iterated := true
        previousData := p.written.2
        iter_data := some (data_at ring LogPage.nextData (previous_place ring k) ++
          p.written.1) } := by
  rw [iter, List.getElem?_modify_eq, h]
  rfl

theorem iter_getElem?_ne {ring : List LogPage} {k j : ℕ} (h : k ≠ j) :
    (iter ring k)[j]? = ring[j]? := by
  rw [iter, List.getElem?_modify_ne _ _ h]

/-- What pulling does to each page. -/
theorem pull_previous_getElem? (ring : List LogPage) (k j : ℕ) :
    (pull_previous ring k)[j]? = (ring[j]?).map fun p =>
      let previousData := data_at ring LogPage.previousData (next_place ring k)
      { p with
        iter_data := if k = j then p.iter_data.map (· ++ previousData) else p.iter_data
        previousData :=
          if next_place ring k = j ∧ previousData ≠ [] then none else p.previousData } := by
  by_cases hnil : data_at ring LogPage.previousData (next_place ring k) = []
  · rw [pull_previous, if_pos hnil, hnil]
    cases ring[j]? with
    | none => rfl
    | some p => simp
  · rw [pull_previous, if_neg hnil, List.getElem?_modify, List.getElem?_modify]
    cases ring[j]? with
    | none => rfl
    | some p =>
      generalize data_at ring LogPage.previousData (next_place ring k) = d at hnil ⊢
      generalize next_place ring k = n
      by_cases hk : k = j <;> by_cases hn : n = j <;> simp [hk, hn, hnil]

/-- Pulling changes nothing but the two lists of bytes. -/
theorem map_pull_previous {β : Type*} {g : LogPage → β}
    (h : ∀ p i d, g { p with iter_data := i, previousData := d } = g p) (ring : List LogPage)
    (k : ℕ) : (pull_previous ring k).map g = ring.map g := by
  apply List.ext_getElem?
  intro j
  rw [List.getElem?_map, List.getElem?_map, pull_previous_getElem?, Option.map_map]
  cases ring[j]? with
  | none => rfl
  | some p => exact congrArg some (h p _ _)

/-- What is pulled is pulled once: nothing is left where it was taken from. -/
theorem data_at_pull_previous (ring : List LogPage) (k : ℕ) :
    data_at (pull_previous ring k) LogPage.previousData (next_place ring k) = [] := by
  by_cases hnil : data_at ring LogPage.previousData (next_place ring k) = []
  · rw [pull_previous, if_pos hnil, hnil]
  · rw [data_at, pull_previous_getElem?]
    cases ring[next_place ring k]? with
    | none => rfl
    | some p => simp [hnil]

/-- `next`, of a page with data: what is found behind pulling. -/
theorem next_of_some {ring : List LogPage} {k : ℕ} {p : LogPage} {d : List UInt8}
    (hp : ring[k]? = some p) (hd : p.iter_data = some d) :
    let d := d ++ data_at ring LogPage.previousData (next_place ring k)
    next ring k = match at_head p.version.qtimer d with
      | .more => (.stop_iteration, (pull_previous ring k).modify k (LogPage.push d))
      | .stop => (.stop_iteration, pull_previous ring k)
      | .record m rest => (.message m, (pull_previous ring k).modify k (LogPage.keep rest))
      | .fail e => (.raised e, pull_previous ring k) := by
  intro d
  rw [next, pull_previous_getElem?, hp, Option.map_some]
  dsimp only
  rw [if_pos rfl, hd, Option.map_some]

/-- The `next` of a page that has no data to iterate raises. -/
theorem next_of_none {ring : List LogPage} {k : ℕ}
    (h : (ring[k]?).bind LogPage.iter_data = none) :
    next ring k = (.raised .type_error, pull_previous ring k) := by
  rw [next, pull_previous_getElem?]
  cases hp : ring[k]? with
  | none => rfl
  | some p =>
    rw [hp, Option.bind_some] at h
    rw [Option.map_some]
    dsimp only
    rw [if_pos rfl, h, Option.map_none]

end AndroidTools.IpcLog
