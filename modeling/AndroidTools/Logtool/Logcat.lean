/-
`asuslogcat.cpp`: the queues of `readLogLines`, and what its loops take from them.

Every log device has a queue in the order of time. As long as entries come, the first of the
queues' heads is printed if its device has a later entry queued as well; when nothing has come for
a while, everything queued is. With `-t` the loops skip entries as well, so that only the last
ones are printed.

Whether a loop prints or skips, a turn takes the first of the least heads (`flush_turn_some`,
`drain_turn_some`), and this is the one fact about the loops that the results on whole runs use.
The kernel is the sequence of `select` and `read` results; time does not pass otherwise.
-/
import AndroidTools.Lib.FirstLeast
import AndroidTools.Lib.Halting
import AndroidTools.Lib.Merge
import AndroidTools.Lib.Modify
import Mathlib.Data.Prod.Lex

set_option autoImplicit false

namespace AndroidTools.Asuslogcat

open AndroidTools.FirstLeast AndroidTools.Halting AndroidTools.Merge AndroidTools.Modify

/-! ## Entries and queues

`cmp` compares times by subtraction; entries of the driver have times that do not overflow
it. A queue is kept in the order of time by inserting from its front, so entries that come
in that order are put at the end.
-/

/-- `struct logger_entry`, with its text. The driver's times are not negative. -/
structure LoggerEntry where
  sec : Fin (2 ^ 31)
  nsec : Fin (2 ^ 31)
  msg : List UInt8
  deriving DecidableEq

/-- `cmp` of two entries by their times; differences of times do not overflow. -/
def cmp (a b : LoggerEntry) : ℤ :=
  let n : ℤ := (a.sec : ℕ) - (b.sec : ℕ)
  if n ≠ 0 then n else (a.nsec : ℕ) - (b.nsec : ℕ)

def LoggerEntry.time (e : LoggerEntry) : ℕ ×ₗ ℕ := toLex (e.sec, e.nsec)

theorem cmp_neg_iff (a b : LoggerEntry) : cmp a b < 0 ↔ a.time < b.time := by
  rw [cmp, LoggerEntry.time, LoggerEntry.time, Prod.Lex.toLex_lt_toLex]
  dsimp only
  split_ifs with h
  · omega
  · omega

theorem cmp_nonneg_iff (a b : LoggerEntry) : cmp a b ≥ 0 ↔ b.time ≤ a.time := by
  rw [ge_iff_le, ← not_lt, cmp_neg_iff, not_lt]

/-- `log_device_t::enqueue`. -/
def enqueue (entry : LoggerEntry) : List LoggerEntry → List LoggerEntry
  | [] => [entry]
  | e :: rest => if cmp entry e ≥ 0 then e :: enqueue entry rest else entry :: e :: rest

theorem enqueue_perm (entry : LoggerEntry) (queue : List LoggerEntry) :
    (enqueue entry queue).Perm (queue ++ [entry]) := by
  induction queue with
  | nil => exact .refl _
  | cons e rest ih =>
    rw [enqueue]
    split_ifs
    · exact ih.cons e
    · exact (List.perm_append_singleton entry (e :: rest)).symm

/-- An entry that is not older than the queued ones comes last. -/
theorem enqueue_of_le {entry : LoggerEntry} {queue : List LoggerEntry}
    (h : ∀ e ∈ queue, e.time ≤ entry.time) : enqueue entry queue = queue ++ [entry] := by
  induction queue with
  | nil => rfl
  | cons e rest ih =>
    rw [enqueue, if_pos ((cmp_nonneg_iff _ _).mpr (h e List.mem_cons_self)),
      ih fun x hx => h x (List.mem_cons_of_mem _ hx)]
    rfl

theorem enqueue_ne_nil (entry : LoggerEntry) (queue : List LoggerEntry) :
    enqueue entry queue ≠ [] := by
  intro h
  have := (enqueue_perm entry queue).length_eq
  rw [h, List.length_append] at this
  simp at this

/-! ## Devices

The devices are a list, in the order of the command line, and a device is referred to by its
place. What goes to the output is kept with the device it came from, so that the output of
one device can be picked out of it.
-/

/-- `struct log_device_t`: its name, whether its beginning was printed, and its queue. -/
structure LogDevice where
  device : List Char
  printed : Bool
  queue : List LoggerEntry
  deriving DecidableEq

def LogDevice.begin (d : LogDevice) : LogDevice := { d with printed := true }

def LogDevice.pop (d : LogDevice) : LogDevice := { d with queue := d.queue.tail }

def LogDevice.enqueue (entry : LoggerEntry) (d : LogDevice) : LogDevice :=
  { d with queue := Asuslogcat.enqueue entry d.queue }

/-- What goes to `g_outFD`: a device's beginning, and an entry of a device. -/
inductive Printed where
  | start (dev : ℕ) (buf : List Char)
  | entry (dev : ℕ) (e : LoggerEntry)
  deriving DecidableEq

structure Options where
  g_tail_lines : ℤ
  g_nonblock : Bool
  g_printBinary : Bool
  deriving DecidableEq

/-- The devices, the variables of `readLogLines` and what has been printed. -/
structure Logcat where
  devices : List LogDevice
  queued_lines : ℤ
  sleep : Bool
  out : List Printed
  deriving DecidableEq

/-- The devices as they are before the first `read`. -/
def opened (names : List (List Char)) : Logcat :=
  ⟨names.map fun d => ⟨d, false, []⟩, 0, false, []⟩

def choose_turn (firstdev : Option (ℕ × LoggerEntry)) (dev : LogDevice × ℕ) :
    Option (ℕ × LoggerEntry) :=
  match dev.1.queue.head?, firstdev with
  | none, _ => firstdev
  | some e, none => some (dev.2, e)
  | some e, some (_, f) => if cmp e f < 0 then some (dev.2, e) else firstdev

/-- `chooseFirst`: the place of `firstdev` in the list. -/
def chooseFirst (devices : List LogDevice) : Option ℕ :=
  (devices.zipIdx.foldl choose_turn none).map Prod.fst

/-- `snprintf(buf, sizeof(buf), "--------- beginning of %s\n", dev->device)`. -/
def beginning (device : List Char) : List Char :=
  ("--------- beginning of ".toList ++ device ++ ['\n']).take 1023

def maybePrintStart (o : Options) (k : ℕ) (s : Logcat) : Logcat :=
  match s.devices[k]? with
  | none => s
  | some dev =>
    if dev.printed then s
    else { s with
      devices := s.devices.modify k LogDevice.begin
      out := if s.devices.length > 1 ∧ o.g_printBinary = false
        then s.out ++ [.start k (beginning dev.device)] else s.out }

def skipNextEntry (o : Options) (k : ℕ) (s : Logcat) : Logcat :=
  let s := maybePrintStart o k s
  { s with devices := s.devices.modify k LogDevice.pop }

/-- The first entry of the device is printed, by `printBinary` or by `processBuffer`, and is taken
out of its queue. -/
def printNextEntry (o : Options) (k : ℕ) (s : Logcat) : Logcat :=
  let s := maybePrintStart o k s
  let entry := s.devices[k]?.bind fun dev => dev.queue.head?
  skipNextEntry o k { s with out := s.out ++ (entry.map (Printed.entry k)).toList }

/-! ## `readLogLines`

One turn of the outer loop begins with `select`. Its result, and those of the `read`s that
follow, are given from outside; a turn goes on to the next one, returns or exits. The two
inner loops, behind a timeout and behind a `read`, are the source's, with their own
conditions for going on.
-/

/-- A turn of the loop behind a timeout, until no device has an entry. -/
def flush_turn (o : Options) (s : Logcat) : Option Logcat :=
  (chooseFirst s.devices).map fun k =>
    let s := if o.g_tail_lines = 0 ∨ s.queued_lines ≤ o.g_tail_lines then printNextEntry o k s
      else skipNextEntry o k s
    { s with queued_lines := s.queued_lines - 1 }

/-- A turn of the loop behind a `read`: all that are not the last in their list. -/
def drain_turn (o : Options) (s : Logcat) : Option Logcat :=
  if o.g_tail_lines = 0 ∨ s.queued_lines > o.g_tail_lines then
    (chooseFirst s.devices).bind fun k =>
      if (s.devices[k]?.map fun dev => dev.queue.tail) = some [] then none
      else
        let s := if o.g_tail_lines = 0 then printNextEntry o k s else skipNextEntry o k s
        some { s with queued_lines := s.queued_lines - 1 }
  else none

/-- The entries in the queues: every turn takes one of them. -/
def queued (s : Logcat) : ℕ := (s.devices.map fun dev => dev.queue.length).sum

/-- What a `read` gives. The driver gives one full entry. -/
inductive Read where
  | entry (e : LoggerEntry)
  | eintr
  | eagain
  | failed (strerror : String)
  | eof
  | unexpected_length (expected : ℕ) (got : ℤ)
  deriving DecidableEq

/-- What a `select` gives: for every device in `readset` what its `read` will. -/
inductive Select where
  | error
  | timeout
  | ready (reads : List (Option Read))
  deriving DecidableEq

/-- The loop over the devices is done, goes to `next`, or exits. -/
inductive Reading where
  | done (s : Logcat)
  | next (s : Logcat)
  | exit (s : Logcat) (stderr : String)
  deriving DecidableEq

def enqueue_line (k : ℕ) (entry : LoggerEntry) (s : Logcat) : Logcat :=
  { s with
    devices := s.devices.modify k (LogDevice.enqueue entry)
    queued_lines := s.queued_lines + 1 }

/-- The loop over the devices `ks`, each of which is read if `select` has named it. -/
def read_devices (reads : List (Option Read)) : List ℕ → Logcat → Reading
  | [], s => .done s
  | k :: ks, s =>
    match reads.getD k none with
    | none => read_devices reads ks s
    | some (.entry e) => read_devices reads ks (enqueue_line k e s)
    | some .eintr => .next s
    | some .eagain => .done s
    | some (.failed strerror) => .exit s ("logcat read: " ++ strerror ++ "\n")
    | some .eof => .exit s "read: Unexpected EOF!\n"
    | some (.unexpected_length expected got) =>
      .exit s ("read: unexpected length. Expected " ++ toString expected ++ ", got " ++
        toString got ++ "\n")

/-- What a turn of `readLogLines` comes to: it goes on, has returned, or has left through `exit`.
-/
inductive Outcome where
  | going (s : Logcat)
  | returned (s : Logcat)
  | exited (s : Logcat) (stderr : String)
  deriving DecidableEq

/-- One turn of the outer loop: what it does for an error, a timeout or devices that have
something to read. -/
def select_turn (o : Options) (s : Logcat) : Select → Outcome
  | .error => .going s
  | .timeout =>
    let s := steps (flush_turn o) (queued s) { s with sleep := true }
    if o.g_nonblock then .returned s else .going s
  | .ready reads =>
    match read_devices reads (List.range s.devices.length) s with
    | .done s => .going (steps (drain_turn o) (queued s) { s with sleep := false })
    | .next s => .going s
    | .exit s stderr => .exited s stderr

def readLogLines (o : Options) : List Select → Logcat → Outcome
  | [], s => .going s
  | ev :: evs, s =>
    match select_turn o s ev with
    | .going s => readLogLines o evs s
    | r => r

/-! ## Queues, entries and lines

Three views of a state that the invariants speak of: the queue of a device, the entries that
were printed, and all that was printed of one device. Each operation says what it does to
them.
-/

/-- The queue of a device; a device that is not there has none. -/
def queue (devices : List LogDevice) (k : ℕ) : List LoggerEntry :=
  (devices[k]?.map LogDevice.queue).getD []

/-- The entries among what was printed, with their devices. -/
def entries (out : List Printed) : List (ℕ × LoggerEntry) :=
  out.filterMap fun x =>
    match x with
    | .start _ _ => none
    | .entry k e => some (k, e)

def Printed.dev : Printed → ℕ
  | start k _ => k
  | entry k _ => k

/-- What was printed of a device. -/
def lines (k : ℕ) (out : List Printed) : List Printed := out.filter fun x => x.dev = k

theorem entries_append (out out' : List Printed) :
    entries (out ++ out') = entries out ++ entries out' := List.filterMap_append

theorem lines_append (k : ℕ) (out out' : List Printed) :
    lines k (out ++ out') = lines k out ++ lines k out' := List.filter_append _ _

variable {devices : List LogDevice} {o : Options} {s t : Logcat} {k : ℕ} {e : LoggerEntry}
  {rest : List LoggerEntry}

theorem getElem?_of_queue (h : queue devices k = e :: rest) :
    ∃ d, devices[k]? = some d ∧ d.queue = e :: rest := by
  rw [queue] at h
  cases hd : devices[k]? with
  | none =>
    rw [hd] at h
    cases h
  | some d =>
    rw [hd] at h
    exact ⟨d, rfl, h⟩

theorem queue_modify {f : LogDevice → LogDevice} {g : List LoggerEntry → List LoggerEntry}
    (hf : ∀ d, (f d).queue = g d.queue) (hk : k < devices.length) (j : ℕ) :
    queue (devices.modify k f) j = if k = j then g (queue devices j) else queue devices j := by
  rw [queue, queue, List.getElem?_modify]
  split_ifs with hj
  · subst hj
    rw [List.getElem?_eq_getElem hk]
    exact hf _
  · cases devices[j]? with
    | none => rfl
    | some d => rfl

theorem queue_congr {devices' : List LogDevice}
    (h : devices.map LogDevice.queue = devices'.map LogDevice.queue) (j : ℕ) :
    queue devices j = queue devices' j := by
  rw [queue, queue, ← List.getElem?_map, ← List.getElem?_map, h]

theorem lt_of_queue (h : queue devices k = e :: rest) : k < devices.length := by
  obtain ⟨d, hd, -⟩ := getElem?_of_queue h
  exact (List.getElem?_eq_some_iff.mp hd).1

theorem opened_queue (names : List (List Char)) (k : ℕ) : queue (opened names).devices k = [] := by
  rw [queue, opened, List.getElem?_map]
  cases names[k]? with
  | none => rfl
  | some d => rfl

/-! ## `chooseFirst`

The loop over the devices keeps the first one with the least time, so it is the library's
search for the first of the least, over the times at the heads of the queues.
-/

/-- The times of the first entries of the queues, in the order of the devices. -/
def heads (devices : List LogDevice) : List (Option (ℕ ×ₗ ℕ)) :=
  devices.map fun d => d.queue.head?.map LoggerEntry.time

theorem choose_turn_scan (firstdev : Option (ℕ × LoggerEntry)) (dev : LogDevice × ℕ) :
    scan_turn (firstdev.map fun x => (x.1, x.2.time))
      (dev.1.queue.head?.map LoggerEntry.time, dev.2) =
      (choose_turn firstdev dev).map fun x => (x.1, x.2.time) := by
  obtain ⟨d, i⟩ := dev
  cases hq : d.queue.head? with
  | none =>
    simp only [choose_turn, hq]
    rfl
  | some e =>
    cases firstdev with
    | none =>
      simp only [choose_turn, hq]
      rfl
    | some x =>
      simp only [choose_turn, hq, Option.map_some, scan_turn_some, cmp_neg_iff]
      split_ifs
      · rfl
      · rfl

/-- The loop of `chooseFirst` looks for the first of the least times. -/
theorem scan_heads (devices : List LogDevice) :
    scan (heads devices) =
      (devices.zipIdx.foldl choose_turn none).map fun x => (x.1, x.2.time) := by
  rw [scan, heads, List.zipIdx_map, List.foldl_map]
  have hfold := @List.foldl_hom _ _ _ (Option.map fun x : ℕ × LoggerEntry => (x.1, x.2.time))
    choose_turn (fun x y => scan_turn x (y.1.queue.head?.map LoggerEntry.time, y.2))
    devices.zipIdx none choose_turn_scan
  rw [← hfold]
  rfl

theorem chooseFirst_eq (devices : List LogDevice) :
    chooseFirst devices = (scan (heads devices)).map Prod.fst := by
  rw [scan_heads, chooseFirst, Option.map_map]
  rfl

theorem heads_getElem? (devices : List LogDevice) (hk : k < devices.length) :
    (heads devices)[k]? = some ((queue devices k).head?.map LoggerEntry.time) := by
  rw [heads, List.getElem?_map, queue, List.getElem?_eq_getElem hk]
  rfl

theorem chooseFirst_some (h : chooseFirst devices = some k) :
    ∃ e rest, queue devices k = e :: rest ∧ IsFirstLeast (heads devices) k e.time := by
  rw [chooseFirst_eq, Option.map_eq_some_iff] at h
  obtain ⟨⟨i, b⟩, hscan, rfl⟩ := h
  have hleast := scan_eq_some_iff.mp hscan
  have hlt : i < devices.length := by
    have := (List.getElem?_eq_some_iff.mp hleast.holds).1
    rwa [heads, List.length_map] at this
  have hhead := hleast.holds
  rw [heads_getElem? devices hlt] at hhead
  cases hq : queue devices i with
  | nil =>
    rw [hq] at hhead
    cases hhead
  | cons e rest =>
    rw [hq] at hhead
    cases hhead
    exact ⟨e, rest, rfl, hleast⟩

theorem chooseFirst_none (h : chooseFirst devices = none) (j : ℕ) : queue devices j = [] := by
  rw [chooseFirst_eq, Option.map_eq_none_iff, scan_eq_none_iff] at h
  cases hq : queue devices j with
  | nil => rfl
  | cons e rest =>
    have hhead := heads_getElem? devices (lt_of_queue hq)
    rw [hq] at hhead
    exact absurd (List.mem_of_getElem? hhead) (h e.time)

/-! ## What a turn takes

Printing and skipping have the same effect on the queues, and the two inner loops take
entries in the same order. `Takes` says what they have in common, and `flush_turn_some` and
`drain_turn_some` are the only lemmas about the loops that are used from here on.
-/

/-- `maybePrintStart` changes `printed` and the output, and prints no entry. -/
theorem maybePrintStart_cases (o : Options) (k : ℕ) (s : Logcat) :
    maybePrintStart o k s = s ∨ ∃ buf, entries buf = [] ∧ maybePrintStart o k s =
      { s with devices := s.devices.modify k LogDevice.begin, out := s.out ++ buf } := by
  rw [maybePrintStart]
  cases s.devices[k]? with
  | none => exact .inl rfl
  | some d =>
    dsimp only
    by_cases hp : d.printed = true
    · rw [if_pos hp]
      exact .inl rfl
    · rw [if_neg hp]
      by_cases hmany : s.devices.length > 1 ∧ o.g_printBinary = false
      · rw [if_pos hmany]
        exact .inr ⟨_, rfl, rfl⟩
      · rw [if_neg hmany]
        exact .inr ⟨[], rfl, by rw [List.append_nil]⟩

theorem maybePrintStart_map {β : Type*} {g : LogDevice → β} (hg : ∀ d, g d.begin = g d)
    (o : Options) (k : ℕ) (s : Logcat) :
    (maybePrintStart o k s).devices.map g = s.devices.map g := by
  rcases maybePrintStart_cases o k s with h | ⟨buf, -, h⟩
  · rw [h]
  · rw [h]
    exact map_modify hg _ k

theorem maybePrintStart_queue (o : Options) (k : ℕ) (s : Logcat) (j : ℕ) :
    queue (maybePrintStart o k s).devices j = queue s.devices j :=
  queue_congr (maybePrintStart_map (fun _ => rfl) o k s) j

theorem maybePrintStart_entries (o : Options) (k : ℕ) (s : Logcat) :
    entries (maybePrintStart o k s).out = entries s.out := by
  rcases maybePrintStart_cases o k s with h | ⟨buf, hbuf, h⟩
  · rw [h]
  · rw [h]
    dsimp only
    rw [entries_append, hbuf, List.append_nil]

theorem maybePrintStart_queued_lines (o : Options) (k : ℕ) (s : Logcat) :
    (maybePrintStart o k s).queued_lines = s.queued_lines := by
  rcases maybePrintStart_cases o k s with h | ⟨buf, -, h⟩
  · rw [h]
  · rw [h]

/-- The first entry of the device `k` is taken from its queue. -/
structure Takes (k : ℕ) (rest : List LoggerEntry) (s t : Logcat) : Prop where
  queue : ∀ j, queue t.devices j = if k = j then rest else queue s.devices j
  names : t.devices.map LogDevice.device = s.devices.map LogDevice.device
  left : queued t + 1 = queued s
  queued_lines : t.queued_lines = s.queued_lines

theorem skipNextEntry_takes (o : Options) (h : queue s.devices k = e :: rest) :
    Takes k rest s (skipNextEntry o k s) := by
  have hq : queue (maybePrintStart o k s).devices k = e :: rest := by
    rw [maybePrintStart_queue, h]
  obtain ⟨d, hd, hdq⟩ := getElem?_of_queue hq
  refine ⟨fun j => ?_, ?_, ?_, maybePrintStart_queued_lines o k s⟩
  · rw [skipNextEntry]
    dsimp only
    rw [queue_modify (f := LogDevice.pop) (g := List.tail) (fun _ => rfl) (lt_of_queue hq),
      maybePrintStart_queue]
    split_ifs with hj
    · subst hj
      rw [h]
      rfl
    · rfl
  · rw [skipNextEntry]
    exact (map_modify (f := LogDevice.pop) (fun _ => rfl) _ k).trans
      (maybePrintStart_map (fun _ => rfl) o k s)
  · have hsum := sum_map_modify (f := LogDevice.pop) (g := fun d => d.queue.length) hd
    rw [maybePrintStart_map (fun _ => rfl) o k s] at hsum
    rw [LogDevice.pop, hdq] at hsum
    rw [queued, queued, skipNextEntry]
    simp only [List.length_cons, List.tail_cons] at hsum ⊢
    omega

theorem skipNextEntry_entries (o : Options) (k : ℕ) (s : Logcat) :
    entries (skipNextEntry o k s).out = entries s.out := maybePrintStart_entries o k s

theorem printNextEntry_takes (o : Options) (h : queue s.devices k = e :: rest) :
    Takes k rest s (printNextEntry o k s) ∧
      entries (printNextEntry o k s).out = entries s.out ++ [(k, e)] := by
  have hq : queue (maybePrintStart o k s).devices k = e :: rest := by
    rw [maybePrintStart_queue, h]
  obtain ⟨d, hd, hdq⟩ := getElem?_of_queue hq
  rw [printNextEntry, hd, Option.bind_some, hdq]
  constructor
  · have htake := skipNextEntry_takes o (s := { maybePrintStart o k s with
      out := (maybePrintStart o k s).out ++ [Printed.entry k e] }) hq
    refine ⟨fun j => ?_, htake.names.trans (maybePrintStart_map (fun _ => rfl) o k s), ?_,
      htake.queued_lines.trans (maybePrintStart_queued_lines o k s)⟩
    · refine (htake.queue j).trans ?_
      dsimp only
      rw [maybePrintStart_queue]
    · refine htake.left.trans ?_
      rw [queued, queued, maybePrintStart_map (fun _ => rfl) o k s]
  · rw [skipNextEntry_entries]
    dsimp only
    rw [List.head?_cons, Option.map_some, Option.toList_some, entries_append,
      maybePrintStart_entries]
    rfl

/-- Every turn behind a timeout takes the first of the least. -/
theorem flush_turn_some (h : flush_turn o s = some t) :
    ∃ k e rest, queue s.devices k = e :: rest ∧ IsFirstLeast (heads s.devices) k e.time ∧
      Takes k rest s { t with queued_lines := t.queued_lines + 1 } ∧
      entries t.out = entries s.out ++
        if o.g_tail_lines = 0 ∨ s.queued_lines ≤ o.g_tail_lines then [(k, e)] else [] := by
  rw [flush_turn, Option.map_eq_some_iff] at h
  obtain ⟨k, hk, rfl⟩ := h
  obtain ⟨e, rest, hq, hleast⟩ := chooseFirst_some hk
  refine ⟨k, e, rest, hq, hleast, ?_⟩
  dsimp only
  rw [sub_add_cancel]
  split_ifs with hprint
  · exact printNextEntry_takes o hq
  · exact ⟨skipNextEntry_takes o hq, (skipNextEntry_entries o k s).trans (List.append_nil _).symm⟩

theorem flush_turn_none (h : flush_turn o s = none) (k : ℕ) : queue s.devices k = [] :=
  chooseFirst_none (Option.map_eq_none_iff.mp h) k

/-- Every turn behind a `read` takes the first of the least, which is not the last of its
device. -/
theorem drain_turn_some (h : drain_turn o s = some t) :
    ∃ k e rest, queue s.devices k = e :: rest ∧ rest ≠ [] ∧
      IsFirstLeast (heads s.devices) k e.time ∧
      Takes k rest s { t with queued_lines := t.queued_lines + 1 } ∧
      (o.g_tail_lines = 0 ∨ s.queued_lines > o.g_tail_lines) ∧
      entries t.out = entries s.out ++ if o.g_tail_lines = 0 then [(k, e)] else [] := by
  rw [drain_turn] at h
  by_cases hmore : o.g_tail_lines = 0 ∨ s.queued_lines > o.g_tail_lines
  swap
  · rw [if_neg hmore] at h
    cases h
  rw [if_pos hmore, Option.bind_eq_some_iff] at h
  obtain ⟨k, hk, h⟩ := h
  obtain ⟨e, rest, hq, hleast⟩ := chooseFirst_some hk
  obtain ⟨d, hd, hdq⟩ := getElem?_of_queue hq
  simp only [hd, Option.map_some, hdq, List.tail_cons, Option.some.injEq] at h
  split_ifs at h with hlast htail
  · cases h
    refine ⟨k, e, rest, hq, hlast, hleast, ?_⟩
    dsimp only
    rw [sub_add_cancel, if_pos htail]
    obtain ⟨htakes, hentries⟩ := printNextEntry_takes o hq
    exact ⟨htakes, hmore, hentries⟩
  · cases h
    refine ⟨k, e, rest, hq, hlast, hleast, ?_⟩
    dsimp only
    rw [sub_add_cancel, if_neg htail, List.append_nil]
    exact ⟨skipNextEntry_takes o hq, hmore, skipNextEntry_entries o k s⟩

end AndroidTools.Asuslogcat
