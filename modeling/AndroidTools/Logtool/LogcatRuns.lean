/-
`asuslogcat.cpp`: what a run of `readLogLines` has printed.

Without `-t` an entry read is printed once and never lost, and a device that delivers in the order
of time is printed in it, whatever the order in which the devices are ready
(`readLogLines_prints`). With any options, every log has its beginning once and in front of its
entries (`readLogLines_begins`).

Both are invariants over every sequence of `select` and `read` results, also those that end the
run with an error. The first one is kept device by device, as a permutation and, where the device
delivers in order, as an equation; the second one looks at the output of one device only. Neither
says anything about the order among the devices, which depends on when they are ready.
-/
import AndroidTools.Logtool.Logcat

set_option autoImplicit false

namespace AndroidTools.Asuslogcat

open AndroidTools.FirstLeast AndroidTools.Halting AndroidTools.Merge AndroidTools.Modify

variable {o : Options} {s t : Logcat} {k : ℕ} {e : LoggerEntry} {rest : List LoggerEntry}

/-! ## A device's entries

The invariant is stated for one device at a time and for all of them: what was read is what
was printed and what is queued, as a permutation, and in order if the device delivers in
order. Nothing is skipped without `-t`, which the invariant asks for.
-/

/-- What was read of a device is printed or queued, and in its order if that is the order of
time. -/
structure Prints (printed queue read : List LoggerEntry) : Prop where
  perm : (printed ++ queue).Perm read
  inorder : (read.Pairwise fun a b => a.time ≤ b.time) → printed ++ queue = read

theorem Prints.take {printed read : List LoggerEntry} (h : Prints printed (e :: rest) read) :
    Prints (printed ++ [e]) rest read where
  perm := by
    rw [List.append_assoc]
    exact h.perm
  inorder hsorted := by
    rw [List.append_assoc]
    exact h.inorder hsorted

theorem Prints.enqueue {printed queue read : List LoggerEntry} (h : Prints printed queue read)
    (e : LoggerEntry) : Prints printed (enqueue e queue) (read ++ [e]) where
  perm := by
    refine ((enqueue_perm e queue).append_left printed).trans ?_
    rw [← List.append_assoc]
    exact h.perm.append_right [e]
  inorder hsorted := by
    obtain ⟨hread, -, hlast⟩ := List.pairwise_append.mp hsorted
    have heq := h.inorder hread
    rw [enqueue_of_le fun x hx => hlast x (heq ▸ List.mem_append_right _ hx) e
      (List.mem_singleton_self e), ← List.append_assoc, heq]

/-- What every turn keeps while nothing is skipped: the devices are those that were opened, and of
each of them what was read is printed or queued. -/
structure Kept (names : List (List Char)) (read : List (ℕ × LoggerEntry)) (s : Logcat) : Prop where
  names : s.devices.map LogDevice.device = names
  prints : ∀ k, Prints (from_source k (entries s.out)) (queue s.devices k) (from_source k read)

variable {names : List (List Char)} {read : List (ℕ × LoggerEntry)}

theorem Kept.length (h : Kept names read s) : s.devices.length = names.length := by
  rw [← h.names, List.length_map]

theorem Kept.take (h : Kept names read s) (hq : queue s.devices k = e :: rest)
    (ht : Takes k rest s { t with queued_lines := t.queued_lines + 1 })
    (hentries : entries t.out = entries s.out ++ [(k, e)]) : Kept names read t where
  names := ht.names.trans h.names
  prints j := by
    have hj := h.prints j
    rw [hentries, from_source_append, from_source_cons, from_source_nil,
      show queue t.devices j = _ from ht.queue j]
    dsimp only
    split_ifs with hkj
    · subst hkj
      rw [hq] at hj
      exact hj.take
    · rwa [List.append_nil]

theorem Kept.flush (h : Kept names read s) (htail : o.g_tail_lines = 0)
    (ht : flush_turn o s = some t) : Kept names read t := by
  obtain ⟨k, e, rest, hq, -, htakes, hentries⟩ := flush_turn_some ht
  rw [if_pos (.inl htail)] at hentries
  exact h.take hq htakes hentries

theorem Kept.drain (h : Kept names read s) (htail : o.g_tail_lines = 0)
    (ht : drain_turn o s = some t) : Kept names read t := by
  obtain ⟨k, e, rest, hq, -, -, htakes, -, hentries⟩ := drain_turn_some ht
  rw [if_pos htail] at hentries
  exact h.take hq htakes hentries

theorem Kept.enqueue (h : Kept names read s) (hk : k < names.length) (e : LoggerEntry) :
    Kept names (read ++ [(k, e)]) (enqueue_line k e s) where
  names := (map_modify (f := LogDevice.enqueue e) (fun _ => rfl) _ k).trans h.names
  prints j := by
    have hj := h.prints j
    rw [enqueue_line, from_source_append, from_source_cons, from_source_nil]
    dsimp only
    rw [queue_modify (f := LogDevice.enqueue e) (g := Asuslogcat.enqueue e) (fun _ => rfl)
      (by rwa [h.length])]
    split_ifs with hkj
    · exact hj.enqueue e
    · rwa [List.append_nil]

/-! ## A run

Each step of a turn keeps the invariant, and so any sequence of turns does. At a timeout all
queues come to be empty, so from then on everything that was read has been printed.
-/

def Reading.state : Reading → Logcat
  | done s => s
  | next s => s
  | exit s _ => s

/-- The entries that the loop over the devices `ks` reads. -/
def handed (reads : List (Option Read)) : List ℕ → List (ℕ × LoggerEntry)
  | [] => []
  | k :: ks =>
    match reads.getD k none with
    | none => handed reads ks
    | some (.entry e) => (k, e) :: handed reads ks
    | some _ => []

/-- The entries that are read behind a `select`, of `n` devices, each with its device. -/
def entries_read (n : ℕ) : Select → List (ℕ × LoggerEntry)
  | .ready reads => handed reads (List.range n)
  | _ => []

theorem read_devices_kept {reads : List (Option Read)} {ks : List ℕ} (h : Kept names read s)
    (hks : ∀ k ∈ ks, k < names.length) :
    Kept names (read ++ handed reads ks) (read_devices reads ks s).state := by
  induction ks generalizing read s with
  | nil =>
    rw [handed, List.append_nil]
    exact h
  | cons k ks ih =>
    have hrest : ∀ j ∈ ks, j < names.length := fun j hj => hks j (List.mem_cons_of_mem _ hj)
    cases hread : reads.getD k none with
    | none =>
      simp only [handed, read_devices, hread]
      exact ih h hrest
    | some r =>
      cases r with
      | entry e =>
        simp only [handed, read_devices, hread]
        rw [List.append_cons]
        exact ih (h.enqueue (hks k List.mem_cons_self) e) hrest
      | eintr | eagain | failed strerror | eof | unexpected_length expected got =>
        simp only [handed, read_devices, hread, List.append_nil]
        exact h

/-- The state that a timeout leads to, with every queue emptied. -/
def flushed (o : Options) (s : Logcat) : Logcat :=
  steps (flush_turn o) (queued s) { s with sleep := true }

theorem flushed_empty (o : Options) (s : Logcat) (k : ℕ) :
    queue (flushed o s).devices k = [] := by
  have hstep : ∀ s t, True → flush_turn o s = some t → True ∧ queued t < queued s := by
    intro s t _ ht
    obtain ⟨k, e, rest, -, -, htakes, -⟩ := flush_turn_some ht
    have hleft : queued t + 1 = queued s := htakes.left
    exact ⟨trivial, by omega⟩
  have hstop : flush_turn o (flushed o s) = none :=
    steps_stopped hstep (queued s) trivial (le_refl (queued s))
  exact flush_turn_none hstop k

theorem flushed_kept (h : Kept names read s) (htail : o.g_tail_lines = 0) :
    Kept names read (flushed o s) :=
  steps_invariant (I := Kept names read) (fun _ _ hs ht => hs.flush htail ht) _ ⟨h.names, h.prints⟩

theorem select_turn_kept (h : Kept names read s) (htail : o.g_tail_lines = 0) {ev : Select}
    (ht : select_turn o s ev = .going t) :
    Kept names (read ++ entries_read names.length ev) t := by
  cases ev with
  | error =>
    cases ht
    rw [entries_read, List.append_nil]
    · exact h
    · rintro _ ⟨⟩
  | timeout =>
    rw [select_turn] at ht
    split_ifs at ht
    cases ht
    rw [entries_read, List.append_nil]
    · exact flushed_kept h htail
    · rintro _ ⟨⟩
  | ready reads =>
    have hread : Kept names (read ++ handed reads (List.range names.length))
        (read_devices reads (List.range names.length) s).state :=
      read_devices_kept h fun k hk => List.mem_range.mp hk
    rw [select_turn, h.length] at ht
    rw [entries_read]
    cases hr : read_devices reads (List.range names.length) s with
    | done s' =>
      rw [hr] at ht hread
      cases ht
      exact steps_invariant (I := Kept names _) (fun _ _ hs ht => hs.drain htail ht) _
        ⟨hread.names, hread.prints⟩
    | next s' =>
      rw [hr] at ht hread
      cases ht
      exact hread
    | exit s' stderr =>
      rw [hr] at ht
      cases ht

theorem readLogLines_kept (h : Kept names read s) (htail : o.g_tail_lines = 0) {evs : List Select}
    (ht : readLogLines o evs s = .going t) :
    Kept names (read ++ evs.flatMap (entries_read names.length)) t := by
  induction evs generalizing read s with
  | nil =>
    cases ht
    rw [List.flatMap_nil, List.append_nil]
    exact h
  | cons ev evs ih =>
    rw [readLogLines] at ht
    cases hev : select_turn o s ev with
    | going s' =>
      rw [hev] at ht
      rw [List.flatMap_cons, ← List.append_assoc]
      exact ih (select_turn_kept h htail hev) ht
    | returned s' =>
      rw [hev] at ht
      cases ht
    | exited s' stderr =>
      rw [hev] at ht
      cases ht

theorem opened_kept (names : List (List Char)) : Kept names [] (opened names) where
  names := by
    rw [opened, List.map_map]
    exact List.map_id' names
  prints k := by
    rw [opened_queue]
    exact ⟨List.Perm.refl _, fun _ => rfl⟩

/-- **Nothing is lost, and nothing is printed twice.** Whatever devices are ready, whatever
their reads give and whenever nothing comes for a while: of every device the entries printed
and queued are those that were read, in the order of the device where this is the order of
time; and behind the next timeout all of them are printed. -/
theorem readLogLines_prints (htail : o.g_tail_lines = 0) {evs : List Select}
    (hrun : readLogLines o evs (opened names) = .going t) :
    (∀ k, Prints (from_source k (entries t.out)) (queue t.devices k)
      (from_source k (evs.flatMap (entries_read names.length)))) ∧
    ∃ t', select_turn o t .timeout = (if o.g_nonblock then .returned t' else .going t') ∧
      ∀ k, queue t'.devices k = [] ∧ Prints (from_source k (entries t'.out)) []
        (from_source k (evs.flatMap (entries_read names.length))) := by
  have hkept := readLogLines_kept (opened_kept names) htail hrun
  rw [List.nil_append] at hkept
  refine ⟨hkept.prints, flushed o t, rfl, fun k => ?_⟩
  have hempty := flushed_empty o t k
  refine ⟨hempty, ?_⟩
  have hprints := (flushed_kept hkept htail).prints k
  rwa [hempty] at hprints

/-- The main log is interrupted once, and the system log is behind. -/
theorem readLogLines_prints_two_logs :
    ∃ t t', readLogLines ⟨0, true, false⟩
        [.ready [some (.entry ⟨5, 0, []⟩), some .eintr], .ready [none, some (.entry ⟨3, 0, []⟩)]]
        (opened ["/dev/log/main".toList, "/dev/log/system".toList]) = .going t ∧
      select_turn ⟨0, true, false⟩ t .timeout = .returned t' ∧
      (from_source 1 (entries t'.out)).Perm [⟨3, 0, []⟩] := by
  obtain ⟨t, hrun⟩ : ∃ t, readLogLines ⟨0, true, false⟩
      [.ready [some (.entry ⟨5, 0, []⟩), some .eintr], .ready [none, some (.entry ⟨3, 0, []⟩)]]
      (opened ["/dev/log/main".toList, "/dev/log/system".toList]) = .going t := ⟨_, rfl⟩
  obtain ⟨-, t', ht', hprints⟩ := readLogLines_prints rfl hrun
  refine ⟨t, t', hrun, ht', ?_⟩
  have := (hprints 1).2.perm
  rwa [List.append_nil] at this

/-! ## Beginnings

Here options are arbitrary and entries may be skipped. The beginning of a device is printed
in front of its first entry, printed or skipped, and the flag that remembers it is never
taken back; so the output of one device is nothing, or its beginning and then entries.
-/

/-- The line in front of a device's entries, of `n` devices. -/
def start_line (o : Options) (n k : ℕ) (device : List Char) : List Printed :=
  if n > 1 ∧ o.g_printBinary = false then [.start k (beginning device)] else []

theorem entries_start_line (o : Options) (n k : ℕ) (device : List Char) :
    entries (start_line o n k device) = [] := by
  rw [start_line]
  split_ifs
  · rfl
  · rfl

theorem lines_singleton (k : ℕ) (x : Printed) :
    lines k [x] = if x.dev = k then [x] else [] := by
  rw [lines]
  split_ifs with hk
  · exact List.filter_cons_of_pos (decide_eq_true hk)
  · exact List.filter_cons_of_neg fun hd => hk (of_decide_eq_true hd)

theorem lines_start_line (o : Options) (n k : ℕ) (device : List Char) (j : ℕ) :
    lines j (start_line o n k device) = if k = j then start_line o n k device else [] := by
  rw [start_line]
  by_cases hn : n > 1 ∧ o.g_printBinary = false
  · rw [if_pos hn]
    exact lines_singleton j _
  · rw [if_neg hn, ite_self]
    rfl

/-- What is printed of a device is its beginning, if it has begun, and its entries. -/
structure Begun (o : Options) (names : List (List Char)) (s : Logcat) : Prop where
  same : s.devices.map LogDevice.device = names
  about : ∀ (k : ℕ) (d : LogDevice), s.devices[k]? = some d → lines k s.out =
    (if d.printed then start_line o names.length k d.device else []) ++
      (from_source k (entries s.out)).map (Printed.entry k)
  unprinted : ∀ (k : ℕ) (d : LogDevice), s.devices[k]? = some d → d.printed = false →
    from_source k (entries s.out) = []

variable {d : LogDevice}

/-- A change of the queues, which leaves the names and what was printed alone. -/
theorem Begun.modify (h : Begun o names s) {f : LogDevice → LogDevice}
    (hprinted : ∀ d, (f d).printed = d.printed) (hdevice : ∀ d, (f d).device = d.device)
    (k : ℕ) : Begun o names { s with devices := s.devices.modify k f } := by
  have hold : ∀ (j : ℕ) (d : LogDevice), (s.devices.modify k f)[j]? = some d →
      ∃ d' : LogDevice, s.devices[j]? = some d' ∧ d.printed = d'.printed ∧
        d.device = d'.device := by
    intro j d hj
    rw [List.getElem?_modify] at hj
    obtain ⟨d', hd', rfl⟩ := Option.map_eq_some_iff.mp hj
    refine ⟨d', hd', ?_⟩
    split_ifs
    · exact ⟨hprinted d', hdevice d'⟩
    · exact ⟨rfl, rfl⟩
  refine ⟨(map_modify hdevice _ k).trans h.same, fun j d hj => ?_, fun j d hj hd => ?_⟩
  · obtain ⟨d', hd', hp, hdev⟩ := hold j d hj
    rw [hp, hdev]
    exact h.about j d' hd'
  · obtain ⟨d', hd', hp, -⟩ := hold j d hj
    exact h.unprinted j d' hd' (hp ▸ hd)

/-- For a device that has not begun `maybePrintStart` prints its line, if there is to be one, and
marks the device. -/
theorem maybePrintStart_new (hd : s.devices[k]? = some d) (hp : ¬ d.printed = true) :
    maybePrintStart o k s =
      { s with
        devices := s.devices.modify k LogDevice.begin
        out := s.out ++ start_line o s.devices.length k d.device } := by
  rw [maybePrintStart, hd, start_line]
  dsimp only
  rw [if_neg hp]
  by_cases hmany : s.devices.length > 1 ∧ o.g_printBinary = false
  · rw [if_pos hmany, if_pos hmany]
  · rw [if_neg hmany, if_neg hmany, List.append_nil]

/-- `maybePrintStart` leaves the device begun, and its line is printed once. -/
theorem Begun.start (h : Begun o names s) (hd : s.devices[k]? = some d) :
    Begun o names (maybePrintStart o k s) ∧
      (maybePrintStart o k s).devices[k]? = some d.begin := by
  have hlen : s.devices.length = names.length := by rw [← h.same, List.length_map]
  by_cases hp : d.printed = true
  · rw [maybePrintStart, hd]
    dsimp only
    rw [if_pos hp, hd, LogDevice.begin, ← hp]
    exact ⟨h, rfl⟩
  · rw [maybePrintStart_new hd hp, hlen]
    have hnone := h.unprinted k d hd (Bool.eq_false_iff.mpr hp)
    have hfirst := h.about k d hd
    rw [if_neg hp, hnone] at hfirst
    have hentries : entries (s.out ++ start_line o names.length k d.device) = entries s.out := by
      rw [entries_append, entries_start_line, List.append_nil]
    refine ⟨⟨(map_modify (f := LogDevice.begin) (fun _ => rfl) _ k).trans h.same,
      fun j d' hj => ?_, fun j d' hj hd' => ?_⟩, ?_⟩
    · dsimp only at hj ⊢
      rw [hentries, lines_append, lines_start_line]
      by_cases hkj : k = j
      · subst hkj
        rw [List.getElem?_modify_eq, hd] at hj
        cases hj
        rw [if_pos rfl, hfirst, hnone, LogDevice.begin, if_pos rfl]
        exact (List.append_nil _).symm
      · rw [List.getElem?_modify_ne _ _ hkj] at hj
        rw [if_neg hkj, List.append_nil]
        exact h.about j d' hj
    · dsimp only at hj ⊢
      rw [hentries]
      by_cases hkj : k = j
      · subst hkj
        exact hnone
      · rw [List.getElem?_modify_ne _ _ hkj] at hj
        exact h.unprinted j d' hj hd'
    · dsimp only
      rw [List.getElem?_modify_eq, hd]
      rfl

theorem Begun.skip (h : Begun o names s) (hd : s.devices[k]? = some d) :
    Begun o names (skipNextEntry o k s) :=
  (h.start hd).1.modify (f := LogDevice.pop) (fun _ => rfl) (fun _ => rfl) k

/-- A device that has begun may print an entry. -/
theorem Begun.entry (h : Begun o names s) (hd : s.devices[k]? = some d.begin) (e : LoggerEntry) :
    Begun o names { s with out := s.out ++ [.entry k e] } := by
  have hentries : entries (s.out ++ [.entry k e]) = entries s.out ++ [(k, e)] :=
    entries_append _ _
  refine ⟨h.same, fun j d' hj => ?_, fun j d' hj hd' => ?_⟩
  · dsimp only
    rw [hentries, from_source_append, from_source_cons, from_source_nil, lines_append,
      h.about j d' hj, lines_singleton, Printed.dev]
    by_cases hkj : k = j
    · rw [if_pos hkj, if_pos hkj, List.map_append, List.append_assoc, hkj]
      rfl
    · rw [if_neg hkj, if_neg hkj, List.append_nil, List.append_nil]
  · dsimp only
    rw [hentries, from_source_append, from_source_cons, from_source_nil]
    by_cases hkj : k = j
    · subst hkj
      rw [hd] at hj
      cases hj
      cases hd'
    · rw [if_neg hkj, List.append_nil]
      exact h.unprinted j d' hj hd'

theorem Begun.print (h : Begun o names s) (hd : s.devices[k]? = some d) (hq : d.queue = e :: rest) :
    Begun o names (printNextEntry o k s) := by
  obtain ⟨hstart, hbegun⟩ := h.start hd
  rw [printNextEntry, hbegun, Option.bind_some, LogDevice.begin, hq]
  exact (hstart.entry hbegun e).skip hbegun

theorem Begun.turn (h : Begun o names s) (hk : chooseFirst s.devices = some k) (P : Prop)
    [Decidable P] :
    Begun o names (if P then printNextEntry o k s else skipNextEntry o k s) := by
  obtain ⟨e, rest, hq, -⟩ := chooseFirst_some hk
  obtain ⟨d, hd, hdq⟩ := getElem?_of_queue hq
  split_ifs
  · exact h.print hd hdq
  · exact h.skip hd

theorem Begun.flush (h : Begun o names s) (ht : flush_turn o s = some t) : Begun o names t := by
  rw [flush_turn, Option.map_eq_some_iff] at ht
  obtain ⟨k, hk, rfl⟩ := ht
  have hturn := h.turn hk (o.g_tail_lines = 0 ∨ s.queued_lines ≤ o.g_tail_lines)
  exact ⟨hturn.same, hturn.about, hturn.unprinted⟩

theorem Begun.drain (h : Begun o names s) (ht : drain_turn o s = some t) : Begun o names t := by
  rw [drain_turn] at ht
  by_cases hmore : o.g_tail_lines = 0 ∨ s.queued_lines > o.g_tail_lines
  · rw [if_pos hmore, Option.bind_eq_some_iff] at ht
    obtain ⟨k, hk, ht⟩ := ht
    by_cases hlast : (s.devices[k]?.map fun dev => dev.queue.tail) = some []
    · rw [if_pos hlast] at ht
      cases ht
    · rw [if_neg hlast, Option.some.injEq] at ht
      have hturn := h.turn hk (o.g_tail_lines = 0)
      rw [← ht]
      exact ⟨hturn.same, hturn.about, hturn.unprinted⟩
  · rw [if_neg hmore] at ht
    cases ht

theorem read_devices_begun {reads : List (Option Read)} {ks : List ℕ} (h : Begun o names s) :
    Begun o names (read_devices reads ks s).state := by
  induction ks generalizing s with
  | nil => exact h
  | cons k ks ih =>
    cases hread : reads.getD k none with
    | none =>
      simp only [read_devices, hread]
      exact ih h
    | some r =>
      cases r with
      | entry e =>
        simp only [read_devices, hread]
        have hmodify := h.modify (f := LogDevice.enqueue e) (fun _ => rfl) (fun _ => rfl) k
        exact ih ⟨hmodify.same, hmodify.about, hmodify.unprinted⟩
      | eintr | eagain | failed strerror | eof | unexpected_length expected got =>
        simp only [read_devices, hread]
        exact h

def Outcome.state : Outcome → Logcat
  | going s => s
  | returned s => s
  | exited s _ => s

theorem select_turn_begun (h : Begun o names s) (ev : Select) :
    Begun o names (select_turn o s ev).state := by
  cases ev with
  | error => exact h
  | timeout =>
    have hflushed : Begun o names (flushed o s) :=
      steps_invariant (I := Begun o names) (fun _ _ hs ht => hs.flush ht) _
        ⟨h.same, h.about, h.unprinted⟩
    rw [select_turn]
    split_ifs
    · exact hflushed
    · exact hflushed
  | ready reads =>
    have hread : Begun o names (read_devices reads (List.range s.devices.length) s).state :=
      read_devices_begun h
    rw [select_turn]
    cases hr : read_devices reads (List.range s.devices.length) s with
    | done s' =>
      rw [hr] at hread
      exact steps_invariant (I := Begun o names) (fun _ _ hs ht => hs.drain ht) _
        ⟨hread.same, hread.about, hread.unprinted⟩
    | next s' =>
      rw [hr] at hread
      exact hread
    | exit s' stderr =>
      rw [hr] at hread
      exact hread

theorem readLogLines_begun (h : Begun o names s) (evs : List Select) :
    Begun o names (readLogLines o evs s).state := by
  induction evs generalizing s with
  | nil => exact h
  | cons ev evs ih =>
    have hev := select_turn_begun h ev
    rw [readLogLines]
    cases hr : select_turn o s ev with
    | going s' =>
      rw [hr] at hev
      exact ih hev
    | returned s' =>
      rw [hr] at hev
      exact hev
    | exited s' stderr =>
      rw [hr] at hev
      exact hev

theorem opened_begun (o : Options) (names : List (List Char)) : Begun o names (opened names) where
  same := (opened_kept names).names
  about k d hd := by
    obtain ⟨name, -, rfl⟩ := List.mem_map.mp (List.mem_of_getElem? hd)
    rfl
  unprinted _ _ _ _ := rfl

/-- **Every log begins once.** With whatever options and in whatever run, also one that is
ended by an error: of a device either nothing is printed, or its beginning, where there is to
be one, and behind it its entries. -/
theorem readLogLines_begins (o : Options) (names : List (List Char)) (evs : List Select) (k : ℕ)
    {name : List Char} (hname : names[k]? = some name) :
    lines k (readLogLines o evs (opened names)).state.out = [] ∨
      lines k (readLogLines o evs (opened names)).state.out = start_line o names.length k name ++
        (from_source k (entries (readLogLines o evs (opened names)).state.out)).map
          (Printed.entry k) := by
  have hbegun := readLogLines_begun (opened_begun o names) evs
  have hget : ((readLogLines o evs (opened names)).state.devices.map LogDevice.device)[k]?
      = some name := by rw [hbegun.same, hname]
  rw [List.getElem?_map, Option.map_eq_some_iff] at hget
  obtain ⟨d, hd, rfl⟩ := hget
  have hlines := hbegun.about k d hd
  cases hp : d.printed with
  | false =>
    rw [hp, hbegun.unprinted k d hd hp] at hlines
    exact .inl hlines
  | true =>
    rw [hp, if_pos rfl] at hlines
    exact .inr hlines

/-- The only entry is skipped behind `-t 1`, but its log begins. -/
theorem readLogLines_begins_skipped :
    ∃ out, lines 0 out = [.start 0 (beginning ['m'])] ∧
      (readLogLines ⟨1, true, false⟩ [.ready [some (.entry ⟨1, 0, []⟩), some (.entry ⟨2, 0, []⟩)],
        .timeout] (opened [['m'], ['s']])).state.out = out := by
  have h := readLogLines_begins ⟨1, true, false⟩ [['m'], ['s']]
    [.ready [some (.entry ⟨1, 0, []⟩), some (.entry ⟨2, 0, []⟩)], .timeout] 0 rfl
  refine ⟨_, ?_, rfl⟩
  rcases h with h | h
  · exact absurd h (by decide +kernel)
  · exact h.trans (by decide +kernel)

end AndroidTools.Asuslogcat
