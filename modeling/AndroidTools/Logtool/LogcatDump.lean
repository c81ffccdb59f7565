/-
`asuslogcat.cpp`: dumping the logs (`-d`, `-t`).

A log that does not change is read entry by entry, one of every device in a round, and a round may
be interrupted. `DriverRun` says which sequences of `select` and `read` results that comes to. In
front of what it prints `readLogLines` always has an entry of every device that has one left, so
what it takes is the merge of the logs in the order of time: all of it is printed, or the last
lines that `-t` asks for (`readLogLines_dumps`).

`Dumping` is the invariant of the loop. It says of the entries taken so far, printed or skipped,
that they are the front of the merge, and of those printed that they are the ones that `-t` has
not skipped. The merge itself, and that there is only one, is a fact about sorted lists.
-/
import AndroidTools.Logtool.LogcatRuns

set_option autoImplicit false

namespace AndroidTools.Asuslogcat

open AndroidTools.FirstLeast AndroidTools.Halting AndroidTools.Merge AndroidTools.Modify

/-! ## The driver

A log that gets nothing new is given by what it has left. A round reads one entry of every
device that has one, or is interrupted at some device and reads those before it; `DriverRun`
is any number of such rounds, and the end of the log is when no device has anything left.
-/

/-- What the `read`s of `n` devices give that have `left`, the one of device `i` being
interrupted. -/
def round_reads (n i : ℕ) (left : ℕ → List LoggerEntry) : List (Option Read) :=
  (List.range n).map fun k => if k = i then some .eintr else (left k).head?.map Read.entry

/-- What is left when the devices below `i` have been read. -/
def round_left (i : ℕ) (left : ℕ → List LoggerEntry) (k : ℕ) : List LoggerEntry :=
  if k < i then (left k).tail else left k

/-- What `select` and `read` give for `n` logs that hold `left` and get nothing new. -/
inductive DriverRun (n : ℕ) : (ℕ → List LoggerEntry) → List Select → Prop
  | quiet {left : ℕ → List LoggerEntry} (hleft : ∀ k, left k = []) : DriverRun n left [.timeout]
  | error {left : ℕ → List LoggerEntry} {evs : List Select} (h : DriverRun n left evs) :
    DriverRun n left (.error :: evs)
  | round {left : ℕ → List LoggerEntry} {evs : List Select} (i : ℕ) (hi : i ≤ n)
      (hready : ∃ k, k < n ∧ left k ≠ []) (hintr : i < n → left i ≠ [])
      (h : DriverRun n (round_left i left) evs) :
    DriverRun n left (.ready (round_reads n i left) :: evs)

theorem round_reads_getD {n i k : ℕ} (left : ℕ → List LoggerEntry) (hk : k < n) :
    (round_reads n i left).getD k none =
      if k = i then some .eintr else (left k).head?.map Read.entry := by
  rw [round_reads, List.getD_eq_getElem?_getD, List.getElem?_map, List.getElem?_range hk]
  rfl

theorem round_left_zero (left : ℕ → List LoggerEntry) : round_left 0 left = left := by
  funext k
  rw [round_left, if_neg (Nat.not_lt_zero k)]

theorem round_left_succ (i : ℕ) (left : ℕ → List LoggerEntry) (k : ℕ) :
    round_left (i + 1) left k = if k = i then (left k).tail else round_left i left k := by
  rw [round_left, round_left]
  split_ifs <;> first | rfl | omega

/-! ## While the logs are read

Two facts are kept together. What was taken, with what is queued or left, is the merge of
the logs; and every device that has something left has an entry in the queue whenever
something is taken. The second is why the condition for printing, that the device has a
later entry queued, is safe.
-/

/-- What has been taken, with what is queued and `left`, is the merge of the logs. Without
`-t` it has been printed, else nothing has and not too much was taken. -/
structure Dumping (o : Options) (names : List (List Char)) (streams left : ℕ → List LoggerEntry)
    (taken : List (ℕ × LoggerEntry)) (s : Logcat) : Prop where
  names : s.devices.map LogDevice.device = names
  merging : Merging LoggerEntry.time streams (fun k => queue s.devices k ++ left k) taken
  queued_lines : s.queued_lines = queued s
  printed : o.g_tail_lines = 0 → entries s.out = taken
  skipped : o.g_tail_lines ≠ 0 →
    entries s.out = [] ∧ (taken = [] ∨ o.g_tail_lines ≤ s.queued_lines)

/-- In front of whatever is printed: every device that has something left to read has something
queued. -/
def InFront (left : ℕ → List LoggerEntry) (s : Logcat) : Prop :=
  ∀ k, queue s.devices k = [] → left k = []

variable {o : Options} {names : List (List Char)} {streams left : ℕ → List LoggerEntry}
  {taken : List (ℕ × LoggerEntry)} {s t : Logcat}

theorem Dumping.length (h : Dumping o names streams left taken s) :
    s.devices.length = names.length := by
  rw [← h.names, List.length_map]

/-- The first of the queued entries is before all that are queued or left. -/
theorem before_pending {k : ℕ} {e : LoggerEntry}
    (hmerging : Merging LoggerEntry.time streams (fun k => queue s.devices k ++ left k) taken)
    (hsorted : ∀ k, (streams k).Pairwise fun a b => a.time ≤ b.time) (hfront : InFront left s)
    (hleast : IsFirstLeast (heads s.devices) k e.time) (j : ℕ) (x : LoggerEntry)
    (hx : x ∈ queue s.devices j ++ left j) : Before LoggerEntry.time (k, e) (j, x) := by
  refine before_of_firstLeast (hmerging.pending_sorted hsorted) (fun i b hb => ?_) hleast j x hx
  cases hq : queue s.devices i with
  | nil =>
    rw [hq, hfront i hq] at hb
    cases hb
  | cons a q =>
    rw [hq] at hb
    rw [heads_getElem? s.devices (lt_of_queue hq), hq]
    exact congrArg some hb

/-- Taking the first entry of a queue whose head is the first of the least keeps the merge. -/
theorem merging_take {k : ℕ} {e : LoggerEntry} {rest : List LoggerEntry}
    (hmerging : Merging LoggerEntry.time streams (fun k => queue s.devices k ++ left k) taken)
    (hsorted : ∀ k, (streams k).Pairwise fun a b => a.time ≤ b.time) (hfront : InFront left s)
    (hq : queue s.devices k = e :: rest) (hleast : IsFirstLeast (heads s.devices) k e.time)
    (ht : Takes k rest s { t with queued_lines := t.queued_lines + 1 }) :
    Merging LoggerEntry.time streams (fun k => queue t.devices k ++ left k)
      (taken ++ [(k, e)]) := by
  have hqueue : ∀ j, queue t.devices j = if k = j then rest else queue s.devices j := ht.queue
  refine hmerging.take ?_ (fun j hj => ?_) (before_pending hmerging hsorted hfront hleast)
  · rw [hqueue, if_pos rfl, hq]
    rfl
  · rw [hqueue, if_neg (Ne.symm hj)]

theorem Dumping.drain (h : Dumping o names streams left taken s)
    (hsorted : ∀ k, (streams k).Pairwise fun a b => a.time ≤ b.time) (hfront : InFront left s)
    (ht : drain_turn o s = some t) :
    (∃ taken', Dumping o names streams left taken' t) ∧ InFront left t := by
  obtain ⟨k, e, rest, hq, hrest, hleast, htakes, hmore, hentries⟩ := drain_turn_some ht
  have hlines : t.queued_lines + 1 = s.queued_lines := htakes.queued_lines
  have hleft : queued t + 1 = queued s := htakes.left
  have hqueued := h.queued_lines
  refine ⟨⟨taken ++ [(k, e)], htakes.names.trans h.names,
    merging_take h.merging hsorted hfront hq hleast htakes, by omega, fun htail => ?_,
    fun htail => ?_⟩, fun j hj => ?_⟩
  · rw [hentries, if_pos htail, h.printed htail]
  · rw [hentries, if_neg htail, (h.skipped htail).1]
    refine ⟨rfl, .inr ?_⟩
    rcases hmore with hzero | hmore
    · exact absurd hzero htail
    · omega
  · have hqueue : queue t.devices j = if k = j then rest else queue s.devices j := htakes.queue j
    rw [hqueue] at hj
    split_ifs at hj
    · exact absurd hj hrest
    · exact hfront j hj

/-- Reading an entry puts it behind those that are queued, and keeps the state of the dump. -/
theorem Dumping.read (h : Dumping o names streams left taken s)
    (hsorted : ∀ k, (streams k).Pairwise fun a b => a.time ≤ b.time) {i : ℕ} (hi : i < names.length)
    {e : LoggerEntry} {rest : List LoggerEntry} {left' : ℕ → List LoggerEntry}
    (hleft : left i = e :: rest) (hleft' : ∀ k, left' k = if k = i then rest else left k) :
    Dumping o names streams left' taken (enqueue_line i e s) := by
  have hlt : i < s.devices.length := by rwa [h.length]
  have hlast : enqueue e (queue s.devices i) = queue s.devices i ++ [e] := by
    refine enqueue_of_le fun x hx => ?_
    have hpending := h.merging.pending_sorted hsorted i
    rw [hleft] at hpending
    exact (List.pairwise_append.mp hpending).2.2 x hx e List.mem_cons_self
  have hqueue : ∀ j, queue (enqueue_line i e s).devices j ++ left' j
      = queue s.devices j ++ left j := by
    intro j
    rw [enqueue_line, hleft']
    dsimp only
    rw [queue_modify (f := LogDevice.enqueue e) (g := Asuslogcat.enqueue e) (fun _ => rfl) hlt]
    split_ifs with hij hji
    · rw [← hij, hlast, hleft, List.append_assoc]
      rfl
    · exact absurd hij.symm hji
    · exact absurd (Eq.symm ‹j = i›) hij
    · rfl
  have hsum := sum_map_modify (f := LogDevice.enqueue e) (g := fun d => d.queue.length)
    (List.getElem?_eq_getElem hlt)
  have hlength : (LogDevice.enqueue e s.devices[i]).queue.length
      = s.devices[i].queue.length + 1 := by
    rw [LogDevice.enqueue, (enqueue_perm e _).length_eq, List.length_append, List.length_singleton]
  have hqueued := h.queued_lines
  refine ⟨(map_modify (f := LogDevice.enqueue e) (fun _ => rfl) _ i).trans h.names, ?_, ?_,
    h.printed, fun htail => ⟨(h.skipped htail).1, ?_⟩⟩
  · rw [funext hqueue]
    exact h.merging
  · rw [queued] at hqueued ⊢
    rw [enqueue_line]
    dsimp only
    omega
  · rcases (h.skipped htail).2 with hnone | hle
    · exact .inl hnone
    · refine .inr ?_
      rw [enqueue_line]
      dsimp only
      omega

/-- The devices from `j` on are read, up to the one that is interrupted. -/
theorem read_devices_round {n i : ℕ} (hn : names.length = n) (hi : i ≤ n)
    (hsorted : ∀ k, (streams k).Pairwise fun a b => a.time ≤ b.time) (m : ℕ) {j : ℕ}
    (hjm : j + m = n) (hji : j ≤ i) (h : Dumping o names streams (round_left j left) taken s)
    (hfront : ∀ k, k < j → queue s.devices k = [] → round_left j left k = []) :
    ∃ t, read_devices (round_reads n i left) (List.range' j m) s
        = (if i < n then .next t else .done t) ∧
      Dumping o names streams (round_left i left) taken t ∧
      ∀ k, k < i → queue t.devices k = [] → round_left i left k = [] := by
  induction m generalizing j s with
  | zero =>
    have hij : i = j := by omega
    subst hij
    exact ⟨s, by rw [if_neg (by omega)]; rfl, h, hfront⟩
  | succ m ih =>
    have hjn : j < n := by omega
    have hget := round_reads_getD (i := i) left hjn
    have hleft : round_left j left j = left j := if_neg (Nat.lt_irrefl j)
    rw [List.range'_succ]
    by_cases hij : j = i
    · rw [if_pos hij] at hget
      subst hij
      exact ⟨s, by simp only [read_devices, hget, if_pos hjn], h, hfront⟩
    · rw [if_neg hij] at hget
      cases hl : left j with
      | nil =>
        have hsame : round_left (j + 1) left = round_left j left := by
          funext k
          rw [round_left_succ]
          split_ifs with hk
          · subst hk
            rw [hl, hleft, hl]
            rfl
          · rfl
        rw [hl] at hget
        simp only [read_devices, hget, List.head?_nil, Option.map_none]
        refine ih (by omega) (by omega) (hsame ▸ h) fun k hk hq => ?_
        rw [hsame]
        rcases Nat.lt_succ_iff_lt_or_eq.mp hk with hk | hk
        · exact hfront k hk hq
        · rw [hk, hleft, hl]
      | cons e rest =>
        rw [hl] at hget
        simp only [read_devices, hget, List.head?_cons, Option.map_some]
        have hnext : ∀ k, round_left (j + 1) left k
            = if k = j then rest else round_left j left k := by
          intro k
          rw [round_left_succ]
          split_ifs with hk
          · rw [hk, hl]
            rfl
          · rfl
        have hread := h.read hsorted (by omega) (hleft.trans hl) hnext
        refine ih (by omega) (by omega) hread fun k hk hq => ?_
        rw [enqueue_line] at hq
        dsimp only at hq
        rw [queue_modify (f := LogDevice.enqueue e) (g := Asuslogcat.enqueue e) (fun _ => rfl)
          (by rw [h.length]; omega)] at hq
        split_ifs at hq with hjk
        · exact absurd hq (enqueue_ne_nil e _)
        · rw [round_left_succ, if_neg (Ne.symm hjk)]
          exact hfront k (by omega) hq

/-! ## When nothing is left

Behind the last entry only timeouts come. They take everything that is queued, in the order
of the merge, and the last entries of it are the ones that `-t` lets through.
-/

/-- What has been taken of `total` entries; behind `-t` the last of them are printed. -/
structure Flushing (o : Options) (streams : ℕ → List LoggerEntry) (total : ℕ)
    (taken : List (ℕ × LoggerEntry)) (s : Logcat) : Prop where
  merging : Merging LoggerEntry.time streams (fun k => queue s.devices k ++ []) taken
  queued_lines : s.queued_lines = queued s
  count : taken.length + queued s = total
  out : entries s.out =
    if o.g_tail_lines = 0 then taken else taken.drop (total - o.g_tail_lines.toNat)

theorem Dumping.flushing (h : Dumping o names streams left taken s) (hleft : ∀ k, left k = []) :
    Flushing o streams (taken.length + queued s) taken s where
  merging := by
    have hmerging := h.merging
    rw [funext hleft] at hmerging
    exact hmerging
  queued_lines := h.queued_lines
  count := rfl
  out := by
    have hqueued := h.queued_lines
    split_ifs with htail
    · exact h.printed htail
    · rw [(h.skipped htail).1]
      rcases (h.skipped htail).2 with hnone | hle
      · rw [hnone, List.drop_nil]
      · rw [List.drop_eq_nil_of_le (by omega)]

theorem Flushing.step {total : ℕ} (h : Flushing o streams total taken s)
    (hsorted : ∀ k, (streams k).Pairwise fun a b => a.time ≤ b.time)
    (ht : flush_turn o s = some t) : ∃ taken', Flushing o streams total taken' t := by
  obtain ⟨k, e, rest, hq, hleast, htakes, hentries⟩ := flush_turn_some ht
  have hlines : t.queued_lines + 1 = s.queued_lines := htakes.queued_lines
  have hleft : queued t + 1 = queued s := htakes.left
  have hqueued := h.queued_lines
  have htotal := h.count
  refine ⟨taken ++ [(k, e)], ?_, by omega, ?_, ?_⟩
  · have hfront : InFront (fun _ => []) s := fun _ _ => rfl
    exact merging_take h.merging hsorted hfront hq hleast htakes
  · rw [List.length_append, List.length_singleton]
    omega
  · rw [hentries, h.out]
    by_cases htail : o.g_tail_lines = 0
    · rw [if_pos htail, if_pos htail, if_pos (.inl htail)]
    · rw [if_neg htail, if_neg htail]
      by_cases hlast : s.queued_lines ≤ o.g_tail_lines
      · rw [if_pos (.inr hlast), List.drop_append_of_le_length (by omega)]
      · -- neither this one nor those before it are among the last
        have hfew : ¬ (o.g_tail_lines = 0 ∨ s.queued_lines ≤ o.g_tail_lines) := by omega
        rw [if_neg hfew, List.append_nil, List.drop_eq_nil_of_le (by omega),
          List.drop_eq_nil_of_le (by rw [List.length_append, List.length_singleton]; omega)]

theorem queued_eq_zero (h : ∀ k, queue s.devices k = []) : queued s = 0 := by
  rw [queued, List.sum_eq_zero_iff]
  intro n hn
  obtain ⟨d, hd, rfl⟩ := List.mem_map.mp hn
  obtain ⟨k, hk⟩ := List.mem_iff_getElem?.mp hd
  have hq := h k
  rw [queue, hk] at hq
  rw [show d.queue = [] from hq]
  rfl

/-! ## The dump

The invariant at the beginning, over one round, and at the end. There is only one merge of
sorted logs with a rule for equal times, so the output is determined by the logs.
-/

theorem opened_dumping (o : Options) (names : List (List Char)) (streams : ℕ → List LoggerEntry) :
    Dumping o names streams streams [] (opened names) := by
  refine ⟨(opened_kept names).names, ?_, ?_, fun _ => rfl, fun _ => ⟨rfl, .inl rfl⟩⟩
  · have hpending : (fun k => queue (opened names).devices k ++ streams k) = streams := by
      funext k
      rw [opened_queue, List.nil_append]
    rw [hpending]
    exact .start streams
  · rw [queued_eq_zero (opened_queue names)]
    rfl

/-- When nothing is left the next timeout ends the dump, and what it has printed is the merge, or
its end. -/
theorem dump_quiet (hdump : o.g_nonblock = true)
    (hsorted : ∀ k, (streams k).Pairwise fun a b => a.time ≤ b.time)
    {L : List (ℕ × LoggerEntry)} (hL : Merged LoggerEntry.time streams L)
    (h : Dumping o names streams left taken s) (hleft : ∀ k, left k = []) :
    ∃ t, select_turn o s .timeout = .returned t ∧ entries t.out =
      if o.g_tail_lines = 0 then L else L.drop (L.length - o.g_tail_lines.toNat) := by
  refine ⟨flushed o s, by rw [select_turn, hdump]; rfl, ?_⟩
  have hstart := h.flushing hleft
  obtain ⟨all, hall⟩ : ∃ all, Flushing o streams (taken.length + queued s) all (flushed o s) :=
    steps_invariant (I := fun t => ∃ all, Flushing o streams (taken.length + queued s) all t)
      (fun _ _ hs ht => hs.elim fun _ hs => hs.step hsorted ht) _
      ⟨taken, hstart.merging, hstart.queued_lines, hstart.count, hstart.out⟩
  have hempty := flushed_empty o s
  have hmerged := hall.merging.done fun k => by rw [hempty k]; rfl
  have hlength := hall.count
  rw [queued_eq_zero hempty, Nat.add_zero] at hlength
  rw [hall.out, ← hlength, hmerged.unique hL]

/-- A round: all devices are read and what may be is printed or skipped, or it goes to
`next`. -/
theorem dump_round (hsorted : ∀ k, (streams k).Pairwise fun a b => a.time ≤ b.time)
    (hn : ∀ k, names.length ≤ k → streams k = []) {i : ℕ} (hi : i ≤ names.length)
    (h : Dumping o names streams left taken s) :
    ∃ t taken', select_turn o s (.ready (round_reads names.length i left)) = .going t ∧
      Dumping o names streams (round_left i left) taken' t := by
  have hstart : Dumping o names streams (round_left 0 left) taken s := by rwa [round_left_zero]
  obtain ⟨t, hread, hdumping, hfront⟩ := read_devices_round rfl hi hsorted names.length
    (Nat.zero_add _) (Nat.zero_le i) hstart fun k hk => absurd hk (Nat.not_lt_zero k)
  rw [select_turn, h.length, List.range_eq_range', hread]
  by_cases hlt : i < names.length
  · rw [if_pos hlt]
    exact ⟨t, taken, rfl, hdumping⟩
  · have hall : InFront (round_left i left) t := by
      intro k hk
      by_cases hki : k < i
      · exact hfront k hki hk
      · -- there is no such device
        have hnone := hdumping.merging.complete k
        rw [hn k (by omega)] at hnone
        exact (List.append_eq_nil_iff.mp (List.append_eq_nil_iff.mp hnone).2).2
    obtain ⟨⟨taken', hdrained⟩, -⟩ := steps_invariant
      (I := fun t => (∃ taken', Dumping o names streams (round_left i left) taken' t) ∧
        InFront (round_left i left) t)
      (fun s t hs (ht : drain_turn o s = some t) => hs.1.elim fun _ hd =>
        hd.drain hsorted hs.2 ht) (queued t)
      (s := { t with sleep := false })
      ⟨⟨taken, hdumping.names, hdumping.merging, hdumping.queued_lines, hdumping.printed,
        hdumping.skipped⟩, hall⟩
    rw [if_neg hlt]
    exact ⟨_, taken', rfl, hdrained⟩

/-- **A dump prints the logs in the order of time**, entries of the same time in the order of
their devices: all of them, or the last ones that `-t` asks for. -/
theorem readLogLines_dumps (hdump : o.g_nonblock = true)
    (hn : ∀ k, names.length ≤ k → streams k = [])
    (hsorted : ∀ k, (streams k).Pairwise fun a b => a.time ≤ b.time) {evs : List Select}
    (hevs : DriverRun names.length streams evs) {L : List (ℕ × LoggerEntry)}
    (hL : Merged LoggerEntry.time streams L) :
    ∃ t, readLogLines o evs (opened names) = .returned t ∧ entries t.out =
      if o.g_tail_lines = 0 then L else L.drop (L.length - o.g_tail_lines.toNat) := by
  have hrun : ∀ left evs, DriverRun names.length left evs → ∀ s taken,
      Dumping o names streams left taken s → ∃ t, readLogLines o evs s = .returned t ∧
        entries t.out =
          if o.g_tail_lines = 0 then L else L.drop (L.length - o.g_tail_lines.toNat) := by
    intro left evs hrun
    induction hrun with
    | quiet hleft =>
      intro s taken h
      obtain ⟨t, ht, hout⟩ := dump_quiet hdump hsorted hL h hleft
      exact ⟨t, by rw [readLogLines, ht], hout⟩
    | error _ ih =>
      intro s taken h
      obtain ⟨t, ht, hout⟩ := ih s taken h
      exact ⟨t, by rw [readLogLines]; exact ht, hout⟩
    | round i hi _ _ _ ih =>
      intro s taken h
      obtain ⟨u, taken', hu, hdumping⟩ := dump_round hsorted hn hi h
      obtain ⟨t, ht, hout⟩ := ih u taken' hdumping
      exact ⟨t, by rw [readLogLines, hu]; exact ht, hout⟩
  exact hrun streams evs hevs (opened names) [] (opened_dumping o names streams)

def entry_at (sec : Fin (2 ^ 31)) : LoggerEntry := ⟨sec, 0, []⟩

def two_streams : ℕ → List LoggerEntry
  | 0 => [entry_at 1, entry_at 4]
  | 1 => [entry_at 2]
  | _ => []

/-- The last two lines of two logs, the first round being interrupted. -/
theorem readLogLines_dumps_last_two :
    ∃ evs t, DriverRun 2 two_streams evs ∧
      readLogLines ⟨2, true, false⟩ evs
        (opened ["/dev/log/main".toList, "/dev/log/system".toList]) = .returned t ∧
      entries t.out = [(1, entry_at 2), (0, entry_at 4)] := by
  have hnone : ∀ k, 2 ≤ k → two_streams k = [] := by
    rintro (_ | _ | k) hk
    · omega
    · omega
    · rfl
  have hsorted : ∀ k, (two_streams k).Pairwise fun a b => a.time ≤ b.time := by
    rintro (_ | _ | k)
    · simp [two_streams, entry_at, LoggerEntry.time, Prod.Lex.toLex_le_toLex]
    · exact List.pairwise_singleton _ _
    · exact List.Pairwise.nil
  have hquiet : DriverRun 2 (round_left 2 (round_left 1 two_streams)) [.timeout] := by
    refine .quiet ?_
    rintro (_ | _ | k)
    · rfl
    · rfl
    · simp [round_left, two_streams]
  have hrun : DriverRun 2 two_streams _ :=
    .round 1 (by decide) ⟨0, by decide, by decide⟩ (fun _ => by decide)
      (.round 2 (by decide) ⟨0, by decide, by decide⟩ (fun h => absurd h (by decide)) hquiet)
  have hmerged : Merged LoggerEntry.time two_streams
      [(0, entry_at 1), (1, entry_at 2), (0, entry_at 4)] := by
    constructor
    · rintro (_ | _ | k)
      · rfl
      · rfl
      · simp [from_source_cons, two_streams]
    · simp [Before, entry_at, LoggerEntry.time, Prod.Lex.toLex_lt_toLex]
  obtain ⟨t, ht, hout⟩ := @readLogLines_dumps ⟨2, true, false⟩
    ["/dev/log/main".toList, "/dev/log/system".toList] two_streams rfl hnone hsorted _ hrun _
    hmerged
  exact ⟨_, t, hrun, ht, hout⟩

end AndroidTools.Asuslogcat
