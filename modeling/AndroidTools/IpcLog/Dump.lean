/-
`PageIterator` (ipc_logging.py): the loop over the messages of a ring of pages.

The loop asks a page for its next message, and where that has no more it goes on to the next page,
until it comes to one that it has seen. On any pages it ends: every turn leaves fewer pages that
were not iterated, or fewer bytes of its page. So `dump`, which runs it to its end, is a total
function.

On pages that hold packed messages, cut wherever a page ended, it gives exactly these: what a page
cannot read is the beginning of what the next one reads, and the part that was written in front of
the first page is read behind the last. `Reads` is the invariant that says so at every turn, and
`dump_of_contents` is what it says at the end.
-/
import AndroidTools.IpcLog.Page

set_option autoImplicit false

namespace AndroidTools.IpcLog

open AndroidTools.Framing AndroidTools.Modify

/-- The loop over the messages: at a page, or ended, by itself or by an exception. -/
inductive DumpState where
  | reading (ring : List LogPage) (page : ℕ) (messages : List LogMessageString)
  | ended (ring : List LogPage) (messages : List LogMessageString) (raised : Option IpcError)
  deriving Repr, DecidableEq

/-- One call of the page's `next`: `PageIterator.next` goes on to the next page where that has
no more, unless that page was iterated before. -/
def dump_step : DumpState → Option DumpState
  | .ended _ _ _ => none
  | .reading ring page messages =>
    match next ring page with
    | (.message m, ring) => some (.reading ring page (messages ++ [m]))
    | (.raised e, ring) => some (.ended ring messages (some e))
    | (.stop_iteration, ring) =>
      let page := next_place ring page
      match ring[page]? with
      | none => some (.ended ring messages (some .type_error))
      | some p =>
        if p.iterated then some (.ended ring messages none)
        else some (.reading (iter ring page) page messages)

/-- `for x in lstPages[0]`: the first page is iterated, and nothing has been read of it. -/
def dump_start (ring : List LogPage) : DumpState := .reading (iter ring 0) 0 []

/-! ## Every dump ends

The loop goes around a ring, so nothing in the data bounds it. What does is the pair of the
pages that were not iterated and the bytes the page at hand has still to read: a turn to
another page lowers the first, a message lowers the second. This holds for any pages, also
for those of a damaged log.
-/

/-- The number of pages that were not iterated, of which every turn to another page leaves one
less. -/
def uniterated (ring : List LogPage) : ℕ := (ring.map LogPage.iterated).count false

/-- The bytes that the page at a place has still to read. -/
def unread (ring : List LogPage) (k : ℕ) : ℕ :=
  (data_at ring LogPage.iter_data k).length +
    (data_at ring LogPage.previousData (next_place ring k)).length

def DumpState.pages_left : DumpState → ℕ
  | .reading ring _ _ => uniterated ring + 1
  | .ended _ _ _ => 0

def DumpState.bytes_left : DumpState → ℕ
  | .reading ring page _ => unread ring page
  | .ended _ _ _ => 0

theorem uniterated_iter {ring : List LogPage} {k : ℕ} {p : LogPage} (hp : ring[k]? = some p)
    (hnew : p.iterated = false) : uniterated (iter ring k) < uniterated ring := by
  obtain ⟨hk, hget⟩ := List.getElem?_eq_some_iff.mp hp
  have hflags : (iter ring k).map LogPage.iterated = (ring.map LogPage.iterated).set k true := by
    apply List.ext_getElem?
    intro j
    rw [List.getElem?_map, List.getElem?_set, List.length_map]
    by_cases hj : k = j
    · subst hj
      rw [iter_getElem?_self hp, if_pos rfl, if_pos hk]
      rfl
    · rw [iter_getElem?_ne hj, if_neg hj, List.getElem?_map]
  have hk' : k < (ring.map LogPage.iterated).length := by rwa [List.length_map]
  have hfalse : (ring.map LogPage.iterated)[k] = false := by
    rw [List.getElem_map, hget, hnew]
  have hmem : false ∈ ring.map LogPage.iterated := hfalse ▸ List.getElem_mem _
  have hpos := List.count_pos_iff.mpr hmem
  rw [uniterated, uniterated, hflags, List.count_set (by rwa [List.length_map]), hfalse]
  simp only [beq_self_eq_true, if_true]
  have htrue : (true == false) = false := rfl
  rw [htrue, if_neg Bool.false_ne_true]
  omega

/-- Whatever `next` does, no page is iterated by it. -/
theorem map_iterated_next (ring : List LogPage) (k : ℕ) :
    (next ring k).2.map LogPage.iterated = ring.map LogPage.iterated := by
  have hpull : (pull_previous ring k).map LogPage.iterated = ring.map LogPage.iterated :=
    map_pull_previous (fun _ _ _ => rfl) ring k
  cases hp : ring[k]? with
  | none => rw [next_of_none (by rw [hp]; rfl), hpull]
  | some p =>
    cases hd : p.iter_data with
    | none => rw [next_of_none (by rw [hp, Option.bind_some, hd]), hpull]
    | some d =>
      have hnext := next_of_some hp hd
      dsimp only at hnext
      rw [hnext]
      cases at_head p.version.qtimer
          (d ++ data_at ring LogPage.previousData (next_place ring k)) with
      | more => exact (map_modify (f := LogPage.push _) (fun _ => rfl) _ k).trans hpull
      | stop => exact hpull
      | record m rest => exact (map_modify (f := LogPage.keep rest) (fun _ => rfl) _ k).trans hpull
      | fail e => exact hpull

/-- A message leaves less to read. -/
theorem unread_next {ring ring' : List LogPage} {k : ℕ} {m : LogMessageString}
    (h : next ring k = (.message m, ring')) : unread ring' k < unread ring k := by
  cases hp : ring[k]? with
  | none =>
    rw [next_of_none (by rw [hp]; rfl)] at h
    cases h
  | some p =>
    cases hd : p.iter_data with
    | none =>
      rw [next_of_none (by rw [hp, Option.bind_some, hd])] at h
      cases h
    | some d =>
      have hnext := next_of_some hp hd
      dsimp only at hnext
      rw [hnext] at h
      cases hhead : at_head p.version.qtimer
          (d ++ data_at ring LogPage.previousData (next_place ring k)) with
      | more =>
        rw [hhead] at h
        cases h
      | stop =>
        rw [hhead] at h
        cases h
      | fail e =>
        rw [hhead] at h
        cases h
      | record m' rest =>
        rw [hhead, Prod.mk.injEq] at h
        obtain ⟨-, rfl⟩ := h
        have hshrink := at_head_shrinks hhead
        rw [List.length_append] at hshrink
        have hplace : next_place ((pull_previous ring k).modify k (LogPage.keep rest)) k
            = next_place ring k := by
          rw [next_place, next_place, List.length_modify, length_pull_previous]
        have hprevious := data_at_congr (map_modify (f := LogPage.keep rest)
          (g := LogPage.previousData) (fun _ => rfl) (pull_previous ring k) k) (next_place ring k)
        rw [data_at_pull_previous] at hprevious
        have hiter : data_at ((pull_previous ring k).modify k (LogPage.keep rest))
            LogPage.iter_data k = rest := by
          rw [data_at, List.getElem?_modify_eq, pull_previous_getElem?, hp]
          rfl
        rw [unread, unread, hplace, hprevious, hiter, data_at_eq_of_some hp, hd, Option.getD_some,
          List.length_nil]
        omega

/-- Every turn leaves fewer pages, or fewer bytes of its page. -/
theorem dump_step_left {s t : DumpState} (h : dump_step s = some t) :
    t.pages_left < s.pages_left ∨ t.pages_left = s.pages_left ∧ t.bytes_left < s.bytes_left := by
  cases s with
  | ended ring messages raised => cases h
  | reading ring page messages =>
    have hflags := map_iterated_next ring page
    rw [dump_step] at h
    cases hnext : next ring page with
    | mk result ring' =>
      rw [hnext] at h hflags
      have hleft : uniterated ring' = uniterated ring := by
        rw [uniterated, uniterated, hflags]
      cases result with
      | message m =>
        cases h
        refine .inr ⟨?_, unread_next hnext⟩
        rw [DumpState.pages_left, DumpState.pages_left, hleft]
      | raised e =>
        cases h
        exact .inl (Nat.succ_pos _)
      | stop_iteration =>
        dsimp only at h
        cases hp : ring'[next_place ring' page]? with
        | none =>
          rw [hp] at h
          cases h
          exact .inl (Nat.succ_pos _)
        | some p =>
          rw [hp] at h
          dsimp only at h
          split_ifs at h with hiterated
          · cases h
            exact .inl (Nat.succ_pos _)
          · cases h
            have hnew := uniterated_iter hp (Bool.not_eq_true _ ▸ hiterated)
            rw [DumpState.pages_left, DumpState.pages_left]
            omega

/-- The whole loop. -/
def dump (s : DumpState) : DumpState :=
  match _h : dump_step s with
  | none => s
  | some t => dump t
termination_by (s.pages_left, s.bytes_left)
decreasing_by
  rw [Prod.lex_def]
  exact dump_step_left _h

theorem dump_of_none {s : DumpState} (h : dump_step s = none) : dump s = s := by
  rw [dump]
  split
  · rfl
  · next t ht =>
    rw [h] at ht
    cases ht

theorem dump_of_some {s t : DumpState} (h : dump_step s = some t) : dump s = dump t := by
  rw [dump]
  split
  · next hnone =>
    rw [h] at hnone
    cases hnone
  · next t' ht =>
    rw [h] at ht
    cases ht
    rfl

/-- What every turn keeps holds where the loop ends, and it ends. -/
theorem dump_induction {I : DumpState → Prop} (hstep : ∀ s t, I s → dump_step s = some t → I t)
    (s : DumpState) (hs : I s) : I (dump s) ∧ dump_step (dump s) = none := by
  induction s using dump.induct with
  | case1 s h =>
    rw [dump_of_none h]
    exact ⟨hs, h⟩
  | case2 s t h ih =>
    rw [dump_of_some h]
    exact ih (hstep s t hs h)

/-! ## A ring of pages that nobody has iterated

Messages are cut where a page ends, and a page that was written again while it is read has
its newest part in front of its oldest. The source puts the pieces together by pushing what
it could not read to the next page and pulling what was left in front. `Visits` is the state
of the ring at a turn, `Holding` the page the loop is at, and `Reads` the invariant: the
messages so far, and those still to be read from the page, from what is carried on, and from
the pages to come, are the messages of the ring.
-/

/-- A page as it was unpacked: nobody has iterated it, and nothing was pushed on to it. -/
structure LogPage.Fresh (p : LogPage) : Prop where
  iterated : p.iterated = false
  previousData : p.previousData.getD [] = []
  nextData : p.nextData.getD [] = []

/-- The bytes on some pages, one page behind the other. -/
def laid (pages : List LogPage) : List UInt8 := pages.flatMap fun p => p.written.1

/-- The bytes of a ring: on its pages, and then what is in front of the first one's. -/
def contents (ring : List LogPage) : List UInt8 :=
  laid ring ++ (ring.head?.bind fun p => p.written.2).getD []

/-- The loop has come to a place of the ring: the pages behind it are as they were, and of the
first one `pending` is still to be read behind the last. -/
structure Visits (orig ring : List LogPage) (k : ℕ) (pending : List UInt8) : Prop where
  length : ring.length = orig.length
  place : k < ring.length
  later : ∀ j, k < j → ring[j]? = orig[j]?
  first : ∃ p, ring[0]? = some p ∧ p.iterated = true ∧ p.previousData.getD [] = pending

/-- The page the loop is at, with the bytes it has to read. -/
def Holding (ring : List LogPage) (k : ℕ) (qtimer : Bool) (d : List UInt8) : Prop :=
  ∃ p, ring[k]? = some p ∧ p.version.qtimer = qtimer ∧ p.iter_data = some d ∧
    p.nextData.getD [] = []

section Ring

variable {orig ring : List LogPage} {k : ℕ} {pending d : List UInt8} {qtimer : Bool}

/-- An update of the page at the place that leaves the part of the first page alone. -/
theorem Visits.modify (h : Visits orig ring k pending) {f : LogPage → LogPage}
    (hiterated : ∀ p, (f p).iterated = p.iterated)
    (hprevious : ∀ p, (f p).previousData = p.previousData) :
    Visits orig (ring.modify k f) k pending where
  length := by rw [List.length_modify, h.length]
  place := by
    rw [List.length_modify]
    exact h.place
  later j hj := by rw [List.getElem?_modify_ne _ _ (Nat.ne_of_lt hj), h.later j hj]
  first := by
    obtain ⟨p, hp, hp1, hp2⟩ := h.first
    rw [List.getElem?_modify, hp]
    refine ⟨_, rfl, ?_, ?_⟩
    · split_ifs
      · rw [hiterated, hp1]
      · exact hp1
    · split_ifs
      · rw [hprevious, hp2]
      · exact hp2

/-- The loop goes on to the next page: it is iterated, and the visit is at that page. -/
theorem Visits.iter (h : Visits orig ring k pending) (hk : k + 1 < ring.length) :
    Visits orig (iter ring (k + 1)) (k + 1) pending where
  length := by rw [length_iter, h.length]
  place := by rwa [length_iter]
  later j hj := by rw [iter_getElem?_ne (Nat.ne_of_lt hj), h.later j (by omega)]
  first := by
    rw [iter_getElem?_ne (by omega)]
    exact h.first

/-- A page that is iterated holds what was pushed on to it, and behind that its own bytes. -/
theorem Visits.holding_iter (h : Visits orig ring k pending) {p q : LogPage}
    (hp : ring[k]? = some p) (hq : orig[k + 1]? = some q) (hfresh : q.Fresh) :
    Holding (IpcLog.iter ring (k + 1)) (k + 1) q.version.qtimer
      (p.nextData.getD [] ++ q.written.1) := by
  have hq' : ring[k + 1]? = some q := by rw [h.later _ (by omega), hq]
  have hplace : previous_place ring (k + 1) = k := by
    obtain ⟨hlt, -⟩ := List.getElem?_eq_some_iff.mp hq'
    rw [previous_place, show k + 1 + ring.length - 1 = k + ring.length by omega,
      Nat.add_mod_right, Nat.mod_eq_of_lt h.place]
  refine ⟨_, iter_getElem?_self hq', rfl, ?_, hfresh.nextData⟩
  rw [hplace, data_at_eq_of_some hp]

/-- Before the last page nothing is pulled, since the page behind has nothing written in front of
it. -/
theorem Visits.pull_of_lt (h : Visits orig ring k pending) (hfresh : ∀ p ∈ orig, p.Fresh)
    (hk : k + 1 < ring.length) :
    data_at ring LogPage.previousData (next_place ring k) = [] ∧ pull_previous ring k = ring := by
  have hnone : data_at ring LogPage.previousData (next_place ring k) = [] := by
    have horig : k + 1 < orig.length := by rw [← h.length]; exact hk
    have hq := (h.later _ (Nat.lt_succ_self k)).trans (List.getElem?_eq_getElem horig)
    rw [next_place, Nat.mod_eq_of_lt hk, data_at_eq_of_some hq]
    exact (hfresh _ (List.getElem_mem _)).previousData
  exact ⟨hnone, by rw [pull_previous, if_pos hnone]⟩

/-- The last page pulls what is pending, the part that was written in front of the first page. -/
theorem Visits.pull_of_eq (h : Visits orig ring k pending) (hhold : Holding ring k qtimer d)
    (hk : k + 1 = ring.length) :
    data_at ring LogPage.previousData (next_place ring k) = pending ∧
      Visits orig (pull_previous ring k) k [] ∧
      Holding (pull_previous ring k) k qtimer (d ++ pending) := by
  obtain ⟨p, hp, hp1, hp2⟩ := h.first
  have hplace : next_place ring k = 0 := by rw [next_place, hk, Nat.mod_self]
  have hpending : data_at ring LogPage.previousData 0 = pending := by
    rw [data_at_eq_of_some hp, hp2]
  rw [hplace]
  refine ⟨hpending, ⟨?_, ?_, ?_, ?_⟩, ?_⟩
  · rw [length_pull_previous, h.length]
  · rw [length_pull_previous]
    exact h.place
  · intro j hj
    have hnone : ring[j]? = none := List.getElem?_eq_none (by omega)
    rw [pull_previous_getElem?, ← h.later j hj, hnone, Option.map_none]
  · rw [pull_previous_getElem?, hplace, hpending, hp]
    refine ⟨_, rfl, hp1, ?_⟩
    dsimp only
    split_ifs with hnil
    · rfl
    · rw [hp2]
      by_contra hne
      exact hnil ⟨rfl, hne⟩
  · obtain ⟨q, hq, hq1, hq2, hq3⟩ := hhold
    rw [Holding, pull_previous_getElem?, hplace, hpending, hq]
    refine ⟨_, rfl, hq1, ?_, hq3⟩
    dsimp only
    rw [if_pos rfl, hq2, Option.map_some]

variable {messages : List LogMessageString}

/-- Behind the last page the loop comes to the first one, which was iterated. -/
theorem Visits.turn_of_eq {ring' : List LogPage} (h : Visits orig ring' k pending)
    (hk : k + 1 = ring'.length) (hnext : next ring k = (.stop_iteration, ring')) :
    dump_step (.reading ring k messages) = some (.ended ring' messages none) := by
  obtain ⟨p, hp, hp1, -⟩ := h.first
  have hplace : next_place ring' k = 0 := by rw [next_place, hk, Nat.mod_self]
  rw [dump_step, hnext]
  dsimp only
  rw [hplace, hp]
  dsimp only
  rw [if_pos hp1]

/-- Before the last page it comes to a page that was not, with what was pushed on to it. -/
theorem Visits.turn_of_lt {ring' : List LogPage} (h : Visits orig ring' k pending) {p q : LogPage}
    (hp : ring'[k]? = some p) (hq : orig[k + 1]? = some q) (hfresh : q.Fresh)
    (hnext : next ring k = (.stop_iteration, ring')) :
    dump_step (.reading ring k messages)
        = some (.reading (IpcLog.iter ring' (k + 1)) (k + 1) messages) ∧
      Visits orig (IpcLog.iter ring' (k + 1)) (k + 1) pending ∧
      Holding (IpcLog.iter ring' (k + 1)) (k + 1) q.version.qtimer
        (p.nextData.getD [] ++ q.written.1) := by
  have hq' : ring'[k + 1]? = some q := by rw [h.later _ (Nat.lt_succ_self k), hq]
  obtain ⟨hlt, -⟩ := List.getElem?_eq_some_iff.mp hq'
  have hplace : next_place ring' k = k + 1 := by rw [next_place, Nat.mod_eq_of_lt hlt]
  refine ⟨?_, h.iter hlt, h.holding_iter hp hq hfresh⟩
  rw [dump_step, hnext]
  dsimp only
  rw [hplace, hq']
  dsimp only
  rw [hfresh.iterated, if_neg Bool.false_ne_true]

/-- Pulling at any place changes nothing about what is to be read. -/
theorem Visits.pulled (h : Visits orig ring k pending) (hfresh : ∀ p ∈ orig, p.Fresh)
    (hhold : Holding ring k qtimer d) :
    ∃ pending', Visits orig (pull_previous ring k) k pending' ∧
      Holding (pull_previous ring k) k qtimer
        (d ++ data_at ring LogPage.previousData (next_place ring k)) ∧
      d ++ data_at ring LogPage.previousData (next_place ring k) ++
        (laid (orig.drop (k + 1)) ++ pending') = d ++ (laid (orig.drop (k + 1)) ++ pending) ∧
      (k + 1 = ring.length → pending' = []) := by
  rcases Nat.lt_or_ge (k + 1) ring.length with hk | hk
  · obtain ⟨hnone, hsame⟩ := h.pull_of_lt hfresh hk
    rw [hnone, hsame, List.append_nil]
    exact ⟨pending, h, hhold, rfl, fun hlast => absurd hlast (Nat.ne_of_lt hk)⟩
  · have hlast : k + 1 = ring.length := by
      have := h.place
      omega
    obtain ⟨hpending, hvisits, hhold'⟩ := h.pull_of_eq hhold hlast
    have hnil : orig.drop (k + 1) = [] := List.drop_eq_nil_of_le (by rw [← h.length]; omega)
    rw [hpending, hnil]
    exact ⟨[], hvisits, hhold', by simp [laid], fun _ => rfl⟩

end Ring

/-- Where the loop over a ring of messages stands: at a page, with the messages before it read
and the others still there; or at its end, with all of them. -/
def Reads (qtimer : Bool) (orig : List LogPage) (ms : List LogMessageString) : DumpState → Prop
  | .reading ring k messages => ∃ pending d ms' tail,
      Visits orig ring k pending ∧ Holding ring k qtimer d ∧
      d ++ (laid (orig.drop (k + 1)) ++ pending) = stream LogMessageString.bytes ms' tail ∧
      Quiet (at_head qtimer) tail ∧ messages ++ ms' = ms
  | .ended _ messages raised => raised = none ∧ messages = ms

/-- A turn that leaves a page: what is carried on stands before the rest of the ring. -/
theorem Visits.reads_turn {qtimer : Bool} {orig ring ring' : List LogPage} {k : ℕ}
    {pending tail : List UInt8} {messages ms : List LogMessageString} {p : LogPage} {t : DumpState}
    (h : Visits orig ring' k pending) (hfresh : ∀ p ∈ orig, p.Fresh)
    (hversion : ∀ p ∈ orig, p.version.qtimer = qtimer) (hp : ring'[k]? = some p)
    (hnext : next ring k = (.stop_iteration, ring'))
    (hstream : p.nextData.getD [] ++ (laid (orig.drop (k + 1)) ++ pending)
      = stream LogMessageString.bytes ms tail)
    (hquiet : Quiet (at_head qtimer) tail) (hlast : k + 1 = ring'.length → ms = [])
    (hstep : dump_step (.reading ring k messages) = some t) :
    Reads qtimer orig (messages ++ ms) t := by
  rcases Nat.lt_or_ge (k + 1) ring'.length with hk | hk
  · have horig : k + 1 < orig.length := by rw [← h.length]; exact hk
    have hq := List.getElem?_eq_getElem horig
    have hmem : orig[k + 1] ∈ orig := List.getElem_mem _
    obtain ⟨hturn, hvisits, hhold⟩ := @Visits.turn_of_lt orig ring k pending messages ring' h _ _ hp
      hq (hfresh _ hmem) hnext
    rw [hturn] at hstep
    cases hstep
    rw [hversion _ hmem] at hhold
    refine ⟨pending, _, ms, tail, hvisits, hhold, ?_, hquiet, rfl⟩
    rw [← hstream, List.drop_eq_getElem_cons horig, laid, laid, List.flatMap_cons]
    simp only [List.append_assoc]
  · have heq : k + 1 = ring'.length := by
      have := h.place
      omega
    rw [h.turn_of_eq heq hnext] at hstep
    cases hstep
    exact ⟨rfl, by rw [hlast heq, List.append_nil]⟩

/-- One turn keeps `Reads`: whether it gives a message or goes on to the next page, the messages
given and those still to come are the messages of the ring. -/
theorem reads_step {qtimer : Bool} {orig : List LogPage} {ms : List LogMessageString}
    (hfresh : ∀ p ∈ orig, p.Fresh) (hversion : ∀ p ∈ orig, p.version.qtimer = qtimer)
    (hms : ∀ m ∈ ms, Loggable qtimer m) {s t : DumpState} (hs : Reads qtimer orig ms s)
    (hstep : dump_step s = some t) : Reads qtimer orig ms t := by
  cases s with
  | ended ring messages raised => cases hstep
  | reading ring k messages =>
    obtain ⟨pending, d, ms', tail, hvisits, hhold, hstream, hquiet, rfl⟩ := hs
    have hms' : ∀ m ∈ ms', Loggable qtimer m := fun m hm => hms m (List.mem_append_right _ hm)
    obtain ⟨pending', hvisits', hhold', hsame, hlast⟩ := hvisits.pulled hfresh hhold
    obtain ⟨p, hp, hp1, hp2, hp3⟩ := hhold
    obtain ⟨p', hp', hp1', -, hp3'⟩ := hhold'
    have hnext := next_of_some hp hp2
    dsimp only at hnext
    rw [hp1] at hnext
    generalize d ++ data_at ring LogPage.previousData (next_place ring k) = d' at hnext hsame
    rw [← hsame] at hstream
    -- behind the last page all that is left is in the buffer
    have hwhole : k + 1 = ring.length → d' = stream LogMessageString.bytes ms' tail := by
      intro hk
      have hnil : orig.drop (k + 1) = [] := by
        refine List.drop_eq_nil_of_le ?_
        rw [← hvisits.length, hk]
      rw [← hstream, hlast hk, hnil, laid, List.flatMap_nil, List.append_nil, List.append_nil]
    rcases head_cases (framed qtimer) hms' hquiet hstream with
      ⟨m, ms'', x', rfl, -, hrest, hhead⟩ | hmore | ⟨rfl, hstop, hquiet'⟩
    · rw [hhead] at hnext
      rw [dump_step, hnext] at hstep
      cases hstep
      refine ⟨pending', x', ms'', tail, hvisits'.modify (fun _ => rfl) (fun _ => rfl), ?_, hrest,
        hquiet, by rw [List.append_assoc, List.singleton_append]⟩
      exact ⟨p'.keep x', by rw [List.getElem?_modify_eq, hp']; rfl, hp1', rfl, hp3'⟩
    · rw [hmore] at hnext
      have hpush : ((pull_previous ring k).modify k (LogPage.push d'))[k]?
          = some (p'.push d') := by
        rw [List.getElem?_modify_eq, hp']
        rfl
      have hpushed := hvisits'.modify (f := LogPage.push d') (fun _ => rfl) (fun _ => rfl)
      refine hpushed.reads_turn hfresh hversion hpush hnext hstream hquiet ?_ hstep
      intro hk
      rw [List.length_modify, length_pull_previous] at hk
      exact no_record_left (framed qtimer) hms' (hwhole hk ▸ hmore)
    · rw [hstop] at hnext
      refine hvisits'.reads_turn hfresh hversion hp' hnext ?_ hquiet' (fun _ => rfl) hstep
      rw [hp3', List.nil_append, stream_nil]

/-- Where the loop begins all messages of the ring are still to come. -/
theorem reads_start {qtimer : Bool} {ring : List LogPage} {ms : List LogMessageString}
    {tail : List UInt8} (hne : ring ≠ []) (hfresh : ∀ p ∈ ring, p.Fresh)
    (hversion : ∀ p ∈ ring, p.version.qtimer = qtimer) (hquiet : Quiet (at_head qtimer) tail)
    (hcontents : contents ring = stream LogMessageString.bytes ms tail) :
    Reads qtimer ring ms (dump_start ring) := by
  obtain ⟨p, rest, rfl⟩ := List.exists_cons_of_ne_nil hne
  have hmem : p ∈ p :: rest := List.mem_cons_self
  have hself := @iter_getElem?_self (p :: rest) 0 p rfl
  have hcarried : data_at (p :: rest) LogPage.nextData (previous_place (p :: rest) 0) = [] :=
    data_at_eq_nil fun q hq => (hfresh q hq).nextData
  rw [hcarried, List.nil_append] at hself
  refine ⟨p.written.2.getD [], p.written.1, ms, tail, ⟨?_, ?_, ?_, ?_⟩, ?_, ?_, hquiet, rfl⟩
  · rw [length_iter]
  · rw [length_iter]
    exact Nat.succ_pos _
  · exact fun j hj => iter_getElem?_ne (Nat.ne_of_lt hj)
  · exact ⟨_, hself, rfl, rfl⟩
  · exact ⟨_, hself, hversion p hmem, rfl, (hfresh p hmem).nextData⟩
  · rw [← hcontents, contents, laid, laid, List.flatMap_cons, List.head?_cons, Option.bind_some,
      List.append_assoc]
    rfl

/-- The loop always comes to its end, with a message list and, where a page raises, an exception.
-/
theorem dump_ended (s : DumpState) :
    ∃ ring messages raised, dump s = .ended ring messages raised := by
  obtain ⟨-, hnone⟩ := dump_induction (I := fun _ => True) (fun _ _ _ _ => trivial) s trivial
  cases hdump : dump s with
  | ended ring messages raised => exact ⟨ring, messages, raised, rfl⟩
  | reading ring k messages =>
    rw [hdump, dump_step] at hnone
    split at hnone
    · cases hnone
    · cases hnone
    · dsimp only at hnone
      split at hnone
      · cases hnone
      · split_ifs at hnone

/-- **A ring of messages.** The bytes on the pages of a fresh ring, and then those in front of
the first one, are messages as they are packed, wherever they are cut: then the loop gives
exactly these, in order, and ends without an exception. -/
theorem dump_of_contents {qtimer : Bool} {ring : List LogPage} {ms : List LogMessageString}
    {tail : List UInt8} (hne : ring ≠ []) (hfresh : ∀ p ∈ ring, p.Fresh)
    (hversion : ∀ p ∈ ring, p.version.qtimer = qtimer) (hms : ∀ m ∈ ms, Loggable qtimer m)
    (hquiet : Quiet (at_head qtimer) tail)
    (hcontents : contents ring = stream LogMessageString.bytes ms tail) :
    ∃ ring', dump (dump_start ring) = .ended ring' ms none := by
  obtain ⟨ring', messages, raised, hdump⟩ := dump_ended (dump_start ring)
  obtain ⟨hend, -⟩ := dump_induction (fun s t => reads_step hfresh hversion hms) _
    (reads_start hne hfresh hversion hquiet hcontents)
  rw [hdump] at hend
  obtain ⟨rfl, rfl⟩ := hend
  exact ⟨ring', hdump⟩

end AndroidTools.IpcLog
