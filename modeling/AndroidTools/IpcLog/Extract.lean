/-
`dumpLogHelper` and `dumpLogWithRetry` (ipc_logging.py): what is written for a log.

A log is read as a full one first, from the page on which it begins; an assertion that fails on
the way is written down, and the log is read again as a partial one, from its first page. The
pages are the same objects in both attempts, so the second attempt starts with what the first has
done to them: `pages_after` carries the pages over, and that they are still numbered as before is
what makes the second attempt find them.

Output is a list of lines, of which some are messages and the others are text.
`partial_log_read_again` puts the two attempts together for a log of version 0 whose last page
begins inside a message.
-/
import AndroidTools.IpcLog.Dump
import AndroidTools.IpcLog.Link

set_option autoImplicit false

namespace AndroidTools.IpcLog

open AndroidTools.Framing AndroidTools.Passes AndroidTools.Modify

/-! ## The two attempts

Output is a list of lines, each of which is a message or a text of the program, so what a
log contributes can be told apart from its title and its closing. An attempt ends by itself
or in an `AssertionError`, which is caught and written down; another exception is not
caught, and the second attempt is not made then.
-/

/-- A line of the output. The text of a message is left as the message. -/
inductive OutLine where
  | message (m : LogMessageString)
  | text (s : String)
  deriving Repr, DecidableEq

/-- The page at `presentKey`: a key is replaced as long as it is 0. -/
def present_page (pages : List LogPage) : Option LogPage :=
  pages.foldl (fun present p =>
    match present with
    | none => some p
    | some q => if q.page_num = 0 then some p else some q) none

/-- The pages of the log again, as they are after an attempt. -/
def pages_after (pages ring : List LogPage) : List LogPage :=
  pages.filterMap fun p => ring.find? fun q => q.page_num = p.page_num

/-- What an attempt gives back: whether it succeeded, what it wrote, and the pages. -/
structure Attempt where
  bSuccess : Bool
  lines : List OutLine
  pages : List LogPage
  deriving Repr, DecidableEq

/-- `except AssertionError`; another exception is not caught. -/
def caught (lines : List OutLine) (pages : List LogPage) (e : IpcError) : Except IpcError Attempt :=
  match e.assertion with
  | none => .error e
  | some strMsg => .ok ⟨false, lines ++ [.text ("Exception: " ++ strMsg ++ "\n")], pages⟩

def dumpLogHelper (pages : List LogPage) (bSort : Bool) : Except IpcError Attempt :=
  match present_page pages with
  -- the dictionary of a log has a page
  | none => .error .type_error
  | some page =>
    match page.version.sortAndLink pages bSort with
    | .error e => caught [] pages e
    | .ok lstPages =>
      match dump (dump_start lstPages) with
      | .reading ring _ messages | .ended ring messages none =>
        .ok ⟨true, messages.map .message, pages_after pages ring⟩
      | .ended ring messages (some e) =>
        caught (messages.map .message) (pages_after pages ring) e

/-- The lines above a log: its version, its name and how many pages it has. -/
def title_lines (version : ℕ) (name : String) (logId numPages : ℕ) : List OutLine :=
  let rule := String.ofList (List.replicate 70 '-') ++ "\n"
  let titleStr := if 1 ≤ version then s!"Log name: {name} ({numPages} pages)\n"
    else s!"Log id {logId} ({numPages} pages)\n"
  [.text rule, .text titleStr, .text rule]

/-- What is written below a log of version 0 that could not be extracted. -/
def v0_expl_str : String :=
  "\n                You are parsing a v0 log. If you collected logs using debugfs\n" ++
  "                before the system crashed, it may have adversely affected the\n" ++
  "                RAM dumps. Collect the logs again without using debugfs, or\n" ++
  "                use the newest version of IPC Logging if possible. This issue\n" ++
  "                has been resolved in v1 and above.\n                "

/-- The line at the end of a log, for an attempt that succeeded or failed. -/
def closing_lines (version : ℕ) (bSuccess : Bool) : List OutLine :=
  if bSuccess then [.text "\nLog extracted successfully\n"]
  else if version = 0 then [.text v0_expl_str]
  else []

def dumpLogWithRetry (logId : ℕ) (name : String) (version : ℕ) (pages : List LogPage)
    (numPages : ℕ) : Except IpcError (List OutLine) := do
  let full ← dumpLogHelper pages true
  let top := title_lines version name logId numPages ++ [.text "Parsing as a full log\n"] ++
    full.lines
  if full.bSuccess then return top ++ closing_lines version true
  else
    let part ← dumpLogHelper full.pages false
    return top ++ [.text "Unable to parse as full log, retrying as partial log\n"] ++ part.lines ++
      closing_lines version part.bSuccess

/-! ## A log that is read

The attempt on a full log: the pages are sorted and linked to the ring that begins where the
log begins, and the loop over that ring writes its messages. `LogPages` says of the pages
only that they were just unpacked, are of one version, and are numbered from 0 without a
gap.
-/

theorem present_page_mem {pages : List LogPage} (hne : pages ≠ []) :
    ∃ p ∈ pages, present_page pages = some p := by
  induction pages using List.reverseRecOn with
  | nil => exact absurd rfl hne
  | append_singleton pages q ih =>
    have hstep : present_page (pages ++ [q]) = match present_page pages with
        | none => some q
        | some p => if p.page_num = 0 then some q else some p := by
      rw [present_page, List.foldl_append]
      rfl
    rw [hstep]
    cases pages with
    | nil => exact ⟨q, by simp, rfl⟩
    | cons p pages =>
      obtain ⟨r, hr, hpresent⟩ := ih (List.cons_ne_nil _ _)
      rw [hpresent]
      dsimp only
      split_ifs
      · exact ⟨q, by simp, rfl⟩
      · exact ⟨r, List.mem_append_left _ hr, rfl⟩

/-- The pages of a log of a version, as they were unpacked. -/
structure LogPages (v : LogPageClass) (pages : List LogPage) : Prop where
  nonempty : pages ≠ []
  numbered : Numbered pages
  version : ∀ p ∈ pages, p.version = v
  fresh : ∀ p ∈ pages, p.Fresh

theorem LogPageClass.map_linked {v : LogPageClass} {pages : List LogPage}
    (h : ∀ p ∈ pages, p.iterated = false) : pages.map v.linked = pages := by
  have hid : pages.map v.linked = pages.map id := by
    refine List.map_congr_left fun p hp => ?_
    cases v with
    | v0 =>
      have hp := h p hp
      rw [LogPageClass.linked, LogPage.forget, ← hp]
      rfl
    | v1 => rfl
    | v2 => rfl
    | v3 => rfl
  rw [hid, List.map_id]

/-- **The attempt on a full log** writes the messages around the ring, from the page on which the
log begins. -/
theorem dumpLogHelper_full {v : LogPageClass} {pages : List LogPage} {i : ℕ}
    {ms : List LogMessageString} {tail : List UInt8} (h : LogPages v pages)
    (hbegins : v.Begins pages i) (hms : ∀ m ∈ ms, Loggable v.qtimer m)
    (hquiet : Quiet (at_head v.qtimer) tail)
    (hcontents : contents (pages.rotate i) = stream LogMessageString.bytes ms tail) :
    ∃ pages', dumpLogHelper pages true = .ok ⟨true, ms.map .message, pages'⟩ := by
  obtain ⟨p, hp, hpresent⟩ := present_page_mem h.nonempty
  have hring : pages.rotate i ≠ [] := fun hnil => h.nonempty (List.rotate_eq_nil_iff.mp hnil)
  have hfresh : ∀ q ∈ pages.rotate i, q.Fresh := fun q hq => h.fresh q (List.mem_rotate.mp hq)
  obtain ⟨ring', hdump⟩ := dump_of_contents hring hfresh
    (fun q hq => by rw [h.version q (List.mem_rotate.mp hq)]) hms hquiet hcontents
  have hsort := sortAndLink_full h.nonempty h.numbered hbegins
  rw [LogPageClass.map_linked fun q hq => (hfresh q hq).iterated] at hsort
  refine ⟨pages_after pages ring', ?_⟩
  rw [dumpLogHelper, hpresent]
  dsimp only
  rw [h.version p hp, hsort]
  dsimp only
  rw [hdump]

/-- What is written for a log that is read at once. -/
def extracted (logId : ℕ) (name : String) (version numPages : ℕ) (ms : List LogMessageString) :
    List OutLine :=
  title_lines version name logId numPages ++ [.text "Parsing as a full log\n"] ++
    ms.map .message ++ [.text "\nLog extracted successfully\n"]

theorem dumpLogWithRetry_full {v : LogPageClass} {pages : List LogPage} {i : ℕ}
    {ms : List LogMessageString} {tail : List UInt8} (h : LogPages v pages)
    (hbegins : v.Begins pages i) (hms : ∀ m ∈ ms, Loggable v.qtimer m)
    (hquiet : Quiet (at_head v.qtimer) tail)
    (hcontents : contents (pages.rotate i) = stream LogMessageString.bytes ms tail)
    (logId : ℕ) (name : String) (version numPages : ℕ) :
    dumpLogWithRetry logId name version pages numPages
      = .ok (extracted logId name version numPages ms) := by
  obtain ⟨pages', hfull⟩ := dumpLogHelper_full h hbegins hms hquiet hcontents
  rw [dumpLogWithRetry, hfull, ok_bind]
  rfl

/-! ## A log that is read again

The pages are objects, so the second attempt gets them as the first one has left them. If
the first page that was tried raised before anything was read and had no part in front, then
nothing that matters has changed but which page counts as iterated; and version 0 forgets
that when it sorts again.
-/

/-- A first page on which nothing can be read, and without a part in front: the loop ends at
once, and of the ring only that page has changed. -/
theorem dump_of_fail {ring : List LogPage} {p : LogPage} {e : IpcError}
    (hfresh : ∀ q ∈ ring, q.Fresh) (hp : ring.head? = some p) (hfront : p.written.2.getD [] = [])
    (hfail : at_head p.version.qtimer p.written.1 = .fail e) :
    dump (dump_start ring) = .ended (iter ring 0) [] (some e) := by
  obtain ⟨rest, rfl⟩ : ∃ rest, ring = p :: rest := List.head?_eq_some_iff.mp hp
  have hself := @iter_getElem?_self (p :: rest) 0 p rfl
  have hcarried : data_at (p :: rest) LogPage.nextData (previous_place (p :: rest) 0) = [] :=
    data_at_eq_nil fun q hq => (hfresh q hq).nextData
  have hnothing : data_at (iter (p :: rest) 0) LogPage.previousData
      (next_place (iter (p :: rest) 0) 0) = [] := by
    refine data_at_eq_nil fun q hq => ?_
    obtain ⟨j, hj⟩ := List.mem_iff_getElem?.mp hq
    by_cases hzero : 0 = j
    · subst hzero
      rw [hself, Option.some.injEq] at hj
      rw [← hj]
      exact hfront
    · rw [iter_getElem?_ne hzero] at hj
      exact (hfresh q (List.mem_of_getElem? hj)).previousData
  have hnext := next_of_some hself rfl
  dsimp only at hnext
  rw [hcarried, hnothing, List.nil_append, List.append_nil, hfail] at hnext
  have hstep : dump_step (dump_start (p :: rest))
      = some (.ended (iter (p :: rest) 0) [] (some e)) := by
    rw [dump_start, dump_step, hnext, pull_previous, if_pos hnothing]
  rw [dump_of_some hstep]
  exact dump_of_none rfl

theorem modify_rotate {α : Type*} (l : List α) {i : ℕ} (hi : i < l.length) (f : α → α) :
    (l.modify i f).rotate i = (l.rotate i).modify 0 f := by
  apply List.ext_getElem?
  intro m
  by_cases hm : m < l.length
  · have hplace : i = (m + i) % l.length ↔ 0 = m := by
      rcases Nat.lt_or_ge (m + i) l.length with hlt | hge
      · rw [Nat.mod_eq_of_lt hlt]
        omega
      · rw [Nat.mod_eq_sub_mod hge, Nat.mod_eq_of_lt (by omega)]
        omega
    rw [List.getElem?_rotate (by rwa [List.length_modify]), List.length_modify,
      List.getElem?_modify, List.getElem?_modify, List.getElem?_rotate hm]
    simp only [hplace]
  · rw [List.getElem?_eq_none, List.getElem?_eq_none]
    · rw [List.length_modify, List.length_rotate]
      omega
    · rw [List.length_rotate, List.length_modify]
      omega

/-- The dictionary finds the pages again by their numbers. -/
theorem pages_after_eq {pages pages' ring : List LogPage} (h : Numbered pages)
    (h' : Numbered pages') (hlen : pages'.length = pages.length) (hperm : ring.Perm pages') :
    pages_after pages ring = pages' := by
  have hnums : pages.map LogPage.page_num = pages'.map LogPage.page_num := by
    rw [h, h', hlen]
  have hnodup : (pages'.map LogPage.page_num).Nodup := by
    rw [h']
    exact List.nodup_range
  have hfind : ∀ p ∈ pages', ring.find? (fun q => q.page_num = p.page_num) = some p := by
    intro p hp
    obtain ⟨q, hq⟩ : ∃ q, ring.find? (fun q => q.page_num = p.page_num) = some q :=
      Option.isSome_iff_exists.mp (List.find?_isSome.mpr
        ⟨p, hperm.mem_iff.mpr hp, decide_eq_true rfl⟩)
    have hnum := List.find?_some hq
    have hmem := hperm.mem_iff.mp (List.mem_of_find?_eq_some hq)
    rw [hq, List.inj_on_of_nodup_map hnodup hmem hp (of_decide_eq_true hnum)]
  have hafter : pages_after pages ring
      = (pages.map LogPage.page_num).filterMap fun n => ring.find? fun q => q.page_num = n := by
    rw [pages_after, List.filterMap_map]
    rfl
  rw [hafter, hnums, List.filterMap_map]
  exact (List.filterMap_congr hfind).trans (List.filterMap_some)

/-- What a ring holds depends on its pages only through what they have written. -/
theorem contents_congr {ring ring' : List LogPage}
    (h : ring'.map LogPage.written = ring.map LogPage.written) :
    contents ring' = contents ring := by
  have hlaid : ∀ l : List LogPage, contents l
      = (l.map LogPage.written).flatMap Prod.fst ++
        (((l.map LogPage.written).head?).bind Prod.snd).getD [] := by
    intro l
    rw [contents, laid, List.flatMap_map, List.head?_map]
    cases l.head? with
    | none => rfl
    | some p => rfl
  rw [hlaid, hlaid, h]

/-- What `__iter__` does to the first page of a ring that is not iterated yet. -/
def LogPage.iterate (p : LogPage) : LogPage :=
  { p with iterated := true, previousData := p.written.2, iter_data := some p.written.1 }

theorem iter_zero {ring : List LogPage} (hfresh : ∀ q ∈ ring, q.Fresh) :
    iter ring 0 = ring.modify 0 LogPage.iterate := by
  have hcarried : data_at ring LogPage.nextData (previous_place ring 0) = [] :=
    data_at_eq_nil fun q hq => (hfresh q hq).nextData
  rw [iter, hcarried]
  rfl

/-- **The attempt that fails at once.** If an assertion fails at the front of the page on which
the log begins, the attempt writes its text and no message. -/
theorem dumpLogHelper_fails {pages : List LogPage} {i : ℕ} {p : LogPage} {e : IpcError}
    {strMsg : String} (h : LogPages .v0 pages) (hbegins : LogPageClass.v0.Begins pages i)
    (hp : pages[i]? = some p) (hfront : p.written.2.getD [] = [])
    (hfail : at_head false p.written.1 = .fail e) (hassert : e.assertion = some strMsg) :
    dumpLogHelper pages true = .ok ⟨false, [.text ("Exception: " ++ strMsg ++ "\n")],
      pages.modify i LogPage.iterate⟩ := by
  obtain ⟨hi, -⟩ := List.getElem?_eq_some_iff.mp hp
  obtain ⟨q, hq, hpresent⟩ := present_page_mem h.nonempty
  have hfresh : ∀ q ∈ pages.rotate i, q.Fresh := fun q hq => h.fresh q (List.mem_rotate.mp hq)
  have hsort := sortAndLink_full h.nonempty h.numbered hbegins
  rw [LogPageClass.map_linked fun q hq => (hfresh q hq).iterated] at hsort
  have hhead : (pages.rotate i).head? = some p := by rw [List.head?_rotate hi, hp]
  have hversion : p.version.qtimer = false := by
    rw [h.version p (List.mem_of_getElem? hp)]
    rfl
  have hdump := dump_of_fail hfresh hhead hfront (by rw [hversion, hfail])
  have hnum : Numbered (pages.modify i LogPage.iterate) := by
    rw [Numbered, List.length_modify, map_modify (f := LogPage.iterate) (fun _ => rfl), h.numbered]
  have hpages := pages_after_eq h.numbered hnum (List.length_modify ..)
    (List.rotate_perm (pages.modify i LogPage.iterate) i)
  rw [dumpLogHelper, hpresent]
  dsimp only
  rw [h.version q hq, hsort]
  dsimp only
  rw [hdump, iter_zero hfresh, ← modify_rotate pages hi]
  dsimp only
  rw [hpages, caught, hassert]
  rfl

/-- **The attempt on a partial log** writes the messages from the first page on, whatever pages
count as iterated before it. -/
theorem dumpLogHelper_partial {pages : List LogPage} {ms : List LogMessageString}
    {tail : List UInt8} (h : LogPages .v0 (pages.map LogPage.forget))
    (hms : ∀ m ∈ ms, Loggable false m) (hquiet : Quiet (at_head false) tail)
    (hcontents : contents (pages.map LogPage.forget) = stream LogMessageString.bytes ms tail) :
    ∃ pages', dumpLogHelper pages false = .ok ⟨true, ms.map .message, pages'⟩ := by
  have hne : pages ≠ [] := fun hnil => h.nonempty (by rw [hnil, List.map_nil])
  have hnum : Numbered pages := by
    have := h.numbered
    rw [Numbered, List.map_map, List.length_map] at this
    exact this
  obtain ⟨p, hp, hpresent⟩ := present_page_mem hne
  have hversion : p.version = .v0 := h.version p.forget (List.mem_map_of_mem hp)
  obtain ⟨ring', hdump⟩ := dump_of_contents h.nonempty h.fresh
    (fun q hq => by rw [h.version q hq]; rfl) hms hquiet hcontents
  refine ⟨pages_after pages ring', ?_⟩
  rw [dumpLogHelper, hpresent]
  dsimp only
  rw [hversion, sortAndLink_partial hne hnum]
  dsimp only
  have hlinked : pages.map LogPageClass.v0.linked = pages.map LogPage.forget := rfl
  rw [hlinked, hdump]

/-- A failed first page without a part in front is no trace. -/
theorem LogPages.again {pages : List LogPage} {i : ℕ} {p : LogPage} (h : LogPages .v0 pages)
    (hp : pages[i]? = some p) (hfront : p.written.2.getD [] = []) :
    LogPages .v0 ((pages.modify i LogPage.iterate).map LogPage.forget) := by
  have hmem : ∀ q ∈ (pages.modify i LogPage.iterate).map LogPage.forget,
      ∃ r ∈ pages, q = r.forget ∨ (r = p ∧ q = r.iterate.forget) := by
    intro q hq
    obtain ⟨r, hr, rfl⟩ := List.mem_map.mp hq
    obtain ⟨j, hj⟩ := List.mem_iff_getElem?.mp hr
    by_cases hij : i = j
    · subst hij
      rw [List.getElem?_modify_eq, hp] at hj
      cases hj
      exact ⟨p, List.mem_of_getElem? hp, .inr ⟨rfl, rfl⟩⟩
    · rw [List.getElem?_modify_ne _ _ hij] at hj
      exact ⟨r, List.mem_of_getElem? hj, .inl rfl⟩
  refine ⟨?_, ?_, ?_, ?_⟩
  · intro hnil
    have hlen := congrArg List.length hnil
    rw [List.length_map, List.length_modify] at hlen
    exact h.nonempty (List.eq_nil_of_length_eq_zero hlen)
  · rw [Numbered, List.map_map, List.length_map, List.length_modify]
    exact (map_modify (f := LogPage.iterate) (g := LogPage.page_num ∘ LogPage.forget)
      (fun _ => rfl) pages i).trans h.numbered
  · intro q hq
    obtain ⟨r, hr, rfl | ⟨-, rfl⟩⟩ := hmem q hq
    · exact h.version r hr
    · exact h.version r hr
  · intro q hq
    obtain ⟨r, hr, rfl | ⟨rfl, rfl⟩⟩ := hmem q hq
    · exact ⟨rfl, (h.fresh r hr).previousData, (h.fresh r hr).nextData⟩
    · exact ⟨rfl, hfront, (h.fresh r hr).nextData⟩

/-- **A partial log of version 0.** Its last page begins inside a message, and the first attempt,
which begins there, fails. The second one finds the pages as they were and writes all messages
in their order, under what the first one has left in the output. -/
theorem partial_log_read_again {pages : List LogPage} {i : ℕ} {p : LogPage} {e : IpcError}
    {strMsg : String} {τ : Type} {nanoseconds : τ → Option ℕ} {ms : List (MessageArgs τ)}
    {bs : List (List UInt8)} {tail : List UInt8} (h : LogPages .v0 pages) (hbegins : LogPageClass.v0.Begins pages i) (hp : pages[i]? = some p)
    (hfront : p.written.2.getD [] = []) (hfail : at_head false p.written.1 = .fail e)
    (hassert : e.assertion = some strMsg)
    (hms : ms.mapM (LogMessageString.pack nanoseconds) = .ok bs)
    (hqtimer : ∀ m ∈ ms, m.fQTimer = none) (htail : Unwritten false tail)
    (hcontents : contents pages = bs.flatten ++ tail) (logId : ℕ) (name : String) (numPages : ℕ) :
    ∃ ls, LoggedAs nanoseconds ms ls ∧ dumpLogWithRetry logId name 0 pages numPages
      = .ok (title_lines 0 name logId numPages ++
          [.text "Parsing as a full log\n", .text ("Exception: " ++ strMsg ++ "\n"),
            .text "Unable to parse as full log, retrying as partial log\n"] ++
          ls.map .message ++ [.text "\nLog extracted successfully\n"]) := by
  have hqtimer' : ∀ m ∈ ms, m.fQTimer.isSome = false := fun m hm => by rw [hqtimer m hm]; rfl
  obtain ⟨ls, hlogged, hloggable, hbytes⟩ := packed_messages hms hqtimer'
  have hfirst := dumpLogHelper_fails h hbegins hp hfront hfail hassert
  have hpages := h.again hp hfront
  have hsame : ((pages.modify i LogPage.iterate).map LogPage.forget).map LogPage.written
      = pages.map LogPage.written := by
    rw [List.map_map]
    exact map_modify (f := LogPage.iterate) (g := LogPage.written ∘ LogPage.forget) (fun _ => rfl)
      pages i
  obtain ⟨pages', hsecond⟩ := dumpLogHelper_partial hpages hloggable htail.quiet
    (by rw [contents_congr hsame, hcontents, hbytes]; rfl)
  refine ⟨ls, hlogged, ?_⟩
  rw [dumpLogWithRetry, hfirst, ok_bind]
  dsimp only
  rw [if_neg Bool.false_ne_true, hsecond, ok_bind]
  simp only [closing_lines, if_true, List.append_assoc, List.cons_append, List.nil_append]
  rfl

/-- A full page, and a page with the end of the message that the first one begins. -/
def two_parts : List LogPage :=
  [{ LogPage.init .v0 with
      write_offset := FULL_PAGE_WRITE_OFFSET
      data := List.replicate V0_PAGE_HDR_SIZE 0 ++ [2, 14, 1, 8, 7, 0, 0, 0] },
    { LogPage.init .v0 with
      page_num := 1
      read_offset := FULL_PAGE_WRITE_OFFSET
      write_offset := 8
      data := List.replicate V0_PAGE_HDR_SIZE 0 ++ [9, 0, 0, 0, 4, 2, 97, 98] }]

theorem partial_log_read_again_two_parts :
    ∃ strMsg, dumpLogWithRetry 1 "" 0 two_parts 2
      = .ok (title_lines 0 "" 1 2 ++
          [.text "Parsing as a full log\n", .text ("Exception: " ++ strMsg ++ "\n"),
            .text "Unable to parse as full log, retrying as partial log\n"] ++
          [⟨9 * 2 ^ 32 + 7, none, [97, 98]⟩].map .message ++
          [.text "\nLog extracted successfully\n"]) := by
  have hpages : LogPages .v0 two_parts := by
    refine ⟨List.cons_ne_nil _ _, rfl, ?_, ?_⟩
    · intro p hp
      rcases List.mem_pair.mp hp with rfl | rfl <;> rfl
    · intro p hp
      rcases List.mem_pair.mp hp with rfl | rfl <;> exact ⟨rfl, rfl, rfl⟩
  have hbegins : LogPageClass.v0.Begins two_parts 1 := by
    refine ⟨⟨_, rfl, by decide⟩, ?_⟩
    intro j p hj hp
    obtain rfl : j = 0 := by omega
    cases hp
    rfl
  have hms : ([⟨38654705671 / 10 ^ 9, [97, 98], none⟩] : List (MessageArgs ℚ)).mapM
      (LogMessageString.pack exact_nanoseconds)
      = .ok [[2, 14, 1, 8, 7, 0, 0, 0, 9, 0, 0, 0, 4, 2, 97, 98]] := by
    decide +kernel
  obtain ⟨ls, hls, hdump⟩ := partial_log_read_again hpages hbegins rfl rfl rfl rfl hms (by simp)
    (.inl (List.forall_mem_nil _)) rfl 1 "" 2
  have hone : LoggedAs exact_nanoseconds [⟨38654705671 / 10 ^ 9, [97, 98], none⟩]
      [⟨9 * 2 ^ 32 + 7, none, [97, 98]⟩] := .cons (by decide +kernel) .nil
  exact ⟨_, hls.unique hone ▸ hdump⟩

end AndroidTools.IpcLog
