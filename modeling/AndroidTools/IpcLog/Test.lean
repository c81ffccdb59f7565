/-
`cmdTest` (ipc_logging.py): the pages of a log, each in a file of its own.

The files may come in any order; the command puts the pages into a dictionary by their numbers and
reads them in that order. This is the only one of the commands that gets its pages from outside,
so it is where packing and reading meet: `test_writes_messages` takes messages, packs them, cuts
their bytes into pages around a ring, and gives the files of these pages to the command.

The result is the round trip of the whole format. It rests on the framing of the messages, on the
header of a page coming back, on where a log begins, and on what the loop over a ring of pages
reads. An instance with two messages on two pages stands at the end.
-/
import AndroidTools.IpcLog.Extract

set_option autoImplicit false

namespace AndroidTools.IpcLog

open AndroidTools.Framing AndroidTools.Passes

/-! ## Loading pages

Each file is one page. The pages go into a dictionary by their numbers, in which a page with
a known number replaces the one that was there, and are read in the order of the numbers.
-/

/-- The version of a page as it stands in the keys of `dictVersions`. -/
def LogPageClass.number : LogPageClass → ℕ
  | v0 => 0
  | v1 => 1
  | v2 => 2
  | v3 => 3

/-- `PAGE_HDR_SIZES` and `PAGE_HDR_SIZES_64`: the sizes of the headers, by version and
architecture. -/
def LogPageClass.page_hdr_size (arch_64 : Bool) : LogPageClass → ℕ
  | v0 => V0_PAGE_HDR_SIZE
  | v1 | v2 | v3 => if arch_64 then V1_PAGE_HDR_SIZE_64 else V1_PAGE_HDR_SIZE

def load_page (v : LogPageClass) (arch_64 : Bool) (data : List UInt8) :
    Except IpcError LogPage := do
  let (page, known) ← (LogPage.init v).unpack data
  if known then .ok { page with page_header_size := v.page_hdr_size arch_64 }
  else .error .could_not_unpack

/-- `dictPages[page.page_num] = page`, in the order of the keys; a page with a known number takes
the place of the other. -/
def insert_page (pages : List LogPage) (page : LogPage) : List LogPage :=
  match pages with
  | [] => [page]
  | p :: rest =>
    if page.page_num < p.page_num then page :: p :: rest
    else if page.page_num = p.page_num then page :: rest
    else p :: insert_page rest page

def cmdTest (v : LogPageClass) (arch_64 : Bool) (filename : String)
    (lstFiles : List (List UInt8)) : Except IpcError (List OutLine) := do
  let loaded ← lstFiles.mapM (load_page v arch_64)
  match loaded.getLast? with
  -- without a file there is no page to take the id from
  | none => .error .type_error
  | some page =>
    dumpLogWithRetry page.log_id ("test-log-" ++ filename) v.number (loaded.foldl insert_page [])
      lstFiles.length

/-! ## The dictionary

With different numbers the dictionary is the sorted list of the pages, so the order of the
files on the command line does not matter.
-/

/-- A page with a new number is put in, and the others stay. -/
theorem insert_page_perm {pages : List LogPage} {page : LogPage}
    (h : ∀ p ∈ pages, p.page_num ≠ page.page_num) :
    (insert_page pages page).Perm (page :: pages) := by
  induction pages with
  | nil => exact List.Perm.refl _
  | cons p rest ih =>
    rw [List.forall_mem_cons] at h
    rw [insert_page]
    split_ifs with hlt heq
    · exact List.Perm.refl _
    · exact absurd heq.symm h.1
    · exact ((ih h.2).cons p).trans (List.Perm.swap page p rest)

theorem insert_page_sorted {pages : List LogPage} {page : LogPage}
    (hsorted : pages.Pairwise fun p q => p.page_num < q.page_num)
    (h : ∀ p ∈ pages, p.page_num ≠ page.page_num) :
    (insert_page pages page).Pairwise fun p q => p.page_num < q.page_num := by
  induction pages with
  | nil => exact List.pairwise_singleton _ _
  | cons p rest ih =>
    rw [List.forall_mem_cons] at h
    obtain ⟨hp, hrest⟩ := List.pairwise_cons.mp hsorted
    rw [insert_page]
    split_ifs with hlt heq
    · refine List.pairwise_cons.mpr ⟨?_, hsorted⟩
      intro q hq
      rcases List.mem_cons.mp hq with rfl | hq
      · exact hlt
      · exact Nat.lt_trans hlt (hp q hq)
    · exact absurd heq.symm h.1
    · refine List.pairwise_cons.mpr ⟨?_, ih hrest h.2⟩
      intro q hq
      have hmem : q ∈ page :: rest := (insert_page_perm h.2).mem_iff.mp hq
      rcases List.mem_cons.mp hmem with rfl | hq
      · have := h.1
        omega
      · exact hp q hq

/-- Pages with different numbers end in the order of their numbers. -/
theorem foldl_insert_page {loaded pages : List LogPage}
    (hsorted : pages.Pairwise fun p q => p.page_num < q.page_num)
    (hnodup : (loaded.map LogPage.page_num).Nodup)
    (hnew : ∀ p ∈ loaded, ∀ q ∈ pages, q.page_num ≠ p.page_num) :
    (loaded.foldl insert_page pages).Perm (loaded ++ pages) ∧
      (loaded.foldl insert_page pages).Pairwise fun p q => p.page_num < q.page_num := by
  induction loaded generalizing pages with
  | nil => exact ⟨List.Perm.refl _, hsorted⟩
  | cons p loaded ih =>
    rw [List.map_cons, List.nodup_cons] at hnodup
    have hp := hnew p List.mem_cons_self
    have hperm := insert_page_perm hp
    have hrest : ∀ q ∈ loaded, ∀ r ∈ insert_page pages p, r.page_num ≠ q.page_num := by
      intro q hq r hr
      rcases List.mem_cons.mp (hperm.mem_iff.mp hr) with rfl | hr
      · exact fun heq => hnodup.1 (heq ▸ List.mem_map_of_mem hq)
      · exact hnew q (List.mem_cons_of_mem _ hq) r hr
    obtain ⟨h1, h2⟩ := ih (insert_page_sorted hsorted hp) hnodup.2 hrest
    exact ⟨h1.trans ((hperm.append_left loaded).trans List.perm_middle), h2⟩

/-- **Any order of the files** leads to the pages in the order of their numbers. -/
theorem foldl_insert_page_of_perm {order pages : List LogPage} (hnum : Numbered pages)
    (h : order.Perm pages) : order.foldl insert_page [] = pages := by
  have hnodup : (order.map LogPage.page_num).Nodup := by
    rw [(h.map LogPage.page_num).nodup_iff, hnum]
    exact List.nodup_range
  obtain ⟨hperm, hsorted⟩ := foldl_insert_page (List.Pairwise.nil) hnodup (by simp)
  have hpages : pages.Pairwise fun p q => p.page_num < q.page_num := by
    rw [← List.pairwise_map (f := LogPage.page_num) (R := (· < ·)), hnum]
    exact List.pairwise_lt_range
  rw [List.append_nil] at hperm
  refine List.Perm.eq_of_pairwise ?_ hsorted hpages (hperm.trans h)
  intro p q _ _ hpq hqp
  omega

/-! ## What is packed is written out

The last step of the round trip. Whatever `pack` and `pack_continue` make of the pages of a
ring, the command loads fresh pages with the bytes that were put on them, and the ring holds
the messages that were packed, from the place where the log begins.
-/

/-- What `pack` and any number of calls of `pack_continue` make of a page. -/
inductive Packed (made : LogPage) : LogPage → Prop
  | pack {p : LogPage} {strPayload : List UInt8} {overflow : Option (List UInt8)}
      (h : made.pack strPayload = .ok (p, overflow)) : Packed made p
  | pack_continue {p p' : LogPage} {strPayload : List UInt8} {overflow : Option (List UInt8)}
      (hp : Packed made p) (h : p.pack_continue strPayload = (p', overflow)) : Packed made p'

theorem Packed.begun {made p : LogPage} (h : Packed made p) : made.Begun p := by
  induction h with
  | pack h => exact LogPage.begun_of_pack h
  | pack_continue _ h ih => exact ih.continue h

/-- A page that `LogPage.pack` has made, with the header size of the version and the architecture.
-/
def PackedFor (v : LogPageClass) (arch_64 : Bool) (p : LogPage) : Prop :=
  ∃ made : LogPage, made.New ∧ made.version = v ∧
    made.page_header_size = v.page_hdr_size arch_64 ∧ Packed made p

theorem PackedFor.load {v : LogPageClass} {arch_64 : Bool} {p : LogPage}
    (h : PackedFor v arch_64 p) : load_page v arch_64 p.data = .ok p := by
  obtain ⟨made, hnew, rfl, hsize, hpacked⟩ := h
  obtain ⟨header, hheader, hp, hfront⟩ := hpacked.begun
  rw [load_page, LogPage.unpack_of_front hnew hheader hfront, ok_bind]
  dsimp only
  rw [if_pos rfl, ← hsize, ← hp]

theorem PackedFor.fresh {v : LogPageClass} {arch_64 : Bool} {p : LogPage}
    (h : PackedFor v arch_64 p) : p.version = v ∧ p.Fresh := by
  obtain ⟨made, hnew, rfl, -, hpacked⟩ := h
  obtain ⟨header, -, hp, -⟩ := hpacked.begun
  rw [hp]
  refine ⟨rfl, hnew.iterated, ?_, ?_⟩
  · dsimp only
    rw [hnew.previousData, Option.getD_none]
  · dsimp only
    rw [hnew.nextData, Option.getD_none]

theorem load_pages {v : LogPageClass} {arch_64 : Bool} {pages : List LogPage}
    (h : ∀ p ∈ pages, PackedFor v arch_64 p) :
    (pages.map LogPage.data).mapM (load_page v arch_64) = .ok pages := by
  induction pages with
  | nil => rfl
  | cons p pages ih =>
    rw [List.forall_mem_cons] at h
    rw [List.map_cons, List.mapM_cons, h.1.load, ok_bind, ih h.2]
    rfl

/-- **From messages to pages and back.** Messages are packed, and their bytes are cut and laid
over the pages of a log, around the ring from the page on which the log begins. Given the
files of the pages in any order, `cmdTest` writes exactly the messages, with the nanoseconds
that were packed for their seconds, in their order; zeros and a message that was cut off are
left out. -/
theorem test_writes_messages {v : LogPageClass} {arch_64 : Bool} {packed order : List LogPage}
    {logId i : ℕ} {τ : Type} {nanoseconds : τ → Option ℕ} {ms : List (MessageArgs τ)}
    {bs : List (List UInt8)} {tail : List UInt8} (hne : packed ≠ [])
    (hpacked : ∀ p ∈ packed, PackedFor v arch_64 p ∧ p.log_id = logId)
    (hnum : Numbered packed) (hbegins : v.Begins packed i)
    (hms : ms.mapM (LogMessageString.pack nanoseconds) = .ok bs)
    (hqtimer : ∀ m ∈ ms, m.fQTimer.isSome = v.qtimer)
    (htail : Unwritten v.qtimer tail) (hcontents : contents (packed.rotate i) = bs.flatten ++ tail)
    (horder : order.Perm packed) (filename : String) :
    ∃ ls, LoggedAs nanoseconds ms ls ∧ cmdTest v arch_64 filename (order.map LogPage.data)
      = .ok (extracted logId ("test-log-" ++ filename) v.number packed.length ls) := by
  obtain ⟨ls, hlogged, hloggable, hbytes⟩ := packed_messages hms hqtimer
  have hload := load_pages fun p hp => (hpacked p (horder.mem_iff.mp hp)).1
  have horder' : order ≠ [] := fun hnil => hne (List.nil_perm.mp (hnil ▸ horder))
  have hlast := List.getLast?_eq_some_getLast horder'
  have hp := horder.mem_iff.mp (List.getLast_mem horder')
  have hpages : LogPages v packed := ⟨hne, hnum, fun q hq => (hpacked q hq).1.fresh.1,
    fun q hq => (hpacked q hq).1.fresh.2⟩
  rw [hbytes] at hcontents
  refine ⟨ls, hlogged, ?_⟩
  rw [cmdTest, hload, ok_bind, hlast]
  dsimp only
  rw [foldl_insert_page_of_perm hnum horder, (hpacked _ hp).2, List.length_map, horder.length_eq,
    dumpLogWithRetry_full hpages hbegins hloggable htail.quiet hcontents]

/-- A page with what `pack` puts on it of a payload. -/
def packed_page (made : LogPage) (strPayload : List UInt8) : LogPage :=
  ((made.pack strPayload).toOption.map Prod.fst).getD made

theorem packed_page_packed {v : LogPageClass} {arch_64 : Bool} {made : LogPage}
    {strPayload : List UInt8} (hnew : made.New) (hv : made.version = v)
    (hsize : made.page_header_size = v.page_hdr_size arch_64) (hok : (made.pack strPayload).isOk) :
    PackedFor v arch_64 (packed_page made strPayload) := by
  cases h : made.pack strPayload with
  | error e =>
    rw [h] at hok
    cases hok
  | ok p =>
    rw [packed_page, h]
    exact ⟨made, hnew, hv, hsize, .pack h⟩

/-- Two messages around two pages: the log begins and ends on the second one. -/
def two_pages : List LogPage :=
  let bytes := [(⟨1000, some 7, [97, 98]⟩ : LogMessageString), ⟨2000, some 9, [99, 100]⟩].flatMap
    LogMessageString.bytes
  let made := { LogPage.init .v2 with log_id := 1, start_time := 3 }
  [packed_page { made with write_offset := FULL_PAGE_WRITE_OFFSET, end_time := 9 }
      ((bytes.drop 20).take 20),
    packed_page { made with page_num := 1, read_offset := 15, write_offset := 12, end_time := 5 }
      (bytes.drop 40 ++ [1, 2, 3] ++ bytes.take 20)]

/-- Two messages, one and two microseconds after the start. -/
def two_messages : List (MessageArgs ℚ) :=
  [⟨1 / 10 ^ 6, [97, 98], some 7⟩, ⟨2 / 10 ^ 6, [99, 100], some 9⟩]

theorem test_writes_messages_two_pages :
    cmdTest .v2 false "log" (two_pages.reverse.map LogPage.data)
      = .ok (extracted 1 "test-log-log" 2 2
          [⟨1000, some 7, [97, 98]⟩, ⟨2000, some 9, [99, 100]⟩]) := by
  have hpacked : ∀ p ∈ two_pages, PackedFor .v2 false p ∧ p.log_id = 1 := by
    intro p hp
    rcases List.mem_pair.mp hp with rfl | rfl
    · exact ⟨packed_page_packed ⟨rfl, rfl, rfl, rfl, by decide, fun h => absurd h (by decide)⟩
        rfl rfl (by decide +kernel), by decide +kernel⟩
    · exact ⟨packed_page_packed ⟨rfl, rfl, rfl, rfl, by decide, fun h => absurd h (by decide)⟩
        rfl rfl (by decide +kernel), by decide +kernel⟩
  have hnum : Numbered two_pages := by
    rw [Numbered]
    decide +kernel
  have hbegins : LogPageClass.v2.Begins two_pages 1 :=
    ⟨1, 0, find_min_eq_iff.mp (by decide +kernel), find_min_eq_iff.mp (by decide +kernel),
      .inr ⟨by decide +kernel, rfl⟩⟩
  have hms : two_messages.mapM (LogMessageString.pack exact_nanoseconds)
      = .ok ([(⟨1000, some 7, [97, 98]⟩ : LogMessageString),
        ⟨2000, some 9, [99, 100]⟩].map LogMessageString.bytes) := by
    decide +kernel
  obtain ⟨ls, hls, htest⟩ := test_writes_messages (List.cons_ne_nil _ _) hpacked hnum hbegins hms
    (by decide) (.inl (List.forall_mem_nil _)) (by decide +kernel) (List.reverse_perm _) "log"
  have htwo : LoggedAs exact_nanoseconds two_messages
      [⟨1000, some 7, [97, 98]⟩, ⟨2000, some 9, [99, 100]⟩] :=
    .cons (by decide +kernel) (.cons (by decide +kernel) .nil)
  exact hls.unique htwo ▸ htest

end AndroidTools.IpcLog
