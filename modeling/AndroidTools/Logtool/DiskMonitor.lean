/-
`storagelisten`: the task that watches the free space under the log root.

Every run is to end in `mDiskHandler.postDelayed(this, ..)`, which is the only
thing that brings the next run about. Some paths leave before it, all of them on a
user build that finds a bound undercut and has not cleared its old data yet. The
clearing can bring the free space back above that bound, and the run ends in a
`return`. And the clearing need not come back at all: `clearOldData` raises an
exception at a name of sixteen underscores and at a directory that cannot be
listed, nothing on the way catches it, and the thread of the run is gone, before
the flag is set that would keep the next run from clearing again.

`LastRun` is the condition for either, read off the file system, the names under
the log root and the flags a run starts with; the monitor keeps running exactly
when no run meets it. What else a run calls, the broadcasts and the ends of the
logs, is taken to return.
-/
import AndroidTools.Logtool.CleanUp

set_option autoImplicit false

namespace AndroidTools.Logtool

open AndroidTools.DirTree

/-! ## What a run sees

Everything that a run reads from outside is in a `Reading`, including the second look at the
file system after the clearing and the tree that `clearOldData` walks over. The flags are
not: they are what one run leaves to the next.
-/

/-- `StatFs` of the log root: the sizes that the run asks for. -/
structure StatFs where
  available_blocks : ℕ
  block_size : ℕ
  total_bytes : ℕ
  deriving Repr, DecidableEq

/-- `getDiskSize`: megabytes, cast to a Java `int`. -/
def get_disk_size (sf : StatFs) : ℤ :=
  Int.bmod (sf.available_blocks * sf.block_size / 1024 / 1024 : ℕ) (2 ^ 32)

/-- `getReminderLowSpace`: a tenth of the space, in megabytes. -/
def get_reminder_low_space (sf : StatFs) : ℤ := (sf.total_bytes / 1024 / 1024 / 10 : ℕ)

/-- `getReminderLowClose`: half of the other bound, a twentieth of the space. -/
def get_reminder_low_close (sf : StatFs) : ℤ := (sf.total_bytes / 1024 / 1024 / 10 / 2 : ℕ)

/-- What one run reads: the file system as it finds it and as `clearOldData` would leave it, the
build type, and the reminder switch of the settings page; and for `clearOldData` the time, whether
the log root can be listed, and what is in it. -/
structure Reading where
  root_exists : Bool
  found : StatFs
  cleared : StatFs
  user_build : Bool
  reminder_disk_low : Bool
  now : CivilTime
  listed : Bool
  root : List (Entry (List Char))

/-- The saved flags `isAlreadyReminderDiskLow`, `..Close` and `..Clear`, which one run leaves to
the next. -/
structure ReminderFlags where
  disk_low : Bool
  disk_low_close : Bool
  disk_low_clear : Bool
  deriving Repr, DecidableEq

/-- What a run does besides saving flags, in its order. -/
inductive MonitorAction where
  | clear_old_data
  | close_all_logs
  | broadcast_close_log
  | broadcast_disk_low
  deriving Repr, DecidableEq

/-- What a run leaves: the flags, what it did, and how often it posted itself. -/
structure RunOutcome where
  flags : ReminderFlags
  actions : List MonitorAction
  posted : ℕ
  deriving Repr, DecidableEq

/-! ## The task

The branches of `run` in their order, with one definition for the part that two of them
share. The condition for a last run is stated beside them, on the reading and the flags
alone. It does not mention what a run does, and for the clearing it uses the description of
`CleanUp`.
-/

/-- The end of the branch under `getReminderLowClose`: unless this was announced before, the logs
are closed, which is announced where the reminder is on; the run posts itself. -/
def remind_close (r : Reading) (f : ReminderFlags) (done : List MonitorAction) : RunOutcome :=
  if f.disk_low_close then ⟨f, done, 1⟩
  else if r.reminder_disk_low then
    ⟨{ f with disk_low_close := true }, done ++ [.close_all_logs, .broadcast_close_log], 1⟩
  else ⟨f, done ++ [.close_all_logs], 1⟩

/-- The end of the branch under `getReminderLowSpace`: it is said once that the space is low, and
the run posts itself. -/
def remind_low (r : Reading) (f : ReminderFlags) (done : List MonitorAction) : RunOutcome :=
  if f.disk_low then ⟨f, done, 1⟩
  else if r.reminder_disk_low then
    ⟨{ f with disk_low := true }, done ++ [.broadcast_disk_low], 1⟩
  else ⟨f, done, 1⟩

section Run

variable (to_millis : TimeFields → ℤ)

/-- `clearOldData` in a run, the flag for it, and `goes_on` unless the space is above the bound
then. Where `clearOldData` raises an exception the run is over and has posted nothing. -/
def clear_first (r : Reading) (f : ReminderFlags) (bound : StatFs → ℤ)
    (goes_on : ReminderFlags → List MonitorAction → RunOutcome) : RunOutcome :=
  match clear_old_data to_millis r.now r.listed r.root with
  | .exit _ => ⟨f, [.clear_old_data], 0⟩
  | .done _ =>
    let f := { f with disk_low_clear := true }
    -- the `return` after a successful clear posts nothing
    if bound r.cleared < get_disk_size r.cleared then ⟨f, [.clear_old_data], 0⟩
    else goes_on f [.clear_old_data]

/-- `run` of `storagelisten`, on what it reads and the flags it starts with. -/
def storagelisten (r : Reading) (f : ReminderFlags) : RunOutcome :=
  if r.root_exists = false then ⟨f, [], 1⟩
  else if get_disk_size r.found < get_reminder_low_close r.found then
    if r.user_build && !f.disk_low_clear then
      clear_first to_millis r f get_reminder_low_close (remind_close r)
    else remind_close r f []
  else if get_disk_size r.found < get_reminder_low_space r.found then
    if r.user_build && !f.disk_low_clear then
      clear_first to_millis r f get_reminder_low_space (remind_low r)
    else remind_low r f []
  else ⟨⟨false, false, false⟩, [], 1⟩

end Run

/-- The bound a run finds undercut, in the file system `sf`. -/
def undercut_bound (r : Reading) (sf : StatFs) : Option ℤ :=
  if get_disk_size r.found < get_reminder_low_close r.found then some (get_reminder_low_close sf)
  else if get_disk_size r.found < get_reminder_low_space r.found then
    some (get_reminder_low_space sf)
  else none

/-- `clearOldData` does not come back: one of the entries it walks raises, or is or holds a
directory that cannot be listed where it is to be emptied or entered. -/
def ClearBreaksOff (r : Reading) : Prop :=
  ∃ e ∈ walked r.listed r.root, Stops Raises (Taken r.now) e

/-- A user build that has not cleared its old data finds a bound undercut, and the clearing
breaks off or brings the free space above it. -/
def LastRun (r : Reading) (f : ReminderFlags) : Prop :=
  r.root_exists = true ∧ r.user_build = true ∧ f.disk_low_clear = false ∧
    ∃ bound, undercut_bound r r.cleared = some bound ∧
      (ClearBreaksOff r ∨ bound < get_disk_size r.cleared)

/-! ## One run

Each branch posts the next run exactly once or not at all, and which of the two it does is
decided by the condition.
-/

theorem remind_close_posted (r : Reading) (f : ReminderFlags) (done : List MonitorAction) :
    (remind_close r f done).posted = 1 := by
  unfold remind_close
  split_ifs <;> rfl

theorem remind_low_posted (r : Reading) (f : ReminderFlags) (done : List MonitorAction) :
    (remind_low r f done).posted = 1 := by
  unfold remind_low
  split_ifs <;> rfl

section OneRun

variable {to_millis : TimeFields → ℤ}

/-- What the part that clears leaves posted: nothing if the clearing breaks off or helps, and one
run otherwise. -/
theorem clear_first_posted (h : Carries to_millis) (r : Reading) (f : ReminderFlags)
    {bound : StatFs → ℤ} {goes_on : ReminderFlags → List MonitorAction → RunOutcome}
    (hgoes : ∀ f done, (goes_on f done).posted = 1) :
    ((ClearBreaksOff r ∨ bound r.cleared < get_disk_size r.cleared) →
        (clear_first to_millis r f bound goes_on).posted = 0) ∧
      (¬ (ClearBreaksOff r ∨ bound r.cleared < get_disk_size r.cleared) →
        (clear_first to_millis r f bound goes_on).posted = 1) := by
  have hexit := (clear_old_data_logs h r.now r.listed r.root).1
  unfold clear_first
  cases hclear : clear_old_data to_millis r.now r.listed r.root with
  | exit log => exact ⟨fun _ => rfl, fun hnot => absurd (Or.inl (hexit.mp ⟨log, hclear⟩)) hnot⟩
  | done log =>
    have hback : ¬ ClearBreaksOff r := fun hbreaks => by
      obtain ⟨s, hs⟩ := hexit.mpr hbreaks
      rw [hclear] at hs
      cases hs
    rw [or_iff_right hback]
    dsimp only
    constructor
    · intro hlt
      rw [if_pos hlt]
    · intro hle
      rw [if_neg hle]
      exact hgoes _ _

/-- A run that meets the condition posts nothing. -/
theorem posted_of_last_run (h : Carries to_millis) {r : Reading} {f : ReminderFlags}
    (hlast : LastRun r f) : (storagelisten to_millis r f).posted = 0 := by
  obtain ⟨hroot, huser, hclear, bound, hbound, hend⟩ := hlast
  have hguard : (r.user_build && !f.disk_low_clear) = true := by rw [huser, hclear]; rfl
  have hthere : ¬ r.root_exists = false := by rw [hroot]; decide
  unfold storagelisten
  rw [if_neg hthere]
  by_cases hclose : get_disk_size r.found < get_reminder_low_close r.found
  · rw [undercut_bound, if_pos hclose] at hbound
    rw [← Option.some.inj hbound] at hend
    rw [if_pos hclose, if_pos hguard]
    exact (clear_first_posted h r f (remind_close_posted r)).1 hend
  · by_cases hlow : get_disk_size r.found < get_reminder_low_space r.found
    · rw [undercut_bound, if_neg hclose, if_pos hlow] at hbound
      rw [← Option.some.inj hbound] at hend
      rw [if_neg hclose, if_pos hlow, if_pos hguard]
      exact (clear_first_posted h r f (remind_low_posted r)).1 hend
    · rw [undercut_bound, if_neg hclose, if_neg hlow] at hbound
      cases hbound

/-- A run that does not meet the condition posts itself, once. -/
theorem posted_of_not_last_run (h : Carries to_millis) {r : Reading} {f : ReminderFlags}
    (hnot : ¬ LastRun r f) : (storagelisten to_millis r f).posted = 1 := by
  unfold storagelisten
  by_cases hroot : r.root_exists = false
  · rw [if_pos hroot]
  rw [if_neg hroot]
  rw [Bool.not_eq_false] at hroot
  by_cases hclose : get_disk_size r.found < get_reminder_low_close r.found
  · rw [if_pos hclose]
    split_ifs with hguard
    · rw [Bool.and_eq_true, Bool.not_eq_true'] at hguard
      refine (clear_first_posted h r f (remind_close_posted r)).2 fun hend => hnot ?_
      refine ⟨hroot, hguard.1, hguard.2, _, ?_, hend⟩
      rw [undercut_bound, if_pos hclose]
    · exact remind_close_posted ..
  rw [if_neg hclose]
  by_cases hlow : get_disk_size r.found < get_reminder_low_space r.found
  · rw [if_pos hlow]
    split_ifs with hguard
    · rw [Bool.and_eq_true, Bool.not_eq_true'] at hguard
      refine (clear_first_posted h r f (remind_low_posted r)).2 fun hend => hnot ?_
      refine ⟨hroot, hguard.1, hguard.2, _, ?_, hend⟩
      rw [undercut_bound, if_neg hclose, if_pos hlow]
    · exact remind_low_posted ..
  · rw [if_neg hlow]

end OneRun

/-! ## All runs

The handler holds a number of waiting runs and takes one at a time. A monitor with no run
waiting stays so for ever, hence a single run that posts nothing is enough to end it, and
the equivalence over all runs follows from the one for a single run by induction.
-/

/-- The saved flags and the number of runs waiting on `mDiskHandler`. -/
structure Monitor where
  flags : ReminderFlags
  pending : ℕ
  deriving Repr, DecidableEq

section Runs

variable (to_millis : TimeFields → ℤ)

/-- The handler takes the next waiting run, if there is one. -/
def Monitor.step (m : Monitor) (r : Reading) : Monitor :=
  if m.pending = 0 then m
  else ⟨(storagelisten to_millis r m.flags).flags,
    m.pending - 1 + (storagelisten to_millis r m.flags).posted⟩

/-- The monitor after `n` turns of the handler; `storagelisten()` has posted the first run. -/
def monitor (f : ReminderFlags) (rs : ℕ → Reading) : ℕ → Monitor
  | 0 => ⟨f, 1⟩
  | n + 1 => (monitor f rs n).step to_millis (rs n)

/-- After every run exactly one future run is waiting. -/
def NeverStops (f : ReminderFlags) (rs : ℕ → Reading) : Prop :=
  ∀ n, (monitor to_millis f rs (n + 1)).pending = 1

/-- No run, in the state it starts in, is the last one. -/
def NoLastRun (f : ReminderFlags) (rs : ℕ → Reading) : Prop :=
  ∀ n, ¬ LastRun (rs n) (monitor to_millis f rs n).flags

end Runs

section AllRuns

variable {to_millis : TimeFields → ℤ}

theorem step_pending {m : Monitor} (hm : m.pending = 1) (r : Reading) :
    (m.step to_millis r).pending = (storagelisten to_millis r m.flags).posted := by
  rw [Monitor.step, if_neg (by omega)]
  dsimp only
  omega

/-- A monitor without a waiting run stays so, whatever the disk does. -/
theorem stopped_forever {f : ReminderFlags} {rs : ℕ → Reading} {n : ℕ}
    (h : (monitor to_millis f rs n).pending = 0) (k : ℕ) :
    monitor to_millis f rs (n + k) = monitor to_millis f rs n := by
  induction k with
  | zero => rfl
  | succ k ih =>
    rw [← Nat.add_assoc, monitor, ih, Monitor.step, if_pos h]

/-- **The monitor never stops exactly when no run is the last one.** Over all runs, whatever the
disk and the names on it are at each of them. -/
theorem never_stops_iff (h : Carries to_millis) (f : ReminderFlags) (rs : ℕ → Reading) :
    NeverStops to_millis f rs ↔ NoLastRun to_millis f rs := by
  constructor
  · intro hnever n hlast
    have hn : (monitor to_millis f rs n).pending = 1 := by
      cases n with
      | zero => rfl
      | succ n => exact hnever n
    have hnext := hnever n
    rw [monitor, step_pending hn, posted_of_last_run h hlast] at hnext
    cases hnext
  · intro hno
    have hall : ∀ n, (monitor to_millis f rs n).pending = 1 := by
      intro n
      induction n with
      | zero => rfl
      | succ n ih => rw [monitor, step_pending ih, posted_of_not_last_run h (hno n)]
    exact fun n => hall (n + 1)

end AllRuns

/-- A gigabyte disk with 10 MB left, of which 600 MB come back when old data goes; the log root
is empty by then. -/
def full_disk : Reading where
  root_exists := true
  found := ⟨2560, 4096, 1073741824⟩
  cleared := ⟨153600, 4096, 1073741824⟩
  user_build := true
  reminder_disk_low := true
  now := march_noon
  listed := true
  root := []

/-- An engineering build with the same disk clears nothing. -/
theorem engineering_build_never_stops :
    NeverStops utc_millis ⟨false, false, false⟩ (fun _ => { full_disk with user_build := false }) :=
  (never_stops_iff utc_millis_carries _ _).mpr fun _ hlast => absurd hlast.2.1 (by decide)

/-- A disk as full as the other one, where clearing does not help and comes to a file named by
sixteen underscores. -/
def broken_clear : Reading :=
  { full_disk with
    cleared := full_disk.found
    root := [.dir ['M', 'o', 'd', 'e', 'm'] [.file (List.replicate 16 '_')]] }

theorem full_disk_last_run : LastRun full_disk ⟨false, false, false⟩ :=
  ⟨rfl, rfl, rfl, 51, by decide, Or.inr (by decide)⟩

theorem broken_clear_last_run : LastRun broken_clear ⟨false, false, false⟩ := by
  refine ⟨rfl, rfl, rfl, 51, by decide, Or.inl ?_⟩
  refine ⟨.dir ['M', 'o', 'd', 'e', 'm'] [.file (List.replicate 16 '_')], List.mem_cons_self, ?_⟩
  refine .inside (fun htaken => absurd htaken.1 (by decide)) (List.mem_singleton_self _) (.name ?_)
  exact ⟨by decide, fun c hc => List.eq_of_mem_replicate (List.mem_of_mem_take hc)⟩

/-- After one last run the monitor is over: no later turn of the handler finds a run to do. -/
theorem over_after_last_run {to_millis : TimeFields → ℤ} (h : Carries to_millis)
    {f : ReminderFlags} {r : Reading} (hlast : LastRun r f) :
    ¬ NeverStops to_millis f (fun _ => r) ∧
      ∀ k, (monitor to_millis f (fun _ => r) (1 + k)).pending = 0 := by
  have hone : (monitor to_millis f (fun _ => r) 1).pending = 0 := by
    rw [monitor, step_pending rfl]
    exact posted_of_last_run h hlast
  refine ⟨fun hnever => ?_, fun k => ?_⟩
  · have hzero := hnever 0
    rw [hone] at hzero
    cases hzero
  · rw [stopped_forever hone k, hone]

/-- On a full disk the first run clears and is the last one, whether the clearing helps or
breaks off. -/
theorem full_disk_stops :
    (¬ NeverStops utc_millis ⟨false, false, false⟩ (fun _ => full_disk) ∧
      ∀ k, (monitor utc_millis ⟨false, false, false⟩ (fun _ => full_disk) (1 + k)).pending = 0) ∧
    ¬ NeverStops utc_millis ⟨false, false, false⟩ (fun _ => broken_clear) ∧
      ∀ k, (monitor utc_millis ⟨false, false, false⟩ (fun _ => broken_clear) (1 + k)).pending
        = 0 :=
  ⟨over_after_last_run utc_millis_carries full_disk_last_run,
    over_after_last_run utc_millis_carries broken_clear_last_run⟩

end AndroidTools.Logtool
