/-
`clearOldData`: what is deleted when the disk runs low.

The folders of `ALL_CATEGORY` are walked, then every directory under the root whose
name is made of digits and underscores. An entry goes when `isOldPath` takes its name
for old, a directory with all that is in it. That is right for the dates of logs that
have been there for long. It is wrong for names that are no dates at all, which count
as 1970, and for dates of the last three days whose month is shorter or longer than the
current one, since both are compared a month too late.

The main result says which trees lose only what is old: it asks for a date on the path
of every entry that is reached and taken. Which entries these are is said of the tree
(`Reaches`, `Stops` of `DirTree`) and of their names (`Raises`, `Taken`), not of the
walk.
-/
import AndroidTools.Lib.DirTree
import AndroidTools.Logtool.OldNames

set_option autoImplicit false

namespace AndroidTools.Logtool

open AndroidTools.Run AndroidTools.DirTree

/-! ## The walk over the log root

The two loops share one log of what was deleted, and an exception in the first one leaves
out the second. The library's walk over a tree is used at `isOldPath`, with `none` for the
exception that nothing catches.
-/

/-- `ALL_CATEGORY`, the folders that are walked first. -/
def all_category : List (List Char) :=
  [['M', 'o', 'd', 'e', 'm'], ['T', 'c', 'p', 'D', 'u', 'm', 'p']]

section Clear

variable (to_millis : TimeFields → ℤ)

/-- `recursiveDeleteOldFile` of an entry of the log root. -/
def recursive_delete_old_file (current : ℤ) (e : Entry (List Char))
    (log : List (Path (List Char))) : Run (List (Path (List Char))) :=
  purge (is_old_path to_millis current) [] e log

/-- `clearOldData` at the time `now`, with the log of what it deletes; `listed` says that
`listFiles` of the root returns what is in it. The name of a category folder is too short to be
old and is not made of digits, so a missing one is left alone, and the second loop does not come
to what the first one changed. A root that does not exist is an empty one here. -/
def clear_old_data (now : CivilTime) (listed : Bool) (root : List (Entry (List Char))) :
    Run (List (Path (List Char))) :=
  match to_second to_millis (date_text now) with
  | none => .exit []
  | some current =>
    (each (fun log category =>
      match root.find? fun e => e.name = category with
      | some e => recursive_delete_old_file to_millis current e log
      | none => .done log) all_category []).bind
    (each (fun log e =>
      if e.is_directory && is_digit_ignore_dash e.name then
        recursive_delete_old_file to_millis current e log
      else .done log) (if listed then root else []))

end Clear

/-! ## What may be deleted

The property is about what a run has deleted when it is over, also where it broke off. The
condition is about the tree as it was: which entries the walk comes to, by `Reaches` and
`Stops`, and which of their names are taken. `clear_old_data_logs` is the link between the
two, and a date on the path is then a property of names that the library's rule applies to.
-/

/-- Every deleted entry, or a directory it was in, has a date more than three days back. -/
def DeletesOnlyOld (to_millis : TimeFields → ℤ) (now : CivilTime) (listed : Bool)
    (root : List (Entry (List Char))) : Prop :=
  ∀ path ∈ (clear_old_data to_millis now listed root).state, ∃ name ∈ path, OldDate now name

/-- The entries of the root that are walked: the folders of the categories, and the directories
named by digits and underscores. -/
def walked (listed : Bool) (root : List (Entry (List Char))) : List (Entry (List Char)) :=
  all_category.filterMap (fun category => root.find? fun e => e.name = category) ++
    (if listed then root else []).filter fun e => e.is_directory && is_digit_ignore_dash e.name

/-- Every entry that is reached and whose name is taken for old has a date more than three days
back, itself or in the name of a directory it is in. Only of a directory that cannot be emptied
less is asked: not it, but what goes before the deletion breaks off. -/
def TakesOnlyOld (now : CivilTime) (listed : Bool) (root : List (Entry (List Char))) : Prop :=
  ∀ before e after p e', walked listed root = before ++ e :: after →
    (∀ b ∈ before, ¬ Stops Raises (Taken now) b) → Reaches Raises (Taken now) [] e p e' →
    Taken now e'.name →
    (∃ name ∈ p ++ [e'.name], OldDate now name) ∨
      Locked e' ∧ ∀ q, Removes p e' q → ∃ name ∈ q, OldDate now name

section Cleared

variable {to_millis : TimeFields → ℤ}

/-- The two loops are one walk over the entries they do not skip. -/
theorem clear_old_data_eq (h : Normalises to_millis) (now : CivilTime) (listed : Bool)
    (root : List (Entry (List Char))) :
    clear_old_data to_millis now listed root
      = each (fun log e => purge (is_old_path to_millis (now.read_moment - epoch.seconds)) [] e log)
          (walked listed root) [] := by
  have hnow : to_second to_millis (date_text now) = some (now.read_moment - epoch.seconds : ℤ) := by
    rw [to_second_date h, CivilTime.read_moment, Option.some.injEq]
    push_cast
    ring
  rw [clear_old_data, hnow, walked, each_append]
  refine congrArg₂ Run.bind (each_filterMap (fun category hfind log => ?_)
    (fun category e hfind log => ?_) all_category []) (funext fun log => each_filter _ _ _ log)
  · rw [hfind]
  · rw [hfind]
    rfl

/-- `clearOldData` breaks off at an entry that stops, and deletes what the tree says. -/
theorem clear_old_data_logs (h : Carries to_millis) (now : CivilTime) (listed : Bool)
    (root : List (Entry (List Char))) :
    ((∃ s, clear_old_data to_millis now listed root = .exit s) ↔
      ∃ e ∈ walked listed root, Stops Raises (Taken now) e) ∧
    ∀ q, q ∈ (clear_old_data to_millis now listed root).state ↔
      ∃ before e after, walked listed root = before ++ e :: after ∧
        (∀ b ∈ before, ¬ Stops Raises (Taken now) b) ∧ Deletes Raises (Taken now) [] e q := by
  have hwalk := Logs.each fun e (_ : e ∈ walked listed root) =>
    purge_logs (judges_names h now) [] e
  rw [clear_old_data_eq h.toNormalises]
  refine ⟨hwalk.exit_iff [], fun q => ?_⟩
  rw [hwalk.mem_state_iff, or_iff_right List.not_mem_nil]

/-- **Only old entries are deleted exactly when only old entries are reached and taken.** The left
side is about what a run deletes; the right side is about the tree and the names in it, and does
not mention the walk. -/
theorem deletes_only_old_iff (h : Carries to_millis) (now : CivilTime) (listed : Bool)
    (root : List (Entry (List Char))) :
    DeletesOnlyOld to_millis now listed root ↔ TakesOnlyOld now listed root := by
  have hlogs := (clear_old_data_logs h now listed root).2
  constructor
  · intro hold before e after p e' hroot hbefore hreach htaken
    refine (removes_good_iff (OldDate now) p e').mp fun q hq => hold q ?_
    exact (hlogs q).mpr ⟨before, e, after, hroot, hbefore, p, e', hreach, htaken, hq⟩
  · intro htakes q hq
    obtain ⟨before, e, after, hroot, hbefore, p, e', hreach, htaken, hgone⟩ := (hlogs q).mp hq
    exact (removes_good_iff (OldDate now) p e').mpr
      (htakes before e after p e' hroot hbefore hreach htaken) q hgone

/-- In particular where all names that are taken are dates of months as long as the current
one. -/
theorem deletes_only_old_of_equal_months (h : Carries to_millis) {now : CivilTime} {listed : Bool}
    {root : List (Entry (List Char))}
    (hdates : ∀ e ∈ walked listed root, ∀ p e', Reaches Raises (Taken now) [] e p e' →
      Taken now e'.name → ∃ t : CivilTime, e'.name.take 16 = date_text t ∧
        days_in_month t.year t.month = days_in_month now.year now.month) :
    DeletesOnlyOld to_millis now listed root := by
  refine (deletes_only_old_iff h now listed root).mpr ?_
  intro before e after p e' hroot _ hreach htaken
  have hwalked : e ∈ walked listed root := by
    rw [hroot]
    exact List.mem_append_right _ List.mem_cons_self
  obtain ⟨t, ht, hlength⟩ := hdates e hwalked p e' hreach htaken
  exact Or.inl ⟨e'.name, List.mem_append_right _ (List.mem_singleton_self _),
    (taken_iff_oldDate ht hlength).mp htaken⟩

end Cleared

/-- A modem log with the date of a clock that was never set. -/
def unset_clock_log : List (Entry (List Char)) :=
  [.dir ['M', 'o', 'd', 'e', 'm'] [.file (date_text epoch)]]

/-- Nothing but old logs is deleted from this tree at noon of that day. -/
theorem unset_clock_log_deletes_only_old :
    DeletesOnlyOld utc_millis march_noon true unset_clock_log := by
  refine (deletes_only_old_iff utc_millis_carries march_noon true unset_clock_log).mpr ?_
  have hlog : OldDate march_noon (date_text epoch) := ⟨epoch, rfl, by decide⟩
  intro before e after p e' hroot _ hreach htaken
  have hmodem : e ∈ walked true unset_clock_log := by
    rw [hroot]
    exact List.mem_append_right _ List.mem_cons_self
  have hwalked : walked true unset_clock_log = unset_clock_log := rfl
  rw [hwalked, unset_clock_log, List.mem_singleton] at hmodem
  subst hmodem
  rcases reaches_dir_iff.mp hreach with ⟨-, rfl⟩ | ⟨-, -, before, e, after, hcut, -, hreach⟩
  -- the folder's own name is too short to be taken
  · exact absurd htaken.1 (by decide)
  · have hfile : e ∈ [Entry.file (date_text epoch)] := by
      rw [hcut]
      exact List.mem_append_right _ List.mem_cons_self
    rw [List.mem_singleton] at hfile
    subst hfile
    cases hreach with
    | here => exact Or.inl ⟨_, List.mem_append_right _ (List.mem_singleton_self _), hlog⟩

/-! ## Two names that are taken for old

One for each way to go wrong: a date of two days ago whose month is shorter than the current
one, and sixteen digits that are no date.
-/

/-- A modem log of two days and two hours before and a file named by sixteen digits. -/
def two_logs : List (Entry (List Char)) :=
  [.dir ['M', 'o', 'd', 'e', 'm'] [.file (date_text february_morning),
    .file ['1', '2', '3', '4', '5', '6', '7', '8', '9', '0', '1', '2', '3', '4', '5', '6']]]

/-- Both are deleted, and neither is a date more than three days back. -/
theorem two_logs_deleted :
    (clear_old_data utc_millis march_noon true two_logs).state
        = [[['M', 'o', 'd', 'e', 'm'], date_text february_morning],
          [['M', 'o', 'd', 'e', 'm'],
            ['1', '2', '3', '4', '5', '6', '7', '8', '9', '0', '1', '2', '3', '4', '5', '6']]] ∧
      (∀ path ∈ (clear_old_data utc_millis march_noon true two_logs).state, ∀ name ∈ path,
        ¬ OldDate march_noon name) ∧
      ¬ DeletesOnlyOld utc_millis march_noon true two_logs := by
  have hlog : (clear_old_data utc_millis march_noon true two_logs).state
      = [[['M', 'o', 'd', 'e', 'm'], date_text february_morning],
        [['M', 'o', 'd', 'e', 'm'],
          ['1', '2', '3', '4', '5', '6', '7', '8', '9', '0', '1', '2', '3', '4', '5', '6']]] := by
    decide +kernel
  have hnone : ∀ path ∈ (clear_old_data utc_millis march_noon true two_logs).state, ∀ name ∈ path,
      ¬ OldDate march_noon name := by
    rw [hlog]
    intro path hpath name hname
    rcases List.mem_pair.mp hpath with rfl | rfl
    -- neither the category nor sixteen digits are a date; the log is of two days ago
    · rcases List.mem_pair.mp hname with rfl | rfl
      · exact not_oldDate (by decide) _
      · rw [@oldDate_iff _ february_morning (by decide) march_noon]
        decide
    · rcases List.mem_pair.mp hname with rfl | rfl
      · exact not_oldDate (by decide) _
      · exact not_oldDate (by decide) _
  refine ⟨hlog, hnone, fun h => ?_⟩
  have hin : [['M', 'o', 'd', 'e', 'm'], date_text february_morning]
      ∈ (clear_old_data utc_millis march_noon true two_logs).state := by
    rw [hlog]
    exact List.mem_cons_self
  obtain ⟨name, hname, hold⟩ := h _ hin
  exact hnone _ hin name hname hold

end AndroidTools.Logtool
