/-
Log rotation of `logtool.cpp`.

`onHandleLogPathbyId` keeps the index of the newest log file in a text file, goes on to the next
one, deletes the files that have it and returns the name of a new one. The deletion is `rm -rf
<dir><prefix>_<index>*`: the index is not closed by the `_` that follows it in a file name, so
index 10 also takes 100 to 109 away.

The run of calls is followed by an invariant, `After`, that says which of the returned paths are
still held. It reduces the question whether the newest files are kept to numbers: `takes_iff` says
which indices a deletion takes away, and `lost_iff` for which number of calls one of the last
`max` is among them.

A directory is what its names hold. The names are relative to the directory, and taken by the
shell as they stand: the prefixes in use are plain words.
-/
import AndroidTools.Lib.Text

set_option autoImplicit false

namespace AndroidTools.Logtool

open Text

/-! ## Properties

The number of files to keep comes from properties, which `getMaxRotateNum` also sets. The
lemma says that asking again gives the same number, so one number serves a whole run of
calls.
-/

/-- The system properties; one that is not set holds the empty text. -/
abbrev Properties := String → String

def property_get (properties : Properties) (key default_value : String) : String :=
  if properties key = "" then default_value else properties key

def property_set (properties : Properties) (key value : String) : Properties :=
  Function.update properties key value

def KEY_ROTATE_TOTAL : String := "persist.asuslog.rotate.num"

def MTS_ROTATE_NUM : String := "persist.service.mts.rotate_num"

def KEY_IMAGE_TYPE : String := "ro.build.type"

def FILE_NAME_BPLOG : String := "bplog"

def is_user_build (properties : Properties) : Bool :=
  property_get properties KEY_IMAGE_TYPE "user" = "user"

/-- `getMaxRotateNum`: the number of files, and the properties it leaves. -/
def get_max_rotate_num (bplog : Bool) (properties : Properties) : ℤ × Properties :=
  if bplog then (atoi (property_get properties MTS_ROTATE_NUM "3"), properties)
  else
    let sz_rotate := property_get properties KEY_ROTATE_TOTAL ""
    if sz_rotate = "" then
      let rotate : ℕ := if is_user_build properties then 20 else 50
      (rotate, property_set properties KEY_ROTATE_TOTAL (toString rotate))
    else (atoi sz_rotate, properties)

/-- The number stays what it was when it was first asked for. -/
theorem get_max_rotate_num_again (bplog : Bool) (properties : Properties) :
    (get_max_rotate_num bplog (get_max_rotate_num bplog properties).2).1
      = (get_max_rotate_num bplog properties).1 := by
  have hback : ∀ n : ℕ, atoi (toString n) = n := by
    intro n
    have h := @atoi_toString n "" (by simp)
    rwa [String.append_empty] at h
  unfold get_max_rotate_num
  dsimp only
  by_cases hb : bplog = true
  · simp only [if_pos hb]
  · simp only [if_neg hb]
    by_cases hset : property_get properties KEY_ROTATE_TOTAL "" = ""
    · simp only [if_pos hset]
      split_ifs <;> simp_all [property_get, property_set]
    · simp only [if_neg hset]

/-! ## A rotation

The functions of the source on a directory and the properties: the shell pattern of the
deletion is a test on the beginning of names, and the index file is a file of the same
directory. `KeepsNewest` is what a rotation is for.
-/

/-- The files of one directory and what they hold. -/
abbrev Dir := String → Option String

/-- What a call sees: the files of the directory and the properties. -/
structure Device where
  dir : Dir
  properties : Properties

/-- The beginning of the names of the log files with this index, and of the names that a deletion
takes. -/
def keyword (file_name : String) (idx : ℤ) : String :=
  if idx < 10 then file_name ++ "_0" ++ toString idx else file_name ++ "_" ++ toString idx

/-- `deleteExistpathbyId`: `rm -rf <keyword>*`, every name that begins so. -/
def delete_exist_path_by_id (idx : ℤ) (file_name : String) (dir : Dir) : Dir :=
  fun name => if (keyword file_name idx).toList.isPrefixOf name.toList then none else dir name

/-- The file that holds the index of the newest log file. -/
def temp_path (file_name_previx : String) : String := file_name_previx ++ "_RotateLastIdx"

/-- The name of a new log file: the prefix, the index, the date and the suffix. -/
def result_path (file_name_previx : String) (current : ℤ) (date file_name_suffix : String) :
    String :=
  if current < 10 then
    file_name_previx ++ "_0" ++ toString current ++ "_" ++ date ++ "." ++ file_name_suffix
  else file_name_previx ++ "_" ++ toString current ++ "_" ++ date ++ "." ++ file_name_suffix

/-- `onHandleLogPathbyId`, at time `date`: the path it returns. -/
def on_handle_log_path_by_id (file_name_previx date : String) (s : Device) : Device × String :=
  let is_bplog : Bool := FILE_NAME_BPLOG = file_name_previx
  let file_name_suffix := if is_bplog then "istp" else "log"
  let (current, s) : ℤ × Device :=
    match s.dir (temp_path file_name_previx) with
    | none => (1, s)
    | some buffer =>
      let current := atoi buffer
      let (rotate, properties) := get_max_rotate_num is_bplog s.properties
      let current := if rotate ≤ current then 1 else current + 1
      (current, ⟨delete_exist_path_by_id current file_name_previx s.dir, properties⟩)
  -- `echo %d > ..`
  let dir := Function.update s.dir (temp_path file_name_previx) (some (toString current ++ "\n"))
  (⟨dir, s.properties⟩, result_path file_name_previx current date file_name_suffix)

/-- `openfile`: the file is there afterwards, and empty if it was not there. -/
def openfile (path : String) (s : Device) : Device :=
  ⟨Function.update s.dir path (some ((s.dir path).getD "")), s.properties⟩

/-- A call of `onHandleLogPathbyId`, and the file that it returns is created. -/
def rotate (file_name_previx : String) (run : Device × List String) (date : String) :
    Device × List String :=
  let (s, path) := on_handle_log_path_by_id file_name_previx date run.1
  (openfile path s, run.2 ++ [path])

/-- One rotation after the other, at these times: what is left, and the paths returned. -/
def rotations (file_name_previx : String) (dates : List String) (s : Device) :
    Device × List String :=
  dates.foldl (rotate file_name_previx) (s, [])

/-- The directory holds the files of the last `max` calls, and no other files of that
prefix; their indices are different and among `1..max`. -/
def KeepsNewest (file_name_previx : String) (dates : List String) (s : Device) (max : ℕ) : Prop :=
  let run := rotations file_name_previx dates s
  let k := dates.length
  let newest := run.2.drop (k - min k max)
  (∀ name, (file_name_previx ++ "_").toList <+: name.toList → name ≠ temp_path file_name_previx →
      ((run.1.dir name).isSome ↔ name ∈ newest)) ∧
    ∃ indices : List ℕ, indices.Nodup ∧ (∀ i ∈ indices, 1 ≤ i ∧ i ≤ max) ∧
      List.Forall₂
        (fun (i : ℕ) name => (keyword file_name_previx i ++ "_").toList <+: name.toList)
        indices newest

/-! ## Names

An index stands in a name with two digits at least, and a `_` after it. The pattern for the
deletion has the index but not the `_`, so it takes the names of all indices that begin with
the same digits. Comparing names is thereby reduced to comparing numbers.
-/

/-- An index as names have it. -/
def padded_idx (idx : ℕ) : List Char :=
  if idx < 10 then '0' :: Nat.toDigits 10 idx else Nat.toDigits 10 idx

/-- Deleting the files of index `d` takes those of index `x` away. -/
def Takes (d x : ℕ) : Prop := padded_idx d <+: padded_idx x

theorem keyword_toList (p : String) (n : ℕ) :
    (keyword p n).toList = p.toList ++ '_' :: padded_idx n := by
  have htext : (toString (n : ℤ)).toList = Nat.toDigits 10 n := toString_nat_toList n
  rw [keyword, padded_idx]
  by_cases h : n < 10
  · rw [if_pos (by omega), if_pos h, String.toList_append, String.toList_append, htext]
    simp
  · rw [if_neg (by omega), if_neg h, String.toList_append, String.toList_append, htext]
    simp

theorem result_path_eq (p date suffix : String) (idx : ℤ) :
    result_path p idx date suffix = keyword p idx ++ "_" ++ date ++ "." ++ suffix := by
  unfold result_path keyword
  split_ifs <;> rfl

theorem result_path_toList (p date suffix : String) (n : ℕ) :
    (result_path p n date suffix).toList
      = p.toList ++ '_' :: (padded_idx n ++ '_' :: (date ++ "." ++ suffix).toList) := by
  rw [result_path_eq]
  simp [keyword_toList, String.toList_append]

theorem not_mem_padded_idx (n : ℕ) : '_' ∉ padded_idx n := by
  have h : '_' ∉ Nat.toDigits 10 n := Nat.underscore_not_in_toDigits
  rw [padded_idx]
  split_ifs
  · simp [h]
  · exact h

/-- The shell pattern for index `d` and the name of a file with index `x`. -/
theorem keyword_matches_iff (p date suffix : String) (d x : ℕ) :
    (keyword p d).toList.isPrefixOf (result_path p x date suffix).toList = true ↔ Takes d x := by
  rw [List.isPrefixOf_iff_prefix, keyword_toList, result_path_toList, List.prefix_append_right_inj,
    List.cons_prefix_cons, and_iff_right rfl, prefix_append_cons_iff (not_mem_padded_idx d)]
  rfl

/-- **What a deletion takes away**: the files with its index, and those whose index
begins with it where the index has two digits or more. -/
theorem takes_iff {d x : ℕ} (hd : 0 < d) (hx : 0 < x) :
    Takes d x ↔ d = x ∨ 10 ≤ d ∧ ∃ t, 0 < t ∧ x / 10 ^ t = d := by
  have hcut : (∃ t, x / 10 ^ t = d) ↔ d = x ∨ ∃ t, 0 < t ∧ x / 10 ^ t = d := by
    constructor
    · rintro ⟨t, ht⟩
      rcases Nat.eq_zero_or_pos t with rfl | hpos
      · exact Or.inl (by rw [← ht, pow_zero, Nat.div_one])
      · exact Or.inr ⟨t, hpos, ht⟩
    · rintro (rfl | ⟨t, -, ht⟩)
      · exact ⟨0, by rw [pow_zero, Nat.div_one]⟩
      · exact ⟨t, ht⟩
  rw [Takes, padded_idx, padded_idx]
  by_cases hd10 : d < 10
  · have hno : ¬ 10 ≤ d := by omega
    rw [if_pos hd10, or_iff_left (fun h => hno h.1)]
    by_cases hx10 : x < 10
    · -- two single digits
      rw [if_pos hx10, List.cons_prefix_cons, and_iff_right rfl, toDigits_prefix_iff hd, hcut,
        or_iff_left]
      rintro ⟨t, hpos, ht⟩
      have hle : 10 ^ 1 ≤ 10 ^ t := Nat.pow_le_pow_right (by norm_num) hpos
      rw [Nat.div_eq_of_lt (by omega)] at ht
      omega
    · rw [if_neg hx10]
      constructor
      · intro h
        have hzero : ['0'] <+: '0' :: Nat.toDigits 10 d := ⟨_, rfl⟩
        have := eq_zero_of_zero_prefix (hzero.trans h)
        omega
      · intro h
        omega
  · rw [if_neg hd10, and_iff_right (by omega)]
    by_cases hx10 : x < 10
    · rw [if_pos hx10]
      constructor
      · intro h
        -- the first of at least two digits would be a 0
        exfalso
        have hlen : (Nat.toDigits 10 d).length ≠ 0 :=
          fun h => Nat.toDigits_ne_nil (List.eq_nil_of_length_eq_zero h)
        have hzero : ['0'] <+: Nat.toDigits 10 d :=
          List.prefix_of_prefix_length_le ⟨_, rfl⟩ h (by simp only [List.length_singleton]; omega)
        have := eq_zero_of_zero_prefix hzero
        omega
      · rintro (rfl | ⟨t, -, ht⟩)
        · omega
        · have := Nat.div_le_self x (10 ^ t)
          omega
    · rw [if_neg hx10, toDigits_prefix_iff hd, hcut]

theorem takes_self (d : ℕ) : Takes d d := List.prefix_refl _

/-- An index that is taken away with another is ten times as large. -/
theorem ten_mul_le_of_takes {d x : ℕ} (hd : 0 < d) (hx : 0 < x) (h : Takes d x) (hne : d ≠ x) :
    10 ≤ d ∧ 10 * d ≤ x := by
  rcases (takes_iff hd hx).mp h with heq | ⟨hten, t, hpos, ht⟩
  · exact absurd heq hne
  · obtain ⟨t, rfl⟩ : ∃ u, t = u + 1 := ⟨t - 1, by omega⟩
    rw [pow_succ', ← Nat.div_div_eq_div_mul] at ht
    have h1 := Nat.div_le_self (x / 10) (10 ^ t)
    omega

/-- Names of log files with different indices are different, whatever their dates are. -/
theorem eq_of_result_path_eq {p d₁ s₁ d₂ s₂ : String} {x y : ℕ} (hx : 0 < x) (hy : 0 < y)
    (h : result_path p x d₁ s₁ = result_path p y d₂ s₂) : x = y := by
  have hxy : Takes x y := by
    rw [← keyword_matches_iff p d₂ s₂, ← h, keyword_matches_iff]
    exact takes_self x
  have hyx : Takes y x := by
    rw [← keyword_matches_iff p d₁ s₁, h, keyword_matches_iff]
    exact takes_self y
  by_contra hne
  have h1 := ten_mul_le_of_takes hx hy hxy hne
  have h2 := ten_mul_le_of_takes hy hx hyx (Ne.symm hne)
  omega

/-! ## A run of rotations

Calls are numbered from 0: call `j` uses index `j % max + 1`. The invariant `After` says
what the index file, the properties and the directory hold after any number of calls, a file
being held if no later call has taken its index away.
-/

/-- Whether the files are those of `bplog`, which have a maximum of their own. -/
def is_bplog (p : String) : Bool := FILE_NAME_BPLOG = p

/-- The index file, the maximum, the paths returned and the files held after `k` calls. -/
structure After (p : String) (max k : ℕ) (run : Device × List String) : Prop where
  idx : run.1.dir (temp_path p)
    = if k = 0 then none else some (toString ((k - 1) % max + 1) ++ "\n")
  rotate : (get_max_rotate_num (is_bplog p) run.1.properties).1 = max
  length : run.2.length = k
  path : ∀ j < k, ∃ date suffix,
    run.2[j]? = some (result_path p ((j % max + 1 : ℕ) : ℤ) date suffix)
  held : ∀ name, (p ++ "_").toList <+: name.toList → name ≠ temp_path p →
    ((run.1.dir name).isSome ↔ ∃ j < k, run.2[j]? = some name ∧
      ∀ j', j < j' → j' < k → ¬ Takes (j' % max + 1) (j % max + 1))

/-- The index goes up by one, and from `max` back to 1. -/
theorem next_idx {max : ℕ} (hmax : 0 < max) (j : ℕ) :
    (if max ≤ j % max + 1 then 1 else j % max + 1 + 1) = (j + 1) % max + 1 := by
  have hlt := Nat.mod_lt j hmax
  rw [Nat.add_mod_eq_ite]
  by_cases hone : max = 1
  · subst hone
    simp [Nat.mod_one]
  · rw [Nat.mod_eq_of_lt (by omega : 1 < max)]
    split_ifs <;> omega

theorem result_path_ne_temp_path (p date suffix : String) (n : ℕ) :
    result_path p n date suffix ≠ temp_path p := by
  intro h
  have htext := congrArg String.toList h
  have htemp : (temp_path p).toList = p.toList ++ '_' :: "RotateLastIdx".toList := by
    simp [temp_path, String.toList_append]
  rw [result_path_toList, htemp, List.append_cancel_left_eq, List.cons.injEq,
    and_iff_right rfl] at htext
  -- behind the underscore stands a digit in one and an R in the other
  have hdigit : ∀ c ∈ padded_idx n, c.isDigit = true := by
    intro c hc
    rw [padded_idx] at hc
    split_ifs at hc
    · rcases List.mem_cons.mp hc with rfl | hc
      · decide
      · exact isDigit_toDigits hc
    · exact isDigit_toDigits hc
  cases hpad : padded_idx n with
  | nil => rw [hpad] at htext; exact absurd (congrArg List.head? htext) (by simp)
  | cons c cs =>
    have hc := hdigit c (by rw [hpad]; simp)
    rw [hpad] at htext
    have hhead := congrArg List.head? htext
    simp only [List.cons_append, List.head?_cons] at hhead
    rw [show "RotateLastIdx".toList.head? = some 'R' from by decide, Option.some.injEq] at hhead
    rw [hhead] at hc
    exact absurd hc (by decide)

theorem prefix_result_path (p date suffix : String) (n : ℕ) :
    (p ++ "_").toList <+: (result_path p n date suffix).toList := by
  rw [result_path_toList]
  exact ⟨_, by simp [String.toList_append]; rfl⟩

/-- The directory after the deletion of a call, and what is returned. -/
theorem on_handle_log_path_by_id_eq {p : String} {max k : ℕ} {run : Device × List String}
    (hmax : 0 < max) (h : After p max k run) (date : String) :
    ∃ dir properties suffix,
      on_handle_log_path_by_id p date run.1
        = (⟨Function.update dir (temp_path p) (some (toString (k % max + 1) ++ "\n")), properties⟩,
            result_path p ((k % max + 1 : ℕ) : ℤ) date suffix) ∧
      (get_max_rotate_num (is_bplog p) properties).1 = max ∧
      ∀ name, (p ++ "_").toList <+: name.toList → name ≠ temp_path p →
        ((dir name).isSome ↔ (run.1.dir name).isSome ∧
          (keyword p ((k % max + 1 : ℕ) : ℤ)).toList.isPrefixOf name.toList = false) := by
  have hidx := h.idx
  by_cases hk : k = 0
  · -- no index file: nothing is deleted, and there is nothing to delete
    subst hk
    rw [if_pos rfl] at hidx
    refine ⟨run.1.dir, run.1.properties, if is_bplog p then "istp" else "log", ?_, h.rotate, ?_⟩
    · rw [on_handle_log_path_by_id, hidx, Nat.zero_mod]
      rfl
    · intro name hname htemp
      have hnone : ¬ (run.1.dir name).isSome = true := by
        rw [h.held name hname htemp]
        rintro ⟨j, hj, -⟩
        omega
      simp [hnone]
  · rw [if_neg hk] at hidx
    -- the index file holds the number of the call before
    have hatoi : atoi (toString ((k - 1) % max + 1) ++ "\n") = (((k - 1) % max + 1 : ℕ) : ℤ) :=
      atoi_toString _ (by simp)
    have hnext : (if (max : ℤ) ≤ (((k - 1) % max + 1 : ℕ) : ℤ) then (1 : ℤ)
        else (((k - 1) % max + 1 : ℕ) : ℤ) + 1) = ((k % max + 1 : ℕ) : ℤ) := by
      have hnat := next_idx hmax (k - 1)
      rw [Nat.sub_add_cancel (by omega)] at hnat
      split_ifs with hle
      · rw [if_pos (by omega)] at hnat
        omega
      · rw [if_neg (by omega)] at hnat
        omega
    refine ⟨delete_exist_path_by_id ((k % max + 1 : ℕ) : ℤ) p run.1.dir,
      (get_max_rotate_num (is_bplog p) run.1.properties).2,
      if is_bplog p then "istp" else "log", ?_, ?_, ?_⟩
    · have hrotate := h.rotate
      rw [is_bplog] at hrotate
      rw [on_handle_log_path_by_id, hidx]
      dsimp only
      rw [hatoi, hrotate, hnext]
      rfl
    · rw [get_max_rotate_num_again, h.rotate]
    · intro name hname htemp
      rw [delete_exist_path_by_id]
      split_ifs with hmatch
      · rw [hmatch]
        simp
      · rw [Bool.not_eq_true] at hmatch
        rw [hmatch]
        simp

/-- One more call keeps `After`, with one call more. -/
theorem after_rotate {p : String} {max k : ℕ} {run : Device × List String} (hmax : 0 < max)
    (h : After p max k run) (date : String) : After p max (k + 1) (rotate p run date) := by
  obtain ⟨dir, properties, suffix, hcall, hrotate, hdir⟩ := on_handle_log_path_by_id_eq hmax h date
  have hlen := h.length
  -- the list of the paths is one longer
  have hnew : ∀ j, (run.2 ++ [result_path p ((k % max + 1 : ℕ) : ℤ) date suffix])[j]?
      = if j < k then run.2[j]?
        else if j = k then some (result_path p ((k % max + 1 : ℕ) : ℤ) date suffix) else none := by
    intro j
    by_cases hj : j < k
    · rw [if_pos hj, List.getElem?_append_left (by omega)]
    · rw [if_neg hj, List.getElem?_append_right (by omega), hlen]
      by_cases hjk : j = k
      · rw [if_pos hjk, hjk, Nat.sub_self]
        rfl
      · rw [if_neg hjk, List.getElem?_eq_none (by simp only [List.length_singleton]; omega)]
  have htemp := result_path_ne_temp_path p date suffix (k % max + 1)
  rw [rotate, hcall]
  dsimp only [openfile]
  refine ⟨?_, hrotate, by rw [List.length_append, hlen]; rfl, ?_, ?_⟩
  · dsimp only
    rw [Function.update_of_ne htemp.symm, Function.update_self, if_neg (by omega),
      Nat.add_sub_cancel]
  · intro j hj
    dsimp only
    rw [hnew]
    by_cases hjk : j < k
    · rw [if_pos hjk]
      exact h.path j hjk
    · rw [if_neg hjk, if_pos (by omega), (by omega : j = k)]
      exact ⟨date, suffix, rfl⟩
  · intro name hname hne
    dsimp only
    by_cases hpath : name = result_path p ((k % max + 1 : ℕ) : ℤ) date suffix
    · -- the new file
      rw [hpath, Function.update_self]
      simp only [Option.isSome_some, true_iff]
      refine ⟨k, by omega, ?_, fun j' h1 h2 => by omega⟩
      rw [hnew, if_neg (by omega), if_pos rfl]
    -- a file that was there is still there unless the new call is for it
    rw [Function.update_of_ne hpath, Function.update_of_ne hne, hdir name hname hne,
      h.held name hname hne]
    constructor
    · rintro ⟨⟨j, hj, hget, hkept⟩, hmatch⟩
      refine ⟨j, by omega, by rw [hnew, if_pos hj, hget], fun j' h1 h2 => ?_⟩
      by_cases hlast : j' < k
      · exact hkept j' h1 hlast
      · -- the call that is made now
        obtain ⟨d, suf, hj_path⟩ := h.path j hj
        rw [hget, Option.some.injEq] at hj_path
        rw [(by omega : j' = k), ← keyword_matches_iff p d suf, ← hj_path, hmatch]
        simp
    · rintro ⟨j, hj, hget, hkept⟩
      have hjk : j < k := by
        by_contra hno
        rw [hnew, if_neg hno, if_pos (by omega), Option.some.injEq] at hget
        exact hpath hget.symm
      rw [hnew, if_pos hjk] at hget
      refine ⟨⟨j, hjk, hget, fun j' h1 h2 => hkept j' h1 (by omega)⟩, ?_⟩
      obtain ⟨d, suf, hj_path⟩ := h.path j hjk
      rw [hget, Option.some.injEq] at hj_path
      have hno := hkept k hjk (by omega)
      rw [← keyword_matches_iff p d suf, ← hj_path, Bool.not_eq_true] at hno
      exact hno

/-- **Any number of calls** leaves the index, the maximum, the paths and the files as `After`
says. -/
theorem after_rotations {p : String} {max : ℕ} {s : Device} (hmax : 0 < max)
    (hrotate : (get_max_rotate_num (is_bplog p) s.properties).1 = max)
    (hempty : ∀ name, (p ++ "_").toList <+: name.toList → s.dir name = none)
    (dates : List String) : After p max dates.length (rotations p dates s) := by
  induction dates using List.reverseRecOn with
  | nil =>
    refine ⟨?_, hrotate, rfl, fun j hj => absurd hj (Nat.not_lt_zero j), fun name hname _ => ?_⟩
    · refine hempty _ ⟨"RotateLastIdx".toList, ?_⟩
      simp [temp_path, String.toList_append]
    · rw [rotations, List.foldl_nil, hempty name hname]
      simp
  | append_singleton dates date ih =>
    rw [rotations, List.foldl_append, List.foldl_cons, List.foldl_nil, List.length_append]
    exact after_rotate hmax ih date

/-! ## Which files are lost

Within the last `max` calls the indices differ, so a file is lost only to an index that it
begins with: one of an earlier round, to a call of the last round. That needs three digits,
and enough calls that the longer index has been used.
-/

/-- A file of one of the last `max` calls is taken away by a later one. -/
def Lost (max k : ℕ) : Prop :=
  ∃ j j', k ≤ j + max ∧ j < j' ∧ j' < k ∧ Takes (j' % max + 1) (j % max + 1)

/-- Two calls less than `max` apart have different indices. -/
theorem eq_of_idx_eq {max j j' : ℕ} (hle : j ≤ j') (hlt : j' < j + max)
    (h : j' % max = j % max) : j = j' := by
  have hdvd : max ∣ j' - j := (Nat.modEq_iff_dvd' hle).mp h.symm
  have hzero := Nat.eq_zero_of_dvd_of_lt hdvd (by omega)
  omega

/-- **When a file is lost**: three digits are in use, all indices have been, and the last
index is one of two digits or more but not the last of its round. -/
theorem lost_iff {max k : ℕ} (hmax : 0 < max) :
    Lost max k ↔ 100 ≤ max ∧ max < k ∧ 10 ≤ (k - 1) % max + 1 ∧ (k - 1) % max + 1 ≠ max := by
  constructor
  · rintro ⟨j, j', hwindow, hlt, hk, htakes⟩
    have hne : j' % max + 1 ≠ j % max + 1 := by
      intro h
      have := @eq_of_idx_eq max j j' hlt.le (by omega) (by omega)
      omega
    obtain ⟨hten, hle⟩ := ten_mul_le_of_takes (by omega) (by omega) htakes hne
    have hj := Nat.mod_lt j hmax
    have hj' := Nat.mod_lt j' hmax
    -- the later call is in the next round, and so is the last one
    have hr : (j' - j) % max = j' - j := Nat.mod_eq_of_lt (by omega)
    have hround : j' % max + max = j % max + (j' - j) := by
      have hsum := Nat.add_mod_eq_ite (m := j) (n := j' - j) (k := max)
      rw [Nat.add_sub_cancel' hlt.le, hr] at hsum
      split_ifs at hsum <;> omega
    have hlast : (k - 1) % max = j' % max + (k - 1 - j') := by
      have hsum := Nat.add_mod_eq_ite (m := j') (n := k - 1 - j') (k := max)
      rw [Nat.add_sub_cancel' (by omega), Nat.mod_eq_of_lt (by omega : k - 1 - j' < max)] at hsum
      split_ifs at hsum <;> omega
    have hjj : j % max ≤ j := Nat.mod_le j max
    exact ⟨by omega, by omega, by omega, by omega⟩
  · rintro ⟨hhundred, hk, hten, hne⟩
    have hc := Nat.mod_lt (k - 1) hmax
    obtain ⟨a, ha⟩ : ∃ a, k - 1 = max * (a + 1) + (k - 1) % max := by
      have hpos : 0 < (k - 1) / max := Nat.div_pos (by omega) hmax
      refine ⟨(k - 1) / max - 1, ?_⟩
      rw [Nat.sub_add_cancel hpos]
      exact (Nat.div_add_mod (k - 1) max).symm
    -- an index of the round before, and one of the last round that it begins with
    obtain ⟨x, d, hd, hdle, hx, hxle, hdiv⟩ : ∃ x d, 10 ≤ d ∧ d ≤ (k - 1) % max + 1 ∧
        (k - 1) % max + 1 < x ∧ x ≤ max ∧ x / 10 ^ 1 = d := by
      by_cases hsmall : max / 10 ≤ (k - 1) % max + 1
      · exact ⟨max, max / 10, by omega, hsmall, by omega, le_rfl, by omega⟩
      · exact ⟨10 * ((k - 1) % max + 1), (k - 1) % max + 1, hten, le_rfl, by omega, by omega,
          by omega⟩
    have hstep : max * (a + 1) = max * a + max := by ring
    refine ⟨max * a + (x - 1), max * (a + 1) + (d - 1), by omega, by omega, by omega, ?_⟩
    rw [Nat.mul_add_mod, Nat.mul_add_mod, Nat.mod_eq_of_lt (by omega), Nat.mod_eq_of_lt (by omega),
      Nat.sub_add_cancel (by omega), Nat.sub_add_cancel (by omega)]
    exact (takes_iff (by omega) (by omega)).mpr (Or.inr ⟨hd, 1, one_pos, hdiv⟩)

/-! ## The newest files

Put together: the files of the last `max` calls are kept unless one of them is lost. The
instances at the end show both sides, one of them with a hundred files.
-/

section Newest

variable {p : String} {max : ℕ} {s : Device} {dates : List String}

/-- Where the files of the last `max` calls stand in what was returned. -/
theorem mem_newest {run : List String} {k : ℕ} (hlen : run.length = k) (name : String) :
    name ∈ run.drop (k - min k max) ↔ ∃ j < k, k ≤ j + max ∧ run[j]? = some name := by
  rw [List.mem_iff_getElem?]
  constructor
  · rintro ⟨i, hi⟩
    rw [List.getElem?_drop] at hi
    have hlt := (List.getElem?_eq_some_iff.mp hi).1
    exact ⟨k - min k max + i, by omega, by omega, hi⟩
  · rintro ⟨j, hj, hwindow, hget⟩
    refine ⟨j - (k - min k max), ?_⟩
    rw [List.getElem?_drop, Nat.add_sub_cancel' (by omega), hget]

/-- The indices of the last `max` calls are different, and among those from 1 to `max`. -/
theorem newest_indices (hmax : 0 < max) {run : Device × List String} {k : ℕ}
    (h : After p max k run) :
    ∃ indices : List ℕ, indices.Nodup ∧ (∀ i ∈ indices, 1 ≤ i ∧ i ≤ max) ∧
      List.Forall₂ (fun (i : ℕ) name => (keyword p i ++ "_").toList <+: name.toList)
        indices (run.2.drop (k - min k max)) := by
  have hlen := h.length
  -- the indices count up and start over at `max`, so the last `max` of them differ
  refine ⟨(List.range (min k max)).map fun i => (k - min k max + i) % max + 1, ?_, ?_, ?_⟩
  · refine List.Nodup.map_on ?_ List.nodup_range
    intro a ha b hb hab
    rw [List.mem_range] at ha hb
    rcases Nat.le_total a b with hle | hle
    · have := @eq_of_idx_eq max (k - min k max + a) (k - min k max + b) (by omega) (by omega)
        (by omega)
      omega
    · have := @eq_of_idx_eq max (k - min k max + b) (k - min k max + a) (by omega) (by omega)
        (by omega)
      omega
  · intro i hi
    obtain ⟨j, -, rfl⟩ := List.mem_map.mp hi
    have := Nat.mod_lt (k - min k max + j) hmax
    omega
  · rw [List.forall₂_iff_get]
    refine ⟨by rw [List.length_map, List.length_range, List.length_drop]; omega, ?_⟩
    intro i h₁ h₂
    rw [List.length_map, List.length_range] at h₁
    obtain ⟨date, suffix, hpath⟩ := h.path (k - min k max + i) (by omega)
    have hget : (run.2.drop (k - min k max)).get ⟨i, h₂⟩
        = result_path p (((k - min k max + i) % max + 1 : ℕ) : ℤ) date suffix := by
      rw [← Option.some.injEq, ← hpath, List.get_eq_getElem, ← List.getElem?_eq_getElem,
        List.getElem?_drop]
    rw [hget, List.get_eq_getElem, List.getElem_map, List.getElem_range, result_path_toList,
      String.toList_append, keyword_toList]
    exact ⟨(date ++ "." ++ suffix).toList, by simp⟩

/-- The newest files are kept unless one of them is lost. -/
theorem keeps_newest_iff_not_lost (hmax : 0 < max)
    (hrotate : (get_max_rotate_num (is_bplog p) s.properties).1 = max)
    (hempty : ∀ name, (p ++ "_").toList <+: name.toList → s.dir name = none) :
    KeepsNewest p dates s max ↔ ¬ Lost max dates.length := by
  have h := after_rotations hmax hrotate hempty dates
  have hlen := h.length
  rw [KeepsNewest, and_iff_left (newest_indices hmax h)]
  constructor
  · rintro hkeeps ⟨j, j', hwindow, hlt, hk, htakes⟩
    -- the name of the lost file would be held for another call
    obtain ⟨date, suffix, hpath⟩ := h.path j (by omega)
    have hname := prefix_result_path p date suffix (j % max + 1)
    have hne := result_path_ne_temp_path p date suffix (j % max + 1)
    have hheld := (hkeeps _ hname hne).mpr ((mem_newest hlen _).mpr ⟨j, by omega, hwindow, hpath⟩)
    obtain ⟨i, hi, hget, hkept⟩ := (h.held _ hname hne).mp hheld
    obtain ⟨date', suffix', hpath'⟩ := h.path i hi
    rw [hget, Option.some.injEq] at hpath'
    have hidx := eq_of_result_path_eq (by omega) (by omega) hpath'
    rcases Nat.lt_or_ge (i + max) dates.length with hold | hnew
    · -- an older call with this index: its file went when the index came again
      refine hkept (i + max) (by omega) hold ?_
      rw [Nat.add_mod_right]
      exact takes_self _
    · have hij : i = j := by
        rcases Nat.le_total i j with hle | hle
        · exact @eq_of_idx_eq max i j hle (by omega) (by omega)
        · exact (@eq_of_idx_eq max j i hle (by omega) (by omega)).symm
      exact hkept j' (by omega) hk (hij ▸ htakes)
  · intro hnot name hname hne
    rw [h.held name hname hne, mem_newest hlen]
    constructor
    · rintro ⟨j, hj, hget, hkept⟩
      refine ⟨j, hj, ?_, hget⟩
      by_contra hold
      refine hkept (j + max) (by omega) (by omega) ?_
      rw [Nat.add_mod_right]
      exact takes_self _
    · rintro ⟨j, hj, hwindow, hget⟩
      exact ⟨j, hj, hget, fun j' h1 h2 htakes => hnot ⟨j, j', hwindow, h1, h2, htakes⟩⟩

/-- **The newest files are kept exactly** while indices have at most two digits, until all
of them have been used, and after calls whose index has one digit or ends the round. -/
theorem keeps_newest_iff (hmax : 0 < max)
    (hrotate : (get_max_rotate_num (is_bplog p) s.properties).1 = max)
    (hempty : ∀ name, (p ++ "_").toList <+: name.toList → s.dir name = none) :
    KeepsNewest p dates s max ↔
      max < 100 ∨ dates.length ≤ max ∨ (dates.length - 1) % max + 1 < 10 ∨
        (dates.length - 1) % max + 1 = max := by
  rw [keeps_newest_iff_not_lost hmax hrotate hempty, lost_iff hmax]
  omega

end Newest

/-- An empty directory, with this many files wanted. -/
def fresh_device (rotate : String) : Device :=
  ⟨fun _ => none, fun key => if key = KEY_ROTATE_TOTAL then rotate else ""⟩

theorem keeps_newest_kernel : KeepsNewest "kernel" ["a", "b", "c"] (fresh_device "2") 2 :=
  (keeps_newest_iff (by decide) (by decide) (fun _ _ => rfl)).mpr (Or.inl (by decide))

/-- With 100 files wanted, the 110th call deletes the 100th file with the 10th. -/
theorem not_keeps_newest_hundred :
    ¬ KeepsNewest "kernel" (List.replicate 110 "") (fresh_device "100") 100 := by
  rw [keeps_newest_iff_not_lost (by decide) (by decide) (fun _ _ => rfl), not_not,
    lost_iff (by decide), List.length_replicate]
  decide

end AndroidTools.Logtool
