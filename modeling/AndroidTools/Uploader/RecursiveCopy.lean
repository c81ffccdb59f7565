/-
`FileUtils.recursiveCopy`.

A directory is copied into the destination under its own name, child by child, as they are listed
when it is its turn. It is refused if its copy would be itself, its parent or below it. When the
copy goes to an ancestor, directories do appear in the tree that is being listed: a copy is then
never deeper than what it is a copy of, so the tree does not grow deeper and the recursion ends.

The recursion has fuel, and running out of it is no result, so that the function has one for
enough fuel is a theorem (`recursive_copy_ends`). Its invariant is a bound on the depth of the
tree, which no call raises; exceptions and interrupts end a call as well, with the files as they
are then.
-/
import AndroidTools.Lib.Proc
import AndroidTools.Uploader.CopyFile

set_option autoImplicit false

namespace AndroidTools.Uploader

open AndroidTools.FileTree AndroidTools.Proc

/-! ## The calls

The function with its helpers, over a file system and an environment that decides what the
program does not: the order of the names in a directory, when the thread is interrupted, and
how the streams behave.
-/

/-- What the calls get from outside: the names in a directory, in any order, whether the
interrupt flag is set when it is looked at, and what the streams of a copy do. -/
structure Env where
  m_buffer_size : ℕ
  list_files : FileSystem → Path → List Name
  mem_list_files : ∀ fs p n, n ∈ list_files fs p ↔ fs.Exists (p ++ [n])
  interrupted : ℕ → Bool
  streams : ℕ → CopyRun

/-- The file system, and how often the flag was looked at and a file copied. -/
structure CopyState where
  fs : FileSystem
  checks : ℕ
  copies : ℕ

abbrev CopyProc := Proc CopyException CopyState

/-- `checkCopyInterrupt`, which raises at the checks that are interrupted. -/
def check_copy_interrupt (env : Env) : CopyProc Unit := do
  let st ← state
  modify fun st => { st with checks := st.checks + 1 }
  if env.interrupted st.checks then raise .interrupted else pure ()

/-- `mkdir`, which also counts as done where the path is there. -/
def mkdir (env : Env) (path : Path) : CopyProc Bool := do
  check_copy_interrupt env
  let st ← state
  if st.fs.Exists path then return true
  else
    modify fun st => { st with fs := st.fs.mkdir path }
    let st ← state
    if st.fs.Exists path then return true
    else
      check_copy_interrupt env
      -- the parents may be missing
      modify fun st => { st with fs := st.fs.mkdirs path }
      let st ← state
      check_copy_interrupt env
      return decide (st.fs.Exists path)

/-- `copyFile`, with the streams of this copy. -/
def copy_one (env : Env) (from_file to_file : Path) : CopyProc Bool := fun st =>
  let (result, fs) := copy_file env.m_buffer_size st.fs from_file to_file (env.streams st.copies)
  some (result, { st with fs := fs, copies := st.copies + 1 })

/-- `getName`; the root has none. -/
def get_name (p : Path) : Path := p.getLast?.toList

/-- `getFolderPath` of an absolute path. -/
def get_folder_path (p : Path) : Path := p.dropLast

/-- What keeps a directory from being copied to `df`. The root has no parent. -/
def refuse (src df : Path) : CopyProc Bool :=
  if text src = text df then return true
  else if src = [] then raise .null_pointer
  else return decide (text src.dropLast = text df) || (text src ++ ['/']).isPrefixOf (text df)

/-- If the destination does not exist, its folder is created. -/
def prepare_folder (env : Env) (des : Path) : CopyProc Bool := do
  let st ← state
  if st.fs.Exists des then return true else mkdir env (get_folder_path des)

/-- The part for a file. -/
def copy_single (env : Env) (src des : Path) : CopyProc Bool := do
  let _ ← prepare_folder env des
  let st ← state
  if st.fs.IsDirectory des then copy_one env src (des ++ get_name src)
  else copy_one env src des

/-- `recursiveCopy`, with fuel for its calls of itself. -/
def recursive_copy (env : Env) : ℕ → Path → Path → CopyProc Bool
  | 0, _, _ => diverge
  | fuel + 1, src, des => do
    check_copy_interrupt env
    let st ← state
    if st.fs.IsDirectory src then
      -- the target is a file
      if st.fs.Exists des ∧ ¬ st.fs.IsDirectory des then return false
      else
        let df := des ++ get_name src
        let refused ← refuse src df
        if refused then return false
        else
          let _ ← mkdir env df
          let st ← state
          -- listed after the folder has been made, with what is there by then
          (env.list_files st.fs src).foldlM (fun flag child => do
            let copied ← recursive_copy env fuel (src ++ [child]) df
            return flag && copied) true
    else copy_single env src des

/-! ## The parts end

All parts but the recursion itself end, by returning or with an exception. They keep any
property of the file system that is kept when a directory is created and when a file is
copied; the recursion uses this with a bound on the depth.
-/

section Parts

variable {env : Env} {P : FileSystem → Prop} {st : CopyState}

theorem check_copy_interrupt_ends (h : P st.fs) :
    EndsAt (fun st => P st.fs) (check_copy_interrupt env) st := by
  refine endsAt_state ?_
  refine (endsAt_modify h).bind fun _ t ht => ?_
  split_ifs
  · exact endsAt_raise _ ht
  · exact endsAt_pure _ ht

theorem mkdir_ends {path : Path} (hmkdir : ∀ fs, P fs → P (fs.mkdir path))
    (hmkdirs : ∀ fs, P fs → P (fs.mkdirs path)) (h : P st.fs) :
    EndsAt (fun st => P st.fs) (mkdir env path) st := by
  refine (check_copy_interrupt_ends h).bind fun _ t ht => ?_
  refine endsAt_state ?_
  split_ifs
  · exact endsAt_pure _ ht
  · refine (endsAt_modify (hmkdir _ ht)).bind fun _ t ht => ?_
    refine endsAt_state ?_
    split_ifs
    · exact endsAt_pure _ ht
    · refine (check_copy_interrupt_ends ht).bind fun _ t ht => ?_
      refine (endsAt_modify (hmkdirs _ ht)).bind fun _ t ht => ?_
      refine endsAt_state ?_
      exact (check_copy_interrupt_ends ht).bind fun _ t ht => endsAt_pure _ ht

theorem copy_one_ends {from_file to_file : Path}
    (hcopy : ∀ fs run, P fs → P (copy_file env.m_buffer_size fs from_file to_file run).2)
    (h : P st.fs) : EndsAt (fun st => P st.fs) (copy_one env from_file to_file) st :=
  ⟨_, _, rfl, hcopy _ _ h⟩

/-- A directory that is not refused is not copied to itself or below. -/
theorem refuse_cases (src df : Path) (st : CopyState) :
    (∃ r, refuse src df st = some (r, st) ∧ r ≠ .ok false) ∨
      refuse src df st = some (.ok false, st) ∧ src ≠ [] ∧ ¬ src <+: df := by
  rw [refuse]
  split_ifs with hsame hroot
  · exact .inl ⟨.ok true, rfl, by decide⟩
  · exact .inl ⟨.error .null_pointer, rfl, fun h => nomatch h⟩
  · cases hguard : decide (text src.dropLast = text df)
        || (text src ++ ['/']).isPrefixOf (text df) with
    | true => exact .inl ⟨.ok true, rfl, by decide⟩
    | false =>
      refine .inr ⟨rfl, hroot, fun hpre => ?_⟩
      have hne : src ≠ df := fun h => hsame (congrArg text h)
      have hbelow := List.isPrefixOf_iff_prefix.mpr (text_below hroot hpre hne)
      rw [hbelow, Bool.or_true] at hguard
      cases hguard

theorem copy_single_ends {src des : Path}
    (hmkdir : ∀ fs, P fs → P (fs.mkdir (get_folder_path des)))
    (hmkdirs : ∀ fs, P fs → P (fs.mkdirs (get_folder_path des)))
    (hcopy : ∀ fs run to_file, to_file = des ∨ to_file = des ++ get_name src → P fs →
      P (copy_file env.m_buffer_size fs src to_file run).2)
    (h : P st.fs) : EndsAt (fun st => P st.fs) (copy_single env src des) st := by
  have hprepare : EndsAt (fun st => P st.fs) (prepare_folder env des) st := by
    refine endsAt_state ?_
    split_ifs
    · exact endsAt_pure _ h
    · exact mkdir_ends hmkdir hmkdirs h
  refine hprepare.bind fun _ t ht => ?_
  refine endsAt_state ?_
  split_ifs
  · exact copy_one_ends (fun fs run => hcopy fs run _ (.inr rfl)) ht
  · exact copy_one_ends (fun fs run => hcopy fs run _ (.inl rfl)) ht

end Parts

/-! ## The recursion

A call ends when the calls for its children do, and a child is deeper by one. As what a call
creates is no deeper than what it copies, the depth that is left goes down with each call.
-/

/-- The copy `df` of `src` is no deeper than `src`, or apart from `top`. -/
def Aside (top src df : Path) : Prop := df.length ≤ src.length ∨ ∀ q, ¬ top <+: df ++ q

/-- A directory that is not copied below itself is copied aside: above, or apart. -/
theorem aside_of_not_below {top df : Path} (h : ¬ top <+: df) : Aside top top df := by
  by_cases habove : df <+: top
  · exact .inl habove.length_le
  · refine .inr fun q hq => ?_
    rcases List.prefix_or_prefix_of_prefix hq (List.prefix_append df q) with hpre | hpre
    · exact h hpre
    · exact habove hpre

/-- A child stands to the copy of its directory as the directory did to its own. -/
theorem Aside.child {top src df : Path} (h : Aside top src df) (child : Name) :
    Aside top (src ++ [child]) (df ++ [child]) := by
  rcases h with h | h
  · left
    rw [List.length_append, List.length_append]
    exact Nat.add_le_add_right h _
  · right
    intro q
    rw [List.append_assoc]
    exact h _

theorem get_name_child (p : Path) (child : Name) : get_name (p ++ [child]) = [child] := by
  rw [get_name, List.getLast?_concat]
  rfl

section Recursion

variable {env : Env} {top : Path} {depth : ℕ}

/-- A call ends if the calls for the children do. -/
theorem recursive_copy_step {fuel : ℕ} {src des : Path} {st : CopyState}
    (hfit : top <+: des ++ get_name src → (des ++ get_name src).length ≤ depth)
    (hchild : src ≠ [] → ¬ src <+: des ++ get_name src → ∀ child (t u : CopyState),
      t.fs.DepthBelow top depth → t.fs.Exists (src ++ [child]) → u.fs.DepthBelow top depth →
      EndsAt (fun st => st.fs.DepthBelow top depth)
        (recursive_copy env fuel (src ++ [child]) (des ++ get_name src)) u)
    (h : st.fs.DepthBelow top depth) :
    EndsAt (fun st => st.fs.DepthBelow top depth) (recursive_copy env (fuel + 1) src des) st := by
  rw [recursive_copy]
  refine (check_copy_interrupt_ends (P := fun fs => fs.DepthBelow top depth) h).bind
    fun _ t ht => ?_
  refine endsAt_state ?_
  by_cases hdir : t.fs.IsDirectory src
  · rw [if_pos hdir]
    by_cases hfile : t.fs.Exists des ∧ ¬ t.fs.IsDirectory des
    · rw [if_pos hfile]
      exact endsAt_pure _ ht
    · rw [if_neg hfile]
      rcases refuse_cases src (des ++ get_name src) t with ⟨r, hr, hne⟩ | ⟨hr, hroot, hbelow⟩
      · -- refused, or no parent
        cases r with
        | error e => exact ⟨.error e, t, bind_of_error hr _, ht⟩
        | ok refused =>
          cases refused with
          | false => exact absurd rfl hne
          | true => exact ⟨.ok false, t, bind_of_ok hr _, ht⟩
      · -- the copies of the children keep the bound in turn
        have hrest : EndsAt (fun st => st.fs.DepthBelow top depth) (do
            let _ ← mkdir env (des ++ get_name src)
            let st ← state
            (env.list_files st.fs src).foldlM (fun flag child => do
              let copied ← recursive_copy env fuel (src ++ [child]) (des ++ get_name src)
              return flag && copied) true) t := by
          refine (mkdir_ends (P := fun fs => fs.DepthBelow top depth)
            (fun fs => FileSystem.DepthBelow.mkdir hfit)
            (fun fs => FileSystem.DepthBelow.mkdirs hfit) ht).bind fun _ u hu => ?_
          refine endsAt_state (endsAt_foldlM _ (fun child hin flag v hv => ?_) hu)
          have hex := (env.mem_list_files u.fs src child).mp hin
          exact (hchild hroot hbelow child u v hu hex hv).bind fun _ w hw => endsAt_pure _ hw
        obtain ⟨r, u, hr', hu⟩ := hrest
        exact ⟨r, u, (bind_of_ok hr _).trans hr', hu⟩
  · rw [if_neg hdir]
    -- the folder and the copies are prefixes of the path that fits
    have hprefix : ∀ p, p <+: des ++ get_name src → top <+: p → p.length ≤ depth :=
      fun p hp htop => hp.length_le.trans (hfit (htop.trans hp))
    have hfolder := hprefix _ ((List.dropLast_prefix des).trans (List.prefix_append _ _))
    refine copy_single_ends (P := fun fs => fs.DepthBelow top depth)
      (fun fs => FileSystem.DepthBelow.mkdir hfolder)
      (fun fs => FileSystem.DepthBelow.mkdirs hfolder) ?_ ht
    intro fs run to_file hto hfs q hq htop
    rcases exists_of_copy_file hq with hq | rfl
    · exact hfs q hq htop
    · rcases hto with rfl | rfl
      · exact hprefix _ (List.prefix_append _ _) htop
      · exact hfit htop

/-- A call below `top` ends: the depth that is left is its fuel. -/
theorem recursive_copy_below {fuel : ℕ} {src des : Path} {st : CopyState} (hsrc : top <+: src)
    (hlen : src.length ≤ depth) (hfuel : depth < src.length + fuel)
    (haside : Aside top src (des ++ get_name src)) (h : st.fs.DepthBelow top depth) :
    EndsAt (fun st => st.fs.DepthBelow top depth) (recursive_copy env fuel src des) st := by
  induction fuel generalizing src des st with
  | zero => exact absurd hfuel (by omega)
  | succ fuel ih =>
    refine recursive_copy_step ?_ (fun _ _ child t u ht hex hu => ?_) h
    · intro htop
      rcases haside with hle | hapart
      · exact hle.trans hlen
      · exact absurd (by rw [List.append_nil]; exact htop) (hapart [])
    · have htop : top <+: src ++ [child] := hsrc.trans (List.prefix_append _ _)
      refine ih htop (ht _ hex htop) ?_ ?_ hu
      · rw [List.length_append, List.length_singleton]
        omega
      · rw [get_name_child]
        exact haside.child child

/-- Every call ends, given enough fuel. -/
theorem recursive_copy_ends (env : Env) (src des : Path) (st : CopyState) :
    ∃ fuel r, recursive_copy env fuel src des st = some r := by
  obtain ⟨depth, hleast, hdepth⟩ := st.fs.exists_depth src (des.length + src.length + 1)
  have hname : (get_name src).length ≤ 1 := by
    rw [get_name]
    cases src.getLast? <;> simp
  have hends : EndsAt (fun st => st.fs.DepthBelow src depth)
      (recursive_copy env (depth + 1) src des) st := by
    -- no copy gets deeper than the tree and the destination are now
    refine recursive_copy_step (fun _ => ?_) (fun _ hbelow child t u ht hex hu => ?_) hdepth
    · rw [List.length_append]
      omega
    · have htop : src <+: src ++ [child] := List.prefix_append _ _
      refine recursive_copy_below htop (ht _ hex htop) ?_ ?_ hu
      · rw [List.length_append, List.length_singleton]
        omega
      · rw [get_name_child]
        exact (aside_of_not_below hbelow).child child
  obtain ⟨r, t, hr, -⟩ := hends
  exact ⟨depth + 1, (r, t), hr⟩

/-- More fuel changes no result. -/
theorem recursive_copy_extends (env : Env) (fuel : ℕ) (src des : Path) :
    Extends (recursive_copy env fuel src des) (recursive_copy env (fuel + 1) src des) := by
  induction fuel generalizing src des with
  | zero => exact fun s r h => nomatch h
  | succ fuel ih =>
    rw [recursive_copy, recursive_copy]
    refine (Extends.refl _).bind fun _ => (Extends.refl _).bind fun st => ?_
    split_ifs
    · exact Extends.refl _
    · refine (Extends.refl _).bind fun refused => ?_
      split_ifs
      · exact Extends.refl _
      · refine (Extends.refl _).bind fun _ => (Extends.refl _).bind fun st => ?_
        exact Extends.foldlM (fun flag child => (ih _ _).bind fun _ => Extends.refl _) _ _
    · exact Extends.refl _

/-- With enough fuel a call has one result. -/
theorem recursive_copy_result (env : Env) (src des : Path) (st : CopyState) :
    ∃ r, ∃ fuel, ∀ more, recursive_copy env (fuel + more) src des st = some r := by
  obtain ⟨fuel, r, hr⟩ := recursive_copy_ends env src des st
  refine ⟨r, fuel, fun more => ?_⟩
  induction more with
  | zero => exact hr
  | succ more ih => exact recursive_copy_extends env (fuel + more) src des st r ih

/-- A directory is not copied into itself: nothing is created. -/
theorem recursive_copy_into_itself {src des : Path} {st : CopyState}
    (hdir : st.fs.IsDirectory src) (hin : src <+: des) {fuel : ℕ}
    {r : Except CopyException Bool × CopyState}
    (h : recursive_copy env fuel src des st = some r) : r.2.fs = st.fs := by
  cases fuel with
  | zero => cases h
  | succ fuel =>
    obtain ⟨a, t, hcheck, hsame⟩ : EndsAt (fun t => t.fs = st.fs) (check_copy_interrupt env) st :=
      check_copy_interrupt_ends (P := fun fs => fs = st.fs) rfl
    rw [recursive_copy] at h
    cases a with
    | error e =>
      rw [bind_of_error hcheck] at h
      cases h
      exact hsame
    | ok a =>
      rw [bind_of_ok hcheck, bind_of_ok (show state t = some (.ok t, t) from rfl), hsame,
        if_pos hdir] at h
      by_cases hfile : st.fs.Exists des ∧ ¬ st.fs.IsDirectory des
      · rw [if_pos hfile] at h
        cases h
        exact hsame
      · rw [if_neg hfile] at h
        -- a folder below its source is refused
        rcases refuse_cases src (des ++ get_name src) t with ⟨b, hb, hne⟩ | ⟨-, -, hbelow⟩
        · cases b with
          | error e =>
            rw [bind_of_error hb] at h
            cases h
            exact hsame
          | ok refused =>
            cases refused with
            | false => exact absurd rfl hne
            | true =>
              rw [bind_of_ok hb] at h
              cases h
              exact hsame
        · exact absurd (hin.trans (List.prefix_append _ _)) hbelow

end Recursion

/-- **A call makes finitely many calls and has a result, and a copy into the source creates
nothing.** -/
theorem recursive_copy_terminates (env : Env) (src des : Path) (st : CopyState) :
    (∃ r, ∃ fuel, ∀ more, recursive_copy env (fuel + more) src des st = some r) ∧
      (st.fs.IsDirectory src → src <+: des → ∀ fuel r,
        recursive_copy env fuel src des st = some r → r.2.fs = st.fs) :=
  ⟨recursive_copy_result env src des st,
    fun hdir hin _ _ h => recursive_copy_into_itself hdir hin h⟩

/-- An environment in which names are as they were created, and nothing is interrupted. -/
def plain_env : Env where
  m_buffer_size := default_buffer_size
  list_files := FileSystem.children
  mem_list_files _ _ _ := FileSystem.mem_children
  interrupted _ := false
  streams _ := ⟨false, [], none, none⟩

/-- A file system with the directory `/a/b/a`. -/
def nested : FileSystem := FileSystem.empty.mkdirs [name_a, name_b, name_a]

/-- Copied to `/`, it becomes the directory `/a` above it and the copy ends. The directory `/a`
copied to `/a/b` ends as well, and the files are what they were. -/
theorem nested_copy_terminates :
    (∃ r, ∃ fuel, ∀ more, recursive_copy plain_env (fuel + more) [name_a, name_b, name_a] []
        ⟨nested, 0, 0⟩ = some r) ∧
      ∃ r, ∃ fuel, (∀ more, recursive_copy plain_env (fuel + more) [name_a] [name_a, name_b]
        ⟨nested, 0, 0⟩ = some r) ∧ r.2.fs = nested := by
  have habove := recursive_copy_terminates plain_env [name_a, name_b, name_a] [] ⟨nested, 0, 0⟩
  have hinside := recursive_copy_terminates plain_env [name_a] [name_a, name_b] ⟨nested, 0, 0⟩
  have hdir : nested.IsDirectory [name_a] := by decide
  have hbelow : [name_a] <+: [name_a, name_b] := ⟨[name_b], rfl⟩
  obtain ⟨r, fuel, hr⟩ := hinside.1
  exact ⟨habove.1, r, fuel, hr, hinside.2 hdir hbelow (fuel + 0) r (hr 0)⟩

end AndroidTools.Uploader
