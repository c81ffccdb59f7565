/-
Directory trees and a walk that deletes.

The walk asks of every name whether it is old. An old entry is deleted, a
directory with all below it; a directory that is not old is entered. Two things
break the walk off wherever it stands: a name the question raises an exception
for, and a directory whose contents cannot be listed when they are needed, to
enter it or to empty it. What was deleted until then stays deleted, and the log
keeps it.

What the walk does is then said of the tree alone, without the walk. `Locked` and
`Stops` are the entries that end it, `Reaches` says which entries it comes to and
`Removes` what goes with one of them. `purge_logs` is the connection, one case for
each kind of entry. `removes_good_iff` is the rule for a property of names that is
wanted on every deleted path: it is enough to look at the entry that goes, since
the paths of all that goes with it begin with its own.
-/
import AndroidTools.Lib.Run

set_option autoImplicit false

namespace AndroidTools.DirTree

open AndroidTools.Run

variable {ν : Type*}

/-- A file, a directory with what is in it, or a directory whose contents cannot be listed. -/
inductive Entry (ν : Type*) where
  | file (name : ν)
  | dir (name : ν) (children : List (Entry ν))
  | unlisted (name : ν)

namespace Entry

def name : Entry ν → ν
  | file name => name
  | dir name _ => name
  | unlisted name => name

def is_directory : Entry ν → Bool
  | file _ => false
  | dir _ _ => true
  | unlisted _ => true

end Entry

/-- The names from below the root to an entry, the entry's own name last. -/
abbrev Path (ν : Type*) := List ν

/-! ## The walk

Both recursions work on a log of what was deleted and may leave early with the log as it is
then. The two functions over lists are only there because a tree holds lists of trees; the
lemmas turn them into the library's loop over a list at once.
-/

mutual

/-- The deletion of an entry of the directory at `path`, what is in a directory before the
directory. -/
def delete_all (path : Path ν) : Entry ν → List (Path ν) → Run (List (Path ν))
  | .file name, log => .done (log ++ [path ++ [name]])
  | .dir name children, log =>
    (delete_each (path ++ [name]) children log).bind fun log => .done (log ++ [path ++ [name]])
  | .unlisted _, log => .exit log

def delete_each (path : Path ν) : List (Entry ν) → List (Path ν) → Run (List (Path ν))
  | [], log => .done log
  | e :: es, log => (delete_all path e log).bind (delete_each path es)

end

section Walk

variable (old : ν → Option Bool)

mutual

/-- The walk over an entry of the directory at `path`. -/
def purge (path : Path ν) : Entry ν → List (Path ν) → Run (List (Path ν))
  | .file name, log =>
    match old name with
    | none => .exit log
    | some true => delete_all path (.file name) log
    | some false => .done log
  | .dir name children, log =>
    match old name with
    | none => .exit log
    | some true => delete_all path (.dir name children) log
    | some false => purge_each (path ++ [name]) children log
  -- to be deleted or to be entered, its contents are asked for
  | .unlisted _, log => .exit log

def purge_each (path : Path ν) : List (Entry ν) → List (Path ν) → Run (List (Path ν))
  | [], log => .done log
  | e :: es, log => (purge path e log).bind (purge_each path es)

end

end Walk

/-! ## What the tree says of it

None of these predicates runs anything. `Locked` and `Removes` are about deletion alone and
do not look at names; `Stops` and `Reaches` take the names that raise and the names that are
taken as two sets, so they can be read without knowing how a name is judged. `Judges` is the
only tie between the sets and the question the walk asks.
-/

/-- A directory that cannot be emptied, because it or one below it cannot be listed. -/
inductive Locked : Entry ν → Prop where
  | unlisted (name : ν) : Locked (.unlisted name)
  | inside {name : ν} {children : List (Entry ν)} {e : Entry ν} :
      e ∈ children → Locked e → Locked (.dir name children)

/-- What goes with an entry of the directory at `path`: a file itself, a directory if it can be
emptied, and of its contents what comes before a directory that cannot. -/
inductive Removes : Path ν → Entry ν → Path ν → Prop where
  | file (path : Path ν) (name : ν) : Removes path (.file name) (path ++ [name])
  | dir (path : Path ν) {name : ν} {children : List (Entry ν)} :
      ¬ Locked (.dir name children) → Removes path (.dir name children) (path ++ [name])
  | inside {path p : Path ν} {name : ν} {before after : List (Entry ν)} {e : Entry ν} :
      (∀ b ∈ before, ¬ Locked b) → Removes (path ++ [name]) e p →
      Removes path (.dir name (before ++ e :: after)) p

section Tree

variable (raises taken : ν → Prop)

/-- An entry that ends the walk, by its name, by what is to be deleted with it, or by something
in it that does. -/
inductive Stops : Entry ν → Prop where
  | name {e : Entry ν} : raises e.name → Stops e
  | unlisted (name : ν) : Stops (.unlisted name)
  | taken {e : Entry ν} : taken e.name → Locked e → Stops e
  | inside {name : ν} {children : List (Entry ν)} {e : Entry ν} :
      ¬ taken name → e ∈ children → Stops e → Stops (.dir name children)

/-- `Reaches path e p e'`: from the entry `e` of the directory at `path` the walk comes to `e'`,
an entry of the directory at `p`. The directories between are neither taken nor raise, and
nothing before it ends the walk. -/
inductive Reaches : Path ν → Entry ν → Path ν → Entry ν → Prop where
  | here (path : Path ν) (e : Entry ν) : Reaches path e path e
  | inside {path p : Path ν} {name : ν} {before after : List (Entry ν)} {e e' : Entry ν} :
      ¬ raises name → ¬ taken name → (∀ b ∈ before, ¬ Stops raises taken b) →
      Reaches (path ++ [name]) e p e' →
      Reaches path (.dir name (before ++ e :: after)) p e'

/-- What the walk asks of a name, taken apart into the names that raise and the names that are
taken. -/
structure Judges (old : ν → Option Bool) : Prop where
  raises_iff : ∀ name, old name = none ↔ raises name
  taken_iff : ∀ name, old name = some true ↔ taken name

end Tree

section Judges

variable {raises taken : ν → Prop} {old : ν → Option Bool} {name : ν}

theorem Judges.not_raises (h : Judges raises taken old) (hold : old name ≠ none) :
    ¬ raises name := fun hraises => hold ((h.raises_iff name).mpr hraises)

theorem Judges.not_taken (h : Judges raises taken old) (hold : old name ≠ some true) :
    ¬ taken name := fun htaken => hold ((h.taken_iff name).mpr htaken)

end Judges

/-! ## Deletion

A deletion leaves early exactly at a locked entry, and what it has deleted until then is
what `Removes` says. The induction is the one over the tree, one case for each kind of
entry.
-/

theorem delete_each_eq (path : Path ν) (es : List (Entry ν)) (log : List (Path ν)) :
    delete_each path es log = each (fun log e => delete_all path e log) es log := by
  induction es generalizing log with
  | nil =>
    rw [delete_each]
    rfl
  | cons e es ih =>
    rw [delete_each, each_cons, funext ih]

theorem locked_dir_iff {name : ν} {children : List (Entry ν)} :
    Locked (.dir name children) ↔ ∃ e ∈ children, Locked e := by
  constructor
  · rintro (_ | ⟨hmem, he⟩)
    exact ⟨_, hmem, he⟩
  · rintro ⟨e, hmem, he⟩
    exact .inside hmem he

theorem removes_dir_iff {path p : Path ν} {name : ν} {children : List (Entry ν)} :
    Removes path (.dir name children) p ↔
      (∃ before e after, children = before ++ e :: after ∧ (∀ b ∈ before, ¬ Locked b) ∧
        Removes (path ++ [name]) e p) ∨
      ¬ Locked (.dir name children) ∧ p ∈ [path ++ [name]] := by
  constructor
  · rintro (_ | ⟨-, hfree⟩ | ⟨hbefore, he⟩)
    · exact Or.inr ⟨hfree, List.mem_singleton_self _⟩
    · exact Or.inl ⟨_, _, _, rfl, hbefore, he⟩
  · rintro (⟨before, e, after, rfl, hbefore, he⟩ | ⟨hfree, hp⟩)
    · exact .inside hbefore he
    · rw [List.mem_singleton.mp hp]
      exact .dir path hfree

/-- The deletion of an entry leaves early if the entry is locked, and deletes what goes with
it. -/
theorem delete_all_logs (path : Path ν) : ∀ e : Entry ν,
    Logs (delete_all path e) (Locked e) (Removes path e)
  | .file name => by
    have hrun : delete_all path (.file name) = fun log => .done (log ++ [path ++ [name]]) := by
      funext log
      rw [delete_all]
    rw [hrun]
    refine (Logs.append [path ++ [name]]).congr ⟨False.elim, nofun⟩ fun p => ?_
    rw [List.mem_singleton]
    constructor
    · rintro rfl
      exact .file path name
    · rintro ⟨⟩
      rfl
  | .unlisted name => by
    have hrun : delete_all path (.unlisted name) = .exit := by
      funext log
      rw [delete_all]
    rw [hrun]
    exact Logs.leave.congr (iff_of_true trivial (.unlisted name)) fun p => ⟨False.elim, nofun⟩
  | .dir name children => by
    have hrun : delete_all path (.dir name children) = fun log =>
        (each (fun log e => delete_all (path ++ [name]) e log) children log).bind
          fun log => .done (log ++ [path ++ [name]]) := by
      funext log
      rw [delete_all, delete_each_eq]
    rw [hrun]
    have hchildren := Logs.each fun e (_ : e ∈ children) => delete_all_logs (path ++ [name]) e
    refine (hchildren.bind (Logs.append [path ++ [name]])).congr ?_ fun p => ?_
    · rw [or_false, locked_dir_iff]
    · rw [removes_dir_iff, locked_dir_iff]

/-! ## The walk over a tree

The same for the walk that judges the names. An entry raises, is taken, or is entered, and
each of the three cases has a lemma on what the tree says in it; the proof of `purge_logs`
only puts them together with the branch of the code.
-/

section Purge

variable {raises taken : ν → Prop} {old : ν → Option Bool}

theorem purge_each_eq (path : Path ν) (es : List (Entry ν)) (log : List (Path ν)) :
    purge_each old path es log = each (fun log e => purge old path e log) es log := by
  induction es generalizing log with
  | nil =>
    rw [purge_each]
    rfl
  | cons e es ih =>
    rw [purge_each, each_cons, funext ih]

/-- What the walk deletes from an entry on: what goes with the entries it reaches and takes. -/
def Deletes (raises taken : ν → Prop) (path : Path ν) (e : Entry ν) (q : Path ν) : Prop :=
  ∃ p e', Reaches raises taken path e p e' ∧ taken e'.name ∧ Removes p e' q

theorem not_stops_of_file {name : ν} (hraises : ¬ raises name) :
    ¬ Stops raises taken (.file name) := by
  rintro (h | _ | ⟨-, hlocked⟩ | _)
  · exact hraises h
  · cases hlocked

/-- An entry that is taken is not entered, so what the walk deletes from it on is what goes with
it. -/
theorem deletes_of_taken {path : Path ν} {e : Entry ν} (htaken : taken e.name) (q : Path ν) :
    Deletes raises taken path e q ↔ Removes path e q := by
  constructor
  · rintro ⟨p, e', hreach, -, hq⟩
    cases hreach with
    | here => exact hq
    | inside _ hnot => exact absurd htaken hnot
  · exact fun hq => ⟨path, e, .here path e, htaken, hq⟩

theorem reaches_dir_iff {path p : Path ν} {name : ν} {children : List (Entry ν)} {e' : Entry ν} :
    Reaches raises taken path (.dir name children) p e' ↔
      (p = path ∧ e' = .dir name children) ∨ ¬ raises name ∧ ¬ taken name ∧
        ∃ before e after, children = before ++ e :: after ∧
          (∀ b ∈ before, ¬ Stops raises taken b) ∧
          Reaches raises taken (path ++ [name]) e p e' := by
  constructor
  · intro hreach
    cases hreach with
    | here => exact Or.inl ⟨rfl, rfl⟩
    | inside hraises htaken hbefore hreach =>
      exact Or.inr ⟨hraises, htaken, _, _, _, rfl, hbefore, hreach⟩
  · rintro (⟨rfl, rfl⟩ | ⟨hraises, htaken, before, e, after, rfl, hbefore, hreach⟩)
    · exact .here p _
    · exact .inside hraises htaken hbefore hreach

theorem deletes_dir_iff {path : Path ν} {name : ν} {children : List (Entry ν)}
    (hraises : ¬ raises name) (htaken : ¬ taken name) (q : Path ν) :
    Deletes raises taken path (.dir name children) q ↔
      ∃ before e after, children = before ++ e :: after ∧
        (∀ b ∈ before, ¬ Stops raises taken b) ∧ Deletes raises taken (path ++ [name]) e q := by
  constructor
  · rintro ⟨p, e', hreach, he', hq⟩
    rcases reaches_dir_iff.mp hreach with ⟨rfl, rfl⟩ | ⟨-, -, before, e, after, hcut, hbefore, hreach⟩
    · exact absurd he' htaken
    · exact ⟨before, e, after, hcut, hbefore, p, e', hreach, he', hq⟩
  · rintro ⟨before, e, after, hcut, hbefore, p, e', hreach, he', hq⟩
    exact ⟨p, e', reaches_dir_iff.mpr (Or.inr ⟨hraises, htaken, before, e, after, hcut, hbefore,
      hreach⟩), he', hq⟩

theorem stops_dir_iff {name : ν} {children : List (Entry ν)} (hraises : ¬ raises name)
    (htaken : ¬ taken name) :
    Stops raises taken (.dir name children) ↔ ∃ e ∈ children, Stops raises taken e := by
  constructor
  · rintro (h | _ | ⟨h, -⟩ | ⟨-, hmem, he⟩)
    · exact absurd h hraises
    · exact absurd h htaken
    · exact ⟨_, hmem, he⟩
  · rintro ⟨e, hmem, he⟩
    exact .inside htaken hmem he

/-- An entry whose name raises is not looked into and not deleted. -/
theorem not_deletes_of_raises {path : Path ν} {e : Entry ν} (hraises : raises e.name)
    (htaken : ¬ taken e.name) (q : Path ν) : ¬ Deletes raises taken path e q := by
  rintro ⟨p, e', hreach, he', -⟩
  cases hreach with
  | here => exact htaken he'
  | inside hnot => exact hnot hraises

/-- An entry whose name raises ends the walk, and nothing of it is deleted. -/
theorem purge_logs_of_none (h : Judges raises taken old) (path : Path ν) {e : Entry ν}
    (hold : old e.name = none) :
    Logs (purge old path e) (Stops raises taken e) (Deletes raises taken path e) := by
  have hraises : raises e.name := (h.raises_iff e.name).mp hold
  have htaken : ¬ taken e.name := h.not_taken (by rw [hold]; nofun)
  have hrun : purge old path e = .exit := by
    funext log
    cases e with
    | file name =>
      rw [Entry.name] at hold
      rw [purge, hold]
    | dir name children =>
      rw [Entry.name] at hold
      rw [purge, hold]
    | unlisted name => rw [purge]
  rw [hrun]
  exact Logs.leave.congr (iff_of_true trivial (.name hraises)) fun q =>
    iff_of_false id (not_deletes_of_raises hraises htaken q)

/-- **The walk does what the tree says.** It ends early at an entry that stops, and deletes what
goes with the taken entries it reaches. -/
theorem purge_logs (h : Judges raises taken old) (path : Path ν) : ∀ e : Entry ν,
    Logs (purge old path e) (Stops raises taken e) (Deletes raises taken path e)
  | .file name => by
    cases hold : old name with
    | none => exact purge_logs_of_none h path hold
    | some b =>
      have hraises : ¬ raises name := h.not_raises (by rw [hold]; exact Option.some_ne_none _)
      cases b with
      | true =>
        have htaken : taken (Entry.file name).name := (h.taken_iff name).mp hold
        have hrun : purge old path (.file name) = delete_all path (.file name) := by
          funext log
          rw [purge, hold]
        rw [hrun]
        exact (delete_all_logs path (.file name)).congr
          (iff_of_false nofun (not_stops_of_file hraises))
          fun q => (deletes_of_taken htaken q).symm
      | false =>
        have htaken : ¬ taken name := h.not_taken (by rw [hold]; decide)
        have hrun : purge old path (.file name) = .done := by
          funext log
          rw [purge, hold]
        rw [hrun]
        refine Logs.skip.congr (iff_of_false id (not_stops_of_file hraises)) fun q =>
          iff_of_false id ?_
        rintro ⟨p, e', ⟨⟩, he', -⟩
        exact htaken he'
  | .unlisted name => by
    have hrun : purge old path (.unlisted name) = .exit := by
      funext log
      rw [purge]
    rw [hrun]
    refine Logs.leave.congr (iff_of_true trivial (.unlisted name)) fun q => iff_of_false id ?_
    rintro ⟨p, e', ⟨⟩, -, ⟨⟩⟩
  | .dir name children => by
    cases hold : old name with
    | none => exact purge_logs_of_none h path hold
    | some b =>
      have hraises : ¬ raises name := h.not_raises (by rw [hold]; exact Option.some_ne_none _)
      cases b with
      | true =>
        have htaken : taken (Entry.dir name children).name := (h.taken_iff name).mp hold
        have hrun : purge old path (.dir name children) = delete_all path (.dir name children) := by
          funext log
          rw [purge, hold]
        rw [hrun]
        refine (delete_all_logs path (.dir name children)).congr ?_
          fun q => (deletes_of_taken htaken q).symm
        constructor
        · exact .taken htaken
        · rintro (hr | _ | ⟨-, hlocked⟩ | ⟨hnot, -, -⟩)
          · exact absurd hr hraises
          · exact hlocked
          · exact absurd htaken hnot
      | false =>
        have htaken : ¬ taken name := h.not_taken (by rw [hold]; decide)
        have hrun : purge old path (.dir name children)
            = each (fun log e => purge old (path ++ [name]) e log) children := by
          funext log
          rw [purge, hold]
          exact purge_each_eq (path ++ [name]) children log
        rw [hrun]
        have hchildren := Logs.each fun e (_ : e ∈ children) => purge_logs h (path ++ [name]) e
        exact hchildren.congr (stops_dir_iff hraises htaken).symm
          fun q => (deletes_dir_iff hraises htaken q).symm

end Purge

/-! ## A property of the deleted names

The paths of all that goes with an entry begin with the entry's own path. So if the entry
has a good name on its path, everything that goes with it has; and where the entry itself
cannot be deleted, only what is deleted before it counts.
-/

theorem prefix_of_removes {path q : Path ν} {e : Entry ν} (h : Removes path e q) :
    path ++ [e.name] <+: q := by
  induction h with
  | file path name => exact List.prefix_rfl
  | dir path _ => exact List.prefix_rfl
  | @inside path q name before after e _ _ ih =>
    exact (List.prefix_append (path ++ [name]) [e.name]).trans ih

/-- An entry that is not locked is itself among what goes with it. -/
theorem removes_self {path : Path ν} {e : Entry ν} (h : ¬ Locked e) :
    Removes path e (path ++ [e.name]) := by
  cases e with
  | file name => exact .file path name
  | dir name children => exact .dir path h
  | unlisted name => exact absurd (.unlisted name) h

/-- **Everything that goes with an entry has a good name on its path** exactly when the entry
has one, or it is locked and what goes before the deletion breaks off has one. -/
theorem removes_good_iff (good : ν → Prop) (path : Path ν) (e : Entry ν) :
    (∀ q, Removes path e q → ∃ n ∈ q, good n) ↔
      (∃ n ∈ path ++ [e.name], good n) ∨
        Locked e ∧ ∀ q, Removes path e q → ∃ n ∈ q, good n := by
  constructor
  · intro h
    by_cases hlocked : Locked e
    · exact Or.inr ⟨hlocked, h⟩
    · exact Or.inl (h _ (removes_self hlocked))
  · rintro (⟨n, hn, hgood⟩ | ⟨-, h⟩) q hq
    · exact ⟨n, (prefix_of_removes hq).subset hn, hgood⟩
    · exact h q hq

end AndroidTools.DirTree
