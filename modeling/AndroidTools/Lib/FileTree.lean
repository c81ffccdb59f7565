/-
Files and directories under absolute, normalised paths.

A path is the list of its names, the root the empty one, and `text` its spelling with slashes:
different paths are spelled differently (`text_injective`), and a path below another begins with
it and a slash (`text_below`). Code that compares spellings can therefore be understood as code
that compares lists.

A file system has finitely many paths, and all of them are below directories; both are fields of
the structure, so an operation has to keep them to be written down at all. The operations leave
what they cannot do undone, as the calls they stand for do. The lemmas say what each of them may
add to what exists, and `DepthBelow` bounds how deep that is, which is the measure by which a
recursion into a tree that it is adding to can still be seen to end.
-/
import Mathlib.Tactic

set_option autoImplicit false

namespace AndroidTools.FileTree

/-! ## Paths

The source compares paths as strings, with `startsWith` and `equals` on their spelling. Here
a path is the list of its names and `text` its spelling; since a name has no slash in it,
the spelling determines the path, and a path below another is spelled with a slash behind
the other's text.
-/

/-- A name in a directory: not empty, and without a slash. -/
abbrev Name := {name : List Char // name ≠ [] ∧ '/' ∉ name}

/-- The names from the root on. The root itself has none. -/
abbrev Path := List Name

/-- Each name after a slash, the way the spelling of a path goes on. -/
def segments (p : Path) : List Char := p.flatMap fun n => '/' :: n.1

/-- The spelling of a path. Only the root ends in a slash. -/
def text (p : Path) : List Char := if p = [] then ['/'] else segments p

section Text

theorem segments_cons (n : Name) (p : Path) : segments (n :: p) = '/' :: (n.1 ++ segments p) := rfl

theorem segments_append (p q : Path) : segments (p ++ q) = segments p ++ segments q :=
  List.flatMap_append

/-- A name ends where the next slash is, so it can be read off the spelling. -/
theorem takeWhile_name (n : Name) (p : Path) :
    (n.1 ++ segments p).takeWhile (· ≠ '/') = n.1 := by
  have hname : ∀ c ∈ n.1, decide (c ≠ '/') = true := by
    intro c hc
    rw [decide_eq_true_eq]
    rintro rfl
    exact n.2.2 hc
  have hnext : (segments p).takeWhile (· ≠ '/') = [] := by
    cases p with
    | nil => rfl
    | cons m p => rfl
  rw [List.takeWhile_append_of_pos hname, hnext, List.append_nil]

theorem segments_injective : Function.Injective segments := by
  intro p q h
  induction p generalizing q with
  | nil =>
    cases q with
    | nil => rfl
    | cons m q => cases h
  | cons n p ih =>
    cases q with
    | nil => cases h
    | cons m q =>
      rw [segments_cons, segments_cons] at h
      have htail := (List.cons.inj h).2
      have hname : n.1 = m.1 := by
        rw [← takeWhile_name n p, htail, takeWhile_name]
      rw [hname] at htail
      rw [Subtype.ext hname, ih (List.append_cancel_left htail)]

/-- Different paths are spelled differently, so comparing spellings is comparing paths. -/
theorem text_injective : Function.Injective text := by
  -- the root is no shorter than a slash and a name
  have hroot : ∀ p : Path, p ≠ [] → segments p ≠ ['/'] := by
    intro p hp h
    obtain ⟨n, p, rfl⟩ := List.exists_cons_of_ne_nil hp
    rw [segments_cons] at h
    have hnil := (List.append_eq_nil_iff.mp (List.cons.inj h).2).1
    exact n.2.1 hnil
  intro p q h
  rw [text, text] at h
  split_ifs at h with hp hq hq
  · rw [hp, hq]
  · exact absurd h.symm (hroot q hq)
  · exact absurd h (hroot p hp)
  · exact segments_injective h

/-- A path below another begins with it and a slash. -/
theorem text_below {p q : Path} (hp : p ≠ []) (hpre : p <+: q) (hne : p ≠ q) :
    text p ++ ['/'] <+: text q := by
  obtain ⟨r, rfl⟩ := hpre
  have hr : r ≠ [] := by
    rintro rfl
    exact hne (List.append_nil p).symm
  obtain ⟨n, r, rfl⟩ := List.exists_cons_of_ne_nil hr
  rw [text, text, if_neg hp, if_neg (by simp), segments_append, segments_cons]
  refine ⟨n.1 ++ segments r, ?_⟩
  rw [List.append_assoc, List.singleton_append]

end Text

/-! ## File systems

A file system is a partial function on paths with two conditions as fields: the root is a
directory, and what exists is in a directory that exists. Every operation has to keep them,
so a file cannot come to be in a place without a parent; an operation that would do that
changes nothing.
-/

/-- What is at a path: a directory, or a file with its bytes. -/
inductive Node where
  | directory
  | file (bytes : List UInt8)
  deriving DecidableEq

/-- What is at the paths that exist. The root is a directory, and every other path is in one;
`paths` lists all that exist, and maybe others, so that there are finitely many. -/
structure FileSystem where
  node : Path → Option Node
  paths : List Path
  mem_paths : ∀ p, node p ≠ none → p ∈ paths
  root : node [] = some .directory
  below_directory : ∀ p, p ≠ [] → node p ≠ none → node p.dropLast = some .directory

namespace FileSystem

variable (fs : FileSystem)

def IsDirectory (p : Path) : Prop := fs.node p = some .directory

def Exists (p : Path) : Prop := fs.node p ≠ none

instance (p : Path) : Decidable (fs.IsDirectory p) := inferInstanceAs (Decidable (_ = _))

instance (p : Path) : Decidable (fs.Exists p) := inferInstanceAs (Decidable (_ ≠ _))

/-- A node in a directory. The directory has to be there, and what is a directory already stays
one, so the tree keeps its shape. -/
def put (p : Path) (n : Node) (hp : p ≠ []) (hparent : fs.IsDirectory p.dropLast)
    (hkind : fs.IsDirectory p → n = .directory) : FileSystem where
  node q := if q = p then some n else fs.node q
  paths := p :: fs.paths
  mem_paths q hq := by
    split_ifs at hq with h
    · rw [h]
      exact List.mem_cons_self
    · exact List.mem_cons_of_mem _ (fs.mem_paths q hq)
  root := by
    rw [if_neg hp.symm]
    exact fs.root
  below_directory q hq hex := by
    have hold : fs.node q.dropLast = some .directory := by
      split_ifs at hex with h
      · rw [h]
        exact hparent
      · exact fs.below_directory q hq hex
    split_ifs with h
    · rw [h] at hold
      rw [hkind hold]
    · exact hold

/-- `File.mkdir`: a new directory in one that exists; where it cannot be made nothing changes. -/
def mkdir (p : Path) : FileSystem :=
  if h : ¬ fs.Exists p ∧ fs.IsDirectory p.dropLast then
    fs.put p .directory (fun hp => h.1 (by rw [hp, Exists, fs.root]; exact Option.some_ne_none _))
      h.2 fun _ => rfl
  else fs

/-- `File.mkdirs`: the missing directories of a path, from the root on. -/
def mkdirs (p : Path) : FileSystem := p.inits.foldl mkdir fs

/-- A `FileOutputStream` with what is written to it. It cannot be opened for a directory, or where
the directory of the file is missing. -/
def write (p : Path) (bytes : List UInt8) : Option FileSystem :=
  if h : p ≠ [] ∧ fs.IsDirectory p.dropLast ∧ ¬ fs.IsDirectory p then
    some (fs.put p (.file bytes) h.1 h.2.1 fun hdir => absurd hdir h.2.2)
  else none

/-- `File.delete` of a file. A directory is left alone. -/
def delete (p : Path) : FileSystem :=
  if h : fs.IsDirectory p then fs
  else {
    node := fun q => if q = p then none else fs.node q
    paths := fs.paths
    mem_paths := fun q hq => by
      split_ifs at hq with hqp
      · exact absurd rfl hq
      · exact fs.mem_paths q hq
    root := by
      rw [if_neg]
      · exact fs.root
      · rintro rfl
        exact h fs.root
    below_directory := fun q hq hex => by
      split_ifs at hex with hqp
      · exact absurd rfl hex
      · have hold := fs.below_directory q hq hex
        rw [if_neg]
        · exact hold
        · intro hdrop
          rw [hdrop] at hold
          exact h hold }

/-- The names in a directory. -/
def children (p : Path) : List Name :=
  (fs.paths.filterMap fun q =>
    if q.dropLast = p ∧ fs.Exists q then q.getLast? else none).dedup

/-- The file system with nothing but the root. -/
def empty : FileSystem where
  node p := if p = [] then some .directory else none
  paths := [[]]
  mem_paths p hp := by
    split_ifs at hp with h
    · rw [h]
      exact List.mem_cons_self
    · exact absurd rfl hp
  root := rfl
  below_directory p hp hex := absurd (if_neg hp) hex

variable {fs}

theorem mem_children {p : Path} {n : Name} : n ∈ fs.children p ↔ fs.Exists (p ++ [n]) := by
  rw [children, List.mem_dedup, List.mem_filterMap]
  constructor
  · rintro ⟨q, -, hq⟩
    split_ifs at hq with h
    obtain ⟨hdrop, hex⟩ := h
    have hsplit := List.dropLast_append_getLast? n hq
    rw [hdrop] at hsplit
    rw [hsplit]
    exact hex
  · intro hex
    refine ⟨p ++ [n], fs.mem_paths _ hex, ?_⟩
    rw [if_pos ⟨List.dropLast_concat, hex⟩, List.getLast?_concat]

/-! ## What the operations leave

For each operation, which paths exist afterwards. A copy only ever makes new paths below its
destination, and that is all that the proof of its termination needs to know of these
operations.
-/

@[simp] theorem put_node (p q : Path) (n : Node) (hp : p ≠ [])
    (hparent : fs.IsDirectory p.dropLast) (hkind : fs.IsDirectory p → n = .directory) :
    (fs.put p n hp hparent hkind).node q = if q = p then some n else fs.node q := rfl

/-- A node that is put is the only new one. -/
theorem exists_of_put {p q : Path} {n : Node} {hp : p ≠ []} {hparent : fs.IsDirectory p.dropLast}
    {hkind : fs.IsDirectory p → n = .directory} (h : (fs.put p n hp hparent hkind).Exists q) :
    fs.Exists q ∨ q = p := by
  rw [Exists, put_node] at h
  split_ifs at h with hqp
  · exact .inr hqp
  · exact .inl h

theorem exists_of_mkdir {p q : Path} (h : (fs.mkdir p).Exists q) : fs.Exists q ∨ q = p := by
  rw [mkdir] at h
  split_ifs at h with hp
  · exact exists_of_put h
  · exact .inl h

/-- All that is new after `mkdirs` is on the path. -/
theorem exists_of_mkdirs {p q : Path} (h : (fs.mkdirs p).Exists q) : fs.Exists q ∨ q <+: p := by
  have hrun : ∀ (l : List Path) (fs : FileSystem), (l.foldl mkdir fs).Exists q →
      fs.Exists q ∨ q ∈ l := by
    intro l
    induction l with
    | nil => exact fun fs hq => .inl hq
    | cons x l ih =>
      intro fs hq
      rcases ih (fs.mkdir x) hq with hq | hq
      · rcases exists_of_mkdir hq with hq | rfl
        · exact .inl hq
        · exact .inr List.mem_cons_self
      · exact .inr (List.mem_cons_of_mem _ hq)
  rcases hrun _ fs h with h | h
  · exact .inl h
  · exact .inr ((List.mem_inits q p).mp h)

theorem write_node {p : Path} {bytes : List UInt8} {fs' : FileSystem}
    (h : fs.write p bytes = some fs') (q : Path) :
    fs'.node q = if q = p then some (.file bytes) else fs.node q := by
  rw [write] at h
  split_ifs at h
  cases h
  rfl

/-- A file that could be opened can be opened again, whatever was written to it. -/
theorem write_again {p : Path} {bytes : List UInt8} (bytes' : List UInt8) {opened : FileSystem}
    (h : fs.write p bytes = some opened) : ∃ fs', opened.write p bytes' = some fs' := by
  have hnode := write_node h
  rw [write] at h
  split_ifs at h with hp
  -- opening the file has left its folder alone
  have hparent : p.dropLast ≠ p := by
    intro heq
    have hlen := congrArg List.length heq
    have hpos := List.length_pos_iff.mpr hp.1
    rw [List.length_dropLast] at hlen
    omega
  rw [write, dif_pos]
  · exact ⟨_, rfl⟩
  · refine ⟨hp.1, ?_, ?_⟩
    · rw [IsDirectory, hnode, if_neg hparent]
      exact hp.2.1
    · rw [IsDirectory, hnode, if_pos rfl]
      exact fun h => nomatch h

theorem exists_of_write {p q : Path} {bytes : List UInt8} {fs' : FileSystem}
    (h : fs.write p bytes = some fs') (hq : fs'.Exists q) : fs.Exists q ∨ q = p := by
  rw [Exists, write_node h] at hq
  split_ifs at hq with hqp
  · exact .inr hqp
  · exact .inl hq

theorem exists_of_delete {p q : Path} (h : (fs.delete p).Exists q) : fs.Exists q := by
  rw [delete] at h
  split_ifs at h with hp
  · exact h
  · rw [Exists] at h
    dsimp only at h
    split_ifs at h with hqp
    · exact absurd rfl h
    · exact h

/-! ## Depth

There are finitely many paths, so there is a greatest depth below any directory. A bound on
it is the measure of a recursion over a tree to which directories are added while it is
being listed.
-/

/-- Nothing below `top` is deeper than `depth`. -/
def DepthBelow (fs : FileSystem) (top : Path) (depth : ℕ) : Prop :=
  ∀ p, fs.Exists p → top <+: p → p.length ≤ depth

section Depth

variable {top p : Path} {depth : ℕ} (hp : top <+: p → p.length ≤ depth)

include hp

/-- A new directory that is not too deep keeps the bound. -/
theorem DepthBelow.mkdir (h : fs.DepthBelow top depth) : (fs.mkdir p).DepthBelow top depth := by
  intro q hq htop
  rcases exists_of_mkdir hq with hq | rfl
  · exact h q hq htop
  · exact hp htop

theorem DepthBelow.mkdirs (h : fs.DepthBelow top depth) : (fs.mkdirs p).DepthBelow top depth := by
  intro q hq htop
  rcases exists_of_mkdirs hq with hq | hq
  · exact h q hq htop
  · exact hq.length_le.trans (hp (htop.trans hq))

end Depth

/-- What exists has a greatest depth, since there are finitely many paths. It can be taken as
large as one likes. -/
theorem exists_depth (fs : FileSystem) (top : Path) (least : ℕ) :
    ∃ depth, least ≤ depth ∧ fs.DepthBelow top depth := by
  have hbound : ∀ l : List Path, ∃ depth, least ≤ depth ∧ ∀ p ∈ l, p.length ≤ depth := by
    intro l
    induction l with
    | nil => exact ⟨least, le_rfl, fun p hp => absurd hp List.not_mem_nil⟩
    | cons q l ih =>
      obtain ⟨depth, hleast, hl⟩ := ih
      refine ⟨max depth q.length, hleast.trans (le_max_left _ _), fun p hp => ?_⟩
      rcases List.mem_cons.mp hp with rfl | hp
      · exact le_max_right _ _
      · exact (hl p hp).trans (le_max_left _ _)
  obtain ⟨depth, hleast, hpaths⟩ := hbound fs.paths
  exact ⟨depth, hleast, fun p hp _ => hpaths p (fs.mem_paths p hp)⟩

end FileSystem

end AndroidTools.FileTree
