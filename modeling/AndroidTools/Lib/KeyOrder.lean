/-
Bringing a list into the order of its keys by going through it again and again.

The keys are sorted first. A scan then takes an element whenever its key is the
next one wanted, and starts over at the end of the list. Elements with equal keys
make this less obvious than it looks: the scan takes them from wherever it stands,
so it may begin with the last of them and come to the first in the next round.
`scan_run` says what happens to one key, and `scan_rounds` goes through the keys:
each run of equal keys uses up at most one round, every element is taken exactly
once, and as many rounds as there are elements are enough.
-/
import Mathlib.Tactic
import Mathlib.Data.List.Sort

set_option autoImplicit false

namespace AndroidTools.KeyOrder

variable {α κ : Type*}

section Scan

variable [DecidableEq κ] (key : α → κ) (keys : List κ)

/-- One step of a scan: the element is taken if its key is the next one wanted, that is, if it is
the key at the place that the elements taken so far have reached. -/
def take_next (taken : List α) (a : α) : List α :=
  if keys[taken.length]? = some (key a) then taken ++ [a] else taken

/-- One round: every element of the list is looked at once, from the left, and those whose turn it
is are taken. -/
def scan (l : List α) (taken : List α) : List α := l.foldl (take_next key keys) taken

theorem scan_append (l m taken : List α) :
    scan key keys (l ++ m) taken = scan key keys m (scan key keys l taken) :=
  List.foldl_append

/-- A scan takes nothing more once as many elements are taken as there are keys. -/
theorem scan_full (l : List α) {taken : List α} (h : keys.length ≤ taken.length) :
    scan key keys l taken = taken := by
  induction l with
  | nil => rfl
  | cons a l ih =>
    have hnone : keys[taken.length]? ≠ some (key a) := by
      rw [List.getElem?_eq_none h]
      simp
    rw [scan, List.foldl_cons, take_next, if_neg hnone]
    exact ih

/-- However often a list is gone through, never more is taken than there are keys. -/
theorem length_scan_le (l : List α) {taken : List α} (h : taken.length ≤ keys.length) :
    (scan key keys l taken).length ≤ keys.length := by
  induction l generalizing taken with
  | nil => exact h
  | cons a l ih =>
    rw [scan, List.foldl_cons]
    apply ih
    unfold take_next
    by_cases hnext : keys[taken.length]? = some (key a)
    · have hlt := (List.getElem?_eq_some_iff.mp hnext).1
      rw [if_pos hnext, List.length_append, List.length_singleton]
      omega
    · rw [if_neg hnext]
      exact h

/-- While one key is wanted, the elements that have it are taken, in the order in
which the scan comes to them. -/
theorem scan_run {k : κ} {m : ℕ} {taken l : List α}
    (hwant : ∀ i < m, keys[taken.length + i]? = some k)
    (hm : (l.filter fun a => key a = k).length = m) :
    ∃ l₁ l₂, l = l₁ ++ l₂ ∧
      scan key keys l₁ taken = taken ++ l.filter fun a => key a = k := by
  induction l generalizing taken m with
  | nil => exact ⟨[], [], rfl, by simp [scan]⟩
  | cons a l ih =>
    by_cases hzero : m = 0
    · -- the key is not wanted any more
      have hnil := List.eq_nil_of_length_eq_zero (hm.trans hzero)
      exact ⟨[], a :: l, rfl, by rw [hnil]; simp [scan]⟩
    have hnext : keys[taken.length]? = some k := hwant 0 (Nat.pos_of_ne_zero hzero)
    by_cases ha : key a = k
    · rw [List.filter_cons_of_pos (by simpa using ha)] at hm ⊢
      rw [List.length_cons] at hm
      obtain ⟨l₁, l₂, hl, hscan⟩ := @ih (m - 1) (taken ++ [a])
        (fun i hi => by
          have h := hwant (i + 1) (by omega)
          rw [List.length_append, List.length_singleton, Nat.add_assoc, Nat.add_comm 1 i]
          exact h)
        (by omega)
      refine ⟨a :: l₁, l₂, by rw [hl]; rfl, ?_⟩
      rw [scan, List.foldl_cons, take_next, if_pos (by rw [hnext, ha])]
      rw [scan] at hscan
      rw [hscan, List.append_assoc]
      rfl
    · rw [List.filter_cons_of_neg (by simpa using ha)] at hm ⊢
      obtain ⟨l₁, l₂, hl, hscan⟩ := ih hwant hm
      refine ⟨a :: l₁, l₂, by rw [hl]; rfl, ?_⟩
      rw [scan, List.foldl_cons, take_next,
        if_neg (by rw [hnext]; intro h; exact ha (Option.some.inj h).symm)]
      exact hscan

end Scan

section Rounds

variable [LinearOrder κ]

/-- Equal keys of a sorted list stand together: the list begins with all copies of its first key,
and the rest does not hold it. -/
theorem sorted_run {k : κ} {l : List κ} (h : (k :: l).Pairwise (· ≤ ·)) :
    ∃ m post, k :: l = List.replicate (m + 1) k ++ post ∧ k ∉ post ∧
      post.Pairwise (· ≤ ·) := by
  induction l with
  | nil => exact ⟨0, [], rfl, by simp, List.Pairwise.nil⟩
  | cons a l ih =>
    obtain ⟨hk, hl⟩ := List.pairwise_cons.mp h
    by_cases ha : a = k
    · subst ha
      obtain ⟨m, post, heq, hno, hpost⟩ := ih hl
      exact ⟨m + 1, post, by rw [heq]; rfl, hno, hpost⟩
    · refine ⟨0, a :: l, rfl, ?_, hl⟩
      intro hmem
      have hlt : k < a := lt_of_le_of_ne (hk a (by simp)) (Ne.symm ha)
      rcases List.mem_cons.mp hmem with heq | hin
      · exact ha heq.symm
      · exact absurd ((List.pairwise_cons.mp hl).1 k hin) (not_le.mpr hlt)

/-- Filtering by two conditions that exclude each other gives, up to the order, what filtering by
either of them gives. -/
theorem filter_append_filter_perm {p q : α → Bool} (h : ∀ a, p a = true → q a = false)
    (l : List α) : (l.filter p ++ l.filter q).Perm (l.filter fun a => p a || q a) := by
  induction l with
  | nil => exact List.Perm.refl _
  | cons a l ih =>
    by_cases hp : p a = true
    · simp only [List.filter_cons, hp, h a hp, Bool.or_false, if_true, Bool.false_eq_true,
        if_false, List.cons_append]
      exact ih.cons a
    · by_cases hq : q a = true
      · simp only [List.filter_cons, hp, hq, Bool.or_true, if_true, Bool.false_eq_true, if_false]
        exact List.perm_middle.trans (ih.cons a)
      · simp only [List.filter_cons, hp, hq, Bool.or_false, Bool.false_eq_true, if_false]
        exact ih

/-- The list `n` times in a row, which is what a scan sees that starts over at the end. -/
def rounds (n : ℕ) (l : List α) : List α := (List.replicate n l).flatten

theorem rounds_succ (n : ℕ) (l : List α) : rounds (n + 1) l = l ++ rounds n l := by
  rw [rounds, List.replicate_succ, List.flatten_cons, rounds]

/-- A round from a place in the list on may end anywhere: the rest of it and the rounds to come
are again a rest of the list and rounds of it. One round less is left if the end of the list was
passed. -/
theorem rounds_from {l front back l₁ l₂ : List α} (n : ℕ) (hl : l = front ++ back)
    (hsplit : back ++ front = l₁ ++ l₂) :
    ∃ front' back' n', l = front' ++ back' ∧ n ≤ n' ∧
      back ++ rounds (n + 1) l = l₁ ++ (back' ++ rounds n' l) := by
  rcases List.append_eq_append_iff.mp hsplit with ⟨a, hl₁, hfront⟩ | ⟨c, hback, -⟩
  · -- it ends at `a` of the next round
    have hlist : l = a ++ (l₂ ++ back) := by rw [hl, hfront, List.append_assoc]
    refine ⟨a, l₂ ++ back, n, hlist, le_rfl, ?_⟩
    rw [rounds_succ, hl₁]
    nth_rewrite 1 [hlist]
    simp only [List.append_assoc]
  · exact ⟨front ++ l₁, c, n + 1, by rw [hl, hback, List.append_assoc], n.le_succ,
      by rw [hback, List.append_assoc]⟩

theorem map_filter_key (key : α → κ) (k : κ) (l : List α) :
    (l.filter fun a => key a = k).map key
      = List.replicate (l.filter fun a => key a = k).length k := by
  rw [List.eq_replicate_iff]
  refine ⟨List.length_map _, fun q hq => ?_⟩
  obtain ⟨a, ha, rfl⟩ := List.mem_map.mp hq
  simpa using (List.mem_filter.mp ha).2

/-- Up to the order, the elements with one key together with those with one of the other keys are
the elements with any of them. -/
theorem filter_run_perm (key : α → κ) {k : κ} {post : List κ} (m : ℕ) (hno : k ∉ post)
    (l : List α) :
    ((l.filter fun a => key a = k) ++ l.filter fun a => key a ∈ post).Perm
      (l.filter fun a => key a ∈ List.replicate (m + 1) k ++ post) := by
  have hor : ∀ a, decide (key a ∈ List.replicate (m + 1) k ++ post)
      = (decide (key a = k) || decide (key a ∈ post)) := by
    intro a
    simp [List.mem_replicate]
  simp only [hor]
  refine filter_append_filter_perm (fun a ha => ?_) l
  rw [decide_eq_true_eq] at ha
  rw [ha]
  simpa using hno

/-- From a place in the list on, with as many rounds to come as keys are wanted, the
scan takes exactly the elements whose keys are wanted. -/
theorem scan_rounds (key : α → κ) (keys : List κ) (l : List α) (wanted : List κ)
    {before : List κ} {taken front back : List α} {n : ℕ}
    (hkeys : keys = before ++ wanted) (htaken : taken.length = before.length)
    (hsorted : wanted.Pairwise (· ≤ ·))
    (hcount : ∀ k ∈ wanted, wanted.count k = (l.filter fun a => key a = k).length)
    (hl : l = front ++ back) (hn : wanted.length ≤ n) :
    ∃ more, scan key keys (back ++ rounds n l) taken = taken ++ more ∧
      more.map key = wanted ∧ more.Perm (l.filter fun a => key a ∈ wanted) := by
  -- the induction is on the runs of equal keys
  induction hw : wanted.length using Nat.strong_induction_on
    generalizing wanted before taken front back n with
  | _ w ih =>
    cases wanted with
    | nil =>
      refine ⟨[], ?_, rfl, by simp⟩
      rw [List.append_nil] at hkeys ⊢
      exact scan_full key keys _ (by rw [hkeys, htaken])
    | cons k rest =>
      obtain ⟨m, post, hrun, hno, hpost⟩ := sorted_run hsorted
      rw [hrun] at hkeys hcount hn hw ⊢
      rw [List.length_append, List.length_replicate] at hn hw
      obtain ⟨n, rfl⟩ : ∃ n', n = n' + 1 := ⟨n - 1, by omega⟩
      have hk : (l.filter fun a => key a = k).length = m + 1 := by
        rw [← hcount k (by simp [List.replicate_succ]), List.count_append,
          List.count_replicate_self, List.count_eq_zero_of_not_mem hno]
      -- one round from here on meets every element with this key
      have hround : (back ++ front).Perm l := by
        rw [hl]
        exact List.perm_append_comm
      have hfilter := hround.filter fun a => decide (key a = k)
      have hmet : ((back ++ front).filter fun a => key a = k).length = m + 1 := by
        rw [hfilter.length_eq, hk]
      have hwant : ∀ i < m + 1, keys[taken.length + i]? = some k := by
        intro i hi
        rw [hkeys, htaken, List.getElem?_append_right (by omega), Nat.add_sub_cancel_left,
          List.getElem?_append_left (by rw [List.length_replicate]; exact hi),
          List.getElem?_replicate, if_pos hi]
      obtain ⟨l₁, l₂, hsplit, hscan⟩ := scan_run key keys hwant hmet
      -- where the scan stands then
      obtain ⟨front', back', n', hl', hn', hstream⟩ := rounds_from n hl hsplit
      have hlen : (taken ++ (back ++ front).filter fun a => key a = k).length
          = (before ++ List.replicate (m + 1) k).length := by
        rw [List.length_append, List.length_append, htaken, hmet, List.length_replicate]
      have hrest : ∀ q ∈ post, post.count q = (l.filter fun a => key a = q).length := by
        intro q hq
        have hne : q ≠ k := fun h => hno (h ▸ hq)
        rw [← hcount q (List.mem_append_right _ hq), List.count_append, List.count_replicate,
          if_neg (by simpa using hne.symm), Nat.zero_add]
      have hleft : post.length ≤ n' := by omega
      obtain ⟨more, hmore, hmap, hperm⟩ := ih post.length (by omega) post
        (by rw [hkeys, List.append_assoc]) hlen hpost hrest hl' hleft rfl
      refine ⟨((back ++ front).filter fun a => key a = k) ++ more, ?_, ?_, ?_⟩
      · rw [hstream, scan_append, hscan, hmore, List.append_assoc]
      · rw [List.map_append, hmap, map_filter_key, hmet]
      · exact (hfilter.append hperm).trans (filter_run_perm key m hno l)

/-- **Every element is taken once, in key order.** With one round more than there are elements the
scan has taken a permutation of the list, and the keys of what it has taken are the sorted keys;
neither depends on how often a key occurs. -/
theorem scan_sorted (key : α → κ) (l : List α) {n : ℕ} (hn : l.length < n) :
    (scan key ((l.map key).insertionSort (· ≤ ·)) (rounds n l) []).map key
        = (l.map key).insertionSort (· ≤ ·) ∧
      (scan key ((l.map key).insertionSort (· ≤ ·)) (rounds n l) []).Perm l := by
  have hperm := List.perm_insertionSort (· ≤ ·) (l.map key)
  obtain ⟨n, rfl⟩ : ∃ m, n = m + 1 := ⟨n - 1, by omega⟩
  obtain ⟨more, hmore, hmap, hp⟩ := @scan_rounds _ _ _ key ((l.map key).insertionSort (· ≤ ·)) l
    ((l.map key).insertionSort (· ≤ ·)) [] [] [] l n rfl rfl (List.pairwise_insertionSort _ _)
    (fun k _ => by
      rw [hperm.count_eq, List.count_eq_countP, List.countP_map, List.countP_eq_length_filter]
      rfl)
    rfl (by rw [hperm.length_eq, List.length_map]; omega)
  rw [rounds_succ, hmore, List.nil_append]
  refine ⟨hmap, hp.trans ?_⟩
  rw [List.filter_eq_self.mpr]
  intro a ha
  simpa using ⟨a, ha, rfl⟩

end Rounds

end AndroidTools.KeyOrder
