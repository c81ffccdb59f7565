/-
Dictionaries as association lists.

An assignment replaces the entry of its key or appends a new one, so a dictionary filled with
distinct keys is the list of its assignments. The order of the entries is kept because the code
that uses such a dictionary goes through it later; where it sorts first, `sortItems` is
`sorted(d.items())`, for keys that do not repeat.
-/
import Mathlib.Tactic

set_option autoImplicit false

namespace AndroidTools.Dict

variable {κ α : Type*}

section Assign

variable [DecidableEq κ]

/-- `d[k] = v`: the entry of the key is replaced in its place, and a new key is appended. -/
def dictSet (d : List (κ × α)) (e : κ × α) : List (κ × α) :=
  if e.1 ∈ d.map Prod.fst then d.map fun x => if x.1 = e.1 then e else x else d ++ [e]

/-- `d.get(k)`: the value of the first entry with the key. -/
def dictGet (d : List (κ × α)) (k : κ) : Option α := (d.find? fun x => x.1 = k).map Prod.snd

theorem dictGet_cons (x : κ × α) (d : List (κ × α)) (k : κ) :
    dictGet (x :: d) k = if x.1 = k then some x.2 else dictGet d k := by
  unfold dictGet
  split_ifs with h
  · rw [List.find?_cons_of_pos (by rw [h]; exact decide_eq_true rfl), Option.map_some]
  · rw [List.find?_cons_of_neg (by simpa using h)]

theorem dictGet_eq_none {d : List (κ × α)} {k : κ} (h : k ∉ d.map Prod.fst) :
    dictGet d k = none := by
  induction d with
  | nil => rfl
  | cons x d ih =>
    rw [List.map_cons, List.mem_cons, not_or] at h
    rw [dictGet_cons, if_neg (Ne.symm h.1), ih h.2]

theorem dictGet_map {d : List (κ × α)} {e : κ × α} (k : κ) (h : e.1 ∈ d.map Prod.fst) :
    dictGet (d.map fun x => if x.1 = e.1 then e else x) k
      = if k = e.1 then some e.2 else dictGet d k := by
  induction d with
  | nil => cases h
  | cons x d ih =>
    rw [List.map_cons, dictGet_cons, dictGet_cons]
    by_cases hx : x.1 = e.1
    · rw [if_pos hx, hx]
      by_cases hk : k = e.1
      · rw [if_pos hk.symm, if_pos hk]
      rw [if_neg (Ne.symm hk), if_neg hk, if_neg (Ne.symm hk)]
      by_cases hd : e.1 ∈ d.map Prod.fst
      · rw [ih hd, if_neg hk]
      · congr 1
        conv_rhs => rw [← List.map_id d]
        apply List.map_congr_left
        intro y hy
        exact if_neg fun h => hd (List.mem_map.mpr ⟨y, hy, h⟩)
    rw [if_neg hx]
    have hd : e.1 ∈ d.map Prod.fst := by
      rw [List.map_cons, List.mem_cons] at h
      exact h.resolve_left (Ne.symm hx)
    rw [ih hd]
    by_cases hk : k = e.1
    · have hxk : ¬ x.1 = k := by
        rw [hk]
        exact hx
      rw [if_neg hxk, if_pos hk, if_pos hk]
    · rw [if_neg hk, if_neg hk]

/-- An assignment is seen at its key and changes nothing at any other. -/
theorem dictGet_dictSet (d : List (κ × α)) (e : κ × α) (k : κ) :
    dictGet (dictSet d e) k = if k = e.1 then some e.2 else dictGet d k := by
  unfold dictSet
  split_ifs with hin hk hk
  · rw [dictGet_map k hin, if_pos hk]
  · rw [dictGet_map k hin, if_neg hk]
  all_goals
    rw [dictGet, List.find?_append]
  · have hnone : d.find? (fun x => x.1 = k) = none := by
      have hget := dictGet_eq_none hin
      rw [← hk] at hget
      exact Option.map_eq_none_iff.mp hget
    rw [hnone, Option.none_or, List.find?_cons_of_pos (by rw [hk]; exact decide_eq_true rfl),
      Option.map_some]
  · have hnone : [e].find? (fun x => x.1 = k) = none :=
      List.find?_eq_none.mpr fun x hx => by
        rw [List.mem_singleton.mp hx]
        simpa using Ne.symm hk
    rw [hnone, Option.or_none, dictGet]

/-- Assignments to new keys are appended. -/
theorem foldl_dictSet_of_nodup {acc l : List (κ × α)}
    (h : ((acc ++ l).map Prod.fst).Nodup) : l.foldl dictSet acc = acc ++ l := by
  induction l generalizing acc with
  | nil => rw [List.append_nil]; rfl
  | cons e l ih =>
    have hnew : e.1 ∉ acc.map Prod.fst := by
      intro hmem
      rw [List.map_append, List.map_cons] at h
      exact (List.nodup_append.mp h).2.2 _ hmem _ List.mem_cons_self rfl
    rw [List.foldl_cons, dictSet, if_neg hnew]
    have hassoc : acc ++ e :: l = acc ++ [e] ++ l := by rw [List.append_assoc]; rfl
    rw [hassoc] at h ⊢
    exact ih h

theorem dictSet_of_new {d : List (κ × α)} {e : κ × α} (h : e.1 ∉ d.map Prod.fst) :
    dictSet d e = d ++ [e] := if_neg h

/-- An assignment to the last key replaces the value there, if no entry in front has the key. -/
theorem dictSet_concat {d : List (κ × α)} {k : κ} (h : ∀ e ∈ d, e.1 ≠ k) (v v' : α) :
    dictSet (d ++ [(k, v)]) (k, v') = d ++ [(k, v')] := by
  have hin : k ∈ (d ++ [(k, v)]).map Prod.fst := by simp
  rw [dictSet, if_pos hin, List.map_append, List.map_singleton, if_pos rfl]
  congr 1
  conv_rhs => rw [← List.map_id d]
  apply List.map_congr_left
  intro e he
  exact if_neg (h e he)

/-- An assignment does not take a key away, and brings its own. -/
theorem mem_keys_dictSet {k : κ} {d : List (κ × α)} {e : κ × α}
    (h : k ∈ d.map Prod.fst ∨ k = e.1) : k ∈ (dictSet d e).map Prod.fst := by
  unfold dictSet
  split_ifs with hin
  · have hsame : (d.map fun x => if x.1 = e.1 then e else x).map Prod.fst = d.map Prod.fst := by
      rw [List.map_map]
      apply List.map_congr_left
      intro x _
      simp only [Function.comp]
      split_ifs with hx
      · exact hx.symm
      · rfl
    rw [hsame]
    rcases h with h | rfl
    · exact h
    · exact hin
  · rw [List.map_append, List.mem_append]
    rcases h with h | rfl
    · exact .inl h
    · exact .inr List.mem_cons_self

/-- An assigned key stays in the dictionary. -/
theorem mem_keys_foldl_dictSet {k : κ} {acc l : List (κ × α)}
    (h : k ∈ acc.map Prod.fst ∨ k ∈ l.map Prod.fst) : k ∈ (l.foldl dictSet acc).map Prod.fst := by
  induction l generalizing acc with
  | nil => exact h.resolve_right List.not_mem_nil
  | cons e l ih =>
    rw [List.foldl_cons]
    apply ih
    rcases h with h | h
    · exact .inl (mem_keys_dictSet (.inl h))
    · rw [List.map_cons, List.mem_cons] at h
      rcases h with rfl | h
      · exact .inl (mem_keys_dictSet (.inr rfl))
      · exact .inr h

end Assign

section Order

/-- The items in the order of their keys, as `sorted(d.items())` gives them. -/
def sortItems (le : κ → κ → Bool) (d : List (κ × α)) : List (κ × α) :=
  d.mergeSort fun e f => le e.1 f.1

variable {le : κ → κ → Bool}

theorem sortItems_perm (d : List (κ × α)) : (sortItems le d).Perm d := List.mergeSort_perm d _

/-- Items that are in order already stay as they are. -/
theorem sortItems_of_pairwise {d : List (κ × α)} (h : d.Pairwise fun e f => le e.1 f.1 = true) :
    sortItems le d = d := List.mergeSort_of_pairwise h

/-- Items with distinct keys have only one order, so a permutation of them that is in order is
what sorting gives. -/
theorem sortItems_eq (htrans : ∀ a b c, le a b = true → le b c = true → le a c = true)
    (htotal : ∀ a b, (le a b || le b a) = true)
    (hanti : ∀ a b, le a b = true → le b a = true → a = b) {d m : List (κ × α)}
    (hperm : d.Perm m) (hnodup : (m.map Prod.fst).Nodup)
    (hm : m.Pairwise fun e f => le e.1 f.1 = true) : sortItems le d = m := by
  have hsorted : (sortItems le d).Pairwise fun e f => le e.1 f.1 = true :=
    List.pairwise_mergeSort (fun a b c => htrans a.1 b.1 c.1) (fun a b => htotal a.1 b.1) d
  have hsame : (sortItems le d).Perm m := (sortItems_perm d).trans hperm
  apply hsame.eq_of_pairwise _ hsorted hm
  intro e f he hf hef hfe
  have hkey := hanti _ _ hef hfe
  exact List.inj_on_of_nodup_map hnodup (hsame.mem_iff.mp he) hf hkey

end Order

end AndroidTools.Dict
