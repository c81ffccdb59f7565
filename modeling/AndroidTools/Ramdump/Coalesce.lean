/-
`get_coalesced_mappings`: flat mappings merged into longer ranges.

Neighbours are merged when they touch and have equal attributes; that their physical ranges touch
is not asked. The merged length is written into the first mapping itself, which the caller still
holds. Then the gaps are filled with `None`, the one at the end up to 0xffffffff. `Mergeable`
neighbours therefore always break something, and without them what is left to go wrong is the
empty dictionary and the end of the address space.

So the model has objects: a list of mappings that entries of the result refer to by number, as
they share them in the source. The general part, ranges in order and the gaps between them, is in
the library; here the loops of the function are brought to it, and the three ways to fail are told
apart.
-/
import AndroidTools.Lib.Ranges
import AndroidTools.Ramdump.FlatMappings

set_option autoImplicit false

namespace AndroidTools.Ramdump

open AndroidTools.Dict AndroidTools.Ranges

/-! ## The function

The three loops, in the order of the source: neighbours that can be merged are marked, then
they are merged into shared objects, then the gaps are filled.
-/

/-- The fields of `attributes`, which `Register.__eq__` compares one by one. -/
def attribute_fields : List BitRange :=
  [(58, 55), (54, 54), (53, 53), (52, 52), (11, 11), (10, 10), (9, 8), (7, 6), (5, 5), (4, 2)]

def LeafMapping.attributes (m : LeafMapping) : List ℕ :=
  attribute_fields.map (read_field m.descriptor)

/-- `virt_start == prev_end and info.attributes == prev_info.attributes`: the ranges touch and the
attributes are equal. -/
def Mergeable (prev e : MappingEntry) : Prop :=
  e.1.1 = prev.1.2 ∧ e.2.attributes = prev.2.attributes

instance (prev e : MappingEntry) : Decidable (Mergeable prev e) :=
  inferInstanceAs (Decidable (_ ∧ _))

/-- The loop that fills `samers`, from item `i` on. -/
def mark_samers : ℕ → MappingEntry → ℕ → List MappingEntry → List (ℕ × ℕ)
  | _, _, _, [] => []
  | i, prev, cur_virt, e :: es =>
    if Mergeable prev e then (i, cur_virt) :: mark_samers (i + 1) e cur_virt es
    else mark_samers (i + 1) e e.1.1 es

/-- `samers`; the first item only sets `cur_virt`. -/
def samers : List MappingEntry → List (ℕ × ℕ)
  | [] => []
  | e :: es => mark_samers 1 e e.1.1 es

/-- `coalesced_mappings` and the mapping objects: a value is the position of its
object among the flat items. -/
structure MergeState where
  coalesced : List (ℕ × ℕ)
  objects : List MappingEntry
  deriving Repr, DecidableEq

/-- `page_size += n` of an object, which everyone who holds it sees. -/
def grow (n : ℕ) (e : MappingEntry) : MappingEntry :=
  (e.1, { e.2 with page_size := e.2.page_size + n })

/-- The loop that merges, from item `i` on. `none` is a `KeyError` or the
`ValueError` of the source. -/
def merge_items (same : List (ℕ × ℕ)) : ℕ → List MappingEntry → MergeState → Option MergeState
  | _, [], s => some s
  | i, e :: es, s =>
    match same.lookup i with
    | some start =>
      -- the entry goes into the object that begins where its run does
      match s.coalesced.lookup start with
      | none => none
      | some k => merge_items same (i + 1) es
          { s with objects := s.objects.modify k (grow (e.1.2 - e.1.1)) }
    | none =>
      if s.coalesced.lookup e.1.1 = none then
        merge_items same (i + 1) es { s with coalesced := s.coalesced ++ [(e.1.1, i)] }
      else none

/-- An entry of `cc`: a start, an end, and a mapping or `None`. -/
abbrev CoalescedEntry := (ℕ × ℕ) × Option LeafMapping

/-- `cc` before the gaps, keyed by start and end. -/
def keyed_ranges (s : MergeState) : List CoalescedEntry :=
  (s.coalesced.filterMap fun c => s.objects[c.2]?.map fun e =>
    ((c.1, c.1 + e.2.page_size), some e.2)).foldl dictSet []

/-- `cc[prev_end, vstart] = None` where they differ. -/
def fill_gap (cc : List CoalescedEntry) (x : CoalescedEntry × (ℕ × ℕ)) : List CoalescedEntry :=
  if x.2.2 ≠ x.1.1.1 then dictSet cc ((x.2.2, x.1.1.1), none) else cc

/-- The unmapped gaps; `cc` is in order. -/
def fill_unmapped (cc : List CoalescedEntry) : List CoalescedEntry :=
  match cc.head?, cc.getLast? with
  | some first, some last =>
    let filled := if first.1.1 ≠ 0 then dictSet cc ((0, first.1.1), none) else cc
    let filled := if last.1.2 ≠ 0xffffffff then dictSet filled ((last.1.2, 0xffffffff), none)
      else filled
    let filled := sortItems key_le filled
    -- `items()[1:-1]` with `keys[i]`, the key of the item before
    ((filled.drop 1).dropLast.zip (filled.map Prod.fst)).foldl fill_gap filled
  | _, _ => cc

/-- `get_coalesced_mappings`: the result, and the flat mappings as they are left. -/
def get_coalesced_mappings (flat_mappings : List MappingEntry) :
    Option (List CoalescedEntry × List MappingEntry) :=
  (merge_items (samers flat_mappings) 0 flat_mappings ⟨[], flat_mappings⟩).map fun s =>
    (sortItems key_le (fill_unmapped (sortItems key_le (keyed_ranges s))), s.objects)

/-! ## What it is to do

What a caller may expect of the result, and the condition on the flat mappings for it. The
condition speaks of neighbours in the list, and of the last mapping.
-/

/-- Flat mappings within 32 bits, in order and pairwise disjoint, each under the range
of its page. -/
structure FlatMappings where
  items : List MappingEntry
  sized : ∀ e ∈ items, 0 < e.2.page_size ∧ e.1.2 = e.1.1 + e.2.page_size
  within : ∀ e ∈ items, e.1.2 ≤ 2 ^ 32
  sorted : items.Pairwise fun e f => key_le e.1 f.1 = true
  disjoint : items.Pairwise fun e f => Disjoint (Set.Ico e.1.1 e.1.2) (Set.Ico f.1.1 f.1.2)

/-- The ranges cover the space, last byte aside, without overlap, and say of every
address what the flat mappings said; those are left as they were. -/
structure LosesNothing (flat : List MappingEntry) (cc : List CoalescedEntry)
    (left : List MappingEntry) : Prop where
  nonempty : ∀ e ∈ cc, e.1.1 < e.1.2
  disjoint : cc.Pairwise fun e f => Disjoint (Set.Ico e.1.1 e.1.2) (Set.Ico f.1.1 f.1.2)
  covers : ∀ a < 0xffffffff, ∃ e ∈ cc, Covers e a
  unmapped : ∀ e ∈ cc, e.2 = none → ∀ a, Covers e a → ∀ f ∈ flat, ¬ Covers f a
  mapped : ∀ e ∈ cc, ∀ m, e.2 = some m → ∀ a, Covers e a → ∃ f ∈ flat, Covers f a ∧
    m.attributes = f.2.attributes ∧ m.phys + (a - e.1.1) = f.2.phys + (a - f.1.1)
  unchanged : left = flat

/-- The call succeeds and loses nothing: what was mapped is mapped, what was not is a gap, and the
caller's mappings are as they were. -/
def CoalescesWell (flat : List MappingEntry) : Prop :=
  ∃ cc left, get_coalesced_mappings flat = some (cc, left) ∧ LosesNothing flat cc left

/-- There are mappings, no two neighbours are merged, the last one does not end at
2^32, and if it ends at 0xffffffff it touches the one before it, if there is one. -/
structure NothingToLose (flat : List MappingEntry) : Prop where
  some_mapping : flat ≠ []
  none_merged : flat.IsChain fun e f => ¬ Mergeable e f
  ends_below : ∀ last, flat.getLast? = some last → last.1.2 ≠ 2 ^ 32
  closed_end : ∀ last, flat.getLast? = some last → last.1.2 = 0xffffffff → LastTouches flat

/-! ## Merging

A merge makes an object longer and none shorter. So if there is anything to merge, the flat
mappings are not left as they were, whatever else the loops do.
-/

/-- The lengths of all pages together, which a merge makes greater. -/
def total (objects : List MappingEntry) : ℕ := (objects.map fun e => e.2.page_size).sum

theorem total_modify_grow {objects : List MappingEntry} {k : ℕ} (hk : k < objects.length) (n : ℕ) :
    total (objects.modify k (grow n)) = total objects + n := by
  induction objects generalizing k with
  | nil => exact absurd hk (Nat.not_lt_zero k)
  | cons e objects ih =>
    cases k with
    | zero =>
      rw [List.modify_zero_cons]
      simp only [total, grow, List.map_cons, List.sum_cons]
      omega
    | succ k =>
      have hrest := ih (Nat.lt_of_succ_lt_succ hk)
      rw [List.modify_succ_cons]
      simp only [total, List.map_cons, List.sum_cons] at hrest ⊢
      omega

/-- Every merged item makes some object longer. -/
theorem merge_items_total {same : List (ℕ × ℕ)} {es : List MappingEntry} {i : ℕ}
    {s s' : MergeState} (h : merge_items same i es s = some s')
    (hpos : ∀ c ∈ s.coalesced, c.2 < s.objects.length) (hlen : i + es.length ≤ s.objects.length)
    (hne : ∀ e ∈ es, e.1.1 < e.1.2) :
    total s.objects ≤ total s'.objects ∧
      ((∃ k < es.length, same.lookup (i + k) ≠ none) → total s.objects < total s'.objects) := by
  induction es generalizing i s with
  | nil =>
    obtain rfl := Option.some.inj h
    exact ⟨le_rfl, fun hk => absurd hk (by simp)⟩
  | cons e es ih =>
    rw [List.length_cons] at hlen
    have hrest : ∀ f ∈ es, f.1.1 < f.1.2 := fun f hf => hne f (List.mem_cons_of_mem e hf)
    rw [merge_items] at h
    cases hlook : same.lookup i with
    | some start =>
      rw [hlook] at h
      dsimp only at h
      cases hstart : s.coalesced.lookup start with
      | none =>
        rw [hstart] at h
        cases h
      | some k =>
        rw [hstart] at h
        have hk : k < s.objects.length := by
          obtain ⟨l₁, l₂, heq, -⟩ := List.lookup_eq_some_iff.mp hstart
          exact hpos (start, k) (by rw [heq]; simp)
        -- an object grows by an entry that is not empty
        have hgrow := total_modify_grow hk (e.1.2 - e.1.1)
        have hlonger := hne e List.mem_cons_self
        obtain ⟨hle, -⟩ := ih h (by simpa using hpos) (by
          rw [List.length_modify]
          omega) hrest
        dsimp only at hle
        rw [hgrow] at hle
        exact ⟨by omega, fun _ => by omega⟩
    | none =>
      rw [hlook] at h
      dsimp only at h
      -- the entry is an object of its own
      split_ifs at h with hnew
      obtain ⟨hle, hlt⟩ := ih h (by
        intro c hc
        rcases List.mem_append.mp hc with hc | hc
        · exact hpos c hc
        · rw [List.mem_singleton] at hc
          subst hc
          dsimp only
          omega) (show i + 1 + es.length ≤ s.objects.length by omega) hrest
      refine ⟨hle, fun hk => hlt ?_⟩
      obtain ⟨k, hk, hsome⟩ := hk
      cases k with
      | zero => exact absurd hlook hsome
      | succ k =>
        refine ⟨k, Nat.lt_of_succ_lt_succ hk, ?_⟩
        rwa [Nat.add_assoc, Nat.add_comm 1 k]

/-- Two neighbours that can be merged are marked somewhere in the list. -/
theorem mark_samers_of_not_isChain {es : List MappingEntry} {i cur : ℕ} {prev : MappingEntry}
    (h : ¬ (prev :: es).IsChain fun e f => ¬ Mergeable e f) :
    ∃ k < es.length, (mark_samers i prev cur es).lookup (i + k) ≠ none := by
  induction es generalizing i prev cur with
  | nil => exact absurd (List.isChain_singleton prev) h
  | cons e es ih =>
    rw [mark_samers]
    split_ifs with hm
    · exact ⟨0, Nat.succ_pos _, by simp⟩
    · have hrest : ¬ (e :: es).IsChain fun e f => ¬ Mergeable e f :=
        fun hc => h (List.isChain_cons_cons.mpr ⟨hm, hc⟩)
      obtain ⟨k, hk, hsome⟩ := @ih (i + 1) e.1.1 e hrest
      refine ⟨k + 1, Nat.succ_lt_succ hk, ?_⟩
      rwa [Nat.add_comm k 1, ← Nat.add_assoc]

theorem mark_samers_of_isChain {es : List MappingEntry} {prev : MappingEntry}
    (h : (prev :: es).IsChain fun e f => ¬ Mergeable e f) (i cur : ℕ) :
    mark_samers i prev cur es = [] := by
  induction es generalizing i prev cur with
  | nil => rfl
  | cons e es ih =>
    obtain ⟨hm, hrest⟩ := List.isChain_cons_cons.mp h
    rw [mark_samers, if_neg hm]
    exact ih hrest _ _

theorem samers_eq_nil {flat : List MappingEntry}
    (h : flat.IsChain fun e f => ¬ Mergeable e f) : samers flat = [] := by
  cases flat with
  | nil => rfl
  | cons e es => exact mark_samers_of_isChain h _ _

/-- A merge leaves a flat mapping longer than it was, so where all are unchanged no two neighbours
could be merged. -/
theorem unchanged_imp_isChain {flat : List MappingEntry} (hne : ∀ e ∈ flat, e.1.1 < e.1.2)
    {cc : List CoalescedEntry} (h : get_coalesced_mappings flat = some (cc, flat)) :
    flat.IsChain fun e f => ¬ Mergeable e f := by
  by_contra hchain
  obtain ⟨s, hs, hout⟩ := Option.map_eq_some_iff.mp h
  have hsame : s.objects = flat := congrArg Prod.snd hout
  obtain ⟨-, hlt⟩ := merge_items_total hs (fun c hc => absurd hc List.not_mem_nil) (by simp) hne
  rw [hsame] at hlt
  refine lt_irrefl _ (hlt ?_)
  cases flat with
  | nil => exact absurd List.isChain_nil hchain
  | cons e es =>
    obtain ⟨k, hk, hsome⟩ := @mark_samers_of_not_isChain es 1 e.1.1 e hchain
    exact ⟨1 + k, by rw [List.length_cons]; omega, by rwa [Nat.zero_add]⟩

/-! ## Without merges

If no neighbours can be merged, every flat mapping has its own entry, and sorting the keys
changes nothing, since they are in order already.
-/

/-- The flat mappings as entries of the result, before any gap is filled. -/
def as_ranges (flat : List MappingEntry) : List CoalescedEntry := flat.map fun e => (e.1, some e.2)

/-- `coalesced_mappings` when every item from `i` on gets an entry of its own. -/
def own_entries : ℕ → List MappingEntry → List (ℕ × ℕ)
  | _, [] => []
  | i, e :: es => (e.1.1, i) :: own_entries (i + 1) es

theorem merge_items_nil {es : List MappingEntry} {i : ℕ} {c : List (ℕ × ℕ)}
    {objects : List MappingEntry} (hfresh : ∀ e ∈ es, c.lookup e.1.1 = none)
    (hlt : es.Pairwise fun e f => e.1.1 < f.1.1) :
    merge_items [] i es ⟨c, objects⟩ = some ⟨c ++ own_entries i es, objects⟩ := by
  induction es generalizing i c with
  | nil => rw [merge_items, own_entries, List.append_nil]
  | cons e es ih =>
    obtain ⟨hfirst, hrest⟩ := List.pairwise_cons.mp hlt
    rw [merge_items, List.lookup_nil]
    dsimp only
    rw [if_pos (hfresh e List.mem_cons_self), ih _ hrest, own_entries, List.append_assoc]
    · rfl
    · intro f hf
      have hne : (f.1.1 == e.1.1) = false := by
        rw [beq_eq_false_iff_ne]
        exact (hfirst f hf).ne'
      rw [List.lookup_append, hfresh f (List.mem_cons_of_mem e hf), Option.none_or,
        List.lookup_cons, hne, List.lookup_nil]

theorem filterMap_own_entries {es : List MappingEntry} {i : ℕ} {objects : List MappingEntry}
    (hobjects : ∀ k, objects[i + k]? = es[k]?)
    (hsized : ∀ e ∈ es, e.1.2 = e.1.1 + e.2.page_size) :
    ((own_entries i es).filterMap fun c => objects[c.2]?.map fun e =>
      ((c.1, c.1 + e.2.page_size), some e.2)) = as_ranges es := by
  induction es generalizing i with
  | nil => rfl
  | cons e es ih =>
    have hhere : objects[i]? = some e := hobjects 0
    have hkey : (e.1.1, e.1.1 + e.2.page_size) = e.1 := by
      rw [← hsized e List.mem_cons_self]
    have hrest := @ih (i + 1) (fun k => by
      have h := hobjects (k + 1)
      rwa [List.getElem?_cons_succ, Nat.add_comm k 1, ← Nat.add_assoc] at h)
      (fun f hf => hsized f (List.mem_cons_of_mem e hf))
    rw [own_entries, List.filterMap_cons, hhere]
    dsimp only [Option.map_some]
    rw [hrest, hkey]
    rfl

section Sorting

theorem key_le_trans (a b c : ℕ × ℕ) (hab : key_le a b = true) (hbc : key_le b c = true) :
    key_le a c = true := by
  rw [key_le, decide_eq_true_iff] at *
  omega

theorem key_le_total (a b : ℕ × ℕ) : (key_le a b || key_le b a) = true := by
  rw [Bool.or_eq_true, key_le, key_le, decide_eq_true_iff, decide_eq_true_iff]
  omega

theorem key_le_antisymm (a b : ℕ × ℕ) (hab : key_le a b = true) (hba : key_le b a = true) :
    a = b := by
  rw [key_le, decide_eq_true_iff] at *
  apply Prod.ext <;> omega

theorem ascending_key_le {α : Type} {l : List (Ranged α)} (h : Ascending l) :
    l.Pairwise fun e f => key_le e.1 f.1 = true := by
  refine h.lt.imp fun {e f} hef => ?_
  rw [key_le, decide_eq_true_iff]
  exact .inl hef

/-- Sorting brings a permutation of an ascending list into its order. -/
theorem sortItems_ascending {α : Type} {d l : List (Ranged α)} (hperm : d.Perm l)
    (h : Ascending l) : sortItems key_le d = l :=
  sortItems_eq key_le_trans key_le_total key_le_antisymm hperm h.nodup (ascending_key_le h)

end Sorting

theorem ascending_as_ranges {flat : List MappingEntry} (h : Ascending flat) :
    Ascending (as_ranges flat) := by
  refine ⟨fun e he => ?_, ?_⟩
  · obtain ⟨f, hf, rfl⟩ := List.mem_map.mp he
    exact h.nonempty f hf
  · rw [as_ranges, List.pairwise_map]
    exact h.before

theorem FlatMappings.ascending (flat : FlatMappings) : Ascending flat.items := by
  have hne : ∀ e ∈ flat.items, e.1.1 < e.1.2 := by
    intro e he
    obtain ⟨hpos, hend⟩ := flat.sized e he
    omega
  refine ⟨hne, ?_⟩
  refine (flat.sorted.and flat.disjoint).imp_of_mem fun {e f} he hf h => ?_
  obtain ⟨hle, hdis⟩ := h
  rw [key_le, decide_eq_true_iff] at hle
  by_contra hover
  have hf' := hne f hf
  exact Set.disjoint_left.mp hdis (Set.mem_Ico.mpr ⟨by omega, by omega⟩ : f.1.1 ∈ _)
    (Set.mem_Ico.mpr ⟨le_rfl, hf'⟩)

/-- Without neighbours to merge the call only fills the gaps. -/
theorem get_coalesced_of_isChain (flat : FlatMappings)
    (h : flat.items.IsChain fun e f => ¬ Mergeable e f) :
    get_coalesced_mappings flat.items
      = some (sortItems key_le (fill_unmapped (as_ranges flat.items)), flat.items) := by
  have hasc := flat.ascending
  have hranges := ascending_as_ranges hasc
  have hkeyed : keyed_ranges ⟨own_entries 0 flat.items, flat.items⟩ = as_ranges flat.items := by
    rw [keyed_ranges]
    dsimp only
    rw [filterMap_own_entries (fun k => by rw [Nat.zero_add]) fun e he => (flat.sized e he).2]
    exact foldl_dictSet_of_nodup hranges.nodup
  rw [get_coalesced_mappings, samers_eq_nil h,
    merge_items_nil (fun e _ => List.lookup_nil) hasc.lt, List.nil_append]
  simp only [Option.map_some, hkeyed, sortItems_ascending (List.Perm.refl _) hranges]

/-! ## The gaps

The last loop, on an ascending list of ranges, adds the gaps between them and those before
the first and behind the last. The gap at the end stops at 0xffffffff, and this is where the
end of the space can be left out.
-/

theorem fill_gap_eq (cc : List CoalescedEntry) (x : CoalescedEntry × (ℕ × ℕ)) :
    fill_gap cc x = (gapBefore none x.2.2 x.1).foldl dictSet cc := by
  unfold fill_gap gapBefore
  split_ifs <;> rfl

/-- The last loop adds the gaps of the closed list behind it. -/
theorem foldl_fill_gap {filled : List CoalescedEntry} (h : Ascending filled) :
    ((filled.drop 1).dropLast.zip (filled.map Prod.fst)).foldl fill_gap filled
      = filled ++ gaps none filled := by
  have hnodup : ((filled ++ gaps none filled).map Prod.fst).Nodup :=
    ((withGaps_perm filled).map Prod.fst).nodup_iff.mp (ascending_withGaps h).nodup
  have hfold : ∀ (l : List (CoalescedEntry × (ℕ × ℕ))) (cc : List CoalescedEntry),
      l.foldl fill_gap cc = (l.flatMap fun x => gapBefore none x.2.2 x.1).foldl dictSet cc := by
    intro l
    induction l with
    | nil => exact fun cc => rfl
    | cons x l ih =>
      intro cc
      rw [List.foldl_cons, ih, fill_gap_eq, List.flatMap_cons, List.foldl_append]
  rw [hfold, flatMap_gapBefore, foldl_dictSet_of_nodup hnodup]

/-- The list with the space before its first and behind its last range. -/
def closed_ranges (first last : CoalescedEntry) (cc : List CoalescedEntry) : List CoalescedEntry :=
  (if first.1.1 ≠ 0 then [((0, first.1.1), none)] else []) ++ cc
    ++ if last.1.2 ≠ 0xffffffff then [((last.1.2, 0xffffffff), none)] else []

section Closed

variable {cc : List CoalescedEntry} {first last : CoalescedEntry}

theorem first_le (h : Ascending cc) (hfirst : cc.head? = some first) {e : CoalescedEntry}
    (he : e ∈ cc) : first.1.1 ≤ e.1.1 := by
  obtain ⟨t, rfl⟩ := List.head?_eq_some_iff.mp hfirst
  rcases List.mem_cons.mp he with rfl | he
  · exact le_rfl
  · have hb := ascending_cons.mp h
    exact hb.1.le.trans (hb.2.1 e he)

theorem le_last (h : Ascending cc) (hlast : cc.getLast? = some last) {e : CoalescedEntry}
    (he : e ∈ cc) : e.1.2 ≤ last.1.2 := by
  obtain ⟨t, rfl⟩ := List.getLast?_eq_some_iff.mp hlast
  rcases List.mem_append.mp he with he | he
  · have hb := (List.pairwise_append.mp h.before).2.2 e he last (List.mem_singleton_self _)
    exact hb.trans (h.nonempty last (by simp)).le
  · rw [List.mem_singleton] at he
    rw [he]

theorem ascending_closed (h : Ascending cc) (hfirst : cc.head? = some first)
    (hlast : cc.getLast? = some last) (hend : last.1.2 ≤ 0xffffffff) :
    Ascending (closed_ranges first last cc) := by
  have hfront : Ascending ((if first.1.1 ≠ 0 then [((0, first.1.1), none)] else []) ++ cc) := by
    split_ifs with h0
    · exact ascending_cons.mpr ⟨Nat.pos_of_ne_zero h0, fun e he => first_le h hfirst he, h⟩
    · exact h
  -- behind the ranges with a gap in front stands at most the gap up to 4 GB
  refine ⟨fun e he => ?_, ?_⟩
  · rcases List.mem_append.mp he with he | he
    · exact hfront.nonempty e he
    · split_ifs at he with h1
      · rw [List.mem_singleton] at he
        subst he
        dsimp only
        omega
      · exact absurd he List.not_mem_nil
  · refine List.pairwise_append.mpr ⟨hfront.before, ?_, ?_⟩
    · split_ifs
      · exact List.pairwise_singleton _ _
      · exact List.Pairwise.nil
    · intro e he f hf
      split_ifs at hf with h1
      · rw [List.mem_singleton] at hf
        subst hf
        rcases List.mem_append.mp he with he | he
        · split_ifs at he
          · rw [List.mem_singleton] at he
            subst he
            have hf' : first ∈ cc := List.mem_of_head? hfirst
            exact (h.nonempty first hf').le.trans (le_last h hlast hf')
          · exact absurd he List.not_mem_nil
        · exact le_last h hlast he
      · exact absurd hf List.not_mem_nil

/-- Filling the gaps of an ascending list that ends within the space closes it at both ends and
adds the gaps. -/
theorem fill_unmapped_eq (h : Ascending cc) (hfirst : cc.head? = some first)
    (hlast : cc.getLast? = some last) (hend : last.1.2 ≤ 0xffffffff) :
    fill_unmapped cc = closed_ranges first last cc ++ gaps none (closed_ranges first last cc) := by
  have hclosed := ascending_closed h hfirst hlast hend
  have hne : ∀ e ∈ cc, e.1.1 < e.1.2 := h.nonempty
  -- the space in front of the list is a new key
  have hfront : (if first.1.1 ≠ 0 then dictSet cc ((0, first.1.1), none) else cc)
      = if first.1.1 ≠ 0 then cc ++ [((0, first.1.1), none)] else cc := by
    split_ifs with h0
    · apply dictSet_of_new
      intro hin
      obtain ⟨e, he, hkey⟩ := List.mem_map.mp hin
      have hle := first_le h hfirst he
      rw [hkey] at hle
      exact h0 (Nat.le_zero.mp hle)
    · rfl
  -- and so is the space behind it
  have hback : ∀ d : List CoalescedEntry, (∀ e ∈ d, e ∈ cc ∨ e = ((0, first.1.1), none)) →
      (if last.1.2 ≠ 0xffffffff then dictSet d ((last.1.2, 0xffffffff), none) else d)
        = d ++ if last.1.2 ≠ 0xffffffff then [((last.1.2, 0xffffffff), none)] else [] := by
    intro d hd
    split_ifs with h1
    · apply dictSet_of_new
      intro hin
      obtain ⟨e, he, hkey⟩ := List.mem_map.mp hin
      have hlo : e.1.1 = last.1.2 := by rw [hkey]
      rcases hd e he with he | rfl
      · have hlt := hne e he
        have hle := le_last h hlast he
        omega
      · have hlast' := hne last (List.mem_of_getLast? hlast)
        dsimp only at hlo
        omega
    · rw [List.append_nil]
  have hsort : ∀ d : List CoalescedEntry, d.Perm (closed_ranges first last cc) →
      sortItems key_le d = closed_ranges first last cc :=
    fun d hperm => sortItems_ascending hperm hclosed
  unfold fill_unmapped
  rw [hfirst, hlast]
  dsimp only
  rw [hfront, hback, hsort, foldl_fill_gap hclosed]
  · unfold closed_ranges
    apply List.Perm.append_right
    split_ifs
    · exact List.perm_append_comm
    · exact List.Perm.refl _
  · intro e he
    split_ifs at he with h0
    · rcases List.mem_append.mp he with he | he
      · exact .inl he
      · exact .inr (List.mem_singleton.mp he)
    · exact .inl he

/-- The closed list starts at 0, whatever the first mapping is. -/
theorem head_closed (hfirst : cc.head? = some first) :
    ∃ e, (closed_ranges first last cc).head? = some e ∧ e.1.1 = 0 := by
  obtain ⟨t, rfl⟩ := List.head?_eq_some_iff.mp hfirst
  unfold closed_ranges
  by_cases h0 : first.1.1 = 0
  · refine ⟨first, ?_, h0⟩
    rw [if_neg (not_not.mpr h0)]
    rfl
  · refine ⟨((0, first.1.1), none), ?_, rfl⟩
    rw [if_pos h0]
    rfl

theorem getLast_closed (hlast : cc.getLast? = some last) :
    ∃ e, (closed_ranges first last cc).getLast? = some e ∧ e.1.2 = 0xffffffff := by
  unfold closed_ranges
  by_cases h1 : last.1.2 = 0xffffffff
  · refine ⟨last, ?_, h1⟩
    rw [if_neg (not_not.mpr h1), List.append_nil, List.getLast?_append, hlast, Option.some_or]
  · refine ⟨((last.1.2, 0xffffffff), none), ?_, rfl⟩
    rw [if_pos h1, List.getLast?_concat]

/-- Only a list that reaches the end by itself can leave its last range apart. -/
theorem lastTouches_closed (hfirst : cc.head? = some first) (hlast : cc.getLast? = some last) :
    LastTouches (closed_ranges first last cc)
      ↔ (last.1.2 = 0xffffffff → LastTouches cc) := by
  obtain ⟨t, rfl⟩ := List.head?_eq_some_iff.mp hfirst
  unfold closed_ranges
  by_cases h1 : last.1.2 = 0xffffffff
  · rw [if_neg (not_not.mpr h1), List.append_nil]
    by_cases h0 : first.1.1 = 0
    · rw [if_neg (not_not.mpr h0), List.nil_append]
      exact ⟨fun h _ => h, fun h => h h1⟩
    · rw [if_pos h0, List.singleton_append, lastTouches_cons]
      exact ⟨fun h _ => h.2, fun h => ⟨fun _ => rfl, h h1⟩⟩
  · rw [if_pos h1]
    refine ⟨fun _ h => absurd h h1, fun _ => lastTouches_concat ?_ rfl⟩
    rw [List.getLast?_append, hlast, Option.some_or]

/-- The space is covered exactly when the last two closed ranges touch. -/
theorem covers_closed_iff (h : Ascending (closed_ranges first last cc))
    (hfirst : cc.head? = some first) (hlast : cc.getLast? = some last) :
    (∀ a < 0xffffffff, ∃ e ∈ withGaps none (closed_ranges first last cc), Covers e a)
      ↔ LastTouches (closed_ranges first last cc) := by
  obtain ⟨e, he, he0⟩ := @head_closed cc first last hfirst
  obtain ⟨f, hf, hf1⟩ := @getLast_closed cc first last hlast
  constructor
  · intro hcov
    by_contra hnot
    obtain ⟨m, p, x, hm, hpx⟩ := exists_of_not_lastTouches hnot
    rw [hm] at h hcov hf
    have hx : x ∈ m ++ [p, x] := by simp
    have hxend := le_last h hf hx
    have hxne := h.nonempty x hx
    have hbefore : p.1.2 ≤ x.1.1 := by
      have hpair := (List.pairwise_append.mp h.before).2.1
      exact (List.pairwise_cons.mp hpair).1 x (List.mem_singleton_self x)
    obtain ⟨e, he, hin⟩ := hcov p.1.2 (by omega)
    exact hole_withGaps h (by omega) e he hin
  · intro ht a ha
    exact covered_withGaps ht he hf (by rw [he0]; exact Nat.zero_le a) (by rw [hf1]; exact ha)

end Closed

/-! ## The result

For a list without merges the result is known, so what it loses is read off it. The cases
left are an empty dictionary, a mapping that ends at 2^32, and one that leaves the last
address alone.
-/

theorem head_as_ranges {flat : List MappingEntry} {e : MappingEntry} (h : flat.head? = some e) :
    (as_ranges flat).head? = some (e.1, some e.2) := by
  rw [as_ranges, List.head?_map, h]
  rfl

theorem getLast_as_ranges {flat : List MappingEntry} {e : MappingEntry}
    (h : flat.getLast? = some e) : (as_ranges flat).getLast? = some (e.1, some e.2) := by
  rw [as_ranges, List.getLast?_map, h]
  rfl

/-- Without merges, and with the last mapping within the space, the result is the
closed list with its gaps. -/
theorem get_coalesced_eq (flat : FlatMappings)
    (hchain : flat.items.IsChain fun e f => ¬ Mergeable e f) {first last : MappingEntry}
    (hfirst : flat.items.head? = some first) (hlast : flat.items.getLast? = some last)
    (hend : last.1.2 ≤ 0xffffffff) :
    get_coalesced_mappings flat.items
      = some (withGaps none (closed_ranges (first.1, some first.2) (last.1, some last.2)
          (as_ranges flat.items)), flat.items) := by
  have hranges := ascending_as_ranges flat.ascending
  have hclosed := ascending_closed hranges (head_as_ranges hfirst) (getLast_as_ranges hlast) hend
  rw [get_coalesced_of_isChain flat hchain,
    fill_unmapped_eq hranges (head_as_ranges hfirst) (getLast_as_ranges hlast) hend,
    sortItems_ascending (withGaps_perm _).symm (ascending_withGaps hclosed)]

/-- A range of the result is a flat mapping exactly when it is not `None`. -/
theorem mem_withGaps_closed {flat : List MappingEntry} {first last : MappingEntry}
    {key : ℕ × ℕ} {m : LeafMapping} :
    (key, some m) ∈ withGaps none (closed_ranges (first.1, some first.2) (last.1, some last.2)
        (as_ranges flat)) ↔ (key, m) ∈ flat := by
  rw [(withGaps_perm _).mem_iff, List.mem_append]
  -- gaps and the two ranges at the ends carry no mapping
  have hnotgap : (key, some m) ∉ gaps none (closed_ranges (first.1, some first.2)
      (last.1, some last.2) (as_ranges flat)) := by
    intro hin
    cases snd_of_mem_gaps hin
  have hmem : (key, some m) ∈ as_ranges flat ↔ (key, m) ∈ flat := by
    constructor
    · intro hin
      obtain ⟨e, he, heq⟩ := List.mem_map.mp hin
      cases heq
      exact he
    · intro hin
      exact List.mem_map.mpr ⟨(key, m), hin, rfl⟩
  rw [or_iff_left hnotgap, ← hmem, closed_ranges, List.mem_append, List.mem_append]
  constructor
  · rintro ((h | h) | h)
    · split_ifs at h
      · cases List.mem_singleton.mp h
      · exact absurd h List.not_mem_nil
    · exact h
    · split_ifs at h
      · cases List.mem_singleton.mp h
      · exact absurd h List.not_mem_nil
  · exact fun h => .inl (.inr h)

/-- With the attributes and the mappings unchanged only the coverage is left to ask for. -/
theorem losesNothing_iff (flat : FlatMappings) {first last : MappingEntry}
    (hfirst : flat.items.head? = some first) (hlast : flat.items.getLast? = some last)
    (hend : last.1.2 ≤ 0xffffffff) :
    LosesNothing flat.items (withGaps none (closed_ranges (first.1, some first.2)
        (last.1, some last.2) (as_ranges flat.items))) flat.items
      ↔ (last.1.2 = 0xffffffff → LastTouches flat.items) := by
  have hranges := ascending_as_ranges flat.ascending
  have hclosed := ascending_closed hranges (head_as_ranges hfirst) (getLast_as_ranges hlast) hend
  have hall := @ascending_withGaps _ none _ hclosed
  have hcovers := covers_closed_iff hclosed (head_as_ranges hfirst) (getLast_as_ranges hlast)
  rw [lastTouches_closed (head_as_ranges hfirst) (getLast_as_ranges hlast), as_ranges,
    lastTouches_map, ← as_ranges] at hcovers
  refine ⟨fun h => hcovers.mp h.covers, fun h => ?_⟩
  refine ⟨hall.nonempty, hall.disjoint, hcovers.mpr h, ?_, ?_, rfl⟩
  · -- a flat mapping is a range of its own, apart from every other
    intro e he hnone a hea f hf hfa
    have hfin := (@mem_withGaps_closed flat.items first last f.1 f.2).mpr hf
    have hsymm : Std.Symm fun e f : CoalescedEntry =>
        Disjoint (Set.Ico e.1.1 e.1.2) (Set.Ico f.1.1 f.1.2) := ⟨fun _ _ h => h.symm⟩
    have hdis := hall.disjoint.forall he hfin (by
      intro heq
      rw [heq] at hnone
      cases hnone)
    exact Set.disjoint_left.mp hdis (Set.mem_Ico.mpr hea) (Set.mem_Ico.mpr hfa)
  · intro e he m hm a hea
    have hf : (e.1, m) ∈ flat.items := by
      refine (@mem_withGaps_closed flat.items first last e.1 m).mp ?_
      rw [← hm]
      exact he
    exact ⟨(e.1, m), hf, hea, rfl, rfl⟩

/-- The empty dictionary stays empty, without the gap that is the whole space. -/
theorem get_coalesced_nil : get_coalesced_mappings [] = some ([], []) := by
  have hempty : sortItems key_le ([] : List CoalescedEntry) = [] :=
    sortItems_of_pairwise List.Pairwise.nil
  change some (sortItems key_le (fill_unmapped (sortItems key_le [])), []) = _
  rw [hempty]
  change some (sortItems key_le [], []) = _
  rw [hempty]

/-- Behind a last range that does not end at 0xffffffff there is always another one. -/
theorem mem_keys_fill_unmapped {cc : List CoalescedEntry} {first last : CoalescedEntry}
    (hfirst : cc.head? = some first) (hlast : cc.getLast? = some last)
    (hend : last.1.2 ≠ 0xffffffff) :
    (last.1.2, 0xffffffff) ∈ (fill_unmapped cc).map Prod.fst := by
  have hfold : ∀ (l : List (CoalescedEntry × (ℕ × ℕ))) (d : List CoalescedEntry),
      (last.1.2, 0xffffffff) ∈ d.map Prod.fst →
        (last.1.2, 0xffffffff) ∈ (l.foldl fill_gap d).map Prod.fst := by
    intro l
    induction l with
    | nil => exact fun d hd => hd
    | cons x l ih =>
      intro d hd
      rw [List.foldl_cons, fill_gap_eq]
      exact ih _ (mem_keys_foldl_dictSet (.inl hd))
  unfold fill_unmapped
  rw [hfirst, hlast]
  dsimp only
  apply hfold
  rw [if_pos hend]
  have hperm := (@sortItems_perm _ _ key_le (dictSet (if first.1.1 ≠ 0 then
    dictSet cc ((0, first.1.1), none) else cc) ((last.1.2, 0xffffffff), none))).map Prod.fst
  rw [hperm.mem_iff]
  exact mem_keys_dictSet (.inr rfl)

/-- A mapping that ends at 2^32 is followed by a range that ends before it starts. -/
theorem inverted_range (flat : FlatMappings)
    (hchain : flat.items.IsChain fun e f => ¬ Mergeable e f) {first last : MappingEntry}
    (hfirst : flat.items.head? = some first) (hlast : flat.items.getLast? = some last)
    (hend : last.1.2 = 2 ^ 32) {cc : List CoalescedEntry} {left : List MappingEntry}
    (h : get_coalesced_mappings flat.items = some (cc, left)) :
    ∃ e ∈ cc, e.1 = (2 ^ 32, 0xffffffff) := by
  rw [get_coalesced_of_isChain flat hchain] at h
  obtain ⟨rfl, -⟩ := Prod.mk.inj (Option.some.inj h)
  have hkey := mem_keys_fill_unmapped (head_as_ranges hfirst) (getLast_as_ranges hlast)
    (by rw [hend]; decide)
  rw [hend] at hkey
  obtain ⟨e, he, heq⟩ := List.mem_map.mp hkey
  exact ⟨e, (sortItems_perm _).mem_iff.mpr he, heq⟩

/-- **Coalescing loses nothing exactly when there is nothing to lose.** For every flat dump of
ordered and disjoint mappings; the condition is on neighbours and on the last mapping. -/
theorem coalesces_well_iff (flat : FlatMappings) :
    CoalescesWell flat.items ↔ NothingToLose flat.items := by
  constructor
  · rintro ⟨cc, left, hget, hwell⟩
    obtain rfl := hwell.unchanged
    have hchain := unchanged_imp_isChain flat.ascending.nonempty hget
    by_cases hnil : flat.items = []
    · -- nothing mapped, nothing covered
      rw [hnil] at hget
      rw [get_coalesced_nil] at hget
      obtain ⟨rfl, -⟩ := Prod.mk.inj (Option.some.inj hget)
      obtain ⟨e, he, -⟩ := hwell.covers 0 (by decide)
      exact absurd he List.not_mem_nil
    obtain ⟨first, hfirst⟩ := Option.isSome_iff_exists.mp (List.isSome_head?.mpr hnil)
    obtain ⟨last, hlast⟩ := Option.isSome_iff_exists.mp (List.getLast?_isSome.mpr hnil)
    have hwithin := flat.within last (List.mem_of_getLast? hlast)
    have hbelow : last.1.2 ≠ 2 ^ 32 := by
      intro hend
      obtain ⟨e, he, hkey⟩ := inverted_range flat hchain hfirst hlast hend hget
      have hlt := hwell.nonempty e he
      rw [hkey] at hlt
      exact absurd hlt (by decide)
    have hend : last.1.2 ≤ 0xffffffff := by omega
    rw [get_coalesced_eq flat hchain hfirst hlast hend] at hget
    obtain ⟨rfl, -⟩ := Prod.mk.inj (Option.some.inj hget)
    have hclosed := (losesNothing_iff flat hfirst hlast hend).mp hwell
    refine ⟨hnil, hchain, fun l hl => ?_, fun l hl => ?_⟩
    · obtain rfl := Option.some.inj (hlast.symm.trans hl)
      exact hbelow
    · obtain rfl := Option.some.inj (hlast.symm.trans hl)
      exact hclosed
  · intro h
    obtain ⟨first, hfirst⟩ := Option.isSome_iff_exists.mp (List.isSome_head?.mpr h.some_mapping)
    obtain ⟨last, hlast⟩ :=
      Option.isSome_iff_exists.mp (List.getLast?_isSome.mpr h.some_mapping)
    have hwithin := flat.within last (List.mem_of_getLast? hlast)
    have hbelow := h.ends_below last hlast
    have hend : last.1.2 ≤ 0xffffffff := by omega
    exact ⟨_, _, get_coalesced_eq flat h.none_merged hfirst hlast hend,
      (losesNothing_iff flat hfirst hlast hend).mpr (h.closed_end last hlast)⟩

/-- Two pages next to each other, their frames 1 MB apart. -/
def apart_pages : FlatMappings where
  items := [((0x1000, 0x2000), ⟨0x40000003, 0x1000, 0x40000000⟩),
    ((0x2000, 0x3000), ⟨0x40100003, 0x1000, 0x40100000⟩)]
  sized := by decide
  within := by decide
  sorted := by decide
  disjoint := by simp

theorem apart_pages_merged : ¬ CoalescesWell apart_pages.items := by
  rintro ⟨cc, left, hget, hwell⟩
  obtain rfl := hwell.unchanged
  have hchain := unchanged_imp_isChain apart_pages.ascending.nonempty hget
  exact absurd hchain (by decide)

end AndroidTools.Ramdump
