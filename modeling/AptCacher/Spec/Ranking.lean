import Mathlib.Data.Finset.Card
import Mathlib.Data.List.Basic
import Mathlib.Data.List.Sort
import Mathlib.Data.Prod.Lex

/-!
# The first classes of a sorted list

A list sorted by a key falls apart into classes of one key each. A scan that counts where the key
changes takes the first classes.

* `above keys k`: how many of the keys are above `k`.
* `takeClasses crosses n`: the scan; `crosses` tells neighbours of different classes.
* `mem_takeClasses`: it takes the elements with fewer than `n` keys above theirs.
* `rank`: how many elements of a set have a larger key; `le_card_rank_lt`: below an element of
  rank `n` or more stand `n` elements of rank less than `n`.
* `SortSlice`, `Sorts`: a sort by a strict weak order on the elements; `mergeSlice` and
  `insertionSlice` are such.
* `stableSort`: a stable sort by a key; `before_of_cut`, `length_filter_cut`: what a cut of it
  takes.
-/

namespace AptCacher.Spec.Ranking

variable {α κ : Type} [Ord κ] [Std.TransOrd κ] [Std.LawfulEqOrd κ] [DecidableEq κ]

/-- How many of the keys are above `k`. -/
def above (keys : Finset κ) (k : κ) : ℕ := (keys.filter fun k' => compare k k' = .lt).card

/-- The elements up to the end of the `n`th class; `classes` changes were seen before them. -/
def takeClasses (crosses : α → α → Bool) (n : ℕ) : Option α → ℕ → List α → List α
  | _, _, [] => []
  | prev, classes, v :: rest =>
    let classes := if prev.any (fun u => crosses u v) then classes + 1 else classes
    if n ≤ classes then [] else v :: takeClasses crosses n (some v) classes rest

omit [DecidableEq κ] [Std.LawfulEqOrd κ] in
theorem above_le (keys : Finset κ) {k l : κ} (h : (compare k l).isLE = true) :
    above keys l ≤ above keys k := by
  refine Finset.card_le_card fun x hx => ?_
  obtain ⟨hmem, hlt⟩ := Finset.mem_filter.mp hx
  exact Finset.mem_filter.mpr ⟨hmem, Std.TransCmp.lt_of_isLE_of_lt h hlt⟩

omit [DecidableEq κ] [Std.TransOrd κ] [Std.LawfulEqOrd κ] in
theorem above_eq_zero [Std.OrientedOrd κ] {keys : Finset κ} {k : κ}
    (h : ∀ l ∈ keys, (compare l k).isLE = true) : above keys k = 0 := by
  refine Finset.card_eq_zero.mpr (Finset.filter_eq_empty_iff.mpr fun l hl hlt => ?_)
  have hle := h l hl
  rw [Std.OrientedOrd.eq_swap (a := l), hlt] at hle
  cases hle

theorem above_succ {keys : Finset κ} {k l : κ} (hl : l ∈ keys) (hlt : compare k l = .lt)
    (h : ∀ x ∈ keys, (compare x k).isLE = true ∨ (compare l x).isLE = true) :
    above keys k = above keys l + 1 := by
  have hinsert : keys.filter (fun x => compare k x = .lt) =
      insert l (keys.filter fun x => compare l x = .lt) := by
    ext x
    simp only [Finset.mem_insert, Finset.mem_filter]
    constructor
    · rintro ⟨hx, hkx⟩
      rcases h x hx with hle | hle
      · rw [Std.OrientedOrd.eq_swap (a := x), hkx] at hle
        cases hle
      · cases hc : compare l x with
        | lt => exact .inr ⟨hx, rfl⟩
        | eq => exact .inl (Std.LawfulEqOrd.eq_of_compare hc).symm
        | gt =>
          rw [hc] at hle
          cases hle
    · rintro (rfl | ⟨hx, hlx⟩)
      · exact ⟨hl, hlt⟩
      · exact ⟨hx, Std.TransCmp.lt_trans hlt hlx⟩
  rw [above, hinsert, Finset.card_insert_of_notMem (by simp [Std.compare_self]), above]

section Scan

variable {key : α → κ} {crosses : α → α → Bool} {n : ℕ} {p rest : List α} {v : α}

/-- The keys of a list. -/
def keysOf (key : α → κ) (l : List α) : Finset κ := (l.map key).toFinset

omit [Ord κ] [Std.TransOrd κ] [Std.LawfulEqOrd κ] in
theorem mem_keysOf {l : List α} {k : κ} : k ∈ keysOf key l ↔ ∃ x ∈ l, key x = k := by
  simp [keysOf]

/-- The keys fall. -/
def Falls (key : α → κ) (l : List α) : Prop :=
  l.Pairwise fun a b => (compare (key b) (key a)).isLE = true

/-- What was counted before `v` makes the number of keys above that of `v`. -/
theorem classes_eq {prev : Option α} {classes : ℕ} (h : Falls key (p ++ v :: rest))
    (hcross : ∀ a ∈ p ++ v :: rest, ∀ b ∈ p ++ v :: rest, crosses a b = true ↔ key a ≠ key b)
    (hprev : prev = p.getLast?)
    (hclasses : classes = prev.elim 0 fun u => above (keysOf key (p ++ v :: rest)) (key u)) :
    (if prev.any (fun u => crosses u v) then classes + 1 else classes) =
      above (keysOf key (p ++ v :: rest)) (key v) := by
  obtain ⟨-, hrest, hacross⟩ := List.pairwise_append.mp h
  have hbelow : ∀ x ∈ v :: rest, (compare (key x) (key v)).isLE = true := by
    intro x hx
    rcases List.mem_cons.mp hx with rfl | hx
    · rw [Std.compare_self]
      rfl
    · exact (List.pairwise_cons.mp hrest).1 x hx
  have hv : v ∈ p ++ v :: rest := by simp
  rcases List.eq_nil_or_concat p with rfl | ⟨p, u, rfl⟩
  · obtain rfl : prev = none := hprev
    rw [hclasses, if_neg (by simp)]
    refine (above_eq_zero fun l hl => ?_).symm
    obtain ⟨x, hx, rfl⟩ := mem_keysOf.mp hl
    exact hbelow x hx
  · obtain rfl : prev = some u := by simpa using hprev
    have hu : u ∈ p.concat u ++ v :: rest := by simp
    rw [hclasses, Option.elim_some, Option.any_some]
    by_cases hkey : key u = key v
    · rw [if_neg (by simpa using fun hc => (hcross u hu v hv).mp hc hkey), hkey]
    · rw [if_pos ((hcross u hu v hv).mpr hkey)]
      have hle : (compare (key v) (key u)).isLE = true := hacross u (by simp) v (by simp)
      have hlt : compare (key v) (key u) = .lt := by
        cases hc : compare (key v) (key u) with
        | lt => rfl
        | eq => exact absurd (Std.LawfulEqOrd.eq_of_compare hc).symm hkey
        | gt =>
          rw [hc] at hle
          cases hle
      refine (above_succ (mem_keysOf.mpr ⟨u, hu, rfl⟩) hlt fun l hl => ?_).symm
      obtain ⟨x, hx, rfl⟩ := mem_keysOf.mp hl
      rcases List.mem_append.mp hx with hx | hx
      · -- what stands before `v` stands before `u`, or is `u`
        right
        rw [List.concat_eq_append] at hx h
        rcases List.mem_append.mp hx with hx | hx
        · exact (List.pairwise_append.mp (List.pairwise_append.mp h).1).2.2 x hx u (by simp)
        · rw [List.mem_singleton.mp hx, Std.compare_self]
          rfl
      · exact .inl (hbelow x hx)

theorem mem_takeClasses_from {prev : Option α} {classes : ℕ} (h : Falls key (p ++ rest))
    (hcross : ∀ a ∈ p ++ rest, ∀ b ∈ p ++ rest, crosses a b = true ↔ key a ≠ key b)
    (hprev : prev = p.getLast?)
    (hclasses : classes = prev.elim 0 fun u => above (keysOf key (p ++ rest)) (key u)) :
    v ∈ takeClasses crosses n prev classes rest ↔
      v ∈ rest ∧ above (keysOf key (p ++ rest)) (key v) < n := by
  induction rest generalizing p prev classes with
  | nil => simp [takeClasses]
  | cons w rest ih =>
    have hw := classes_eq h hcross hprev hclasses
    have hfalls := (List.pairwise_append.mp h).2.1
    rw [takeClasses, hw]
    by_cases hn : n ≤ above (keysOf key (p ++ w :: rest)) (key w)
    · rw [if_pos hn]
      refine iff_of_false List.not_mem_nil fun ⟨hv, hlt⟩ => ?_
      have hle : (compare (key v) (key w)).isLE = true := by
        rcases List.mem_cons.mp hv with rfl | hv
        · rw [Std.compare_self]
          rfl
        · exact (List.pairwise_cons.mp hfalls).1 v hv
      have := above_le (keysOf key (p ++ w :: rest)) hle
      omega
    · have happend : p ++ w :: rest = (p ++ [w]) ++ rest := by simp
      rw [if_neg hn, List.mem_cons, List.mem_cons]
      rw [happend] at h hcross hn ⊢
      have htail : v ∈ takeClasses crosses n (some w)
          (above (keysOf key (p ++ [w] ++ rest)) (key w)) rest ↔ _ :=
        ih h hcross List.getLast?_concat.symm rfl
      rw [htail]
      constructor
      · rintro (rfl | ⟨hv, hlt⟩)
        · exact ⟨.inl rfl, by omega⟩
        · exact ⟨.inr hv, hlt⟩
      · rintro ⟨rfl | hv, hlt⟩
        · exact .inl rfl
        · exact .inr ⟨hv, hlt⟩

/-- The scan takes the elements that have fewer than `n` keys above theirs. -/
theorem mem_takeClasses {l : List α} (h : Falls key l)
    (hcross : ∀ a ∈ l, ∀ b ∈ l, crosses a b = true ↔ key a ≠ key b) :
    v ∈ takeClasses crosses n none 0 l ↔ v ∈ l ∧ above (keysOf key l) (key v) < n :=
  mem_takeClasses_from (p := []) h hcross rfl rfl

end Scan

/-! ## Ranks -/

section Rank

variable {β ν : Type} [LinearOrder ν] {S : Finset β} {key : β → ν} {a b : β}

/-- How many elements have a larger key. -/
def rank (S : Finset β) (key : β → ν) (a : β) : ℕ := (S.filter fun x => key a < key x).card

theorem rank_lt (hb : b ∈ S) (h : key a < key b) : rank S key b < rank S key a := by
  refine Finset.card_lt_card (Finset.ssubset_iff_subset_ne.mpr ⟨fun x hx => ?_, fun heq => ?_⟩)
  · obtain ⟨hmem, hlt⟩ := Finset.mem_filter.mp hx
    exact Finset.mem_filter.mpr ⟨hmem, h.trans hlt⟩
  · have hb' : b ∈ S.filter fun x => key b < key x := heq ▸ Finset.mem_filter.mpr ⟨hb, h⟩
    exact lt_irrefl _ (Finset.mem_filter.mp hb').2

/-- The elements with larger keys than `a` have the ranks below that of `a`, one each. -/
theorem image_rank (hinj : Set.InjOn key S) (a : β) :
    (S.filter fun x => key a < key x).image (rank S key) = Finset.range (rank S key a) := by
  refine Finset.eq_of_subset_of_card_le (fun r hr => ?_) ?_
  · obtain ⟨x, hx, rfl⟩ := Finset.mem_image.mp hr
    obtain ⟨hx, hlt⟩ := Finset.mem_filter.mp hx
    exact Finset.mem_range.mpr (rank_lt hx hlt)
  · rw [Finset.card_range, Finset.card_image_of_injOn]
    · exact le_rfl
    · intro x hx y hy hxy
      have hx := (Finset.mem_filter.mp (Finset.mem_coe.mp hx)).1
      have hy := (Finset.mem_filter.mp (Finset.mem_coe.mp hy)).1
      refine hinj hx hy (le_antisymm ?_ ?_)
      · exact not_lt.mp fun hlt => (rank_lt hx hlt).ne hxy
      · exact not_lt.mp fun hlt => (rank_lt hy hlt).ne hxy.symm

/-- If `n` elements have larger keys than `a`, so have `n` elements of rank less than `n`. -/
theorem le_card_rank_lt (hinj : Set.InjOn key S) {n : ℕ} (h : n ≤ rank S key a) :
    n ≤ (S.filter fun x => key a < key x ∧ rank S key x < n).card := by
  have htop : Finset.range n ⊆
      (S.filter fun x => key a < key x ∧ rank S key x < n).image (rank S key) := by
    intro r hr
    have hr := Finset.mem_range.mp hr
    have hin := Finset.mem_range.mpr (hr.trans_le h)
    rw [← image_rank hinj] at hin
    obtain ⟨x, hx, rfl⟩ := Finset.mem_image.mp hin
    obtain ⟨hmem, hlt⟩ := Finset.mem_filter.mp hx
    exact Finset.mem_image_of_mem _ (Finset.mem_filter.mpr ⟨hmem, hlt, hr⟩)
  calc n = (Finset.range n).card := (Finset.card_range n).symm
    _ ≤ _ := Finset.card_le_card htop
    _ ≤ _ := Finset.card_image_le

end Rank

/-! ## Sorting -/

/-- A strict weak order on the elements of a list. -/
structure StrictWeak (less : α → α → Bool) (l : List α) : Prop where
  asymm : ∀ a ∈ l, ∀ b ∈ l, less a b = true → less b a = false
  /-- What is not less than something that is not less than `a` is not less than `a`. -/
  trans : ∀ a ∈ l, ∀ b ∈ l, ∀ c ∈ l, less b a = false → less c b = false → less c a = false

/-- A sort, given the order and the list. -/
abbrev SortSlice (α : Type) := (α → α → Bool) → List α → List α

/-- By a strict weak order the sort puts nothing behind what it is less than. -/
def Sorts (sort : SortSlice α) : Prop := ∀ less l, StrictWeak less l →
  (sort less l).Perm l ∧ (sort less l).Pairwise fun a b => less b a = false

/-- A strict weak order in which no two elements tie. -/
structure StrictLinear (less : α → α → Bool) (l : List α) : Prop extends StrictWeak less l where
  eq_of_tie : ∀ a ∈ l, ∀ b ∈ l, less a b = false → less b a = false → a = b

theorem StrictLinear.subset {less : α → α → Bool} {l l' : List α} (h : StrictLinear less l)
    (hs : l' ⊆ l) : StrictLinear less l' where
  asymm a ha b hb := h.asymm a (hs ha) b (hs hb)
  trans a ha b hb c hc := h.trans a (hs ha) b (hs hb) c (hs hc)
  eq_of_tie a ha b hb := h.eq_of_tie a (hs ha) b (hs hb)

/-- Where no two elements tie, the sort of a list is that of its elements in any order. -/
theorem Sorts.eq_of_perm {sort : SortSlice α} {less : α → α → Bool} {l l' : List α}
    (hsort : Sorts sort) (h : StrictLinear less l) (hp : l'.Perm l) : sort less l' = sort less l := by
  obtain ⟨hp₁, hs₁⟩ := hsort less l' (h.subset hp.subset).toStrictWeak
  obtain ⟨hp₂, hs₂⟩ := hsort less l h.toStrictWeak
  have hperm := (hp₁.trans hp).trans hp₂.symm
  refine List.Perm.eq_of_pairwise (fun a b ha hb hab hba => ?_) hs₁ hs₂ hperm
  exact h.eq_of_tie a ((hp₁.trans hp).subset ha) b (hp₂.subset hb) hba hab

/-- Merge sort. -/
def mergeSlice : SortSlice α := fun less l =>
  (l.attach.mergeSort fun a b => !less b.1 a.1).map Subtype.val

theorem mergeSlice_sorts : Sorts (mergeSlice : SortSlice α) := by
  intro less l h
  refine ⟨?_, ?_⟩
  · have := (List.mergeSort_perm l.attach fun a b => !less b.1 a.1).map Subtype.val
    rwa [List.attach_map_subtype_val] at this
  · refine List.pairwise_map.mpr ?_
    have htrans : ∀ a b c : {x // x ∈ l}, (!less b.1 a.1) = true → (!less c.1 b.1) = true →
        (!less c.1 a.1) = true := by
      intro a b c hab hbc
      have := h.trans a.1 a.2 b.1 b.2 c.1 c.2 (by simpa using hab) (by simpa using hbc)
      simpa using this
    have htotal : ∀ a b : {x // x ∈ l}, ((!less b.1 a.1) || !less a.1 b.1) = true := by
      intro a b
      cases hba : less b.1 a.1 with
      | false => rfl
      | true => simp [h.asymm b.1 b.2 a.1 a.2 hba]
    exact (List.pairwise_mergeSort htrans htotal l.attach).imp fun hab => by simpa using hab

/-- Insertion sort from the left: each element moves left past those that it is less than. -/
def insertionSlice : SortSlice α := fun less l =>
  (l.attach.reverse.insertionSort fun a b => !less a.1 b.1).reverse.map Subtype.val

theorem insertionSlice_sorts : Sorts (insertionSlice : SortSlice α) := by
  intro less l h
  refine ⟨?_, ?_⟩
  · have := (((List.reverse_perm _).trans ((List.perm_insertionSort
      (fun a b : {x // x ∈ l} => !less a.1 b.1) l.attach.reverse).trans
        (List.reverse_perm _))).map Subtype.val)
    rwa [List.attach_map_subtype_val] at this
  · have htrans : IsTrans {x // x ∈ l} fun a b => (!less a.1 b.1) = true := by
      constructor
      intro a b c hab hbc
      have := h.trans c.1 c.2 b.1 b.2 a.1 a.2 (by simpa using hbc) (by simpa using hab)
      simpa using this
    have htotal : Std.Total fun a b : {x // x ∈ l} => (!less a.1 b.1) = true := by
      constructor
      intro a b
      cases hab : less a.1 b.1 with
      | false => exact .inl rfl
      | true => exact .inr (by rw [h.asymm a.1 a.2 b.1 b.2 hab]; rfl)
    refine List.pairwise_map.mpr (List.pairwise_reverse.mpr ?_)
    exact (List.pairwise_insertionSort (fun a b : {x // x ∈ l} => !less a.1 b.1)
      l.attach.reverse).imp fun hab => by simpa using hab

/-! ## The first elements of a stable sort -/

section Cut

variable {α κ : Type} [LinearOrder κ] {key : α → κ} {R : α → α → Prop} {l : List α} {n : ℕ}
  {a b : α}

/-- `a` is before `b`: its key is smaller, or the keys are equal and `R a b`. -/
def Before (key : α → κ) (R : α → α → Prop) (a b : α) : Prop :=
  key a < key b ∨ key a = key b ∧ R a b

/-- A stable sort by a key. -/
def stableSort (key : α → κ) (l : List α) : List α := l.insertionSort fun a b => key a ≤ key b

theorem stableSort_perm (key : α → κ) (l : List α) : (stableSort key l).Perm l :=
  List.perm_insertionSort _ l

/-- An element that comes first in the list stays before those of its key. -/
theorem orderedInsert_before (hl : l.Pairwise (Before key R)) (ha : ∀ b ∈ l, R a b) :
    (l.orderedInsert (fun a b => key a ≤ key b) a).Pairwise (Before key R) := by
  induction l with
  | nil => exact List.pairwise_singleton _ _
  | cons c l ih =>
    obtain ⟨hc, hl⟩ := List.pairwise_cons.mp hl
    by_cases hle : key a ≤ key c
    · rw [List.orderedInsert_cons_of_le _ l hle]
      refine List.pairwise_cons.mpr ⟨fun b hb => ?_, List.pairwise_cons.mpr ⟨hc, hl⟩⟩
      have hab : key a ≤ key b := by
        rcases List.mem_cons.mp hb with rfl | hmem
        · exact hle
        · rcases hc b hmem with hlt | ⟨heq, -⟩
          · exact hle.trans hlt.le
          · exact hle.trans heq.le
      rcases hab.lt_or_eq with hlt | heq
      · exact .inl hlt
      · exact .inr ⟨heq, ha b hb⟩
    · rw [List.orderedInsert_of_not_le _ l hle]
      refine List.pairwise_cons.mpr ⟨fun b hb => ?_, ?_⟩
      case refine_2 => exact ih hl fun b hb => ha b (List.mem_cons_of_mem _ hb)
      rcases (List.mem_orderedInsert _).mp hb with rfl | hmem
      · exact .inl (not_le.mp hle)
      · exact hc b hmem

/-- Of a list in the order of `R`, the sort is in the order of the keys and, where they are equal,
of `R`. -/
theorem stableSort_before (h : l.Pairwise R) : (stableSort key l).Pairwise (Before key R) := by
  induction l with
  | nil => exact List.Pairwise.nil
  | cons a l ih =>
    obtain ⟨ha, hl⟩ := List.pairwise_cons.mp h
    refine orderedInsert_before (ih hl) fun b hb => ?_
    exact ha b ((stableSort_perm key l).mem_iff.mp hb)

theorem before_of_cut (h : l.Pairwise R) (ha : a ∈ (stableSort key l).take n) (hb : b ∈ l)
    (hcut : b ∉ (stableSort key l).take n) : Before key R a b := by
  have hsort : (stableSort key l).Pairwise (Before key R) := stableSort_before h
  rw [← List.take_append_drop n (stableSort key l)] at hsort
  refine (List.pairwise_append.mp hsort).2.2 a ha b ?_
  have hmem : b ∈ (stableSort key l).take n ++ (stableSort key l).drop n := by
    rw [List.take_append_drop]
    exact (stableSort_perm key l).mem_iff.mpr hb
  exact (List.mem_append.mp hmem).resolve_left hcut

/-- The elements that a cut takes, in the order of the list: as many as fit. -/
theorem length_filter_cut {p : α → Bool} (h : l.Nodup)
    (hp : ∀ x ∈ l, p x = true ↔ x ∈ (stableSort key l).take n) :
    (l.filter p).length = min n l.length := by
  have hsub : ∀ x ∈ (stableSort key l).take n, x ∈ l := fun x hx =>
    (stableSort_perm key l).mem_iff.mp (List.mem_of_mem_take hx)
  have hnodup : ((stableSort key l).take n).Nodup :=
    (List.take_sublist n _).nodup ((stableSort_perm key l).nodup_iff.mpr h)
  have hperm : (l.filter p).Perm ((stableSort key l).take n) := by
    refine (List.perm_ext_iff_of_nodup (h.filter p) hnodup).mpr fun x => ?_
    rw [List.mem_filter]
    constructor
    · rintro ⟨hx, hpx⟩
      exact (hp x hx).mp hpx
    · intro hx
      exact ⟨hsub x hx, (hp x (hsub x hx)).mpr hx⟩
  rw [hperm.length_eq, List.length_take, (stableSort_perm key l).length_eq]

end Cut

end AptCacher.Spec.Ranking
