import AptCacher.Debversion.Order
import AptCacher.Spec.Ranking

/-!
# The newest versions

`keepNewestNVersionSet` picks, among the version strings of a package, those of the newest `n`
classes of equal versions. The prefetch of a hot package and the retention of cached packages use it.

* `distinct`, `newer`, `keepNewestNVersionSet`: as in the source; the sort is a parameter.
* `newer_strictLinear`: the order of the sort is a strict linear one on strings without a NUL byte;
  `keepNewestNVersionSet_congr`: where it is, the order in which the strings are read is all one.
* `newest_selection`: a string is kept if and only if fewer than `n` classes are newer.
-/

namespace AptCacher.Cache

open Spec Ranking Debversion

def defaultMaxVersionsPerPackage : Int := 3

/-- An `n` below 1 is not set. -/
def clampVersions (n : Int) : Int := if n < 1 then defaultMaxVersionsPerPackage else n

/-- The strings without repetitions, in the order of their first occurrence. -/
def distinct (versions : List Str) : List Str :=
  versions.foldl (fun acc v => if v ∈ acc then acc else acc ++ [v]) []

/-- The order of the sort: newest first, equal versions by their strings. -/
def newer (u v : Str) : Bool :=
  if Debversion.compare u v ≠ 0 then 0 < Debversion.compare u v else u < v

def keepNewestNVersionSet (sort : SortSlice Str) (versions : List Str) (n : Int) : List Str :=
  takeClasses (fun u v => Debversion.compare u v ≠ 0) (clampVersions n).toNat none 0
    (sort newer (distinct versions))

variable {versions acc : List Str}

theorem mem_foldl_distinct {v : Str} :
    v ∈ versions.foldl (fun acc v => if v ∈ acc then acc else acc ++ [v]) acc ↔
      v ∈ acc ∨ v ∈ versions := by
  induction versions generalizing acc with
  | nil => simp
  | cons w versions ih =>
    rw [List.foldl_cons, ih, List.mem_cons]
    split
    · rename_i hw
      constructor
      · rintro (h | h)
        · exact .inl h
        · exact .inr (.inr h)
      · rintro (h | rfl | h)
        · exact .inl h
        · exact .inl hw
        · exact .inr h
    · rw [List.mem_append, List.mem_singleton, or_assoc]

theorem mem_distinct {v : Str} : v ∈ distinct versions ↔ v ∈ versions := by
  rw [distinct, mem_foldl_distinct]
  simp

theorem foldl_distinct_of_nodup (h : (acc ++ versions).Nodup) :
    versions.foldl (fun acc v => if v ∈ acc then acc else acc ++ [v]) acc = acc ++ versions := by
  induction versions generalizing acc with
  | nil => exact (List.append_nil acc).symm
  | cons v versions ih =>
    have hv : v ∉ acc := fun hv =>
      (List.nodup_append.mp h).2.2 v hv v List.mem_cons_self rfl
    rw [List.foldl_cons, if_neg hv, ih (by simpa using h)]
    simp

theorem nodup_foldl_distinct (h : acc.Nodup) :
    (versions.foldl (fun acc v => if v ∈ acc then acc else acc ++ [v]) acc).Nodup := by
  induction versions generalizing acc with
  | nil => exact h
  | cons v versions ih =>
    rw [List.foldl_cons]
    refine ih ?_
    split
    · exact h
    · rename_i hv
      exact List.nodup_append.mpr ⟨h, List.nodup_singleton v, fun a ha b hb heq =>
        hv (List.mem_singleton.mp hb ▸ heq ▸ ha)⟩

theorem nodup_distinct (versions : List Str) : (distinct versions).Nodup :=
  nodup_foldl_distinct List.nodup_nil

theorem distinct_distinct (versions : List Str) :
    distinct (distinct versions) = distinct versions :=
  foldl_distinct_of_nodup (nodup_distinct versions)

section Order

variable {versions : List Str} (h : ∀ v ∈ versions, nul ∉ v)
include h

theorem compare_of_mem {u v : Str} (hu : u ∈ versions) (hv : v ∈ versions) :
    Debversion.compare u v = sign (Ord.compare (version u) (version v)) :=
  compare_eq ⟨u, h u hu⟩ ⟨v, h v hv⟩

theorem newer_eq_false {u v : Str} (hu : u ∈ versions) (hv : v ∈ versions) :
    newer u v = false ↔ Ord.compare (version u) (version v) = .lt ∨
      Ord.compare (version u) (version v) = .eq ∧ ¬ u < v := by
  rw [newer, compare_of_mem h hu hv]
  cases Ord.compare (version u) (version v) <;> simp [sign]

theorem newer_strictWeak : StrictWeak newer versions where
  asymm u hu v hv huv := by
    have hnot := mt (newer_eq_false h hu hv).mpr (by simp [huv])
    rw [newer_eq_false h hv hu, Std.OrientedOrd.eq_swap (a := version v)]
    cases hc : Ord.compare (version u) (version v) with
    | lt => exact absurd (.inl hc) hnot
    | eq => exact .inr ⟨rfl, fun hvu => hnot (.inr ⟨hc, List.lt_asymm hvu⟩)⟩
    | gt => exact .inl rfl
  trans u hu v hv w hw hvu hwv := by
    rw [newer_eq_false h hv hu] at hvu
    rw [newer_eq_false h hw hv] at hwv
    rw [newer_eq_false h hw hu]
    rcases hwv with hwv | ⟨hwv, hle⟩
    · rcases hvu with hvu | ⟨hvu, -⟩
      · exact .inl (Std.TransCmp.lt_trans hwv hvu)
      · exact .inl (Std.TransCmp.lt_of_lt_of_eq hwv hvu)
    · rcases hvu with hvu | ⟨hvu, hle'⟩
      · exact .inl (Std.TransCmp.lt_of_eq_of_lt hwv hvu)
      · refine .inr ⟨Std.TransCmp.eq_trans hwv hvu, ?_⟩
        exact List.not_lt.mpr (List.le_trans (List.not_lt.mp hle') (List.not_lt.mp hle))

theorem newer_strictLinear : StrictLinear newer versions where
  toStrictWeak := newer_strictWeak h
  eq_of_tie u hu v hv huv hvu := by
    rw [newer_eq_false h hu hv] at huv
    rw [newer_eq_false h hv hu, Std.OrientedOrd.eq_swap (a := version v)] at hvu
    rcases huv with huv | ⟨huv, hle⟩
    · simp [huv] at hvu
    · rcases hvu with hvu | ⟨-, hle'⟩
      · rw [huv] at hvu
        cases hvu
      · exact List.le_antisymm (List.not_lt.mp hle') (List.not_lt.mp hle)

end Order

/-- Where the order of the sort is a strict linear one, only the set of strings counts. -/
theorem keepNewestNVersionSet_congr {sort : SortSlice Str} (hsort : Sorts sort)
    {versions' : List Str} (h : StrictLinear newer versions)
    (hset : ∀ v, v ∈ versions' ↔ v ∈ versions) (n : Int) :
    keepNewestNVersionSet sort versions' n = keepNewestNVersionSet sort versions n := by
  have hlinear : StrictLinear newer (distinct versions) := h.subset fun _ => mem_distinct.mp
  have hperm : (distinct versions').Perm (distinct versions) := by
    refine (List.perm_ext_iff_of_nodup (nodup_distinct _) (nodup_distinct _)).mpr fun v => ?_
    rw [mem_distinct, mem_distinct, hset]
  rw [keepNewestNVersionSet, keepNewestNVersionSet, hsort.eq_of_perm hlinear hperm]

/-- The classes of equal versions of the list that are newer than `v`. -/
def newerClasses (versions : List Str) (v : Str) : Finset Version :=
  ((versions.filter fun w => 0 < Debversion.compare w v).map version).toFinset

section Select

variable {sort : SortSlice Str} (hsort : Sorts sort) {versions : List Str}
  (h : ∀ v ∈ versions, nul ∉ v)
include h

theorem card_newerClasses {v : Str} (hv : v ∈ versions) :
    (newerClasses versions v).card = above (keysOf version versions) (version v) := by
  rw [above]
  congr 1
  ext k
  simp only [newerClasses, List.mem_toFinset, List.mem_map, List.mem_filter, decide_eq_true_eq,
    Finset.mem_filter, mem_keysOf]
  constructor
  · rintro ⟨w, ⟨hw, hlt⟩, rfl⟩
    refine ⟨⟨w, hw, rfl⟩, ?_⟩
    rw [compare_of_mem h hw hv, Std.OrientedOrd.eq_swap, sign_swap] at hlt
    cases hc : Ord.compare (version v) (version w) with
    | lt => rfl
    | eq | gt =>
      rw [hc] at hlt
      exact absurd hlt (by decide)
  · rintro ⟨⟨w, hw, rfl⟩, hlt⟩
    refine ⟨w, ⟨hw, ?_⟩, rfl⟩
    rw [compare_of_mem h hw hv, Std.OrientedOrd.eq_swap, hlt]
    decide

include hsort

/-- A string is kept if and only if fewer than `n` classes are newer. -/
theorem mem_keepNewestNVersionSet {n : Int} {v : Str} :
    v ∈ keepNewestNVersionSet sort versions n ↔
      v ∈ versions ∧ ((newerClasses versions v).card : Int) < clampVersions n := by
  have hdistinct : ∀ v ∈ distinct versions, nul ∉ v := fun v hv => h v (mem_distinct.mp hv)
  obtain ⟨hperm, hsorted⟩ := hsort newer (distinct versions) (newer_strictWeak hdistinct)
  have hmem : ∀ {v}, v ∈ sort newer (distinct versions) ↔ v ∈ versions :=
    hperm.mem_iff.trans mem_distinct
  have hfalls : Falls version (sort newer (distinct versions)) := by
    refine hsorted.imp_of_mem fun {u v} hu hv huv => ?_
    rcases (newer_eq_false h (hmem.mp hv) (hmem.mp hu)).mp huv with hlt | ⟨heq, -⟩
    · rw [hlt]
      rfl
    · rw [heq]
      rfl
  have hkeys : keysOf version (sort newer (distinct versions)) = keysOf version versions := by
    ext k
    simp only [mem_keysOf, hmem]
  have hclamp : 0 ≤ clampVersions n := by
    unfold clampVersions defaultMaxVersionsPerPackage
    split <;> omega
  rw [keepNewestNVersionSet, mem_takeClasses hfalls fun u hu v hv => ?_, hmem, hkeys]
  · refine and_congr_right fun hv => ?_
    rw [card_newerClasses h hv]
    omega
  · rw [decide_eq_true_eq, compare_of_mem h (hmem.mp hu) (hmem.mp hv), Ne, sign_eq_zero,
      Std.compare_eq_iff_eq]

end Select

/-- The newest versions. A string is kept if and only if fewer than `n` classes are newer, so equal
versions are kept together, and only the set of strings counts. -/
theorem newest_selection (sort : SortSlice Str) (hsort : Sorts sort) (n : Int)
    (versions : List Str) (h : ∀ v ∈ versions, nul ∉ v) :
    (∀ v, v ∈ keepNewestNVersionSet sort versions n ↔
      v ∈ versions ∧ ((newerClasses versions v).card : Int) < clampVersions n) ∧
    (∀ v ∈ versions, ∀ w ∈ versions, Debversion.compare v w = 0 →
      (v ∈ keepNewestNVersionSet sort versions n ↔ w ∈ keepNewestNVersionSet sort versions n)) ∧
    ∀ versions', (∀ v, v ∈ versions' ↔ v ∈ versions) → ∀ v,
      (v ∈ keepNewestNVersionSet sort versions' n ↔
        v ∈ keepNewestNVersionSet sort versions n) := by
  refine ⟨fun v => mem_keepNewestNVersionSet hsort h, fun v hv w hw hvw => ?_,
    fun versions' hset v => ?_⟩
  · have hsame : version v = version w := by
      rwa [compare_of_mem h hv hw, sign_eq_zero, Std.compare_eq_iff_eq] at hvw
    rw [mem_keepNewestNVersionSet hsort h, mem_keepNewestNVersionSet hsort h,
      card_newerClasses h hv, card_newerClasses h hw, hsame, and_iff_right hv, and_iff_right hw]
  · rw [keepNewestNVersionSet_congr hsort (newer_strictLinear h) hset]

/-- Two of three classes, one with two strings. -/
theorem newest_selection_two :
    ['2', '.'] ∈ keepNewestNVersionSet mergeSlice
        [['1'], ['2'], ['2', '.', '0', '-', '0'], ['2', '.'], ['3']] 2 ∧
      ['1'] ∉ keepNewestNVersionSet mergeSlice
        [['1'], ['2'], ['2', '.', '0', '-', '0'], ['2', '.'], ['3']] 2 := by
  have h := (newest_selection mergeSlice mergeSlice_sorts 2
    [['1'], ['2'], ['2', '.', '0', '-', '0'], ['2', '.'], ['3']] (by decide)).1
  exact ⟨(h _).mpr (by decide +kernel), fun hin => absurd ((h _).mp hin) (by decide +kernel)⟩

end AptCacher.Cache
