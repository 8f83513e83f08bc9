import Mathlib.Data.List.AList
import Mathlib.Data.List.Induction

/-!
# Gathering declarations by key

A loop over declarations that keeps one entry a key in a map: the first declaration of a key starts
its entry, each later one is merged into it, and a merge may fail.

* `Merge`, `Merge.add`, `Merge.gather`: the rule, one iteration and the loop.
* `Merge.gather_entry`: the induction rule. The entry of a key has every property that the first
  declaration establishes and each merge keeps, and only the declarations of that key matter.
-/

namespace AptCacher.Spec

variable {κ ρ δ ε : Type} [DecidableEq κ]

/-- How declarations of type `ρ` become entries of type `δ`. -/
structure Merge (κ ρ δ ε : Type) where
  key : ρ → κ
  first : ρ → δ
  merge : δ → ρ → Except ε δ

namespace Merge

variable (M : Merge κ ρ δ ε)

/-- One declaration. -/
def add (t : AList fun _ : κ => δ) (r : ρ) : Except ε (AList fun _ : κ => δ) :=
  match t.lookup (M.key r) with
  | none => .ok (t.insert (M.key r) (M.first r))
  | some d => (M.merge d r).map fun d => t.insert (M.key r) d

/-- The loop over the declarations. -/
def gather (rs : List ρ) (t : AList fun _ : κ => δ) : Except ε (AList fun _ : κ => δ) :=
  rs.foldlM M.add t

variable {M}

variable {t : AList fun _ : κ => δ} {r : ρ} {rs : List ρ} {P : List ρ → δ → Prop}

/-- The entry that a declaration leaves: a new one, or the old one with the declaration merged in;
the entries of other keys stay. -/
theorem lookup_add {t' : AList fun _ : κ => δ} (h : M.add t r = .ok t') :
    (∀ k, k ≠ M.key r → t'.lookup k = t.lookup k) ∧ ∃ d, t'.lookup (M.key r) = some d ∧
      (t.lookup (M.key r) = none ∧ d = M.first r ∨
        ∃ d₀, t.lookup (M.key r) = some d₀ ∧ M.merge d₀ r = .ok d) := by
  unfold add at h
  split at h
  · rename_i hnone
    cases h
    exact ⟨fun k hk => AList.lookup_insert_ne hk, _, AList.lookup_insert t, .inl ⟨hnone, rfl⟩⟩
  · rename_i d₀ hsome
    cases hm : M.merge d₀ r with
    | error e =>
      rw [hm] at h
      cases h
    | ok d =>
      rw [hm] at h
      cases h
      exact ⟨fun k hk => AList.lookup_insert_ne hk, d, AList.lookup_insert t, .inr ⟨d₀, hsome, hm⟩⟩

theorem gather_append {t' : AList fun _ : κ => δ} (h : M.gather (rs ++ [r]) t = .ok t') :
    ∃ t₀, M.gather rs t = .ok t₀ ∧ M.add t₀ r = .ok t' := by
  rw [gather, List.foldlM_append] at h
  cases hg : M.gather rs t with
  | error e =>
    rw [gather] at hg
    rw [hg] at h
    cases h
  | ok t₀ =>
    rw [gather] at hg
    rw [hg] at h
    refine ⟨t₀, rfl, ?_⟩
    exact (bind_pure (M.add t₀ r)).symm.trans h

theorem gather_entry (first : ∀ r, P [r] (M.first r))
    (merge : ∀ l d r d', P l d → M.merge d r = .ok d' → P (l ++ [r]) d') (h : M.gather rs ∅ = .ok t)
    (k : κ) :
    (t.lookup k = none ∧ rs.filter (fun r => M.key r = k) = []) ∨
      ∃ d, t.lookup k = some d ∧ P (rs.filter fun r => M.key r = k) d := by
  -- the last declaration is the last to be added, so the induction is on the list from its end
  induction rs using List.reverseRecOn generalizing t with
  | nil =>
    cases h
    exact .inl ⟨AList.lookup_empty k, rfl⟩
  | append_singleton rs r ih =>
    obtain ⟨t₀, h₀, hadd⟩ := gather_append h
    obtain ⟨hother, d, hd, hentry⟩ := lookup_add hadd
    rw [List.filter_append]
    by_cases hk : M.key r = k
    · subst hk
      rw [List.filter_cons_of_pos (by simp), List.filter_nil]
      refine .inr ⟨d, hd, ?_⟩
      rcases ih h₀ with ⟨hnone, hnil⟩ | ⟨d₀, hsome, hP⟩
      · rcases hentry with ⟨-, rfl⟩ | ⟨d₀, hsome, -⟩
        · rw [hnil]
          exact first r
        · rw [hnone] at hsome
          cases hsome
      · rcases hentry with ⟨hnone, -⟩ | ⟨d₁, hsome', hm⟩
        · rw [hnone] at hsome
          cases hsome
        · rw [hsome] at hsome'
          cases hsome'
          exact merge _ _ _ _ hP hm
    · rw [List.filter_cons_of_neg (by simpa using hk), List.filter_nil, List.append_nil,
        hother k (Ne.symm hk)]
      exact ih h₀

theorem exists_entry (first : ∀ r, P [r] (M.first r))
    (merge : ∀ l d r d', P l d → M.merge d r = .ok d' → P (l ++ [r]) d') (h : M.gather rs ∅ = .ok t)
    (hr : r ∈ rs) :
    ∃ d, t.lookup (M.key r) = some d ∧ P (rs.filter fun r' => M.key r' = M.key r) d := by
  rcases gather_entry first merge h (M.key r) with ⟨-, hnil⟩ | hd
  · have : r ∈ rs.filter fun r' => M.key r' = M.key r := List.mem_filter.mpr ⟨hr, by simp⟩
    rw [hnil] at this
    cases this
  · exact hd

theorem exists_of_entry (first : ∀ r, P [r] (M.first r))
    (merge : ∀ l d r d', P l d → M.merge d r = .ok d' → P (l ++ [r]) d') (h : M.gather rs ∅ = .ok t)
    {k : κ} {d : δ} (hd : ⟨k, d⟩ ∈ t.entries) :
    P (rs.filter fun r => M.key r = k) d := by
  have hlookup : t.lookup k = some d := AList.mem_lookup_iff.mpr hd
  rcases gather_entry first merge h k with ⟨hnone, -⟩ | ⟨d', hsome, hP⟩
  · rw [hnone] at hlookup
    cases hlookup
  · rw [hlookup] at hsome
    cases hsome
    exact hP

end Merge

end AptCacher.Spec
