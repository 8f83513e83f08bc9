import AptCacher.Spec.Tx
import Mathlib.Data.Finset.Card
import Mathlib.Data.List.Perm.Subperm

/-!
# Deleting in rounds

A store holds items that are due for deletion. A round deletes some of them, whichever its query
returns, and rounds follow each other until one finds nothing. What is left at the end depends
neither on the size of the rounds nor on what each of them picked.

* `Limit`: which rows a `LIMIT` without an `ORDER BY` keeps.
* `Drain`: the items due, deleting them, and what one round may delete; deleting a part leaves
  the rest due.
* `rounds`: the calls of the loop, one after the other.
* `Drain.rounds_ok`: the loop after any number of calls; `Drain.rounds_done`: more calls than
  there are items end it, and then everything due is deleted and nothing else.
-/

namespace AptCacher.Spec

/-! ## Limits -/

/-- The rows that `LIMIT n` keeps of a result without an order: `n` of them, or all. -/
structure Limit (α : Type) where
  pick : ℕ → List α → List α
  subperm : ∀ n l, (pick n l).Subperm l
  length : ∀ n l, (pick n l).length = min n l.length

namespace Limit

variable {α : Type} (L : Limit α) {n : ℕ} {l : List α}

/-- The limit that keeps the first rows. -/
def first : Limit α where
  pick n l := l.take n
  subperm n l := (List.take_sublist n l).subperm
  length _ _ := List.length_take

theorem mem_of_mem_pick {a : α} (h : a ∈ L.pick n l) : a ∈ l := (L.subperm n l).subset h

theorem mem_pick_of_lt {a : α} (h : (L.pick n l).length < n) (ha : a ∈ l) : a ∈ L.pick n l := by
  have hlen := L.length n l
  exact ((L.subperm n l).perm_of_length_le (by omega)).mem_iff.mpr ha

theorem pick_ne_nil (hn : 1 ≤ n) (hl : l ≠ []) : L.pick n l ≠ [] := by
  have hpos := List.length_pos_iff.mpr hl
  have hlen := L.length n l
  exact List.ne_nil_of_length_pos (by omega)

end Limit

/-! ## The loop -/

variable {ε σ ι : Type}

/-- Up to `fuel` calls from the `i`th on, until one reports that there is no more to do; whether
one did. -/
def rounds (round : ℕ → Tx ε σ Bool) : ℕ → ℕ → Tx ε σ Bool
  | 0, _ => pure false
  | fuel + 1, i => do
    if ← round i then rounds round fuel (i + 1) else pure true

theorem rounds_succ {round : ℕ → Tx ε σ Bool} {fuel i : ℕ} {s s' : σ} {more : Bool}
    (h : round i s = .ok (more, s')) :
    rounds round (fuel + 1) i s = if more then rounds round fuel (i + 1) s' else .ok (true, s') := by
  show (round i >>= fun b => if b then rounds round fuel (i + 1) else pure true) s = _
  simp only [bind, StateT.bind, Except.bind, h]
  cases more with
  | true => rfl
  | false => rfl

/-! ## Items due for deletion -/

/-- A store with items that are due for deletion. -/
structure Drain (σ ι : Type) [DecidableEq ι] where
  due : σ → Finset ι
  erase : Finset ι → σ → σ
  /-- What one round may delete. -/
  part : σ → Finset ι → Prop
  sub : ∀ {s A}, part s A → A ⊆ due s
  due_erase : ∀ {s A}, part s A → due (erase A s) = due s \ A
  erase_empty : ∀ s, erase ∅ s = s
  erase_erase : ∀ A B s, erase B (erase A s) = erase (A ∪ B) s

namespace Drain

variable [DecidableEq ι] (D : Drain σ ι)

/-- A round deletes a part of what is due: something if it reports more, and it reports no more
only if nothing is due. -/
def Deletes (m : Tx ε σ Bool) : Prop :=
  ∀ s, ∃ A more, D.part s A ∧ m s = .ok (more, D.erase A s) ∧
    (more = true → A.Nonempty) ∧ (more = false → D.due s = ∅)

variable {D}

/-- After some calls a part of what was due is deleted: all of it if the loop has ended, and else
an item at least for each call. -/
theorem rounds_ok {round : ℕ → Tx ε σ Bool} (h : ∀ i, D.Deletes (round i)) (fuel i : ℕ) (s : σ) :
    ∃ A ⊆ D.due s, ∃ b, rounds round fuel i s = .ok (b, D.erase A s) ∧
      (b = true → A = D.due s) ∧ (b = false → fuel ≤ A.card) := by
  induction fuel generalizing i s with
  | zero =>
    refine ⟨∅, Finset.empty_subset _, false, ?_, by simp, by simp⟩
    rw [D.erase_empty]
    rfl
  | succ fuel ih =>
    obtain ⟨A, more, hpart, hrun, hmore, hnone⟩ := h i s
    rw [rounds_succ hrun]
    cases more with
    | false =>
      have hdue := hnone rfl
      refine ⟨A, D.sub hpart, true, rfl, fun _ => ?_, by simp⟩
      rw [hdue]
      exact Finset.subset_empty.mp (hdue ▸ D.sub hpart)
    | true =>
      obtain ⟨B, hB, b, hrun', hend, hcount⟩ := ih (i + 1) (D.erase A s)
      rw [D.due_erase hpart] at hB hend
      refine ⟨A ∪ B, Finset.union_subset (D.sub hpart) (hB.trans Finset.sdiff_subset), b, ?_, ?_, ?_⟩
      · rw [← D.erase_erase]
        exact hrun'
      · intro hb
        rw [hend hb, Finset.union_sdiff_of_subset (D.sub hpart)]
      · intro hb
        have hdisj : Disjoint A B := Finset.disjoint_of_subset_right hB Finset.disjoint_sdiff
        have hpos := (hmore rfl).card_pos
        have hle := hcount hb
        rw [Finset.card_union_of_disjoint hdisj]
        omega

/-- More calls than there are items due end the loop, and all of them are deleted. -/
theorem rounds_done {round : ℕ → Tx ε σ Bool} (h : ∀ i, D.Deletes (round i)) {fuel : ℕ} {s : σ}
    (hf : (D.due s).card < fuel) (i : ℕ) :
    rounds round fuel i s = .ok (true, D.erase (D.due s) s) := by
  obtain ⟨A, hA, b, hrun, hend, hcount⟩ := rounds_ok h fuel i s
  cases b with
  | true => rw [hrun, hend rfl]
  | false =>
    have hle := hcount rfl
    have hcard := Finset.card_le_card hA
    omega

/-- A round that reports more leaves fewer items due. -/
theorem card_lt {s : σ} {A : Finset ι} (hpart : D.part s A) (hne : A.Nonempty) :
    (D.due (D.erase A s)).card < (D.due s).card := by
  rw [D.due_erase hpart, Finset.card_sdiff_of_subset (D.sub hpart)]
  have hle := Finset.card_le_card (D.sub hpart)
  have hpos := hne.card_pos
  omega

end Drain

end AptCacher.Spec
