import Mathlib.Algebra.Order.BigOperators.Group.List
import Mathlib.Algebra.Order.Ring.Nat
import Mathlib.Data.Nat.Count

/-!
# Counting indices

How many of the first `n` indices have a property (`Nat.count`), and how that number changes when
the property changes at one index: the counters that a set of goroutines keeps in a shared record.
`countP_set_add` and `countP_set_of_eq` are the same for the members of a list, and
`exists_of_sum_eq_one` finds the one place of a thing that several places hold once in all.
`getElem?_concat_cases` and `getElem?_modify_some` read a list of cells, whose positions are the
pointers to them, after a cell is added or written.
-/

namespace AptCacher.Spec

variable {p q : Nat → Prop} [DecidablePred p] [DecidablePred q] {n j : Nat}

theorem count_congr (h : ∀ i < n, p i ↔ q i) : Nat.count p n = Nat.count q n := by
  induction n with
  | zero => simp
  | succ n ih =>
    rw [Nat.count_succ, Nat.count_succ, ih fun i hi => h i (by omega)]
    simp only [h n (by omega)]

/-- How a count changes when the property changes at index `j` only. -/
theorem count_change (hj : j < n) (h : ∀ i, i ≠ j → (p i ↔ q i)) :
    Nat.count q n + (if p j then 1 else 0) = Nat.count p n + (if q j then 1 else 0) := by
  induction n with
  | zero => omega
  | succ n ih =>
    rw [Nat.count_succ, Nat.count_succ]
    by_cases hn : n = j
    · subst hn
      rw [count_congr (p := q) (q := p) fun i hi => (h i (by omega)).symm]
      omega
    · have := ih (by omega)
      simp only [h n hn]
      omega

theorem count_eq_zero (h : ∀ i < n, ¬p i) : Nat.count p n = 0 := by
  rw [count_congr (q := fun _ => False) fun i hi => iff_false_intro (h i hi)]
  exact Nat.count_false n

theorem count_pos (hj : j < n) (h : p j) : 0 < Nat.count p n := by
  have := Nat.count_strict_mono h hj
  omega

theorem countP_set_add {α : Type*} {f : α → Bool} {l : List α} {i : Nat} {o n : α}
    (h : l[i]? = some o) :
    (l.set i n).countP f + (if f o then 1 else 0) = l.countP f + (if f n then 1 else 0) := by
  obtain ⟨hi, rfl⟩ := List.getElem?_eq_some_iff.mp h
  rw [List.countP_set hi]
  by_cases hold : f l[i] = true
  · have hpos : 0 < l.countP f := List.countP_pos_iff.mpr ⟨_, List.getElem_mem hi, hold⟩
    simp only [hold, if_true]
    omega
  · simp only [hold, Bool.false_eq_true, if_false]
    omega

theorem countP_set_of_eq {α : Type*} {f : α → Bool} {l : List α} {i : Nat} {o n : α}
    (h : l[i]? = some o) (hf : f n = f o) : (l.set i n).countP f = l.countP f := by
  have hset := countP_set_add (f := f) (n := n) h
  rw [hf] at hset
  omega

theorem exists_of_sum_eq_one {α : Type*} {f : α → Nat} {l : List α} (h : (l.map f).sum = 1) :
    ∃ a ∈ l, f a = 1 ∧ ∀ b ∈ l, b ≠ a → f b = 0 := by
  induction l with
  | nil => cases h
  | cons a l ih =>
    rw [List.map_cons, List.sum_cons] at h
    by_cases ha : f a = 1
    · have hrest : (l.map f).sum = 0 := by omega
      refine ⟨a, List.mem_cons_self, ha, fun b hb hne => ?_⟩
      have hmem : f b ∈ l.map f := List.mem_map_of_mem ((List.mem_cons.mp hb).resolve_left hne)
      have hle := List.single_le_sum (fun x _ => Nat.zero_le x) _ hmem
      omega
    · obtain ⟨c, hc, hone, hzero⟩ := ih (by omega)
      refine ⟨c, List.mem_cons_of_mem _ hc, hone, fun b hb hne => ?_⟩
      rcases List.mem_cons.mp hb with rfl | hb
      · omega
      · exact hzero b hb hne

theorem getElem?_concat_cases {α : Type*} {l : List α} {a x : α} {j : Nat}
    (h : (l ++ [a])[j]? = some x) : l[j]? = some x ∨ (j = l.length ∧ x = a) := by
  rcases Nat.lt_trichotomy j l.length with hlt | rfl | hgt
  · rw [List.getElem?_append_left hlt] at h
    exact .inl h
  · rw [List.getElem?_concat_length] at h
    exact .inr ⟨rfl, (Option.some.inj h).symm⟩
  · rw [List.getElem?_eq_none (by simp only [List.length_append, List.length_singleton]; omega)] at h
    cases h

theorem getElem?_concat_of {α : Type*} {l : List α} {a x : α} {j : Nat} (h : l[j]? = some x) :
    (l ++ [a])[j]? = some x := by
  rw [List.getElem?_append_left (List.getElem?_eq_some_iff.mp h).1, h]

theorem getElem?_modify_some {α : Type*} {l : List α} {f : α → α} {x : α} {j k : Nat}
    (h : l[j]? = some x) : (l.modify k f)[j]? = some (if k = j then f x else x) := by
  rw [List.getElem?_modify, h]
  rfl

end AptCacher.Spec
