import Mathlib.Algebra.Order.Ring.Nat
import Mathlib.Data.Prod.Lex
import Mathlib.Tactic.Ring

/-!
# Numerals

Numbers written most significant digit first, and how to compare them digit by digit.

* `value b ds`: the number that `ds` writes in base `b`, by Horner's rule.
* `compare_value`: numerals without leading zeros compare by their lengths first and then digit by
  digit.
* `sign`: the verdict of a comparison as an integer.
-/

namespace AptCacher.Spec

/-- -1, 0 or 1. -/
def sign : Ordering → Int
  | .lt => -1
  | .eq => 0
  | .gt => 1

theorem sign_swap (o : Ordering) : sign o.swap = -sign o := by
  cases o <;> rfl

theorem sign_eq_zero {o : Ordering} : sign o = 0 ↔ o = .eq := by
  cases o <;> decide

theorem sign_le_zero {o : Ordering} : sign o ≤ 0 ↔ o.isLE = true := by
  cases o <;> decide

theorem sign_then (o o' : Ordering) :
    sign (o.then o') = if sign o ≠ 0 then sign o else sign o' := by
  cases o <;> rfl

theorem sign_compare (m n : Int) : sign (compare m n) = (m - n).sign := by
  rcases lt_trichotomy m n with h | rfl | h
  · rw [compare_lt_iff_lt.mpr h, Int.sign_eq_neg_one_of_neg (by omega)]
    rfl
  · rw [compare_eq_iff_eq.mpr rfl, Int.sub_self]
    rfl
  · rw [compare_gt_iff_gt.mpr h, Int.sign_eq_one_of_pos (by omega)]
    rfl

/-- A lexicographic product compares equal only with itself. -/
instance lawfulEqOrd_lex {α β : Type*} [Ord α] [Ord β] [Std.LawfulEqOrd α]
    [Std.LawfulEqOrd β] : Std.LawfulEqOrd (α ×ₗ β) where
  compare_self {a} := by
    simp [Prod.Lex.compare_def, compareLex, compareOn]
  eq_of_compare {a b} h := by
    simp only [Prod.Lex.compare_def, compareLex, compareOn, Ordering.then_eq_eq,
      Std.compare_eq_iff_eq] at h
    exact ofLex.injective (Prod.ext h.1 h.2)

theorem compare_toLex {α β : Type*} [Ord α] [Ord β] (a a' : α) (b b' : β) :
    compare (toLex (a, b)) (toLex (a', b')) = (compare a a').then (compare b b') := by
  simp [Prod.Lex.compare_def, compareLex, compareOn]

namespace Numeral

variable {b : Nat} {x y : List Nat}

/-- The number that the digits write in base `b`. -/
def value (b : Nat) (ds : List Nat) : Nat := ds.foldl (fun acc d => b * acc + d) 0

theorem foldl_eq (b acc : Nat) (ds : List Nat) :
    ds.foldl (fun acc d => b * acc + d) acc = acc * b ^ ds.length + value b ds := by
  unfold value
  induction ds generalizing acc with
  | nil => simp
  | cons d ds ih =>
    rw [List.foldl_cons, List.foldl_cons, ih, ih (b * 0 + d), List.length_cons]
    ring

@[simp] theorem value_nil : value b [] = 0 := rfl

theorem value_cons (d : Nat) (ds : List Nat) :
    value b (d :: ds) = d * b ^ ds.length + value b ds := by
  rw [value, List.foldl_cons, foldl_eq]
  simp

theorem value_lt (h : ∀ d ∈ x, d < b) : value b x < b ^ x.length := by
  induction x with
  | nil => simp
  | cons d x ih =>
    have hx := ih fun e he => h e (List.mem_cons_of_mem d he)
    have hd := Nat.mul_le_mul_right (b ^ x.length) (h d List.mem_cons_self)
    rw [value_cons, List.length_cons, pow_succ']
    rw [Nat.succ_mul] at hd
    omega

theorem value_dropWhile_zero : value b (x.dropWhile (· == 0)) = value b x := by
  induction x with
  | nil => rfl
  | cons d x ih =>
    by_cases hd : d = 0
    · rw [List.dropWhile_cons_of_pos (by simp [hd]), ih, value_cons, hd, Nat.zero_mul, Nat.zero_add]
    · rw [List.dropWhile_cons_of_neg (by simpa using hd)]

theorem value_lt_of_length_lt (hb : 0 < b) (hx : ∀ d ∈ x, d < b) (hy : y.head? ≠ some 0)
    (h : x.length < y.length) : value b x < value b y := by
  cases y with
  | nil => exact absurd h (Nat.not_lt_zero _)
  | cons d y =>
    have hd : 1 ≤ d := Nat.one_le_iff_ne_zero.mpr fun hzero => hy (by rw [hzero]; rfl)
    calc value b x < b ^ x.length := value_lt hx
      _ ≤ b ^ y.length := Nat.pow_le_pow_right hb (Nat.le_of_lt_succ h)
      _ ≤ d * b ^ y.length := Nat.le_mul_of_pos_left _ hd
      _ ≤ value b (d :: y) := by rw [value_cons]; exact Nat.le_add_right _ _

theorem compare_value_of_length_eq (hx : ∀ d ∈ x, d < b) (hy : ∀ d ∈ y, d < b)
    (h : x.length = y.length) : compare (value b x) (value b y) = compare x y := by
  induction x generalizing y with
  | nil =>
    cases y with
    | nil => rfl
    | cons e y => cases h
  | cons d x ih =>
    cases y with
    | nil => cases h
    | cons e y =>
      have hx' : ∀ d ∈ x, d < b := fun c hc => hx c (List.mem_cons_of_mem d hc)
      have hy' : ∀ d ∈ y, d < b := fun c hc => hy c (List.mem_cons_of_mem e hc)
      have hlen : x.length = y.length := Nat.succ.inj h
      have hxlt := value_lt hx'
      have hylt := value_lt hy'
      rw [List.compare_cons_cons, value_cons, value_cons, ← ih hx' hy' hlen, hlen]
      rw [hlen] at hxlt
      rcases lt_trichotomy d e with hlt | rfl | hgt
      · rw [compare_lt_iff_lt.mpr hlt]
        refine compare_lt_iff_lt.mpr ?_
        have := Nat.mul_le_mul_right (b ^ y.length) (Nat.succ_le_of_lt hlt)
        rw [Nat.succ_mul] at this
        omega
      · rw [compare_eq_iff_eq.mpr rfl]
        simp only [Ordering.then, Nat.compare_eq_ite_lt, Nat.add_lt_add_iff_left]
      · rw [compare_gt_iff_gt.mpr hgt]
        refine compare_gt_iff_gt.mpr ?_
        have := Nat.mul_le_mul_right (b ^ y.length) (Nat.succ_le_of_lt hgt)
        rw [Nat.succ_mul] at this
        omega

/-- Numerals without leading zeros compare by their lengths and then digit by digit. -/
theorem compare_value (hb : 0 < b) (hx : ∀ d ∈ x, d < b) (hy : ∀ d ∈ y, d < b)
    (hx0 : x.head? ≠ some 0) (hy0 : y.head? ≠ some 0) :
    compare (value b x) (value b y) = (compare x.length y.length).then (compare x y) := by
  rcases lt_trichotomy x.length y.length with h | h | h
  · rw [compare_lt_iff_lt.mpr h]
    exact compare_lt_iff_lt.mpr (value_lt_of_length_lt hb hx hy0 h)
  · rw [compare_eq_iff_eq.mpr h]
    exact compare_value_of_length_eq hx hy h
  · rw [compare_gt_iff_gt.mpr h]
    exact compare_gt_iff_gt.mpr (value_lt_of_length_lt hb hy hx0 h)

end Numeral
end AptCacher.Spec
