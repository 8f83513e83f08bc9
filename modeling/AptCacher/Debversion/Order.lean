import AptCacher.Debversion.Compare
import AptCacher.Spec.Numeral
import Mathlib.Data.List.TakeWhile

/-!
# The order of Debian versions

dpkg orders versions by epoch, upstream version and revision, and a part by its tokens: runs of
other characters and numbers in turn. The order is that of lists and pairs, so it is total; what has
to be shown is that the code computes it.

* `mark`, `tokens`, `part`, `Parts`, `version`: the specification.
* `nonDigitRun_eq`, `digitRound_eq`, `round_eq`: one round of `verrevcmp` compares the first tokens.
* `exists_parts`, `Parts.parse_eq`: a string has its parts in one way, and `parse` finds them.
* `verrevcmp_eq`, `compare_eq`: on strings without a NUL byte the code computes the order.
* `compare_order`: it is a total preorder whose ties are versions of the same tokens.
-/

namespace AptCacher.Debversion

open Spec

/-! ## The specification -/

/-- Where a character stands: the tilde first, the end of a run second, then the letters, then the
other characters. -/
def mark (c : Char) : ℕ ×ₗ ℕ :=
  if c = '~' then toLex (0, 0) else if isLetter c then toLex (2, c.toNat) else toLex (3, c.toNat)

/-- Where the end of a run stands. -/
def stop : ℕ ×ₗ ℕ := toLex (1, 0)

/-- The number that digits write; no digits are 0. -/
def number (s : Str) : ℕ := Numeral.value 10 (s.map fun c => c.toNat - '0'.toNat)

/-- The run at the front that is not digits. -/
def leading (s : Str) : Str := s.takeWhile fun c => !isDigit c

/-- What follows it. -/
def trailing (s : Str) : Str := s.dropWhile fun c => !isDigit c

/-- What follows the first run that is not digits and the number after it. -/
def after (s : Str) : Str := (trailing s).dropWhile isDigit

variable {c : Char} {s a b : Str}

theorem after_cons_of_digit (s : Str) (h : isDigit c = true) :
    after (c :: s) = s.dropWhile isDigit := by
  simp [after, trailing, h]

theorem after_cons (s : Str) (h : isDigit c = false) : after (c :: s) = after s := by
  simp [after, trailing, h]

theorem after_suffix (s : Str) : after s <:+ s :=
  (List.dropWhile_suffix _).trans (List.dropWhile_suffix _)

theorem length_after_lt (h : s ≠ []) : (after s).length < s.length := by
  cases s with
  | nil => exact absurd rfl h
  | cons c s =>
    cases hc : isDigit c with
    | true =>
      rw [after_cons_of_digit s hc]
      exact Nat.lt_succ_of_le (List.dropWhile_suffix _).length_le
    | false =>
      rw [after_cons s hc]
      exact Nat.lt_succ_of_le (after_suffix s).length_le

/-- The tokens of a part: runs of other characters, each with the number after it. -/
def tokens (s : Str) : List (Str × ℕ) :=
  (leading s, number ((trailing s).takeWhile isDigit)) ::
    if after s = [] then [] else tokens (after s)
termination_by s.length
decreasing_by
  rename_i h
  exact length_after_lt fun hnil => h (by rw [hnil]; rfl)

/-- A part in dpkg's order: lists of marks with numbers, and the end of the part. -/
abbrev Part := List (List (ℕ ×ₗ ℕ) ×ₗ ℕ)

/-- The marks of a run. -/
def marks (s : Str) : List (ℕ ×ₗ ℕ) := s.map mark ++ [stop]

/-- A token in the order. -/
def token (t : Str × ℕ) : List (ℕ ×ₗ ℕ) ×ₗ ℕ := toLex (marks t.1, t.2)

/-- The tokens in the order; behind the last one nothing and 0. -/
def part (ts : List (Str × ℕ)) : Part := ts.map token ++ [token ([], 0)]

/-- Versions in dpkg's order: by epoch, by upstream version, by revision. -/
abbrev Version := ℕ ×ₗ Part ×ₗ Part

instance : DecidableEq Version :=
  fun a b => decidable_of_iff (Ord.compare a b = .eq) Std.compare_eq_iff_eq

/-- Digits, and at least one. -/
def Digits (s : Str) : Prop := s ≠ [] ∧ ∀ c ∈ s, isDigit c = true

/-- The parts of a version string: digits in front of a colon are the epoch, and what stands behind
the last hyphen of the rest is the revision. -/
structure Parts (v : Str) where
  epoch : Str
  rest : Str
  upstream : Str
  revision : Str
  colon : (v = epoch ++ ':' :: rest ∧ Digits epoch) ∨
    (epoch = [] ∧ rest = v ∧ ∀ e r, v = e ++ ':' :: r → ¬ Digits e)
  hyphen : (rest = upstream ++ '-' :: revision ∧ '-' ∉ revision) ∨
    (revision = [] ∧ upstream = rest ∧ '-' ∉ rest)

/-- The place of a version with these parts. -/
def Parts.place {v : Str} (x : Parts v) : Version :=
  toLex (number x.epoch, toLex (part (tokens x.upstream), part (tokens x.revision)))

/-- The place of a version string. -/
def version (v : Str) : Version :=
  toLex (number (parse v).1, toLex (part (tokens (parse v).2.1), part (tokens (parse v).2.2)))

/-! ## Runs that are not digits -/

/-- No error at a tie, the verdict otherwise. -/
def decided {α : Type} (o : Ordering) (x : α) : Except Int α :=
  if o = .eq then .ok x else .error (sign o)

@[simp] theorem decided_eq {α : Type} (x : α) : decided .eq x = .ok x := rfl

theorem decided_of_ne {α : Type} {o : Ordering} (h : o ≠ .eq) (x : α) :
    decided o x = .error (sign o) := if_neg h

theorem clamp_sub (m n : Int) : clamp (m - n) = sign (Ord.compare m n) := by
  rw [sign_compare, clamp]
  split
  · rw [Int.sign_eq_neg_one_of_neg ‹_›]
  · split
    · rw [Int.sign_eq_one_of_pos ‹_›]
    · rw [show m - n = 0 by omega]
      rfl

/-- The weight of what comes next: a character or the end of the run. -/
def weightAt (p : Option Char) : Int := p.elim 0 order

/-- The mark of what comes next. -/
def markAt (p : Option Char) : ℕ ×ₗ ℕ := p.elim stop mark

theorem marks_cons (c : Char) (s : Str) : marks (c :: s) = mark c :: marks s := rfl

theorem isLetter_lt (h : isLetter c = true) : 0 < c.toNat ∧ c.toNat < 256 := by
  simp only [isLetter, Bool.or_eq_true, Bool.and_eq_true, decide_eq_true_eq, Char.le_def,
    UInt32.le_iff_toNat_le] at h
  have hc : c.val.toNat = c.toNat := rfl
  rw [hc] at h
  have : 'a'.val.toNat = 97 ∧ 'z'.val.toNat = 122 ∧ 'A'.val.toNat = 65 ∧ 'Z'.val.toNat = 90 := by
    decide
  omega

theorem order_cases (hd : isDigit c = false) (hn : c ≠ nul) :
    (order c = -1 ∧ mark c = toLex (0, 0)) ∨
    (order c = c.toNat ∧ mark c = toLex (2, c.toNat) ∧ 0 < c.toNat ∧ c.toNat < 256) ∨
    (order c = c.toNat + 256 ∧ mark c = toLex (3, c.toNat)) := by
  unfold order mark
  rw [if_neg (by simp [hd])]
  by_cases htilde : c = '~'
  · subst htilde
    exact .inl ⟨rfl, rfl⟩
  rw [if_neg htilde, if_neg htilde, if_neg hn]
  by_cases hletter : isLetter c = true
  · rw [if_pos hletter, if_pos hletter]
    exact .inr (.inl ⟨rfl, rfl, isLetter_lt hletter⟩)
  · rw [if_neg hletter, if_neg hletter]
    exact .inr (.inr ⟨rfl, rfl⟩)

/-- What comes next is the end of the run or a character that belongs to it. -/
def Runs (p : Option Char) : Prop := ∀ c, p = some c → isDigit c = false ∧ c ≠ nul

/-- The mark and the weight of what comes next. -/
theorem Runs.cases {p : Option Char} (h : Runs p) : ∃ k n : ℕ, markAt p = toLex (k, n) ∧
    (k = 0 ∧ n = 0 ∧ weightAt p = -1 ∨ k = 1 ∧ n = 0 ∧ weightAt p = 0 ∨
      k = 2 ∧ 0 < n ∧ n < 256 ∧ weightAt p = n ∨ k = 3 ∧ weightAt p = n + 256) := by
  cases p with
  | none => exact ⟨1, 0, rfl, .inr (.inl ⟨rfl, rfl, rfl⟩)⟩
  | some c =>
    rcases order_cases (h c rfl).1 (h c rfl).2 with ⟨hw, hm⟩ | ⟨hw, hm, hlo, hhi⟩ | ⟨hw, hm⟩
    · exact ⟨0, 0, hm, .inl ⟨rfl, rfl, hw⟩⟩
    · exact ⟨2, c.toNat, hm, .inr (.inr (.inl ⟨rfl, hlo, hhi, hw⟩))⟩
    · exact ⟨3, c.toNat, hm, .inr (.inr (.inr ⟨rfl, hw⟩))⟩

theorem compare_weightAt {p q : Option Char} (hp : Runs p) (hq : Runs q) :
    Ord.compare (weightAt p) (weightAt q) = Ord.compare (markAt p) (markAt q) := by
  obtain ⟨k, m, hmark, hw⟩ := hp.cases
  obtain ⟨l, n, hmark', hw'⟩ := hq.cases
  rw [hmark, hmark', compare_toLex]
  rcases lt_trichotomy k l with hk | rfl | hk
  · rw [compare_lt_iff_lt.mpr hk]
    exact compare_lt_iff_lt.mpr (by omega)
  · rw [compare_eq_iff_eq.mpr rfl, Ordering.eq_then]
    rcases lt_trichotomy m n with hm | rfl | hm
    · rw [compare_lt_iff_lt.mpr hm]
      exact compare_lt_iff_lt.mpr (by omega)
    · rw [compare_eq_iff_eq.mpr rfl]
      exact compare_eq_iff_eq.mpr (by omega)
    · rw [compare_gt_iff_gt.mpr hm]
      exact compare_gt_iff_gt.mpr (by omega)
  · rw [compare_gt_iff_gt.mpr hk]
    exact compare_gt_iff_gt.mpr (by omega)

theorem weightAt_ne_zero (hd : isDigit c = false) (hn : c ≠ nul) :
    weightAt (some c) ≠ 0 := by
  rcases order_cases hd hn with ⟨hw, -⟩ | ⟨hw, -, hlo, -⟩ | ⟨hw, -⟩
  · rw [weightAt, Option.elim_some, hw]
    decide
  · rw [weightAt, Option.elim_some, hw]
    omega
  · rw [weightAt, Option.elim_some, hw]
    omega

theorem mark_injective {d : Char} (h : mark c = mark d) : c = d := by
  have hkind : ∀ c, (ofLex (mark c)).1 = 0 ↔ c = '~' := by
    intro c
    unfold mark
    split
    · exact iff_of_true rfl ‹_›
    · split <;> exact iff_of_false (by simp) ‹_›
  have hplace : ∀ c, c ≠ '~' → (ofLex (mark c)).2 = c.toNat := by
    intro c hc
    unfold mark
    rw [if_neg hc]
    split <;> rfl
  by_cases hc : c = '~'
  · exact hc.trans ((hkind d).mp (h ▸ (hkind c).mpr hc)).symm
  · have hd : d ≠ '~' := fun hd => hc ((hkind c).mp (h ▸ (hkind d).mpr hd))
    exact Char.toNat_inj.mp ((hplace c hc).symm.trans (h ▸ hplace d hd))

theorem leading_cons_of_digit (s : Str) (h : isDigit c = true) :
    leading (c :: s) = [] ∧ trailing (c :: s) = c :: s := by
  simp [leading, trailing, h]

theorem leading_cons (s : Str) (h : isDigit c = false) :
    leading (c :: s) = c :: leading s ∧ trailing (c :: s) = trailing s := by
  simp [leading, trailing, h]

theorem leading_of_not (h : atNonDigit s = false) : leading s = [] ∧ trailing s = s := by
  cases s with
  | nil => exact ⟨rfl, rfl⟩
  | cons c s => exact leading_cons_of_digit s (by simpa [atNonDigit] using h)

theorem runs_leading (h : nul ∉ s) : Runs (leading s).head? := by
  intro c hc
  have hmem := List.mem_of_head? hc
  exact ⟨by simpa using List.mem_takeWhile_imp hmem,
    fun hnul => h (hnul ▸ List.takeWhile_subset _ hmem)⟩

theorem order_byteAt (s : Str) : order (byteAt s) = weightAt (leading s).head? := by
  cases s with
  | nil => rfl
  | cons c s =>
    cases hd : isDigit c with
    | true =>
      rw [(leading_cons_of_digit s hd).1]
      simp [byteAt, order, hd, weightAt]
    | false =>
      rw [(leading_cons s hd).1]
      rfl

theorem compare_marks_of_ne {l l' : Str}
    (h : Ord.compare (markAt l.head?) (markAt l'.head?) ≠ .eq) :
    Ord.compare (marks l) (marks l') = Ord.compare (markAt l.head?) (markAt l'.head?) := by
  have hhead : ∀ s : Str, ∃ rest, marks s = markAt s.head? :: rest := by
    intro s
    cases s with
    | nil => exact ⟨[], rfl⟩
    | cons c s => exact ⟨marks s, rfl⟩
  obtain ⟨r, hr⟩ := hhead l
  obtain ⟨r', hr'⟩ := hhead l'
  rw [hr, hr', List.compare_cons_cons]
  cases hc : Ord.compare (markAt l.head?) (markAt l'.head?) with
  | eq => exact absurd hc h
  | lt => rfl
  | gt => rfl

/-- At equal weights both runs go on, with the same character. -/
theorem tie (ha : nul ∉ a) (hb : nul ∉ b) (hat : (atNonDigit a || atNonDigit b) = true)
    (h : order (byteAt a) = order (byteAt b)) :
    ∃ c a' b', isDigit c = false ∧ a = c :: a' ∧ b = c :: b' := by
  rw [order_byteAt, order_byteAt] at h
  have hgoes : ∀ s : Str, weightAt (leading s).head? ≠ 0 →
      ∃ c s', isDigit c = false ∧ s = c :: s' := by
    intro s hs
    cases s with
    | nil => exact absurd rfl hs
    | cons c s =>
      cases hd : isDigit c with
      | true => exact absurd (by rw [(leading_cons_of_digit s hd).1]; rfl) hs
      | false => exact ⟨c, s, hd, rfl⟩
  have hat' : ∀ s : Str, nul ∉ s → atNonDigit s = true → weightAt (leading s).head? ≠ 0 := by
    intro s hs hat
    cases s with
    | nil => cases hat
    | cons c s =>
      have hd : isDigit c = false := by simpa [atNonDigit] using hat
      rw [(leading_cons s hd).1]
      exact weightAt_ne_zero hd fun hnul => hs (hnul ▸ List.mem_cons_self)
  have hne : weightAt (leading a).head? ≠ 0 := by
    rcases (Bool.or_eq_true _ _).mp hat with hat | hat
    · exact hat' a ha hat
    · exact h ▸ hat' b hb hat
  obtain ⟨c, a', hc, rfl⟩ := hgoes a hne
  obtain ⟨d, b', hd, rfl⟩ := hgoes b (h ▸ hne)
  have hmark := compare_weightAt (runs_leading ha) (runs_leading hb)
  rw [compare_eq_iff_eq.mpr h, (leading_cons a' hc).1, (leading_cons b' hd).1] at hmark
  have hcd : c = d := mark_injective (Std.LawfulEqOrd.eq_of_compare hmark.symm)
  exact ⟨c, a', b', hc, rfl, by rw [hcd]⟩

/-- The loop over the runs that are not digits compares their marks. -/
theorem nonDigitRun_eq (ha : nul ∉ a) (hb : nul ∉ b) : nonDigitRun a b =
    decided (Ord.compare (marks (leading a)) (marks (leading b))) (trailing a, trailing b) := by
  have hcmp := compare_weightAt (runs_leading ha) (runs_leading hb)
  induction a, b using nonDigitRun.induct with
  | case1 a b hat hne =>
    rw [nonDigitRun, if_pos hat, if_pos hne, clamp_sub]
    rw [order_byteAt, order_byteAt] at hne ⊢
    have hdiffer : Ord.compare (markAt (leading a).head?) (markAt (leading b).head?) ≠ .eq := by
      rw [← hcmp]
      exact fun heq => hne (compare_eq_iff_eq.mp heq)
    rw [compare_marks_of_ne hdiffer, decided_of_ne hdiffer, hcmp]
  | case2 a b hat heq ih =>
    rw [nonDigitRun, if_pos hat, if_neg heq]
    obtain ⟨c, a', b', hc, rfl, rfl⟩ := tie ha hb hat (not_not.mp heq)
    rw [(leading_cons a' hc).1, (leading_cons b' hc).1, (leading_cons a' hc).2,
      (leading_cons b' hc).2, marks_cons, marks_cons, List.compare_cons_cons,
      Std.compare_self, Ordering.eq_then]
    have ha' : nul ∉ a' := fun h => ha (List.mem_cons_of_mem c h)
    have hb' : nul ∉ b' := fun h => hb (List.mem_cons_of_mem c h)
    exact ih ha' hb' (compare_weightAt (runs_leading ha') (runs_leading hb'))
  | case3 a b hat =>
    rw [nonDigitRun, if_neg hat]
    simp only [Bool.or_eq_true, not_or, Bool.not_eq_true] at hat
    rw [(leading_of_not hat.1).1, (leading_of_not hat.1).2, (leading_of_not hat.2).1,
      (leading_of_not hat.2).2, Std.compare_self]
    rfl

/-! ## Digits -/

/-- The values of digits. -/
def digits (s : Str) : List ℕ := s.map fun c => c.toNat - '0'.toNat

/-- Two runs of digits: the longer one, then the first difference so far, then the digits. -/
def digitOrder (firstDiff : Int) (a b : Str) : Ordering :=
  (Ord.compare a.length b.length).then
    ((Ord.compare firstDiff 0).then (Ord.compare (digits a) (digits b)))

theorem digitRun_of_not (d : Int) (h : (atDigit a && atDigit b) = false) :
    digitRun d a b = (d, a, b) := by
  unfold digitRun
  split
  · simp only [atDigit, List.head?_cons, Option.any_some] at h
    rw [if_neg (by simp [h])]
  · rfl

theorem takeWhile_of_not (h : atDigit s = false) :
    s.takeWhile isDigit = [] ∧ s.dropWhile isDigit = s := by
  cases s with
  | nil => exact ⟨rfl, rfl⟩
  | cons c s =>
    have hc : isDigit c = false := h
    simp [hc]

theorem takeWhile_pos (h : atDigit s = true) : 0 < (s.takeWhile isDigit).length := by
  cases s with
  | nil => cases h
  | cons c s =>
    have hc : isDigit c = true := h
    simp [hc]

theorem isDigit_toNat (h : isDigit c = true) : 48 ≤ c.toNat ∧ c.toNat ≤ 57 := by
  simp only [isDigit, Bool.and_eq_true, decide_eq_true_eq, Char.le_def,
    UInt32.le_iff_toNat_le] at h
  exact h

theorem digitOrder_cons {x y : Char} (d : Int) (a b : Str) (hx : isDigit x = true)
    (hy : isDigit y = true) : digitOrder d (x :: a) (y :: b) =
      digitOrder (if d = 0 then (x.toNat : Int) - y.toNat else d) a b := by
  have hlen : Ord.compare (x :: a).length (y :: b).length = Ord.compare a.length b.length := by
    simp only [List.length_cons, Nat.compare_eq_ite_lt, Nat.add_lt_add_iff_right]
  have hdigit : Ord.compare (x.toNat - '0'.toNat) (y.toNat - '0'.toNat) =
      Ord.compare ((x.toNat : Int) - y.toNat) 0 := by
    have hx' := isDigit_toNat hx
    have hy' := isDigit_toNat hy
    have hzero : '0'.toNat = 48 := rfl
    rcases lt_trichotomy x.toNat y.toNat with h | h | h
    · rw [compare_lt_iff_lt.mpr (show x.toNat - '0'.toNat < y.toNat - '0'.toNat by omega)]
      exact (compare_lt_iff_lt.mpr (by omega)).symm
    · rw [compare_eq_iff_eq.mpr (show x.toNat - '0'.toNat = y.toNat - '0'.toNat by omega)]
      exact (compare_eq_iff_eq.mpr (by omega)).symm
    · rw [compare_gt_iff_gt.mpr (show x.toNat - '0'.toNat > y.toNat - '0'.toNat by omega)]
      exact (compare_gt_iff_gt.mpr (by omega)).symm
  unfold digitOrder
  rw [hlen]
  congr 1
  by_cases hd : d = 0
  · rw [if_pos hd, hd, compare_eq_iff_eq.mpr rfl, Ordering.eq_then]
    show Ord.compare (_ :: digits a) (_ :: digits b) = _
    rw [List.compare_cons_cons, hdigit]
  · rw [if_neg hd]
    cases hc : Ord.compare d 0 with
    | lt => rfl
    | eq => exact absurd (compare_eq_iff_eq.mp hc) hd
    | gt => rfl

theorem digitRound_of_not (d : Int) (h : (atDigit a && atDigit b) = false) :
    digitRound d a b = decided (digitOrder d (a.takeWhile isDigit) (b.takeWhile isDigit))
      (a.dropWhile isDigit, b.dropWhile isDigit) := by
  unfold digitRound digitOrder
  rw [digitRun_of_not d h]
  dsimp only
  cases ha : atDigit a with
  | true =>
    have hb : atDigit b = false := by simpa [ha] using h
    rw [if_pos rfl, (takeWhile_of_not hb).1, List.length_nil,
      compare_gt_iff_gt.mpr (takeWhile_pos ha)]
    rfl
  | false =>
    cases hb : atDigit b with
    | true =>
      rw [if_neg (by decide), if_pos rfl, (takeWhile_of_not ha).1, List.length_nil,
        compare_lt_iff_lt.mpr (takeWhile_pos hb)]
      rfl
    | false =>
      rw [(takeWhile_of_not ha).1, (takeWhile_of_not ha).2, (takeWhile_of_not hb).1,
        (takeWhile_of_not hb).2, if_neg (by decide), if_neg (by decide)]
      show _ = decided ((Ord.compare d 0).then .eq) (a, b)
      by_cases hd : d = 0
      · rw [if_neg (not_not.mpr hd), hd]
        rfl
      · have hne : Ord.compare d 0 ≠ .eq := fun heq => hd (compare_eq_iff_eq.mp heq)
        rw [if_pos hd, Ordering.then_eq, decided_of_ne hne, ← clamp_sub, Int.sub_zero]

theorem digitRound_eq (d : Int) (a b : Str) : digitRound d a b =
    decided (digitOrder d (a.takeWhile isDigit) (b.takeWhile isDigit))
      (a.dropWhile isDigit, b.dropWhile isDigit) := by
  induction a generalizing d b with
  | nil => exact digitRound_of_not d rfl
  | cons x a ih =>
    cases b with
    | nil => exact digitRound_of_not d (Bool.and_false _)
    | cons y b =>
      cases hboth : isDigit x && isDigit y with
      | false => exact digitRound_of_not d hboth
      | true =>
        obtain ⟨hx, hy⟩ := (Bool.and_eq_true _ _).mp hboth
        rw [List.takeWhile_cons_of_pos hx, List.takeWhile_cons_of_pos hy,
          digitOrder_cons d _ _ hx hy,
          List.dropWhile_cons_of_pos hx, List.dropWhile_cons_of_pos hy, ← ih]
        unfold digitRound
        rw [digitRun, if_pos hboth]

theorem digits_lt (ha : ∀ c ∈ a, isDigit c = true) : ∀ d ∈ digits a, d < 10 := by
  intro d hd
  obtain ⟨c, hc, rfl⟩ := List.mem_map.mp hd
  have h := isDigit_toNat (ha c hc)
  have hzero : '0'.toNat = 48 := rfl
  omega

theorem digits_trimZeros (ha : ∀ c ∈ a, isDigit c = true) :
    digits (trimZeros a) = (digits a).dropWhile (· == 0) := by
  induction a with
  | nil => rfl
  | cons c a ih =>
    have hzero : '0'.toNat = 48 := rfl
    by_cases hc : c = '0'
    · subst hc
      exact ih fun d hd => ha d (List.mem_cons_of_mem _ hd)
    · have hne : c.toNat - '0'.toNat ≠ 0 := by
        have h := isDigit_toNat (ha c List.mem_cons_self)
        have : c.toNat ≠ '0'.toNat := fun heq => hc (Char.toNat_inj.mp heq)
        omega
      have htrim : trimZeros (c :: a) = c :: a := List.dropWhile_cons_of_neg (by simpa using hc)
      rw [htrim]
      exact (List.dropWhile_cons_of_neg (by simpa using hne)).symm

theorem head?_dropWhile_zero (l : List ℕ) : (l.dropWhile (· == 0)).head? ≠ some 0 := by
  intro h
  rw [← List.find?_not_eq_head?_dropWhile] at h
  have := List.find?_some h
  simp at this

/-- Without leading zeros the order of the digits is that of the numbers. -/
theorem digitOrder_trimZeros (ha : ∀ c ∈ a, isDigit c = true) (hb : ∀ c ∈ b, isDigit c = true) :
    digitOrder 0 (trimZeros a) (trimZeros b) = Ord.compare (number a) (number b) := by
  have hlt : ∀ {s : Str}, (∀ c ∈ s, isDigit c = true) →
      ∀ d ∈ (digits s).dropWhile (· == 0), d < 10 :=
    fun hs d hd => digits_lt hs d (List.dropWhile_subset _ hd)
  have hlen : ∀ {s : Str}, (∀ c ∈ s, isDigit c = true) →
      (trimZeros s).length = ((digits s).dropWhile (· == 0)).length := by
    intro s hs
    rw [← digits_trimZeros hs, digits, List.length_map]
  rw [number, number, ← Numeral.value_dropWhile_zero, ← Numeral.value_dropWhile_zero (x := b.map _)]
  refine Eq.trans ?_ (Numeral.compare_value (by decide) (hlt ha) (hlt hb) (head?_dropWhile_zero _)
    (head?_dropWhile_zero _)).symm
  rw [digitOrder, digits_trimZeros ha, digits_trimZeros hb, hlen ha, hlen hb,
    compare_eq_iff_eq.mpr rfl, Ordering.eq_then]

theorem takeWhile_trimZeros (s : Str) :
    (trimZeros s).takeWhile isDigit = trimZeros (s.takeWhile isDigit) ∧
      (trimZeros s).dropWhile isDigit = s.dropWhile isDigit := by
  induction s with
  | nil => exact ⟨rfl, rfl⟩
  | cons c s ih =>
    by_cases hc : c = '0'
    · subst hc
      exact ih
    · have htrim : trimZeros (c :: s) = c :: s :=
        List.dropWhile_cons_of_neg (by simpa using hc)
      rw [htrim]
      refine ⟨?_, rfl⟩
      cases hd : isDigit c with
      | true =>
        rw [List.takeWhile_cons_of_pos hd]
        exact (List.dropWhile_cons_of_neg (by simpa using hc)).symm
      | false =>
        rw [List.takeWhile_cons_of_neg (by simp [hd])]
        rfl

/-- One round compares the first tokens. -/
theorem round_eq (ha : nul ∉ a) (hb : nul ∉ b) : round a b =
    decided (Ord.compare (token (leading a, number ((trailing a).takeWhile isDigit)))
        (token (leading b, number ((trailing b).takeWhile isDigit))))
      (after a, after b) := by
  have hdigit : ∀ s : Str, ∀ c ∈ s.takeWhile isDigit, isDigit c = true :=
    fun s c hc => List.mem_takeWhile_imp hc
  rw [token, token, compare_toLex, round, nonDigitRun_eq ha hb]
  cases hc : Ord.compare (marks (leading a)) (marks (leading b)) with
  | lt => rfl
  | gt => rfl
  | eq =>
    show digitRound 0 (trimZeros (trailing a)) (trimZeros (trailing b)) = _
    rw [digitRound_eq, (takeWhile_trimZeros _).1, (takeWhile_trimZeros _).1,
      (takeWhile_trimZeros _).2, (takeWhile_trimZeros _).2,
      digitOrder_trimZeros (hdigit _) (hdigit _)]
    rfl

/-! ## Parts -/

theorem verrevcmp_nil : verrevcmp [] [] = 0 := by
  rw [verrevcmp, dif_pos ⟨rfl, rfl⟩]

theorem verrevcmp_of_error {v : Int} (hne : ¬ (a = [] ∧ b = [])) (h : round a b = .error v) :
    verrevcmp a b = v := by
  rw [verrevcmp, dif_neg hne]
  split
  · exact Except.error.inj (Eq.trans (Eq.symm ‹round a b = _›) h)
  · exact absurd (Eq.trans (Eq.symm ‹round a b = _›) h) (by simp)

theorem verrevcmp_of_ok {r : Str × Str} (hne : ¬ (a = [] ∧ b = [])) (h : round a b = .ok r) :
    verrevcmp a b = verrevcmp r.1 r.2 := by
  rw [verrevcmp, dif_neg hne]
  split
  · exact absurd (Eq.trans (Eq.symm ‹round a b = _›) h) (by simp)
  · rename_i hr
    rw [h] at hr
    cases hr
    rfl

theorem compare_cons_of_ne {α : Type} [Ord α] {x y : α} (xs ys : List α)
    (h : Ord.compare x y ≠ .eq) : Ord.compare (x :: xs) (y :: ys) = Ord.compare x y := by
  rw [List.compare_cons_cons]
  cases hc : Ord.compare x y with
  | lt => rfl
  | eq => exact absurd hc h
  | gt => rfl

/-- The first token of a string. -/
def first (s : Str) : Str × ℕ := (leading s, number ((trailing s).takeWhile isDigit))

/-- The tokens behind the first one. -/
def rest (s : Str) : Part := if after s = [] then part [] else part (tokens (after s))

theorem part_tokens (s : Str) : part (tokens s) = token (first s) :: rest s := by
  rw [tokens, rest]
  split <;> rfl

theorem token_ne_end (h : atNonDigit s = true) : token (first s) ≠ token ([], 0) := by
  cases s with
  | nil => cases h
  | cons c s =>
    have hc : isDigit c = false := by simpa [atNonDigit] using h
    intro heq
    have hmarks : marks (leading (c :: s)) = marks [] := congrArg (fun t => (ofLex t).1) heq
    rw [(leading_cons s hc).1] at hmarks
    have := congrArg List.length hmarks
    simp [marks] at this

theorem after_at (s : Str) : after s = [] ∨ atNonDigit (after s) = true := by
  cases h : after s with
  | nil => exact .inl rfl
  | cons c t =>
    have hhead : ((trailing s).dropWhile isDigit).head? = some c := by
      have : (after s).head? = some c := by rw [h]; rfl
      exact this
    rw [← List.find?_not_eq_head?_dropWhile] at hhead
    have hc := List.find?_some hhead
    exact .inr (by simpa [atNonDigit] using hc)

/-- Behind the first tokens it makes no difference that a part with no bytes has one. -/
theorem compare_rest (a b : Str) : Ord.compare (rest a) (rest b) =
    Ord.compare (part (tokens (after a))) (part (tokens (after b))) := by
  have hend : part (tokens []) = token ([], 0) :: part [] := part_tokens []
  unfold rest
  rcases after_at a with ha | ha
  · rcases after_at b with hb | hb
    · rw [ha, hb, Std.compare_self, Std.compare_self]
    · have hne : Ord.compare (token ([], 0)) (token (first (after b))) ≠ .eq :=
        fun h => token_ne_end hb (Std.LawfulEqOrd.eq_of_compare h).symm
      rw [ha, if_pos rfl, if_neg (by rintro h; rw [h] at hb; cases hb), hend, part_tokens,
        compare_cons_of_ne _ _ hne]
      exact compare_cons_of_ne _ _ hne
  · have hna : after a ≠ [] := by
      intro h
      rw [h] at ha
      cases ha
    rcases after_at b with hb | hb
    · have hne : Ord.compare (token (first (after a))) (token ([], 0)) ≠ .eq :=
        fun h => token_ne_end ha (Std.LawfulEqOrd.eq_of_compare h)
      rw [hb, if_pos rfl, if_neg hna, hend, part_tokens, compare_cons_of_ne _ _ hne]
      exact compare_cons_of_ne _ _ hne
    · rw [if_neg hna, if_neg (by rintro h; rw [h] at hb; cases hb)]

/-- On strings without a NUL byte `verrevcmp` compares the tokens. -/
theorem verrevcmp_eq (ha : nul ∉ a) (hb : nul ∉ b) :
    verrevcmp a b = sign (Ord.compare (part (tokens a)) (part (tokens b))) := by
  induction hn : a.length + b.length using Nat.strong_induction_on generalizing a b with
  | _ n ih =>
    by_cases hnil : a = [] ∧ b = []
    · obtain ⟨rfl, rfl⟩ := hnil
      rw [verrevcmp_nil, Std.compare_self]
      rfl
    have hround : round a b =
        decided (Ord.compare (token (first a)) (token (first b))) (after a, after b) :=
      round_eq ha hb
    rw [part_tokens, part_tokens, List.compare_cons_cons, compare_rest]
    by_cases heq : Ord.compare (token (first a)) (token (first b)) = .eq
    · rw [heq, decided_eq] at hround
      rw [verrevcmp_of_ok hnil hround, heq, Ordering.eq_then]
      have hlt := round_lt hnil hround
      exact ih _ (hn ▸ hlt) (fun h => ha ((after_suffix a).subset h))
        (fun h => hb ((after_suffix b).subset h)) rfl
    · rw [verrevcmp_of_error hnil (hround.trans (decided_of_ne heq _))]
      cases hc : Ord.compare (token (first a)) (token (first b)) with
      | lt => rfl
      | eq => exact absurd hc heq
      | gt => rfl

/-! ## Versions -/

theorem compare_digits (ha : ∀ c ∈ a, isDigit c = true) (hb : ∀ c ∈ b, isDigit c = true)
    (hlen : a.length = b.length) :
    (if a < b then -1 else if b < a then 1 else 0) = sign (Ord.compare (digits a) (digits b)) := by
  induction a generalizing b with
  | nil =>
    cases b with
    | nil => rfl
    | cons d b => cases hlen
  | cons c a ih =>
    cases b with
    | nil => cases hlen
    | cons d b =>
      have htail := ih (fun e he => ha e (List.mem_cons_of_mem c he))
        (fun e he => hb e (List.mem_cons_of_mem d he)) (Nat.succ.inj hlen)
      have hc := isDigit_toNat (ha c List.mem_cons_self)
      have hd := isDigit_toNat (hb d List.mem_cons_self)
      have hzero : '0'.toNat = 48 := rfl
      have hdigits : Ord.compare (digits (c :: a)) (digits (d :: b)) =
          (Ord.compare (c.toNat - '0'.toNat) (d.toNat - '0'.toNat)).then
            (Ord.compare (digits a) (digits b)) := List.compare_cons_cons
      have hlt : ∀ x y : Char, x < y ↔ x.toNat < y.toNat :=
        fun x y => Char.lt_def.trans UInt32.lt_iff_toNat_lt
      rw [hdigits]
      simp only [List.cons_lt_cons_iff, hlt]
      rcases lt_trichotomy c.toNat d.toNat with h | h | h
      · rw [if_pos (.inl h),
          compare_lt_iff_lt.mpr (show c.toNat - '0'.toNat < d.toNat - '0'.toNat by omega)]
        rfl
      · obtain rfl := Char.toNat_inj.mp h
        simp only [lt_self_iff_false, true_and, false_or, compare_eq_iff_eq.mpr rfl,
          Ordering.eq_then]
        exact htail
      · have hne : c ≠ d := fun heq => Nat.lt_irrefl _ (heq ▸ h)
        have hnot : ¬ (c.toNat < d.toNat ∨ c = d ∧ a < b) := by
          rintro (hlt | ⟨heq, -⟩)
          · exact h.not_gt hlt
          · exact hne heq
        rw [if_neg hnot, if_pos (.inl h),
          compare_gt_iff_gt.mpr (show c.toNat - '0'.toNat > d.toNat - '0'.toNat by omega)]
        rfl

theorem compareTrimmed_eq (ha : ∀ c ∈ a, isDigit c = true) (hb : ∀ c ∈ b, isDigit c = true) :
    compareTrimmed a b = sign (digitOrder 0 a b) := by
  unfold compareTrimmed digitOrder
  rw [compare_eq_iff_eq.mpr rfl, Ordering.eq_then]
  rcases lt_trichotomy a.length b.length with h | h | h
  · rw [if_pos h.ne, if_pos h, compare_lt_iff_lt.mpr h]
    rfl
  · rw [if_neg (not_not.mpr h), compare_eq_iff_eq.mpr h, Ordering.eq_then]
    exact compare_digits ha hb h
  · rw [if_pos h.ne', if_neg h.not_gt, compare_gt_iff_gt.mpr h]
    rfl

theorem compareNumericString_eq (ha : ∀ c ∈ a, isDigit c = true) (hb : ∀ c ∈ b, isDigit c = true) :
    compareNumericString a b = sign (Ord.compare (number a) (number b)) := by
  rw [← digitOrder_trimZeros ha hb]
  exact compareTrimmed_eq (fun c hc => ha c (List.dropWhile_subset _ hc))
    fun c hc => hb c (List.dropWhile_subset _ hc)

theorem idxOf?_append_cons (h : c ∉ a) : (a ++ c :: b).idxOf? c = some a.length := by
  induction a with
  | nil => simp [List.idxOf?_cons]
  | cons d a ih =>
    obtain ⟨hd, ha⟩ := List.ne_and_not_mem_of_not_mem_cons h
    simp [List.idxOf?_cons, Ne.symm hd, ih ha]

theorem split_of_idxOf? {i : Nat} (h : s.idxOf? c = some i) :
    s = s.take i ++ c :: s.drop (i + 1) := by
  obtain ⟨hi, rfl, -⟩ := List.idxOf?_eq_some_iff.mp h
  simp

namespace Parts

variable {v : Str} (x : Parts v)

theorem splitEpoch_eq : splitEpoch v = (x.epoch, x.rest) := by
  obtain ⟨epoch, rest, -, -, ⟨rfl, hne, hdigits⟩ | ⟨rfl, rfl, hnone⟩, -⟩ := x
  · have hcolon : ':' ∉ epoch := fun h => absurd (hdigits _ h) (by decide)
    have hall : isAllDigits epoch = true := by simpa [isAllDigits, hne] using hdigits
    have hpos : 0 < epoch.length := List.length_pos_of_ne_nil hne
    rw [splitEpoch, idxOf?_append_cons hcolon]
    simp [hall, hpos]
  · rw [splitEpoch]
    split
    · rename_i i hi
      refine if_neg fun h => hnone _ _ (split_of_idxOf? hi) ?_
      simpa [isAllDigits, Digits] using h.2
    · rfl

theorem splitRevision_eq : splitRevision x.rest = (x.upstream, x.revision) := by
  rcases x.hyphen with ⟨hrest, hlast⟩ | ⟨hrevision, hupstream, hnone⟩
  · have hindex : lastIndexByte (x.upstream ++ '-' :: x.revision) '-' = some x.upstream.length := by
      have hreverse : (x.upstream ++ '-' :: x.revision).reverse =
          x.revision.reverse ++ '-' :: x.upstream.reverse := by simp
      rw [lastIndexByte, hreverse, idxOf?_append_cons (by simpa using hlast)]
      simp only [Option.map_some, List.length_append, List.length_cons, List.length_reverse]
      exact congrArg some (by omega)
    rw [hrest, splitRevision, hindex]
    simp
  · have hindex : lastIndexByte x.rest '-' = none := by
      rw [lastIndexByte, List.idxOf?_eq_none_iff.mpr (by simpa using hnone)]
      rfl
    rw [splitRevision, hindex, hrevision, hupstream]

/-- `parse` finds the parts. -/
theorem parse_eq : parse v = (x.epoch, x.upstream, x.revision) := by
  rw [parse, x.splitEpoch_eq, x.splitRevision_eq]

theorem version_eq : version v = x.place := by rw [version, x.parse_eq, place]

theorem epoch_digit : ∀ c ∈ x.epoch, isDigit c = true := by
  rcases x.colon with ⟨-, -, h⟩ | ⟨h, -, -⟩
  · exact h
  · simp [h]

/-- The parts are made of the bytes of the version. -/
theorem subset : x.upstream ⊆ v ∧ x.revision ⊆ v := by
  obtain ⟨epoch, rest, upstream, revision, hcolon, hhyphen⟩ := x
  have hrest : rest ⊆ v := by
    rcases hcolon with ⟨rfl, -⟩ | ⟨-, rfl, -⟩
    · exact List.subset_append_of_subset_right _ (List.subset_cons_self _ _)
    · exact List.Subset.refl rest
  rcases hhyphen with ⟨rfl, -⟩ | ⟨rfl, rfl, -⟩
  · obtain ⟨hupstream, htail⟩ := List.append_subset.mp hrest
    exact ⟨hupstream, (List.cons_subset.mp htail).2⟩
  · exact ⟨hrest, List.nil_subset v⟩

theorem unique (x y : Parts v) : x = y := by
  have hepoch := Prod.mk.inj (x.splitEpoch_eq.symm.trans y.splitEpoch_eq)
  have hrevision := x.splitRevision_eq
  rw [hepoch.2, y.splitRevision_eq] at hrevision
  cases x
  cases y
  cases hepoch.1
  cases hepoch.2
  cases hrevision
  rfl

end Parts

theorem exists_parts (v : Str) : Nonempty (Parts v) := by
  have hhyphen : ∀ rest : Str, ∃ u r, (rest = u ++ '-' :: r ∧ '-' ∉ r) ∨
      (r = [] ∧ u = rest ∧ '-' ∉ rest) := by
    intro rest
    by_cases h : '-' ∈ rest
    · -- the first hyphen from the end
      obtain ⟨r, u, hru, hr⟩ := List.eq_append_cons_of_mem (List.mem_reverse.mpr h)
      exact ⟨u.reverse, r.reverse, .inl ⟨by simpa using congrArg List.reverse hru, by simpa using hr⟩⟩
    · exact ⟨rest, [], .inr ⟨rfl, rfl, h⟩⟩
  by_cases h : ∃ e r, v = e ++ ':' :: r ∧ Digits e
  · obtain ⟨e, rest, hv⟩ := h
    obtain ⟨u, r, hr⟩ := hhyphen rest
    exact ⟨e, rest, u, r, .inl hv, hr⟩
  · obtain ⟨u, r, hr⟩ := hhyphen v
    exact ⟨[], v, u, r, .inr ⟨rfl, rfl, fun e r hv hd => h ⟨e, r, hv, hd⟩⟩, hr⟩

/-- A string without a NUL byte. -/
structure VersionString where
  text : Str
  nulFree : nul ∉ text

/-- On strings without a NUL byte the code computes dpkg's order. -/
theorem compare_eq (a b : VersionString) :
    compare a.text b.text = sign (Ord.compare (version a.text) (version b.text)) := by
  obtain ⟨x⟩ := exists_parts a.text
  obtain ⟨y⟩ := exists_parts b.text
  have hu := verrevcmp_eq (fun h => a.nulFree (x.subset.1 h)) (fun h => b.nulFree (y.subset.1 h))
  have hr := verrevcmp_eq (fun h => a.nulFree (x.subset.2 h)) (fun h => b.nulFree (y.subset.2 h))
  rw [x.version_eq, y.version_eq, Parts.place, Parts.place, compare_toLex, compare_toLex, compare,
    x.parse_eq, y.parse_eq]
  dsimp only
  rw [compareNumericString_eq x.epoch_digit y.epoch_digit, hu, hr, sign_then, sign_then]

theorem part_injective {ts us : List (Str × ℕ)} (h : part ts = part us) : ts = us := by
  have htoken : Function.Injective token := by
    intro t u heq
    have hmarks : marks t.1 = marks u.1 := congrArg (fun x => (ofLex x).1) heq
    have hnumber : t.2 = u.2 := congrArg (fun x => (ofLex x).2) heq
    have hrun : t.1.map mark = u.1.map mark := List.append_cancel_right hmarks
    exact Prod.ext (List.map_injective_iff.mpr (fun _ _ => mark_injective) hrun) hnumber
  exact List.map_injective_iff.mpr htoken (List.append_cancel_right h)

theorem Parts.place_eq_iff (x : Parts a) (y : Parts b) : x.place = y.place ↔
    number x.epoch = number y.epoch ∧ tokens x.upstream = tokens y.upstream ∧
      tokens x.revision = tokens y.revision := by
  constructor
  · intro h
    have hepoch : number x.epoch = number y.epoch := congrArg (fun v => (ofLex v).1) h
    have hupstream : part (tokens x.upstream) = part (tokens y.upstream) :=
      congrArg (fun v => (ofLex (ofLex v).2).1) h
    have hrevision : part (tokens x.revision) = part (tokens y.revision) :=
      congrArg (fun v => (ofLex (ofLex v).2).2) h
    exact ⟨hepoch, part_injective hupstream, part_injective hrevision⟩
  · rintro ⟨hepoch, hupstream, hrevision⟩
    rw [place, place, hepoch, hupstream, hrevision]

theorem compare_eq_zero {a b : VersionString} :
    compare a.text b.text = 0 ↔ version a.text = version b.text := by
  rw [compare_eq, sign_eq_zero, Std.compare_eq_iff_eq]

theorem compare_swap (a b : VersionString) : compare a.text b.text = -compare b.text a.text := by
  rw [compare_eq, compare_eq, ← sign_swap, ← Std.OrientedOrd.eq_swap]

theorem compare_le_trans {a b c : VersionString} (hab : compare a.text b.text ≤ 0)
    (hbc : compare b.text c.text ≤ 0) : compare a.text c.text ≤ 0 := by
  rw [compare_eq, sign_le_zero] at hab hbc ⊢
  exact Std.TransOrd.isLE_trans hab hbc

/-- Debian's order of versions. A string has its parts in exactly one way; the code computes the
specified order of the parts, ties are versions of the same tokens, and the order is a total
preorder. -/
theorem compare_order :
    (∀ v : Str, Nonempty (Parts v) ∧ ∀ x y : Parts v, x = y) ∧
    (∀ (a b : VersionString) (x : Parts a.text) (y : Parts b.text),
      compare a.text b.text = sign (Ord.compare x.place y.place) ∧
      (compare a.text b.text = 0 ↔ number x.epoch = number y.epoch ∧
        tokens x.upstream = tokens y.upstream ∧ tokens x.revision = tokens y.revision)) ∧
    (∀ a : VersionString, compare a.text a.text = 0) ∧
    (∀ a b : VersionString, compare a.text b.text = -compare b.text a.text) ∧
    (∀ a b c : VersionString, compare a.text b.text ≤ 0 → compare b.text c.text ≤ 0 →
      compare a.text c.text ≤ 0) ∧
    ∀ a b : VersionString, compare a.text b.text ≤ 0 ∨ compare b.text a.text ≤ 0 := by
  refine ⟨fun v => ⟨exists_parts v, Parts.unique⟩, fun a b x y => ⟨?_, ?_⟩,
    fun a => compare_eq_zero.mpr rfl, compare_swap, fun a b c => compare_le_trans, fun a b => ?_⟩
  · rw [compare_eq, x.version_eq, y.version_eq]
  · rw [compare_eq_zero, x.version_eq, y.version_eq, x.place_eq_iff y]
  · have hswap := compare_swap a b
    omega

example : compare "1:1.0~rc1-1".toList "1:1.0-0".toList = -1 := by decide +kernel

example : compare "1.0".toList "1.00-0".toList = 0 := by decide +kernel

end AptCacher.Debversion
