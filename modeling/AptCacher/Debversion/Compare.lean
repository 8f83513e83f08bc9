import AptCacher.Aptpath.Suite
import AptCacher.Spec.Fail

/-!
# The comparison of Debian versions

`internal/debversion`: how the code compares version strings `[epoch:]upstream[-revision]`. It walks
two strings with one index each; here a string is what is left of it from its index on.

* `compare`, `parse`, `compareNumericString`, `verrevcmp`, `order`: as in the source.
* `round`, `round_lt`: one round of the loop of `verrevcmp` takes a byte off one of the strings, so
  the loop ends.
-/

namespace AptCacher.Debversion

open Spec

def isDigit (c : Char) : Bool := '0' ≤ c && c ≤ '9'

def isAllDigits (s : Str) : Bool := s != [] && s.all isDigit

/-- `strings.LastIndexByte`. -/
def lastIndexByte (s : Str) (c : Char) : Option Nat :=
  (s.reverse.idxOf? c).map fun j => s.length - 1 - j

/-- The first step of `parse`: the epoch, and the rest of the version. -/
def splitEpoch (v : Str) : Str × Str :=
  match v.idxOf? ':' with
  | some i =>
    if 0 < i ∧ isAllDigits (v.take i) = true then (v.take i, v.drop (i + 1)) else ([], v)
  | none => ([], v)

/-- The second step of `parse`: the upstream version and the revision, at the last hyphen. -/
def splitRevision (rest : Str) : Str × Str :=
  match lastIndexByte rest '-' with
  | some i => (rest.take i, rest.drop (i + 1))
  | none => (rest, [])

/-- `parse`: epoch, upstream version and revision. -/
def parse (v : Str) : Str × Str × Str := ((splitEpoch v).1, splitRevision (splitEpoch v).2)

/-- `strings.TrimLeft(s, "0")`. -/
def trimZeros (s : Str) : Str := s.dropWhile (· == '0')

/-- `compareNumericString`, on trimmed strings. -/
def compareTrimmed (a b : Str) : Int :=
  if a.length ≠ b.length then
    if a.length < b.length then -1 else 1
  else if a < b then -1
  else if b < a then 1
  else 0

def compareNumericString (a b : Str) : Int := compareTrimmed (trimZeros a) (trimZeros b)

def isLetter (c : Char) : Bool := ('a' ≤ c && c ≤ 'z') || ('A' ≤ c && c ≤ 'Z')

/-- The NUL byte, which stands for the end of a string. -/
def nul : Char := '\x00'

/-- `order`: the weight of a byte. -/
def order (c : Char) : Int :=
  if isDigit c then 0
  else if isLetter c then c.toNat
  else if c = '~' then -1
  else if c = nul then 0
  else c.toNat + 256

/-- `byteAt`: the next byte, or the end. -/
def byteAt (s : Str) : Char := s.headD nul

def clamp (n : Int) : Int := if n < 0 then -1 else if 0 < n then 1 else 0

/-- The string is at a byte that is not a digit. -/
def atNonDigit (s : Str) : Bool := s.head?.any fun c => !isDigit c

/-- The string is at a digit. -/
def atDigit (s : Str) : Bool := s.head?.any isDigit

/-- The loop of `verrevcmp` over the runs that are not digits: what is left, or the verdict. -/
def nonDigitRun (a b : Str) : Except Int (Str × Str) :=
  if atNonDigit a || atNonDigit b then
    if order (byteAt a) ≠ order (byteAt b) then .error (clamp (order (byteAt a) - order (byteAt b)))
    else nonDigitRun a.tail b.tail
  else .ok (a, b)
termination_by a.length + b.length
decreasing_by
  rename_i h _
  cases a with
  | nil =>
    cases b with
    | nil => cases h
    | cons y b => simp
  | cons x a =>
    simp only [List.tail_cons, List.length_tail, List.length_cons]
    omega

/-- The loop over two runs of digits, with the first difference. -/
def digitRun : Int → Str → Str → Int × Str × Str
  | firstDiff, x :: a, y :: b =>
    if isDigit x && isDigit y then
      digitRun (if firstDiff = 0 then (x.toNat : Int) - y.toNat else firstDiff) a b
    else (firstDiff, x :: a, y :: b)
  | firstDiff, a, b => (firstDiff, a, b)

/-- The digits of one round, without leading zeros: what is left, or the verdict. -/
def digitRound (firstDiff : Int) (a b : Str) : Except Int (Str × Str) :=
  let r := digitRun firstDiff a b
  if atDigit r.2.1 then .error 1
  else if atDigit r.2.2 then .error (-1)
  else if r.1 ≠ 0 then .error (clamp r.1)
  else .ok r.2

/-- One round of the loop of `verrevcmp`. -/
def round (a b : Str) : Except Int (Str × Str) := do
  let (a, b) ← nonDigitRun a b
  digitRound 0 (trimZeros a) (trimZeros b)

theorem nonDigitRun_suffix {a b : Str} {r : Str × Str} (h : nonDigitRun a b = .ok r) :
    (r.1 <:+ a ∧ r.2 <:+ b) ∧ atNonDigit r.1 = false ∧ atNonDigit r.2 = false := by
  induction a, b using nonDigitRun.induct with
  | case1 a b hat hne =>
    rw [nonDigitRun, if_pos hat, if_pos hne] at h
    cases h
  | case2 a b hat heq ih =>
    rw [nonDigitRun, if_pos hat, if_neg heq] at h
    obtain ⟨⟨hra, hrb⟩, hstop⟩ := ih h
    exact ⟨⟨hra.trans (List.tail_suffix a), hrb.trans (List.tail_suffix b)⟩, hstop⟩
  | case3 a b hat =>
    rw [nonDigitRun, if_neg hat] at h
    cases h
    exact ⟨⟨List.suffix_rfl, List.suffix_rfl⟩, by simpa using hat⟩

theorem digitRun_suffix (firstDiff : Int) (a b : Str) :
    (digitRun firstDiff a b).2.1 <:+ a ∧ (digitRun firstDiff a b).2.2 <:+ b := by
  fun_induction digitRun firstDiff a b with
  | case1 d x a y b _ ih =>
    exact ⟨ih.1.trans (List.suffix_cons x a), ih.2.trans (List.suffix_cons y b)⟩
  | case2 => exact ⟨List.suffix_rfl, List.suffix_rfl⟩
  | case3 => exact ⟨List.suffix_rfl, List.suffix_rfl⟩

theorem digitRound_suffix {firstDiff : Int} {a b : Str} {r : Str × Str}
    (h : digitRound firstDiff a b = .ok r) :
    (r.1 <:+ a ∧ r.2 <:+ b) ∧ atDigit r.1 = false ∧ atDigit r.2 = false := by
  unfold digitRound at h
  dsimp only at h
  split at h
  · cases h
  · split at h
    · cases h
    · split at h
      · cases h
      · cases h
        exact ⟨digitRun_suffix firstDiff a b, by simpa using ‹¬ atDigit _ = true›, by
          simpa using ‹¬ atDigit (digitRun firstDiff a b).2.2 = true›⟩

theorem nil_of_at {s : Str} (hn : atNonDigit s = false) (hd : atDigit s = false) : s = [] := by
  cases s with
  | nil => rfl
  | cons c s => simp_all [atNonDigit, atDigit]

/-- A round takes a byte off one of the strings at least. -/
theorem round_lt {a b : Str} {r : Str × Str} (hne : ¬ (a = [] ∧ b = []))
    (h : round a b = .ok r) : r.1.length + r.2.length < a.length + b.length := by
  obtain ⟨⟨a₁, b₁⟩, h₁, h₂⟩ := bind_eq_ok.mp h
  obtain ⟨⟨ha₁, hb₁⟩, hna, hnb⟩ := nonDigitRun_suffix h₁
  obtain ⟨⟨ha₂, hb₂⟩, hda, hdb⟩ := digitRound_suffix h₂
  have hra : r.1 <:+ a₁ := ha₂.trans (List.dropWhile_suffix _)
  have hrb : r.2 <:+ b₁ := hb₂.trans (List.dropWhile_suffix _)
  by_contra hle
  have hla := hra.length_le
  have hlb := hrb.length_le
  have hla₁ := ha₁.length_le
  have hlb₁ := hb₁.length_le
  simp only at hla₁ hlb₁
  -- nothing went, so each string is at its end from the start
  have hra₁ : r.1 = a₁ := hra.eq_of_length (by omega)
  have hrb₁ : r.2 = b₁ := hrb.eq_of_length (by omega)
  have haa : a₁ = a := ha₁.eq_of_length (by simp only; omega)
  have hbb : b₁ = b := hb₁.eq_of_length (by simp only; omega)
  refine hne ⟨?_, ?_⟩
  · rw [← haa]
    exact nil_of_at hna (hra₁ ▸ hda)
  · rw [← hbb]
    exact nil_of_at hnb (hrb₁ ▸ hdb)

def verrevcmp (a b : Str) : Int :=
  if _hnil : a = [] ∧ b = [] then 0
  else
    match _hround : round a b with
    | .error verdict => verdict
    | .ok r => verrevcmp r.1 r.2
termination_by a.length + b.length
decreasing_by exact round_lt _hnil _hround

def compare (a b : Str) : Int :=
  let (ea, ua, ra) := parse a
  let (eb, ub, rb) := parse b
  if compareNumericString ea eb ≠ 0 then compareNumericString ea eb
  else if verrevcmp ua ub ≠ 0 then verrevcmp ua ub
  else verrevcmp ra rb

end AptCacher.Debversion
