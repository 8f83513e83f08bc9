import AptCacher.Proxy.Connect

/-!
# Content ranges

* `parseContentRange`: the range of a partial response.
* `contentRange`: a header as servers write it, with the total or a star.
* `parseContentRange_contentRange`: the numbers that were written are read, if they fit in 64 bits.
-/

namespace AptCacher.Fetch

open Spec Aptpath

/-- `unicode.IsSpace` of the characters of a header. The last two are the characters, not bytes: a
lone byte 0x85 or 0xA0 is no space to the source. -/
def isSpace (c : Char) : Bool :=
  c ∈ ['\t', '\n', Char.ofNat 11, Char.ofNat 12, '\r', ' ', Char.ofNat 0x85, Char.ofNat 0xA0]

/-- `strings.TrimSpace`. -/
def trimSpace (s : Str) : Str := ((s.dropWhile isSpace).reverse.dropWhile isSpace).reverse

/-- The largest 64-bit integer, and one. -/
def intLimit : Int := 2 ^ 63

/-- `strconv.ParseInt` of a decimal number of 64 bits. -/
def parseInt (s : Str) : Option Int :=
  (Proxy.atoi s).filter fun n => -intLimit ≤ n && n < intLimit

/-- The unit of a range. -/
def bytesUnit : Str := ['b', 'y', 't', 'e', 's', ' ']

/-- A total, or −1 for a star. -/
def parseTotal (s : Str) : Option Int := if s = ['*'] then some (-1) else parseInt s

/-- `parseContentRange` behind the unit. -/
def parseRange (rest : Str) : Option (Int × Int × Int) :=
  if !rest.contains '/' then none
  else
    let (span, totalStr) := Url.cut '/' rest
    if !span.contains '-' then none
    else
      let (firstStr, lastStr) := Url.cut '-' span
      (parseInt firstStr).bind fun first => (parseInt lastStr).bind fun last =>
        (parseTotal totalStr).bind fun total =>
          if last < first then none else some (first, last, total)

/-- `parseContentRange`: the first and the last byte, and the total or −1. -/
def parseContentRange (header : Str) : Option (Int × Int × Int) :=
  let s := trimSpace header
  if !bytesUnit.isPrefixOf s then none else parseRange (s.drop bytesUnit.length)

/-- A total as it is written. -/
def totalText (total : Option Nat) : Str := (total.map (Nat.toDigits 10)).getD ['*']

/-- A header for the bytes from `first` to `last`. -/
def contentRange (first last : Nat) (total : Option Nat) : Str :=
  bytesUnit ++ ((Nat.toDigits 10 first ++ '-' :: Nat.toDigits 10 last) ++ '/' :: totalText total)

/-! ## What is written is read -/

section Digits

variable {n : Nat} {c : Char} {s t : Str}

theorem isDigit_toDigits (h : c ∈ Nat.toDigits 10 n) : Url.isDigit c = true := by
  have hdigit := Nat.isDigit_of_mem_toDigits (by decide) (by decide) h
  simpa [Url.isDigit, Char.isDigit, Char.le_def] using hdigit

theorem not_mem_toDigits (hc : Url.isDigit c = false) : c ∉ Nat.toDigits 10 n := fun h => by
  rw [isDigit_toDigits h] at hc
  cases hc

theorem atoi_toDigits (n : Nat) : Proxy.atoi (Nat.toDigits 10 n) = some (n : Int) := by
  have hvalue : (Nat.toDigits 10 n).foldl (fun n c => 10 * n + (c.toNat - '0'.toNat)) 0 = n :=
    Nat.ofDigitChars_toDigits (by decide) (by decide)
  have hall : (Nat.toDigits 10 n).all Url.isDigit = true :=
    List.all_eq_true.mpr fun c hc => isDigit_toDigits hc
  unfold Proxy.atoi
  split
  rename_i sign digits hmatch
  split at hmatch
  · rename_i rest heq
    exact absurd (heq ▸ List.mem_cons_self) (not_mem_toDigits (by decide) : '-' ∉ Nat.toDigits 10 n)
  · rename_i rest heq
    exact absurd (heq ▸ List.mem_cons_self) (not_mem_toDigits (by decide) : '+' ∉ Nat.toDigits 10 n)
  · cases hmatch
    rw [hvalue, hall, if_neg (by simp [Nat.toDigits_ne_nil]), one_mul]

theorem parseInt_toDigits (n : Nat) :
    parseInt (Nat.toDigits 10 n) = if (n : Int) < intLimit then some (n : Int) else none := by
  have hlow : -intLimit ≤ (n : Int) := by
    unfold intLimit
    omega
  rw [parseInt, atoi_toDigits, Option.filter_some]
  simp [hlow]

theorem cut_of_not_mem (h : c ∉ s) : Url.cut c (s ++ c :: t) = (s, t) := by
  refine (Url.cut_append fun d hd => ?_).trans ?_
  · simp only [bne_iff_ne]
    rintro rfl
    exact h hd
  · simp [Url.cut]

theorem trimSpace_id (hhead : ∀ c ∈ s.head?, isSpace c = false)
    (hlast : ∀ c ∈ s.getLast?, isSpace c = false) : trimSpace s = s := by
  have hid : ∀ t : Str, (∀ c ∈ t.head?, isSpace c = false) → t.dropWhile isSpace = t := by
    intro t ht
    cases t with
    | nil => rfl
    | cons c t => simp [ht c rfl]
  rw [trimSpace, hid s hhead, hid s.reverse (by simpa using hlast), List.reverse_reverse]

end Digits

/-- The number that stands for a total. -/
def totalOf (total : Option Nat) : Int := (total.map fun n => (n : Int)).getD (-1)

section Header

variable {first last : Nat} {total : Option Nat}

theorem parseTotal_totalText :
    parseTotal (totalText total) =
      if totalOf total < intLimit then some (totalOf total) else none := by
  cases total with
  | none => rfl
  | some n =>
    have hne : Nat.toDigits 10 n ≠ ['*'] := fun heq =>
      absurd (heq ▸ List.mem_cons_self) (not_mem_toDigits (by decide) : '*' ∉ Nat.toDigits 10 n)
    exact (if_neg hne).trans (parseInt_toDigits n)

theorem isDigit_of_isSpace {c : Char} (h : isSpace c = true) : Url.isDigit c = false := by
  simp only [isSpace, List.mem_cons, List.not_mem_nil, or_false, decide_eq_true_eq] at h
  rcases h with rfl | rfl | rfl | rfl | rfl | rfl | rfl | rfl <;> rfl

theorem isSpace_totalText {c : Char} (h : c ∈ totalText total) : isSpace c = false := by
  cases total with
  | none =>
    cases List.mem_singleton.mp h
    rfl
  | some n =>
    by_contra hspace
    rw [Bool.not_eq_false] at hspace
    exact not_mem_toDigits (isDigit_of_isSpace hspace) h

theorem trimSpace_contentRange :
    trimSpace (contentRange first last total) = contentRange first last total := by
  refine trimSpace_id (by rintro _ ⟨⟩; rfl) fun c hc => ?_
  have hne : totalText total ≠ [] := by
    cases total with
    | none => exact List.cons_ne_nil _ _
    | some n => exact Nat.toDigits_ne_nil
  have hsplit : contentRange first last total =
      (bytesUnit ++ (Nat.toDigits 10 first ++ '-' :: Nat.toDigits 10 last) ++ ['/']) ++
        totalText total := by simp [contentRange]
  rw [hsplit, List.getLast?_append_of_ne_nil _ hne] at hc
  exact isSpace_totalText (List.mem_of_mem_getLast? hc)

theorem parseContentRange_contentRange (h : first ≤ last) :
    parseContentRange (contentRange first last total) =
      if (last : Int) < intLimit ∧ totalOf total < intLimit then
        some ((first : Int), (last : Int), totalOf total) else none := by
  have hspan : '/' ∉ Nat.toDigits 10 first ++ '-' :: Nat.toDigits 10 last := by
    have hno : ∀ n, '/' ∉ Nat.toDigits 10 n := fun n => not_mem_toDigits (by decide)
    simp [hno]
  have hfirst : '-' ∉ Nat.toDigits 10 first := not_mem_toDigits (by decide)
  have hpre : bytesUnit.isPrefixOf (contentRange first last total) = true := by
    simp [contentRange]
  rw [parseContentRange, trimSpace_contentRange, hpre, contentRange, List.drop_left, parseRange,
    cut_of_not_mem hspan]
  dsimp only
  rw [cut_of_not_mem hfirst]
  simp only [parseInt_toDigits, parseTotal_totalText]
  by_cases hlast : (last : Int) < intLimit
  · have hfit : (first : Int) < intLimit := lt_of_le_of_lt (by exact_mod_cast h) hlast
    have hle : ¬ (last : Int) < first := by omega
    by_cases htotal : totalOf total < intLimit
    · simp [hlast, hfit, htotal, hle]
    · simp [hlast, hfit, htotal]
  · by_cases hfit : (first : Int) < intLimit
    · simp [hlast, hfit]
    · simp [hlast, hfit]

end Header

end AptCacher.Fetch
