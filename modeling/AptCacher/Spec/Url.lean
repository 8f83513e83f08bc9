import Mathlib.Data.List.Basic

/-!
# URLs as text

A reference is taken apart from the outside in: the fragment, the scheme, the query, the authority
and the path. What an authority says is left to a reader of authorities.

* `getScheme`, `unescape`: the scheme in front of a reference; percent-decoding.
* `parse`: the parts of a reference.
* `parse_https`: a text that is put behind `https://` is read as an authority up to its first
  delimiter, and as a path from there on.
-/

namespace AptCacher.Spec.Url

/-! ## Parts -/

/-- The parts of a reference. -/
structure Parts where
  scheme : List Char
  /-- What follows the scheme of a reference without a slash there. -/
  rootless : List Char
  /-- The authority has user information. -/
  user : Bool
  host : List Char
  path : List Char
  rawQuery : List Char
  fragment : List Char
  deriving DecidableEq

def isCtl (c : Char) : Bool := decide (c.toNat < 0x20) || c.toNat == 0x7f

def isAlpha (c : Char) : Bool := ('a' ≤ c && c ≤ 'z') || ('A' ≤ c && c ≤ 'Z')

def isDigit (c : Char) : Bool := '0' ≤ c && c ≤ '9'

def schemeChar (c : Char) : Bool := isAlpha c || isDigit c || c == '+' || c == '-' || c == '.'

/-- The scheme of a reference, empty if it has none, and what follows it. -/
def getScheme (s : List Char) : Option (List Char × List Char) :=
  match s.dropWhile schemeChar with
  | ':' :: rest =>
    match s.takeWhile schemeChar with
    | [] => none
    | c :: name => if isAlpha c then some (c :: name, rest) else some ([], s)
  | _ => some ([], s)

def unhex (c : Char) : Option Nat :=
  if isDigit c then some (c.toNat - '0'.toNat)
  else if 'a' ≤ c && c ≤ 'f' then some (c.toNat - 'a'.toNat + 10)
  else if 'A' ≤ c && c ≤ 'F' then some (c.toNat - 'A'.toNat + 10)
  else none

/-- The byte of a percent escape. -/
def hexByte (a b : Char) : Option Char :=
  (unhex a).bind fun x => (unhex b).map fun y => Char.ofNat (16 * x + y)

/-- Percent-decoding; there is none of a text with a broken escape. -/
def unescape : List Char → Option (List Char)
  | [] => some []
  | '%' :: a :: b :: rest => (hexByte a b).bind fun c => (unescape rest).map (c :: ·)
  | '%' :: _ => none
  | c :: rest => (unescape rest).map (c :: ·)

theorem between_iff {a b c : Char} :
    (decide (a ≤ c) && decide (c ≤ b)) = true ↔ a.toNat ≤ c.toNat ∧ c.toNat ≤ b.toNat := by
  rw [Bool.and_eq_true, decide_eq_true_eq, decide_eq_true_eq]
  exact and_congr (Char.le_def.trans UInt32.le_iff_toNat_le)
    (Char.le_def.trans UInt32.le_iff_toNat_le)

theorem unhex_eq {c : Char} {n : Nat} (h : unhex c = some n) :
    (48 ≤ c.toNat ∧ c.toNat ≤ 57 ∧ n = c.toNat - 48) ∨
    (97 ≤ c.toNat ∧ c.toNat ≤ 102 ∧ n = c.toNat - 97 + 10) ∨
    (65 ≤ c.toNat ∧ c.toNat ≤ 70 ∧ n = c.toNat - 65 + 10) := by
  unfold unhex isDigit at h
  split at h
  · obtain ⟨hlow, hhigh⟩ := between_iff.mp ‹_›
    exact .inl ⟨hlow, hhigh, (Option.some.inj h).symm⟩
  split at h
  · obtain ⟨hlow, hhigh⟩ := between_iff.mp ‹_›
    exact .inr (.inl ⟨hlow, hhigh, (Option.some.inj h).symm⟩)
  split at h
  · obtain ⟨hlow, hhigh⟩ := between_iff.mp ‹_›
    exact .inr (.inr ⟨hlow, hhigh, (Option.some.inj h).symm⟩)
  · cases h

theorem hexByte_slash {a b : Char} (h : hexByte a b = some '/') :
    a = '2' ∧ (b = 'f' ∨ b = 'F') := by
  obtain ⟨x, hx, h⟩ := Option.bind_eq_some_iff.mp h
  obtain ⟨y, hy, h⟩ := Option.map_eq_some_iff.mp h
  have hx' := unhex_eq hx
  have hy' := unhex_eq hy
  have hbyte : ∀ n < 256, (Char.ofNat n).toNat = n := by decide +kernel
  have hsum : 16 * x + y = 47 := (hbyte _ (by omega)).symm.trans (congrArg Char.toNat h)
  have hchar : ∀ c d : Char, c.toNat = d.toNat → c = d := fun c d => Char.toNat_inj.mp
  refine ⟨hchar a '2' (show a.toNat = 50 by omega), ?_⟩
  rcases (by omega : b.toNat = 102 ∨ b.toNat = 70) with hb | hb
  · exact .inl (hchar b 'f' hb)
  · exact .inr (hchar b 'F' hb)

/-- The text up to `c`, and the text behind it. -/
def cut (c : Char) (s : List Char) : List Char × List Char :=
  (s.takeWhile (· != c), (s.dropWhile (· != c)).drop 1)

/-- The reference without its fragment and its query, behind the scheme. -/
def parseRest (authority : List Char → Option (Bool × List Char))
    (scheme rest rawQuery fragment : List Char) : Option Parts :=
  if !(['/'].isPrefixOf rest) && scheme != [] then
    some ⟨scheme, rest, false, [], [], rawQuery, fragment⟩
  else if !(['/'].isPrefixOf rest) && (cut '/' rest).1.contains ':' then none
  else if ['/', '/'].isPrefixOf rest && (scheme != [] || !(['/', '/', '/'].isPrefixOf rest)) then
    (authority ((rest.drop 2).takeWhile (· != '/'))).bind fun a =>
      (unescape ((rest.drop 2).dropWhile (· != '/'))).map fun path =>
        ⟨scheme, [], a.1, a.2, path, rawQuery, fragment⟩
  else (unescape rest).map fun path => ⟨scheme, [], false, [], path, rawQuery, fragment⟩

/-- The parts of a reference. -/
def parse (authority : List Char → Option (Bool × List Char)) (raw : List Char) : Option Parts :=
  let (u, frag) := cut '#' raw
  if u.any isCtl then none
  else if u = ['*'] then (unescape frag).map fun f => ⟨[], [], false, [], ['*'], [], f⟩
  else
    (getScheme u).bind fun s =>
      (unescape frag).bind fun f =>
        let (rest, rawQuery) := cut '?' s.2
        parseRest authority (s.1.map Char.toLower) rest rawQuery f

/-! ## A text behind a scheme -/

/-- The character ends an authority. -/
def isDelim (c : Char) : Bool := c == '/' || c == '?' || c == '#'

variable {a t : List Char}

theorem cut_append {c : Char} (ha : ∀ x ∈ a, (x != c) = true) :
    cut c (a ++ t) = (a ++ (cut c t).1, (cut c t).2) := by
  simp [cut, List.takeWhile_append_of_pos ha, List.dropWhile_append_of_pos ha]

theorem getScheme_https (rest : List Char) :
    getScheme ("https:".toList ++ rest) = some ("https".toList, rest) := by
  have hsplit : "https:".toList ++ rest = "https".toList ++ ':' :: rest := rfl
  have hname : ∀ c ∈ "https".toList, schemeChar c = true := List.all_eq_true.mp (by decide)
  rw [hsplit, getScheme, List.dropWhile_append_of_pos hname, List.takeWhile_append_of_pos hname]
  rfl

theorem parseRest_authority {authority : List Char → Option (Bool × List Char)}
    {rawQuery fragment : List Char} (ha : ∀ x ∈ a, (x != '/') = true)
    (ht : ∀ c, t.head? = some c → c = '/') :
    parseRest authority "https".toList (['/', '/'] ++ a ++ t) rawQuery fragment =
      (authority a).bind fun h =>
        (unescape t).map fun path => ⟨"https".toList, [], h.1, h.2, path, rawQuery, fragment⟩ := by
  have htake : (a ++ t).takeWhile (· != '/') = a := by
    rw [List.takeWhile_append_of_pos ha]
    cases t with
    | nil => simp
    | cons c rest =>
      cases ht c rfl
      simp
  have hdrop : (a ++ t).dropWhile (· != '/') = t := by
    rw [List.dropWhile_append_of_pos ha]
    cases t with
    | nil => rfl
    | cons c rest =>
      cases ht c rfl
      rfl
  simp [parseRest, htake, hdrop]

/-- Behind `https://`, a text without a delimiter is the authority and what follows it is the path,
the query and the fragment. -/
theorem parse_https (authority : List Char → Option (Bool × List Char))
    (ha : ∀ c ∈ a, isDelim c = false) (ht : ∀ c, t.head? = some c → isDelim c = true) :
    parse authority ("https://".toList ++ (a ++ t)) =
      if (a ++ (cut '#' t).1).any isCtl then none
      else (unescape (cut '#' t).2).bind fun f =>
        (authority a).bind fun h =>
          (unescape (cut '?' (cut '#' t).1).1).map fun path =>
            ⟨"https".toList, [], h.1, h.2, path, (cut '?' (cut '#' t).1).2, f⟩ := by
  have hplain : ∀ (c : Char), isDelim c = true → ∀ x ∈ a, (x != c) = true := by
    intro c hc x hx
    have hd := ha x hx
    refine bne_iff_ne.mpr fun heq => ?_
    rw [heq, hc] at hd
    cases hd
  have hhash : ∀ x ∈ "https://".toList ++ a, (x != '#') = true := by
    intro x hx
    rcases List.mem_append.mp hx with hx | hx
    · exact List.all_eq_true.mp (by decide : "https://".toList.all (· != '#') = true) x hx
    · exact hplain '#' rfl x hx
  have hquery : ∀ x ∈ ['/', '/'] ++ a, (x != '?') = true := by
    intro x hx
    rcases List.mem_append.mp hx with hx | hx
    · exact List.all_eq_true.mp (by decide : ['/', '/'].all (· != '?') = true) x hx
    · exact hplain '?' rfl x hx
  have hpath : ∀ c, (cut '?' (cut '#' t).1).1.head? = some c → c = '/' := by
    intro c hc
    cases t with
    | nil => cases hc
    | cons d rest =>
      have hd := ht d rfl
      simp only [isDelim, Bool.or_eq_true, beq_iff_eq] at hd
      rcases hd with (rfl | rfl) | rfl
      · cases hc
        rfl
      · cases hc
      · cases hc
  rw [parse, ← List.append_assoc, cut_append hhash]
  simp only [List.append_assoc]
  have hctl : ("https://".toList ++ (a ++ (cut '#' t).1)).any isCtl =
      (a ++ (cut '#' t).1).any isCtl := by
    rw [List.any_append]
    rfl
  have hstar : "https://".toList ++ (a ++ (cut '#' t).1) ≠ ['*'] := by simp
  have hscheme : getScheme ("https://".toList ++ (a ++ (cut '#' t).1)) =
      some ("https".toList, ['/', '/'] ++ a ++ (cut '#' t).1) := getScheme_https _
  rw [hctl, if_neg hstar, hscheme]
  split
  · rfl
  · simp only [Option.bind_some, cut_append hquery]
    refine Option.bind_congr fun f _ => ?_
    exact parseRest_authority (hplain '/' rfl) hpath

end AptCacher.Spec.Url
