import Mathlib.Data.List.Basic

/-!
# Regular expressions as trees

The syntax trees of a regular expression without counted repetitions, and which part of a text a
tree matches. Whether a part is matched depends on what stands before and after it, since a tree can
have anchors and word boundaries in it.

* `Regexp`, `Regexp.Matches re b m a`: `re` matches `m` between `b` and `a`.
* `Regexp.MatchesIn`: somewhere in a text.
* `matchesSeq_append`: a concatenation of concatenations.
* `Regexp.Free`: a tree that looks at the matched text only, with one rule per construct.
-/

namespace AptCacher.Spec

/-- A syntax tree. -/
inductive Regexp
  | noMatch
  | emptyMatch
  /-- A text; with `fold`, in upper or lower case. -/
  | literal (rs : List Char) (fold : Bool)
  /-- One character in one of the ranges. -/
  | charClass (ranges : List (Char × Char))
  | anyCharNotNL
  | anyChar
  | beginLine
  | endLine
  | beginText
  | endText
  | wordBoundary
  | noWordBoundary
  | capture (r : Regexp)
  | star (r : Regexp)
  | plus (r : Regexp)
  | quest (r : Regexp)
  | concat (rs : List Regexp)
  | alternate (rs : List Regexp)

namespace Regexp

def isWordChar (c : Char) : Bool :=
  ('a' ≤ c && c ≤ 'z') || ('A' ≤ c && c ≤ 'Z') || ('0' ≤ c && c ≤ '9') || c == '_'

/-- Of the two neighbours of a place, just one is a word character. -/
def atBoundary (b a : List Char) : Prop :=
  b.getLast?.any isWordChar ≠ a.head?.any isWordChar

/-- The pieces, one after the other from `b` on, each meet `P`. -/
def Pieces (P : List Char → List Char → List Char → Prop) :
    List (List Char) → List Char → List Char → Prop
  | [], _, _ => True
  | p :: ps, b, a => P b p (ps.flatten ++ a) ∧ Pieces P ps (b ++ p) a

mutual

/-- The tree matches `m` between `b` and `a`. -/
def Matches : Regexp → List Char → List Char → List Char → Prop
  | noMatch, _, _, _ => False
  | emptyMatch, _, m, _ => m = []
  | literal rs fold, _, m, _ =>
    if fold then m.map Char.toLower = rs.map Char.toLower else m = rs
  | charClass ranges, _, m, _ => ∃ c, m = [c] ∧ ∃ r ∈ ranges, r.1 ≤ c ∧ c ≤ r.2
  | anyCharNotNL, _, m, _ => ∃ c, m = [c] ∧ c ≠ '\n'
  | anyChar, _, m, _ => ∃ c, m = [c]
  | beginLine, b, m, _ => m = [] ∧ (b = [] ∨ b.getLast? = some '\n')
  | endLine, _, m, a => m = [] ∧ (a = [] ∨ a.head? = some '\n')
  | beginText, b, m, _ => m = [] ∧ b = []
  | endText, _, m, a => m = [] ∧ a = []
  | wordBoundary, b, m, a => m = [] ∧ atBoundary b a
  | noWordBoundary, b, m, a => m = [] ∧ ¬ atBoundary b a
  | capture r, b, m, a => r.Matches b m a
  | star r, b, m, a => ∃ ps, m = ps.flatten ∧ Pieces r.Matches ps b a
  | plus r, b, m, a => ∃ ps, ps ≠ [] ∧ m = ps.flatten ∧ Pieces r.Matches ps b a
  | quest r, b, m, a => m = [] ∨ r.Matches b m a
  | concat rs, b, m, a => MatchesSeq rs b m a
  | alternate rs, b, m, a => MatchesOne rs b m a

/-- The trees match parts of `m`, one after the other. -/
def MatchesSeq : List Regexp → List Char → List Char → List Char → Prop
  | [], _, m, _ => m = []
  | r :: rs, b, m, a =>
    ∃ m₁ m₂, m = m₁ ++ m₂ ∧ r.Matches b m₁ (m₂ ++ a) ∧ MatchesSeq rs (b ++ m₁) m₂ a

/-- One of the trees matches `m`. -/
def MatchesOne : List Regexp → List Char → List Char → List Char → Prop
  | [], _, _, _ => False
  | r :: rs, b, m, a => r.Matches b m a ∨ MatchesOne rs b m a

end

/-- The tree matches somewhere in the text. -/
def MatchesIn (re : Regexp) (s : List Char) : Prop := ∃ b m a, s = b ++ m ++ a ∧ re.Matches b m a

variable {r : Regexp} {rs rs' : List Regexp} {b m a : List Char}

/-! ## Concatenations and alternatives -/

theorem matchesOne_iff : MatchesOne rs b m a ↔ ∃ r ∈ rs, r.Matches b m a := by
  induction rs with
  | nil => simp [MatchesOne]
  | cons r rs ih => simp [MatchesOne, ih]

theorem matchesSeq_append : MatchesSeq (rs ++ rs') b m a ↔
    ∃ m₁ m₂, m = m₁ ++ m₂ ∧ MatchesSeq rs b m₁ (m₂ ++ a) ∧ MatchesSeq rs' (b ++ m₁) m₂ a := by
  induction rs generalizing b m with
  | nil =>
    constructor
    · exact fun h => ⟨[], m, rfl, rfl, by simpa using h⟩
    · rintro ⟨m₁, m₂, rfl, rfl, h⟩
      simpa using h
  | cons r rs ih =>
    simp only [List.cons_append, MatchesSeq]
    constructor
    · rintro ⟨m₁, m', rfl, hr, h⟩
      obtain ⟨m₂, m₃, rfl, h₂, h₃⟩ := ih.mp h
      refine ⟨m₁ ++ m₂, m₃, by simp, ⟨m₁, m₂, rfl, by simpa using hr, h₂⟩, by simpa using h₃⟩
    · rintro ⟨_, m₃, rfl, ⟨m₁, m₂, rfl, hr, h₂⟩, h₃⟩
      refine ⟨m₁, m₂ ++ m₃, by simp, by simpa using hr, ih.mpr ⟨m₂, m₃, rfl, h₂, ?_⟩⟩
      simpa using h₃

theorem matchesSeq_singleton : MatchesSeq [r] b m a ↔ r.Matches b m a := by
  constructor
  · rintro ⟨m₁, m₂, rfl, h, rfl⟩
    simpa using h
  · exact fun h => ⟨m, [], by simp, by simpa using h, rfl⟩

theorem matches_anchored (rs : List Regexp) :
    (concat (beginText :: (rs ++ [endText]))).Matches b m a ↔
      b = [] ∧ a = [] ∧ MatchesSeq rs b m a := by
  constructor
  · rintro ⟨_, m₂, rfl, ⟨rfl, rfl⟩, h⟩
    obtain ⟨m₃, m₄, rfl, h₃, h₄⟩ := matchesSeq_append.mp h
    obtain ⟨rfl, rfl⟩ := matchesSeq_singleton.mp h₄
    exact ⟨rfl, rfl, by simpa using h₃⟩
  · rintro ⟨rfl, rfl, h⟩
    refine ⟨[], m, rfl, ⟨rfl, rfl⟩, matchesSeq_append.mpr ⟨m, [], by simp, by simpa using h, ?_⟩⟩
    exact matchesSeq_singleton.mpr ⟨rfl, rfl⟩

/-! ## Trees that look at the matched text only -/

/-- What the tree matches, it matches anywhere. -/
def Free (r : Regexp) : Prop := ∀ b m a b' a', r.Matches b m a → r.Matches b' m a'

theorem free_emptyMatch : Free emptyMatch := fun _ _ _ _ _ h => h

theorem free_literal (rs : List Char) (fold : Bool) : Free (literal rs fold) := fun _ _ _ _ _ h => h

theorem free_charClass (ranges : List (Char × Char)) : Free (charClass ranges) :=
  fun _ _ _ _ _ h => h

theorem Free.quest (h : Free r) : Free (quest r) := fun b m a b' a' hm =>
  hm.imp_right (h b m a b' a')

theorem Free.pieces (h : Free r) {ps : List (List Char)} {b a b' a' : List Char}
    (hp : Pieces r.Matches ps b a) : Pieces r.Matches ps b' a' := by
  induction ps generalizing b b' with
  | nil => trivial
  | cons p ps ih => exact ⟨h _ _ _ _ _ hp.1, ih hp.2⟩

theorem Free.plus (h : Free r) : Free (plus r) := by
  rintro b m a b' a' ⟨ps, hne, rfl, hp⟩
  exact ⟨ps, hne, rfl, h.pieces hp⟩

theorem free_concat (h : ∀ r ∈ rs, Free r) : Free (concat rs) := by
  intro b m a b' a' hm
  show MatchesSeq rs b' m a'
  change MatchesSeq rs b m a at hm
  induction rs generalizing b m b' with
  | nil => exact hm
  | cons r rs ih =>
    obtain ⟨m₁, m₂, rfl, hr, hm⟩ := hm
    exact ⟨m₁, m₂, rfl, h r (by simp) _ _ _ _ _ hr,
      ih (fun r hr => h r (List.mem_cons_of_mem _ hr)) _ _ _ hm⟩

theorem free_alternate (h : ∀ r ∈ rs, Free r) : Free (alternate rs) := by
  intro b m a b' a' hm
  obtain ⟨r, hr, hm⟩ := matchesOne_iff.mp hm
  exact matchesOne_iff.mpr ⟨r, hr, h r hr _ _ _ _ _ hm⟩

/-- A free tree that matches in a text still does when the text is continued. -/
theorem Free.matchesIn_append (h : Free r) {s : List Char} (hm : r.MatchesIn s) (t : List Char) :
    r.MatchesIn (s ++ t) := by
  obtain ⟨b, m, a, rfl, hm⟩ := hm
  exact ⟨b, m, a ++ t, by simp, h _ _ _ _ _ hm⟩

end Regexp

end AptCacher.Spec
