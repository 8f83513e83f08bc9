import AptCacher.Proxy.Connect
import AptCacher.Spec.Regex
import Mathlib.Data.List.Infix

/-!
# Name constraints from the signing gate

The pattern of the signing gate is turned into the name constraints of a generated CA: a host is
permitted if it is one of the subtrees or below one. The parser of regular expressions, followed by
its simplifier, and the matcher are parameters; they agree on what a tree matches.

* `translateRegex`: the subtrees of a pattern, for the four shapes of tree that it accepts.
* `Covered`: a host under a subtree.
* `accepted_covered`, `accepted_free`: what an accepted tree matches between anchors is covered, and
  without anchors it is matched in longer hosts as well.
* `gate_covered_iff`: the subtrees cover what the gate admits just if the pattern is anchored, or
  admits no host.
-/

namespace AptCacher.Tlsmitm

open Spec Aptpath Proxy Regexp

/-! ## The translation -/

/-- `validateHostname`; `validateLabel` checks what `validateHostLDH` checks of a label. -/
def validateHostname (s : Str) : Bool :=
  s != [] && decide (s.length ≤ 253) && !".".toList.isPrefixOf s && !".".toList.isSuffixOf s &&
    !contains "..".toList s && (s.splitOn '.').all validLabel

def unwrapCapture : Regexp → Regexp
  | .capture r => unwrapCapture r
  | r => r

mutual

def flattenConcat : Regexp → List Regexp
  | .concat rs => flattenAll rs
  | r => [r]

/-- The loop of `flattenConcat`. -/
def flattenAll : List Regexp → List Regexp
  | [] => []
  | r :: rs => flattenConcat r ++ flattenAll rs

end

def concatOf : List Regexp → Regexp
  | [r] => r
  | rs => .concat rs

/-- The text of a part of a concatenation, if it is one. -/
def literalPart (r : Regexp) : Option Str :=
  match unwrapCapture r with
  | .literal rs _ => some rs
  | .emptyMatch => some []
  | _ => none

/-- The text of the parts of a concatenation. -/
def literalParts : List Regexp → Option Str
  | [] => some []
  | r :: rs => (literalPart r).bind fun s => (literalParts rs).map fun t => s ++ t

def asLiteralHost (re : Regexp) : Option Str :=
  match unwrapCapture re with
  | .literal rs _ => some rs
  | .concat rs => literalParts (flattenAll rs)
  | _ => none

/-- `isShape2CharClass`: `[a-z0-9-]` or `[^.]`. -/
def isShape2CharClass (ranges : List (Char × Char)) : Bool :=
  ranges == [('-', '-'), ('0', '9'), ('a', 'z')] ||
    ranges == [(Char.ofNat 0, '-'), ('/', Char.ofNat 0x10FFFF)]

def isAZCharClass : Regexp → Bool
  | .charClass ranges => ranges == [('a', 'z')]
  | _ => false

/-- The body of a shape-2 prefix. -/
def isLabelPlus : Regexp → Bool
  | .plus r =>
    match unwrapCapture r with
    | .charClass ranges => isShape2CharClass ranges
    | _ => false
  | _ => false

/-- The literal dot. -/
def isDot : Regexp → Bool
  | .literal rs _ => rs == ['.']
  | _ => false

/-- The optional two-letter region of a shape-3 prefix. -/
def isRegionQuest : Regexp → Bool
  | .quest r =>
    match unwrapCapture r with
    | .concat rs =>
      match (flattenAll rs).map unwrapCapture with
      | [c₁, c₂, last] => isAZCharClass c₁ && isAZCharClass c₂ && isDot last
      | _ => false
    | _ => false
  | _ => false

def translatePrefixSuffix (inner : Regexp) : Option Str :=
  match inner with
  | .concat rs =>
    match flattenAll rs with
    | head :: r :: rest =>
      (asLiteralHost (concatOf (r :: rest))).bind fun tailHost =>
        if isLabelPlus (unwrapCapture head) then
          if ['.'].isPrefixOf tailHost && validateHostname (tailHost.drop 1) then
            some (tailHost.drop 1)
          else none
        else if isRegionQuest (unwrapCapture head) && validateHostname tailHost then some tailHost
        else none
    | _ => none
  | _ => none

def stripAnchors (re : Regexp) : Option Regexp :=
  match re with
  | .concat rs =>
    match rs.head?, rs.getLast? with
    | some .beginText, some .endText =>
      if rs.tail.dropLast = [] then none else some (concatOf rs.tail.dropLast)
    | some .beginText, _ => none
    | some _, some .endText => none
    | some _, _ => some re
    | none, _ => none
  | _ => some re

/-- The hosts of the alternatives, if each is a valid name. -/
def alternatives : List Regexp → Option (List Str)
  | [] => some []
  | r :: rs =>
    (asLiteralHost r).bind fun host =>
      if validateHostname host then (alternatives rs).map fun hosts => host :: hosts else none

/-- `translateAlternation`: each host once, in order. -/
def translateAlternation (rs : List Regexp) : Option (List Str) :=
  (alternatives rs).bind fun hosts => if hosts = [] then none else some hosts.eraseDups

/-- `TranslateRegex` behind `stripAnchors`. -/
def translateInner (inner : Regexp) : Option (List Str) :=
  match unwrapCapture inner with
  | .alternate rs => translateAlternation rs
  | inner =>
    match asLiteralHost inner with
    | some host => if validateHostname host then some [host] else none
    | none => (translatePrefixSuffix inner).map fun host => [host]

/-- `TranslateRegex`; an unsupported pattern has no constraints. -/
def translateRegex (parse : Str → Option Regexp) (pattern : Str) : Option (List Str) :=
  if pattern = [] then none
  else (parse pattern).bind fun re => (stripAnchors re).bind translateInner

/-! ## What the parts match -/

/-- The texts are equal, letter case apart. -/
def Same (m s : Str) : Prop := lower m = lower s

/-- The name is a host or below it, letter case apart. -/
def Under (m host : Str) : Prop := Same m host ∨ '.' :: lower host <:+ lower m

/-- The name is under one of the hosts. -/
def Covered (m : Str) (hosts : List Str) : Prop := ∃ host ∈ hosts, Under m host

section Parts

variable {r : Regexp} {rs : List Regexp} {b m a s : Str}

theorem Same.append {m₁ m₂ s₁ s₂ : Str} (h₁ : Same m₁ s₁) (h₂ : Same m₂ s₂) :
    Same (m₁ ++ m₂) (s₁ ++ s₂) := by
  unfold Same lower at *
  rw [List.map_append, List.map_append, h₁, h₂]

theorem matches_unwrap : (unwrapCapture r).Matches b m a ↔ r.Matches b m a := by
  fun_induction unwrapCapture r with
  | case1 r ih => exact ih
  | case2 r _ => exact Iff.rfl

mutual

theorem matchesSeq_flattenConcat : ∀ (r : Regexp) (b m a : Str),
    MatchesSeq (flattenConcat r) b m a ↔ r.Matches b m a
  | .concat rs, b, m, a => matchesSeq_flattenAll rs b m a
  | .noMatch, _, _, _ | .emptyMatch, _, _, _ | .literal _ _, _, _, _ | .charClass _, _, _, _
  | .anyCharNotNL, _, _, _ | .anyChar, _, _, _ | .beginLine, _, _, _ | .endLine, _, _, _
  | .beginText, _, _, _ | .endText, _, _, _ | .wordBoundary, _, _, _ | .noWordBoundary, _, _, _
  | .capture _, _, _, _ | .star _, _, _, _ | .plus _, _, _, _ | .quest _, _, _, _
  | .alternate _, _, _, _ => matchesSeq_singleton

theorem matchesSeq_flattenAll : ∀ (rs : List Regexp) (b m a : Str),
    MatchesSeq (flattenAll rs) b m a ↔ MatchesSeq rs b m a
  | [], _, _, _ => Iff.rfl
  | r :: rs, b, m, a => by
    rw [flattenAll, matchesSeq_append]
    simp only [matchesSeq_flattenConcat r, matchesSeq_flattenAll rs, MatchesSeq]

end

theorem matchesSeq_map_unwrap : MatchesSeq (rs.map unwrapCapture) b m a ↔ MatchesSeq rs b m a := by
  induction rs generalizing b m with
  | nil => exact Iff.rfl
  | cons r rs ih => simp only [List.map_cons, MatchesSeq, matches_unwrap, ih]

theorem matches_concatOf : (concatOf rs).Matches b m a ↔ MatchesSeq rs b m a := by
  unfold concatOf
  split
  · exact matchesSeq_singleton.symm
  · exact Iff.rfl

/-- A literal matches its text, and looks at nothing else. -/
structure Spells (r : Regexp) (s : Str) : Prop where
  same : ∀ b m a, r.Matches b m a → Same m s
  free : Free r

theorem Free.congr {r' : Regexp} (h : Free r) (hm : ∀ b m a, r.Matches b m a ↔ r'.Matches b m a) :
    Free r' := fun b m a b' a' h' => (hm b' m a').mp (h b m a b' a' ((hm b m a).mpr h'))

theorem Spells.congr {r' : Regexp} (h : Spells r s)
    (hm : ∀ b m a, r.Matches b m a ↔ r'.Matches b m a) : Spells r' s :=
  ⟨fun b m a h' => h.same b m a ((hm b m a).mpr h'), Free.congr h.free hm⟩

theorem spells_literal (rs : Str) (fold : Bool) : Spells (.literal rs fold) rs where
  same b m a h := by
    cases fold with
    | true => exact h
    | false => exact congrArg lower h
  free := free_literal rs fold

theorem Spells.of_unwrap (h : Spells (unwrapCapture r) s) : Spells r s :=
  h.congr fun _ _ _ => matches_unwrap

theorem spells_part (h : literalPart r = some s) : Spells r s := by
  refine .of_unwrap ?_
  unfold literalPart at h
  split at h
  · rename_i rs fold heq
    cases h
    rw [heq]
    exact spells_literal s fold
  · rename_i heq
    cases h
    rw [heq]
    exact ⟨fun b m a hm => by rw [show m = [] from hm]; rfl, free_emptyMatch⟩
  · cases h

theorem spells_parts (h : literalParts rs = some s) : Spells (.concat rs) s := by
  induction rs generalizing s with
  | nil =>
    cases h
    exact ⟨fun b m a hm => by rw [show m = [] from hm]; rfl, free_concat (by simp)⟩
  | cons r rs ih =>
    obtain ⟨s₁, hr, h⟩ := Option.bind_eq_some_iff.mp h
    obtain ⟨s₂, hrs, rfl⟩ := Option.map_eq_some_iff.mp h
    refine ⟨?_, ?_⟩
    · rintro b _ a ⟨m₁, m₂, rfl, h₁, h₂⟩
      exact ((spells_part hr).same _ _ _ h₁).append ((ih hrs).same _ _ _ h₂)
    · rintro b _ a b' a' ⟨m₁, m₂, rfl, h₁, h₂⟩
      exact ⟨m₁, m₂, rfl, (spells_part hr).free _ _ _ _ _ h₁, (ih hrs).free _ _ _ _ _ h₂⟩

theorem spells_host (h : asLiteralHost r = some s) : Spells r s := by
  refine .of_unwrap ?_
  unfold asLiteralHost at h
  split at h
  · rename_i rs fold heq
    cases h
    rw [heq]
    exact spells_literal s fold
  · rename_i rs heq
    rw [heq]
    exact (spells_parts h).congr (matchesSeq_flattenAll rs)
  · cases h

/-! ## What an accepted tree matches -/

/-- What the tree matches is covered, and it looks at nothing else. -/
structure Accepts (r : Regexp) (hosts : List Str) : Prop where
  covered : ∀ b m a, r.Matches b m a → Covered m hosts
  free : Free r

theorem free_of_isLabelPlus (h : isLabelPlus r = true) : Free r := by
  unfold isLabelPlus at h
  split at h
  · rename_i r'
    split at h
    · rename_i ranges heq
      have hfree : Free (unwrapCapture r') := heq ▸ free_charClass ranges
      exact (Free.congr hfree fun _ _ _ => matches_unwrap).plus
    · cases h
  · cases h

theorem isAZ_spec (h : isAZCharClass r = true) :
    Free r ∧ ∀ b m a, r.Matches b m a → ∃ c, m = [c] := by
  unfold isAZCharClass at h
  split at h
  · exact ⟨free_charClass _, fun b m a ⟨c, hm, _⟩ => ⟨c, hm⟩⟩
  · cases h

theorem isDot_spec (h : isDot r = true) : Spells r ['.'] := by
  unfold isDot at h
  split at h
  · rename_i rs fold
    rw [← beq_iff_eq.mp h]
    exact spells_literal rs fold
  · cases h

theorem isRegionQuest_spec (h : isRegionQuest r = true) : Free r ∧
    ∀ b m a, r.Matches b m a → m = [] ∨ ∃ pre, lower m = pre ++ ['.'] := by
  unfold isRegionQuest at h
  split at h
  swap
  · cases h
  rename_i r'
  split at h
  swap
  · cases h
  rename_i rs heq
  split at h
  swap
  · cases h
  rename_i c₁ c₂ last hmap
  simp only [Bool.and_eq_true] at h
  obtain ⟨⟨h₁, h₂⟩, h₃⟩ := h
  -- the body is the sequence of the three, captures apart
  have hbody : ∀ b m a, (Regexp.concat [c₁, c₂, last]).Matches b m a ↔ r'.Matches b m a := by
    intro b m a
    have hseq := matchesSeq_map_unwrap.trans (matchesSeq_flattenAll rs b m a)
    have hr' : (unwrapCapture r').Matches b m a ↔ r'.Matches b m a := matches_unwrap
    rw [hmap] at hseq
    rw [heq] at hr'
    exact hseq.trans hr'
  have hfree : Free (.concat [c₁, c₂, last]) := by
    refine free_concat fun r hr => ?_
    simp only [List.mem_cons, List.not_mem_nil, or_false] at hr
    rcases hr with rfl | rfl | rfl
    · exact (isAZ_spec h₁).1
    · exact (isAZ_spec h₂).1
    · exact (isDot_spec h₃).free
  refine ⟨(Free.congr hfree hbody).quest, fun b m a hm => hm.imp_right fun hm => ?_⟩
  obtain ⟨m₁, _, rfl, -, m₂, _, rfl, -, hm⟩ := (hbody b m a).mpr hm
  obtain ⟨m₃, _, rfl, hdot, rfl⟩ := hm
  have hsame := (isDot_spec h₃).same _ _ _ hdot
  refine ⟨lower m₁ ++ lower m₂, ?_⟩
  simp only [Same, lower, List.map_append, List.append_nil, List.append_assoc] at hsame ⊢
  rw [hsame]
  rfl

theorem accepts_prefixSuffix {host : Str} (h : translatePrefixSuffix r = some host) :
    Accepts r [host] := by
  unfold translatePrefixSuffix at h
  split at h
  swap
  · cases h
  rename_i rs
  split at h
  swap
  · cases h
  rename_i head r' rest hflat
  obtain ⟨tailHost, htail, h⟩ := Option.bind_eq_some_iff.mp h
  have hspells := spells_host htail
  have hmatches : ∀ b m a, (Regexp.concat rs).Matches b m a ↔ ∃ m₁ m₂, m = m₁ ++ m₂ ∧
      (unwrapCapture head).Matches b m₁ (m₂ ++ a) ∧
      (concatOf (r' :: rest)).Matches (b ++ m₁) m₂ a := by
    intro b m a
    refine (matchesSeq_flattenAll rs b m a).symm.trans ?_
    rw [hflat]
    simp only [matches_unwrap, matches_concatOf]
    rfl
  have hfree : Free (unwrapCapture head) → Free (.concat rs) := by
    intro hhead b m a b' a' hm
    obtain ⟨m₁, m₂, rfl, h₁, h₂⟩ := (hmatches b m a).mp hm
    exact (hmatches b' _ a').mpr ⟨m₁, m₂, rfl, hhead _ _ _ _ _ h₁, hspells.free _ _ _ _ _ h₂⟩
  split at h
  · rename_i hplus
    split at h
    · rename_i hdot
      cases h
      refine ⟨fun b m a hm => ?_, hfree (free_of_isLabelPlus hplus)⟩
      obtain ⟨m₁, m₂, rfl, -, h₂⟩ := (hmatches b m a).mp hm
      have hsame := hspells.same _ _ _ h₂
      simp only [Bool.and_eq_true] at hdot
      cases tailHost with
      | nil => cases hdot.1
      | cons c t =>
        have hc : '.' = c := by simpa [List.isPrefixOf] using hdot.1
        subst hc
        refine ⟨t, List.mem_singleton.mpr rfl, .inr ⟨lower m₁, ?_⟩⟩
        simp only [Same, lower, List.map_append] at hsame ⊢
        rw [hsame]
        rfl
    · cases h
  · split at h
    · rename_i hregion
      cases h
      simp only [Bool.and_eq_true] at hregion
      obtain ⟨hquest, hm₁⟩ := isRegionQuest_spec hregion.1
      refine ⟨fun b m a hm => ?_, hfree hquest⟩
      obtain ⟨m₁, m₂, rfl, h₁, h₂⟩ := (hmatches b m a).mp hm
      have hsame := hspells.same _ _ _ h₂
      refine ⟨_, List.mem_singleton.mpr rfl, ?_⟩
      rcases hm₁ _ _ _ h₁ with rfl | ⟨pre, hpre⟩
      · exact .inl hsame
      · refine .inr ⟨pre, ?_⟩
        simp only [Same, lower, List.map_append] at hsame hpre ⊢
        rw [hsame, hpre]
        simp
    · cases h

theorem accepts_alternatives {hosts : List Str} (h : alternatives rs = some hosts) :
    Accepts (.alternate rs) hosts := by
  induction rs generalizing hosts with
  | nil => exact ⟨fun b m a hm => hm.elim, free_alternate (by simp)⟩
  | cons r rs ih =>
    obtain ⟨host, hhost, h⟩ := Option.bind_eq_some_iff.mp h
    split at h
    swap
    · cases h
    obtain ⟨hosts, hhosts, rfl⟩ := Option.map_eq_some_iff.mp h
    refine ⟨fun b m a hm => ?_, fun b m a b' a' hm => ?_⟩
    · rcases hm with hm | hm
      · exact ⟨host, by simp, .inl ((spells_host hhost).same _ _ _ hm)⟩
      · obtain ⟨host', hin, hu⟩ := (ih hhosts).covered b m a hm
        exact ⟨host', List.mem_cons_of_mem _ hin, hu⟩
    · exact hm.imp ((spells_host hhost).free b m a b' a') ((ih hhosts).free b m a b' a')

theorem accepts_inner {hosts : List Str} (h : translateInner r = some hosts) : Accepts r hosts := by
  suffices H : Accepts (unwrapCapture r) hosts by
    exact ⟨fun b m a hm => H.covered b m a (matches_unwrap.mpr hm),
      Free.congr H.free fun _ _ _ => matches_unwrap⟩
  unfold translateInner at h
  split at h
  · rename_i rs heq
    rw [heq]
    obtain ⟨all, hall, h⟩ := Option.bind_eq_some_iff.mp h
    split at h
    · cases h
    cases h
    have hacc := accepts_alternatives hall
    refine ⟨fun b m a hm => ?_, hacc.free⟩
    obtain ⟨host, hin, hu⟩ := hacc.covered b m a hm
    exact ⟨host, List.mem_eraseDups.mpr hin, hu⟩
  · split at h
    · rename_i host hhost
      split at h
      swap
      · cases h
      cases h
      exact ⟨fun b m a hm => ⟨host, by simp, .inl ((spells_host hhost).same _ _ _ hm)⟩,
        (spells_host hhost).free⟩
    · obtain ⟨host, hhost, rfl⟩ := Option.map_eq_some_iff.mp h
      exact accepts_prefixSuffix hhost

/-! ## Anchors -/

/-- The pattern is between `^` and `$`. -/
def anchored : Regexp → Bool
  | .concat rs =>
    match rs.head?, rs.getLast? with
    | some .beginText, some .endText => true
    | _, _ => false
  | _ => false

theorem eq_of_anchors {rs : List Regexp} (hbegin : rs.head? = some .beginText)
    (hend : rs.getLast? = some .endText) :
    rs = .beginText :: (rs.tail.dropLast ++ [.endText]) := by
  cases rs with
  | nil => cases hbegin
  | cons x rs =>
    cases hbegin
    cases rs with
    | nil => cases hend
    | cons y rs =>
      have hlast : (y :: rs).getLast? = some .endText := by
        rwa [List.getLast?_cons_cons] at hend
      exact congrArg _ (List.dropLast_append_getLast? _ hlast).symm

theorem stripAnchors_anchored {inner : Regexp} (h : stripAnchors r = some inner)
    (ha : anchored r = true) (hm : r.Matches b m a) :
    b = [] ∧ a = [] ∧ inner.Matches b m a := by
  unfold anchored at ha
  split at ha
  swap
  · cases ha
  rename_i rs
  split at ha
  swap
  · cases ha
  rename_i hbegin hend
  simp only [stripAnchors, hbegin, hend] at h
  split at h
  · cases h
  cases h
  change MatchesSeq rs b m a at hm
  rw [eq_of_anchors hbegin hend] at hm
  obtain ⟨hb, ha, hm⟩ := (matches_anchored _).mp hm
  exact ⟨hb, ha, matches_concatOf.mpr hm⟩

theorem stripAnchors_free {inner : Regexp} (h : stripAnchors r = some inner)
    (ha : anchored r = false) : inner = r := by
  unfold stripAnchors at h
  split at h
  · rename_i rs
    split at h
    · rename_i hbegin hend
      simp [anchored, hbegin, hend] at ha
    · cases h
    · cases h
    · cases h
      rfl
    · cases h
  · cases h
    rfl

end Parts

/-! ## The gate -/

/-- A lower-case letter, a digit or a hyphen. -/
def isLowerLDH (c : Char) : Bool := ('a' ≤ c && c ≤ 'z') || Url.isDigit c || c == '-'

/-- A label of a host that a tunnel can have, its length apart. -/
def isLabel (label : Str) : Bool :=
  label != [] && label.head? != some '-' && label.getLast? != some '-' && label.all isLowerLDH

/-- Lower-case letters, digits and inner hyphens in labels between dots, of any length. -/
def isHostname (host : Str) : Bool := (host.splitOn '.').all isLabel

/-- The library: the parser with the simplifier behind it, and `MatchString` of a pattern. -/
structure RegexpLib where
  parse : Str → Option Regexp
  matchString : Str → Str → Bool

/-- A pattern matches a host name if its tree does, somewhere in it. -/
structure RegexpLib.Agrees (lib : RegexpLib) : Prop where
  matchString : ∀ pattern s, isHostname s = true →
    (lib.matchString pattern s = true ↔ ∃ re, lib.parse pattern = some re ∧ re.MatchesIn s)

/-- The pattern is anchored at both ends. -/
def RegexpLib.anchored (lib : RegexpLib) (pattern : Str) : Bool :=
  (lib.parse pattern).any Tlsmitm.anchored

section Gate

variable {lib : RegexpLib} {pattern host : Str} {hosts : List Str}

/-- The host with one more label on its right. -/
def extend (host : Str) (n : Nat) : Str := host ++ '.' :: List.replicate n 'a'

theorem splitOn_extend (n : Nat) :
    (extend host n).splitOn '.' = host.splitOn '.' ++ [List.replicate n 'a'] := by
  have hdot : '.' ∉ List.replicate n 'a' := fun hd =>
    absurd (List.eq_of_mem_replicate hd) (by decide)
  have hlabel : (List.replicate n 'a').splitOn '.' = [List.replicate n 'a'] := by
    simpa only [List.intercalate_singleton] using List.splitOn_intercalate '.'
      (fun l hl => List.mem_singleton.mp hl ▸ hdot) (List.cons_ne_nil _ _)
  rw [← hlabel]
  exact List.splitOnP_append_cons host _ (by decide)

theorem isHostname_extend (h : isHostname host = true) (n : Nat) :
    isHostname (extend host (n + 1)) = true := by
  have hlabel : isLabel (List.replicate (n + 1) 'a') = true := by
    simp [isLabel, List.getLast?_replicate, List.head?_replicate, isLowerLDH]
  rw [isHostname, splitOn_extend, List.all_append, List.all_cons, hlabel,
    show (host.splitOn '.').all isLabel = true from h]
  rfl

theorem validateHostLDH_extend {n : Nat} (h : validateHostLDH host = true) (hn : n < 63)
    (hlen : host.length + n + 2 ≤ 253) : validateHostLDH (extend host (n + 1)) = true := by
  have hlabel : validLabel (List.replicate (n + 1) 'a') = true := by
    have hle : n + 1 ≤ 63 := hn
    simp [validLabel, List.getLast?_replicate, List.head?_replicate, isLDH, Url.isAlpha, hle]
  have hfit : (extend host (n + 1)).length ≤ 253 := by
    simp only [extend, List.length_append, List.length_cons, List.length_replicate]
    omega
  simp only [validateHostLDH, Bool.and_eq_true] at h ⊢
  refine ⟨⟨by simp [extend], decide_eq_true hfit⟩, ?_⟩
  rw [splitOn_extend, List.all_append, List.all_cons, hlabel, h.2]
  rfl

/-- A host with a label on its right that is longer than every subtree is under none of them. -/
theorem not_covered_long {n : Nat} (hn : ∀ s ∈ hosts, s.length < n) :
    ¬ Covered (extend host n) hosts := by
  rintro ⟨s, hs, hu⟩
  have hlt := hn s hs
  have hlong : lower (extend host n) = lower host ++ '.' :: List.replicate n 'a' := by
    simp [extend, lower]
  rcases hu with heq | hsuffix
  · have hlen := congrArg List.length (show lower _ = lower s from heq)
    rw [hlong] at hlen
    simp [lower] at hlen
    omega
  · rw [hlong] at hsuffix
    have hend : List.replicate n 'a' <:+ lower host ++ '.' :: List.replicate n 'a' :=
      ⟨lower host ++ ['.'], by simp⟩
    have hin := List.suffix_of_suffix_length_le hsuffix hend (by simp [lower]; omega)
    have hdot : '.' ∈ List.replicate n 'a' := hin.subset (by simp)
    exact absurd (List.eq_of_mem_replicate hdot) (by decide)

theorem translateRegex_inv {parse : Str → Option Regexp}
    (h : translateRegex parse pattern = some hosts) :
    ∃ re inner, parse pattern = some re ∧ stripAnchors re = some inner ∧ Accepts inner hosts := by
  unfold translateRegex at h
  split at h
  · cases h
  obtain ⟨re, hre, h⟩ := Option.bind_eq_some_iff.mp h
  obtain ⟨inner, hinner, h⟩ := Option.bind_eq_some_iff.mp h
  exact ⟨re, inner, hre, hinner, accepts_inner h⟩

theorem covered_of_anchored (hlib : lib.Agrees) (h : translateRegex lib.parse pattern = some hosts)
    (ha : lib.anchored pattern = true) (hhost : isHostname host = true)
    (hm : lib.matchString pattern host = true) : Covered host hosts := by
  obtain ⟨re, inner, hre, hinner, hacc⟩ := translateRegex_inv h
  obtain ⟨re', hre', b, m, a, rfl, hmatch⟩ := (hlib.matchString _ _ hhost).mp hm
  cases hre.symm.trans hre'
  rw [RegexpLib.anchored, hre] at ha
  obtain ⟨rfl, rfl, hinner⟩ := stripAnchors_anchored hinner ha hmatch
  simpa using hacc.covered _ _ _ hinner

/-- Without anchors a host that the gate admits can be continued to one outside the subtrees. -/
theorem not_covered_of_free (hlib : lib.Agrees)
    (h : translateRegex lib.parse pattern = some hosts) (ha : lib.anchored pattern = false)
    (hhost : isHostname host = true) (hm : lib.matchString pattern host = true) :
    lib.matchString pattern (extend host (hosts.flatten.length + 1)) = true ∧
      ¬ Covered (extend host (hosts.flatten.length + 1)) hosts := by
  obtain ⟨re, inner, hre, hinner, hacc⟩ := translateRegex_inv h
  obtain ⟨re', hre', hin⟩ := (hlib.matchString _ _ hhost).mp hm
  cases hre.symm.trans hre'
  rw [RegexpLib.anchored, hre] at ha
  cases stripAnchors_free hinner ha
  -- one more than all subtrees together is longer than each
  have hlen : ∀ s ∈ hosts, s.length < hosts.flatten.length + 1 := fun s hs =>
    Nat.lt_succ_of_le (List.sublist_flatten_of_mem hs).length_le
  refine ⟨?_, not_covered_long hlen⟩
  exact (hlib.matchString _ _ (isHostname_extend hhost _)).mpr
    ⟨re, hre, hacc.free.matchesIn_append hin _⟩

theorem isHostname_of_parseConnectTarget {net : Net} {target : Str}
    (h : parseConnectTarget net target = .ok host) : isHostname host = true := by
  obtain ⟨hvalid, ascii, rfl⟩ := parseConnectTarget_ok h
  simp only [validateHostLDH, validLabel, Bool.and_eq_true, List.all_eq_true] at hvalid
  simp only [isHostname, isLabel, Bool.and_eq_true, List.all_eq_true]
  intro label hl
  obtain ⟨⟨⟨⟨hne, -⟩, hfirst⟩, hlast⟩, hall⟩ := hvalid.2 label hl
  refine ⟨⟨⟨hne, hfirst⟩, hlast⟩, fun c hc => ?_⟩
  have hldh := hall _ hc
  have hdot : c ≠ '.' := fun hdot => by
    rw [hdot] at hldh
    cases hldh
  obtain ⟨d, -, rfl⟩ := List.mem_map.mp ((mem_label hdot).mpr ⟨label, hl, hc⟩)
  have hupper := not_upper_toLower d
  simp only [isLDH, Url.isAlpha, isLowerLDH, Bool.or_eq_true, Bool.and_eq_true, decide_eq_true_eq]
    at hldh ⊢
  tauto

/-- The subtrees cover the hosts that the gate admits just if the pattern is anchored at both ends
or the gate admits none. With anchors, no tunnel that the gate lets through is for a host outside
them. Without, the host that is outside is one label longer than one that the gate admits: it can
be the host of a tunnel if that label and the whole keep to the 63 and 253 bytes of a name. -/
theorem gate_covered_iff (lib : RegexpLib) (hlib : lib.Agrees) (pattern : Str) (hosts : List Str)
    (h : translateRegex lib.parse pattern = some hosts) :
    ((∀ host, isHostname host = true → lib.matchString pattern host = true → Covered host hosts) ↔
      lib.anchored pattern = true ∨
        ∀ host, isHostname host = true → lib.matchString pattern host = false) ∧
    (lib.anchored pattern = true → ∀ (net : Net) (target host : Str),
      parseConnectTarget net target = .ok host → lib.matchString pattern host = true →
      isHostname host = true ∧ Covered host hosts) ∧
    (lib.anchored pattern = false → ∀ host, isHostname host = true →
      validateHostLDH host = true → lib.matchString pattern host = true →
      hosts.flatten.length < 63 → host.length + hosts.flatten.length + 2 ≤ 253 →
      ∃ host', isHostname host' = true ∧ validateHostLDH host' = true ∧
        lib.matchString pattern host' = true ∧ ¬ Covered host' hosts) := by
  refine ⟨⟨fun hall => ?_, fun hcond host hhost hm => ?_⟩, fun ha net target host ht hm => ?_,
    fun ha host hhost hvalid hm hlabel hlen => ?_⟩
  · cases ha : lib.anchored pattern with
    | true => exact .inl rfl
    | false =>
      refine .inr fun host hhost => ?_
      cases hm : lib.matchString pattern host with
      | false => rfl
      | true =>
        obtain ⟨hm', hnot⟩ := not_covered_of_free hlib h ha hhost hm
        exact absurd (hall _ (isHostname_extend hhost _) hm') hnot
  · rcases hcond with ha | hnone
    · exact covered_of_anchored hlib h ha hhost hm
    · rw [hnone host hhost] at hm
      cases hm
  · have hhost := isHostname_of_parseConnectTarget ht
    exact ⟨hhost, covered_of_anchored hlib h ha hhost hm⟩
  · exact ⟨_, isHostname_extend hhost _, validateHostLDH_extend hvalid hlabel hlen,
      not_covered_of_free hlib h ha hhost hm⟩

/-- The patterns `^foo\.com$` and `foo\.com`. -/
def fooLib : RegexpLib where
  parse p :=
    if p = "^foo\\.com$".toList then
      some (.concat [.beginText, .literal "foo.com".toList false, .endText])
    else if p = "foo\\.com".toList then some (.literal "foo.com".toList false)
    else none
  matchString p s :=
    if p = "^foo\\.com$".toList then s == "foo.com".toList
    else if p = "foo\\.com".toList then s.tails.any ("foo.com".toList.isPrefixOf ·)
    else false

theorem fooLib_agrees : fooLib.Agrees where
  matchString p s _ := by
    unfold fooLib
    dsimp only
    split
    · constructor
      · intro h
        refine ⟨_, rfl, [], s, [], by simp, (matches_anchored [_]).mpr ⟨rfl, rfl, ?_⟩⟩
        exact matchesSeq_singleton.mpr (beq_iff_eq.mp h)
      · rintro ⟨_, ⟨⟩, b, m, a, rfl, hm⟩
        obtain ⟨rfl, rfl, hm⟩ := (matches_anchored [_]).mp hm
        rw [show m = _ from matchesSeq_singleton.mp hm]
        rfl
    · split
      · simp only [List.any_eq_true, List.mem_tails, List.isPrefixOf_iff_prefix]
        constructor
        · rintro ⟨_, ⟨b, rfl⟩, a, rfl⟩
          exact ⟨_, rfl, b, _, a, (List.append_assoc _ _ _).symm, rfl⟩
        · rintro ⟨_, ⟨⟩, b, m, a, rfl, hm⟩
          rw [show m = _ from hm]
          exact ⟨_, ⟨b, (List.append_assoc _ _ _).symm⟩, a, rfl⟩
      · constructor
        · intro h
          cases h
        · rintro ⟨_, h, -⟩
          cases h

/-- With anchors, only the subtree itself is admitted; without, a host of a tunnel outside it. -/
theorem gate_covered_anchored :
    (translateRegex fooLib.parse "^foo\\.com$".toList = some ["foo.com".toList] ∧
      ∀ host, isHostname host = true → fooLib.matchString "^foo\\.com$".toList host = true →
        Covered host ["foo.com".toList]) ∧
    ∃ host, isHostname host = true ∧ validateHostLDH host = true ∧
      fooLib.matchString "foo\\.com".toList host = true ∧ ¬ Covered host ["foo.com".toList] := by
  have h : translateRegex fooLib.parse "^foo\\.com$".toList = some ["foo.com".toList] := by
    decide +kernel
  have hfree : translateRegex fooLib.parse "foo\\.com".toList = some ["foo.com".toList] := by
    decide +kernel
  refine ⟨⟨h, (gate_covered_iff fooLib fooLib_agrees _ _ h).1.mpr (.inl (by decide +kernel))⟩, ?_⟩
  exact (gate_covered_iff fooLib fooLib_agrees _ _ hfree).2.2 (by decide +kernel) "foo.com".toList
    (by decide +kernel) (by decide +kernel) (by decide +kernel) (by decide +kernel)
    (by decide +kernel)

/-- Without anchors, hosts of any domain are admitted. -/
theorem gate_not_covered :
    translateRegex fooLib.parse "foo\\.com".toList = some ["foo.com".toList] ∧
      isHostname "foo.com.example.org".toList = true ∧
      fooLib.matchString "foo\\.com".toList "foo.com.example.org".toList = true ∧
      ¬ Covered "foo.com.example.org".toList ["foo.com".toList] := by
  refine ⟨by decide +kernel, by decide +kernel, by decide +kernel, ?_⟩
  rintro ⟨host, hin, hu⟩
  cases List.mem_singleton.mp hin
  revert hu
  unfold Under Same
  decide +kernel

end Gate

end AptCacher.Tlsmitm
