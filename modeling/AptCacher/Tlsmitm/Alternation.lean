import Mathlib.Data.List.Chain
import Mathlib.Data.List.SplitBy
import AptCacher.Tlsmitm.NameConstraints

/-!
# Alternations of host names

What the translation sees of an alternation is not the list of names but the tree that the parser
makes of it. The parser joins neighbouring single characters to a class, and factors a common
literal prefix of neighbours out: the prefix, followed by the alternation of the rests, in which
prefixes are factored out again.

* `alternationTree`: the parser's tree of an alternation of names.
* `Apart`: neighbours that are left as they are.
* `alternation_translated_iff`: an alternation of names is translated to them just if all
  neighbours are apart.
-/

namespace AptCacher.Tlsmitm

open Spec Aptpath Proxy Regexp

/-! ## The tree of an alternation -/

/-- The tree of a text. -/
def text (s : Str) : Regexp := if s = [] then .emptyMatch else .literal s false

/-- `leadingString` of an alternative. -/
def leadingString : Regexp → Str
  | .literal rs _ => rs
  | _ => []

/-- `isCharClass`: the tree matches single characters. -/
def isSingle : Regexp → Bool
  | .literal [_] _ => true
  | .charClass _ => true
  | _ => false

/-- The characters of such a tree. -/
def classOf : Regexp → List (Char × Char)
  | .literal rs _ => rs.map fun c => (c, c)
  | .charClass ranges => ranges
  | _ => []

/-- `mergeCharClass`: a class, unless both are the same character; the ranges are not sorted. -/
def mergeCharClass : Regexp → Regexp → Regexp
  | .literal [c] fold, .literal [d] _ =>
    if c = d then .literal [c] fold else .charClass [(c, c), (d, d)]
  | x, y => .charClass (classOf x ++ classOf y)

/-- Neighbours that match single characters become one. -/
def mergeSingles : List Regexp → List Regexp
  | [] => []
  | r :: rs =>
    match mergeSingles rs with
    | [] => [r]
    | r' :: rest =>
      if isSingle r && isSingle r' then mergeCharClass r r' :: rest else r :: r' :: rest

/-- Both begin with the same character. -/
def sameLead (x y : Regexp) : Bool :=
  leadingString x != [] && (leadingString x).head? == (leadingString y).head?

/-- The alternatives in runs of neighbours that begin with the same character. -/
def runs (rs : List Regexp) : List (List Regexp) := rs.splitBy sameLead

def common : Str → Str → Str
  | a :: s, b :: t => if a = b then a :: common s t else []
  | _, _ => []

/-- The longest common prefix. -/
def commonOf : List Str → Str
  | [] => []
  | [s] => s
  | s :: ss => common s (commonOf ss)

/-- The prefix of a run of two or more, and the alternation of the rests. -/
def factorRun (collapse : List Regexp → Regexp) : List Regexp → Regexp
  | [r] => r
  | g =>
    let pre := commonOf (g.map leadingString)
    .concat [.literal pre false, collapse (g.map fun r => text ((leadingString r).drop pre.length))]

def isEmptyMatch : Regexp → Bool
  | .emptyMatch => true
  | _ => false

/-- Of neighbouring empty matches one is left. -/
def dropEmpties : List Regexp → List Regexp
  | [] => []
  | r :: rs =>
    if isEmptyMatch r && rs.head?.any isEmptyMatch then dropEmpties rs else r :: dropEmpties rs

/-- `factor`; a common first tree that is no literal does not occur here. -/
def factor (collapse : List Regexp → Regexp) (rs : List Regexp) : List Regexp :=
  dropEmpties (mergeSingles ((runs rs).map (factorRun collapse)))

/-- An alternation; one alternative stands for itself. -/
def oneOf : List Regexp → Regexp
  | [r] => r
  | rs => .alternate rs

/-- `collapse` of alternatives. Rests are shorter than what they are rests of, so that the number of
characters is depth enough. -/
def collapse : Nat → List Regexp → Regexp
  | 0, rs => oneOf rs
  | n + 1, rs => oneOf (factor (collapse n) rs)

/-- The tree of the alternation of the names. -/
def alternationTree (names : List Str) : Regexp :=
  collapse (names.flatten.length + 1) (mergeSingles (names.map text))

/-! ## Runs -/

section Runs

variable {rs g : List Regexp}

theorem flatten_runs (rs : List Regexp) : (runs rs).flatten = rs := List.flatten_splitBy _ _

theorem run_ne_nil (h : g ∈ runs rs) : g ≠ [] := List.ne_nil_of_mem_splitBy h

theorem run_chain (h : g ∈ runs rs) : g.IsChain fun x y => sameLead x y = true :=
  List.isChain_of_mem_splitBy h

theorem runs_between (rs : List Regexp) : (runs rs).IsChain fun g g' =>
    ∀ x ∈ g.getLast?, ∀ y ∈ g'.head?, sameLead x y = false := by
  refine (List.isChain_getLast_head_splitBy sameLead rs).imp ?_
  rintro g g' ⟨hg, hg', hlead⟩ x hx y hy
  rw [List.getLast?_eq_some_getLast hg] at hx
  rw [List.head?_eq_some_head hg'] at hy
  cases hx
  cases hy
  exact hlead

theorem mem_run (h : g ∈ runs rs) : g <:+: rs := by
  obtain ⟨a, b, hab⟩ := List.append_of_mem h
  refine ⟨a.flatten, b.flatten, ?_⟩
  have hflat := flatten_runs rs
  rw [hab] at hflat
  simpa using hflat

end Runs

/-! ## Single characters and empty matches -/

section Singles

variable {r : Regexp} {rs : List Regexp}

/-- A class is among the trees. -/
def HasClass (rs : List Regexp) : Prop := ∃ ranges, .charClass ranges ∈ rs

theorem mergeSingles_id (h : rs.IsChain fun x y => (isSingle x && isSingle y) = false) :
    mergeSingles rs = rs := by
  induction rs with
  | nil => rfl
  | cons r rs ih =>
    rw [mergeSingles, ih h.of_cons]
    cases rs with
    | nil => rfl
    | cons r' rest =>
      have hr : (isSingle r && isSingle r') = false := (List.isChain_cons_cons.mp h).1
      simp [hr]

theorem mergeSingles_ne_nil (h : rs ≠ []) : mergeSingles rs ≠ [] := by
  cases rs with
  | nil => exact absurd rfl h
  | cons r rs =>
    rw [mergeSingles]
    split
    · simp
    · split <;> simp

theorem mergeCharClass_cases (x y : Regexp) : (∃ ranges, mergeCharClass x y = .charClass ranges) ∨
    ∃ c f f', x = .literal [c] f ∧ y = .literal [c] f' ∧ mergeCharClass x y = x := by
  unfold mergeCharClass
  split
  · split
    · rename_i c f d f' hcd
      subst hcd
      exact .inr ⟨c, f, f', rfl, rfl, rfl⟩
    · exact .inl ⟨_, rfl⟩
  · exact .inl ⟨_, rfl⟩

theorem hasClass_cons (h : HasClass (mergeSingles rs)) : HasClass (mergeSingles (r :: rs)) := by
  obtain ⟨ranges, hin⟩ := h
  rw [mergeSingles]
  split
  · rename_i hnil
    rw [hnil] at hin
    cases hin
  · rename_i r' rest hcons
    rw [hcons] at hin
    split
    · rcases mergeCharClass_cases r r' with ⟨ranges', hm⟩ | ⟨c, f, f', rfl, rfl, hm⟩
      · exact ⟨ranges', by simp [hm]⟩
      · -- both are the same character, so that the class is further on
        exact ⟨ranges, List.mem_cons_of_mem _ (by simpa using hin)⟩
    · exact ⟨ranges, List.mem_cons_of_mem _ hin⟩

theorem HasClass.mergeSingles (h : HasClass rs) : HasClass (mergeSingles rs) := by
  induction rs with
  | nil => exact h
  | cons r rs ih =>
    obtain ⟨ranges, hin⟩ := h
    rcases List.mem_cons.mp hin with rfl | hin
    · rw [Tlsmitm.mergeSingles]
      split
      · exact ⟨ranges, by simp⟩
      · split
        · exact ⟨_, List.mem_cons_self⟩
        · exact ⟨ranges, by simp⟩
    · exact hasClass_cons (ih ⟨ranges, hin⟩)

theorem mem_mergeSingles (hin : r ∈ rs) (hr : isSingle r = false) : r ∈ mergeSingles rs := by
  induction rs with
  | nil => exact hin
  | cons r' rs ih =>
    rw [mergeSingles]
    split
    · rename_i hnil
      cases rs with
      | nil => exact hin
      | cons _ _ => exact absurd hnil (mergeSingles_ne_nil (by simp))
    · rename_i r'' rest hcons
      rw [hcons] at ih
      rcases List.mem_cons.mp hin with rfl | hin
      · simp [hr]
      · have hmem := ih hin
        split
        · rename_i hboth
          simp only [Bool.and_eq_true] at hboth
          rcases List.mem_cons.mp hmem with rfl | hmem
          · rw [hr] at hboth
            cases hboth.2
          · exact List.mem_cons_of_mem _ hmem
        · exact List.mem_cons_of_mem _ hmem

/-- Single characters that become one tree are a class, unless neighbours are the same. -/
theorem class_of_mergeSingles (hchain : rs.IsChain fun x y =>
      ∀ c f d f', x = .literal [c] f → y = .literal [d] f' → c ≠ d) (hlen : 2 ≤ rs.length)
    (h : mergeSingles rs = [r]) : ∃ ranges, r = .charClass ranges := by
  induction rs generalizing r with
  | nil => simp at hlen
  | cons x rs ih =>
    cases rs with
    | nil => simp at hlen
    | cons y rs =>
      rw [mergeSingles] at h
      split at h
      · rename_i hnil
        exact absurd hnil (mergeSingles_ne_nil (by simp))
      · rename_i r' rest hcons
        split at h
        · cases h
          rcases mergeCharClass_cases x r' with hm | ⟨c, f, f', rfl, rfl, -⟩
          · exact hm
          · -- then the rest is the one character as well
            cases rs with
            | nil =>
              cases hcons
              exact absurd rfl ((List.isChain_cons_cons.mp hchain).1 c f c f' rfl rfl)
            | cons z rs =>
              obtain ⟨ranges, hr⟩ := ih hchain.of_cons (by simp) hcons
              cases hr
        · cases h

theorem mem_dropEmpties (hin : r ∈ rs) (hr : isEmptyMatch r = false) : r ∈ dropEmpties rs := by
  induction rs with
  | nil => exact hin
  | cons r' rs ih =>
    rw [dropEmpties]
    rcases List.mem_cons.mp hin with rfl | hin
    · simp [hr]
    · split
      · exact ih hin
      · exact List.mem_cons_of_mem _ (ih hin)

theorem dropEmpties_id (h : ∀ r ∈ rs, isEmptyMatch r = false) : dropEmpties rs = rs := by
  induction rs with
  | nil => rfl
  | cons r rs ih =>
    rw [dropEmpties, h r (by simp), Bool.false_and, if_neg (by simp),
      ih fun r hr => h r (List.mem_cons_of_mem _ hr)]

theorem dropEmpties_ne_nil (r : Regexp) (rs : List Regexp) : dropEmpties (r :: rs) ≠ [] := by
  induction rs generalizing r with
  | nil => simp [dropEmpties]
  | cons r' rs ih =>
    rw [dropEmpties]
    split
    · exact ih r'
    · simp

theorem dropEmpties_singleton (h : dropEmpties rs = [r]) :
    rs = [r] ∨ ∀ x ∈ rs, isEmptyMatch x = true := by
  induction rs with
  | nil => cases h
  | cons x rs ih =>
    rw [dropEmpties] at h
    split at h
    · rename_i hx
      simp only [Bool.and_eq_true] at hx
      refine .inr fun y hy => ?_
      rcases List.mem_cons.mp hy with rfl | hy
      · exact hx.1
      · rcases ih h with rfl | hall
        · cases List.mem_singleton.mp hy
          simpa using hx.2
        · exact hall y hy
    · obtain ⟨rfl, hnil⟩ := List.cons.inj h
      cases rs with
      | nil => exact .inl rfl
      | cons y rs => exact absurd hnil (dropEmpties_ne_nil y rs)

/-! ## Factored runs -/

/-- The tree is an alternation or a class. -/
def Hard (r : Regexp) : Prop := (∃ rs, r = .alternate rs) ∨ ∃ ranges, r = .charClass ranges

theorem oneOf_hard (h : rs.length ≠ 1) : Hard (oneOf rs) := by
  cases rs with
  | nil => exact .inl ⟨_, rfl⟩
  | cons r rs =>
    cases rs with
    | nil => exact absurd rfl h
    | cons r' rs => exact .inl ⟨_, rfl⟩

@[simp] theorem leadingString_text (s : Str) : leadingString (text s) = s := by
  unfold text
  split
  · rename_i h
    exact h.symm
  · rfl

theorem text_of_ne {s : Str} (h : s ≠ []) : text s = .literal s false := if_neg h

variable {g : List Regexp}

theorem factorRun_literal {f : List Regexp → Regexp} {s : Str} {fold : Bool}
    (h : factorRun f g = .literal s fold) : g = [.literal s fold] := by
  unfold factorRun at h
  split at h
  · rw [h]
  · cases h

theorem runs_apart (f : List Regexp → Regexp) (rs : List Regexp) :
    ((runs rs).map (factorRun f)).IsChain fun x y =>
      ∀ c g d g', x = .literal [c] g → y = .literal [d] g' → c ≠ d := by
  refine (List.isChain_map _).mpr ((runs_between rs).imp fun g g' h c b d b' hx hy hcd => ?_)
  subst hcd
  rw [factorRun_literal hx, factorRun_literal hy] at h
  have hlead := h _ rfl _ rfl
  simp [sameLead, leadingString] at hlead

theorem lead_of_chain (h : g.IsChain fun x y => sameLead x y = true) (hlen : 2 ≤ g.length) :
    ∃ c, ∀ r ∈ g, (leadingString r).head? = some c := by
  have hall : ∀ (g : List Regexp) (x : Regexp), (x :: g).IsChain (fun x y => sameLead x y = true) →
      ∀ r ∈ g, (leadingString r).head? = (leadingString x).head? := by
    intro g
    induction g with
    | nil => simp
    | cons y g ih =>
      intro x hx r hr
      obtain ⟨hxy, hg⟩ := List.isChain_cons_cons.mp hx
      have hhead : (leadingString x).head? = (leadingString y).head? := by
        simp only [sameLead, Bool.and_eq_true, beq_iff_eq] at hxy
        exact hxy.2
      rcases List.mem_cons.mp hr with rfl | hr
      · exact hhead.symm
      · exact (ih y hg r hr).trans hhead.symm
  obtain ⟨x, g, rfl⟩ := List.exists_cons_of_length_pos (by omega : 0 < g.length)
  rw [List.length_cons] at hlen
  obtain ⟨y, g, rfl⟩ := List.exists_cons_of_length_pos (by omega : 0 < g.length)
  have hxy := (List.isChain_cons_cons.mp h).1
  simp only [sameLead, Bool.and_eq_true, bne_iff_ne] at hxy
  obtain ⟨c, t, hx⟩ := List.exists_cons_of_ne_nil hxy.1
  have hc : (leadingString x).head? = some c := by rw [hx]; rfl
  refine ⟨c, fun r hr => ?_⟩
  rcases List.mem_cons.mp hr with rfl | hr
  · exact hc
  · exact (hall _ x h r hr).trans hc

theorem exists_mergeSingles (h : ∃ x ∈ rs, isEmptyMatch x = false) :
    ∃ x ∈ mergeSingles rs, isEmptyMatch x = false := by
  obtain ⟨x, hx, he⟩ := h
  induction rs with
  | nil => exact ⟨x, hx, he⟩
  | cons r rs ih =>
    rw [mergeSingles]
    split
    · rename_i hnil
      cases rs with
      | nil => exact ⟨x, hx, he⟩
      | cons _ _ => exact absurd hnil (mergeSingles_ne_nil (by simp))
    · rename_i r' rest hcons
      rw [hcons] at ih
      split
      · refine ⟨_, List.mem_cons_self, ?_⟩
        rcases mergeCharClass_cases r r' with ⟨ranges, hm⟩ | ⟨c, f, f', rfl, rfl, hm⟩
        · rw [hm]
          rfl
        · rw [hm]
          rfl
      · rcases List.mem_cons.mp hx with rfl | hx
        · exact ⟨x, List.mem_cons_self, he⟩
        · obtain ⟨y, hy, hye⟩ := ih hx
          exact ⟨y, List.mem_cons_of_mem _ hy, hye⟩

theorem factorRun_nonempty {f : List Regexp → Regexp} (hin : r ∈ g) (hr : isEmptyMatch r = false) :
    isEmptyMatch (factorRun f g) = false := by
  unfold factorRun
  split
  · cases List.mem_singleton.mp hin
    exact hr
  · rfl

/-- The alternation of texts that do not begin with one character is not a text. -/
theorem collapse_hard (n : Nat) (ss : List Str) (hlen : 2 ≤ ss.length)
    (hlead : ¬ ∃ c, ∀ s ∈ ss, s.head? = some c) (hne : ∃ s ∈ ss, s ≠ []) :
    Hard (collapse n (ss.map text)) := by
  cases n with
  | zero => exact oneOf_hard (by rw [List.length_map]; omega)
  | succ n =>
    have hruns : 2 ≤ (runs (ss.map text)).length := by
      by_contra hlt
      have hflat := flatten_runs (ss.map text)
      have hone : (runs (ss.map text)).length ≤ 1 := by omega
      match hr : runs (ss.map text), hone with
      | [], _ =>
        rw [hr] at hflat
        have := congrArg List.length hflat
        simp at this
        omega
      | [g], _ =>
        have hg : g ∈ runs (ss.map text) := by simp [hr]
        have hchain := run_chain hg
        rw [hr, List.flatten_cons, List.flatten_nil, List.append_nil] at hflat
        rw [hflat] at hchain
        obtain ⟨c, hc⟩ := lead_of_chain hchain (by simpa using hlen)
        exact hlead ⟨c, fun s hs => by simpa using hc _ (List.mem_map_of_mem hs)⟩
    have hsome : ∃ x ∈ mergeSingles ((runs (ss.map text)).map (factorRun (collapse n))),
        isEmptyMatch x = false := by
      obtain ⟨s, hs, hsne⟩ := hne
      have hmem : text s ∈ (runs (ss.map text)).flatten := by
        rw [flatten_runs]
        exact List.mem_map_of_mem hs
      obtain ⟨g, hg, hsg⟩ := List.mem_flatten.mp hmem
      exact exists_mergeSingles ⟨_, List.mem_map_of_mem hg,
        factorRun_nonempty hsg (by rw [text_of_ne hsne]; rfl)⟩
    show Hard (oneOf (factor (collapse n) (ss.map text)))
    match hd : factor (collapse n) (ss.map text) with
    | [] => exact oneOf_hard (by simp)
    | _ :: _ :: _ => exact oneOf_hard (by simp)
    | [r] =>
      rcases dropEmpties_singleton hd with hm | hall
      · exact .inr (class_of_mergeSingles (runs_apart _ _) (by simpa using hruns) hm)
      · obtain ⟨x, hx, he⟩ := hsome
        rw [hall x hx] at he
        cases he

end Singles

/-! ## Common prefixes -/

section Common

variable {s t q : Str} {ss : List Str}

theorem common_isPrefix (s t : Str) : common s t <+: s ∧ common s t <+: t := by
  fun_induction common s t with
  | case1 s a t ih =>
    exact ⟨(List.prefix_cons_inj a).mpr ih.1, (List.prefix_cons_inj a).mpr ih.2⟩
  | case2 => exact ⟨List.nil_prefix, List.nil_prefix⟩
  | case3 => exact ⟨List.nil_prefix, List.nil_prefix⟩

theorem prefix_common (hs : q <+: s) (ht : q <+: t) : q <+: common s t := by
  induction q generalizing s t with
  | nil => exact List.nil_prefix
  | cons a q ih =>
    obtain ⟨s, rfl⟩ := hs
    obtain ⟨t, rfl⟩ := ht
    simp only [List.cons_append, common, if_true]
    exact (List.prefix_cons_inj a).mpr (ih (List.prefix_append _ _) (List.prefix_append _ _))

theorem commonOf_prefix (h : s ∈ ss) : commonOf ss <+: s := by
  fun_induction commonOf ss with
  | case1 => cases h
  | case2 t =>
    cases List.mem_singleton.mp h
    exact List.prefix_rfl
  | case3 t ss _ ih =>
    rcases List.mem_cons.mp h with rfl | h
    · exact (common_isPrefix _ _).1
    · exact (common_isPrefix _ _).2.trans (ih h)

theorem prefix_commonOf (hne : ss ≠ []) (h : ∀ s ∈ ss, q <+: s) : q <+: commonOf ss := by
  fun_induction commonOf ss with
  | case1 => exact absurd rfl hne
  | case2 t => exact h t (by simp)
  | case3 t ss hss ih =>
    exact prefix_common (h t (by simp)) (ih hss fun s hs => h s (List.mem_cons_of_mem _ hs))

/-- Behind the longest common prefix the texts do not begin with one character. -/
theorem commonOf_longest (hne : ss ≠ []) :
    ¬ ∃ c, ∀ s ∈ ss, (s.drop (commonOf ss).length).head? = some c := by
  rintro ⟨c, hc⟩
  have hlong : commonOf ss ++ [c] <+: commonOf ss := by
    refine prefix_commonOf hne fun s hs => ?_
    obtain ⟨t, ht⟩ := commonOf_prefix hs
    have hhead := hc s hs
    rw [← ht, List.drop_left] at hhead
    cases t with
    | nil => cases hhead
    | cons d t =>
      cases hhead
      exact ⟨t, by rw [← ht]; simp⟩
  have hlen := hlong.length_le
  simp at hlen

end Common

/-! ## Names that are left apart -/

/-- Neighbours that the parser leaves apart, or makes one of because they are the same name. -/
def Apart (x y : Str) : Prop :=
  x = y ∨ x.head? ≠ y.head? ∧ ¬ (x.length = 1 ∧ y.length = 1)

instance (x y : Str) : Decidable (Apart x y) := inferInstanceAs (Decidable (_ ∨ _))

section Names

variable {names ms : List Str} {s t : Str}

theorem isSingle_text : isSingle (text s) = decide (s.length = 1) := by
  match s with
  | [] => rfl
  | [_] => rfl
  | _ :: _ :: _ => simp [text, isSingle]

/-- The merged alternatives stand for a list of names, of which no neighbours are single
characters. -/
structure Squeezed (names ms : List Str) : Prop where
  merged : mergeSingles (names.map text) = ms.map text
  head : ms.head? = names.head?
  mem : ∀ s, s ∈ ms ↔ s ∈ names
  single : ms.IsChain fun x y => ¬ (x.length = 1 ∧ y.length = 1)
  apart : names.IsChain Apart ↔ ms.IsChain Apart

/-- Merging makes a class of different single characters, and drops repeated ones. -/
theorem squeezed_or_class (names : List Str) :
    HasClass (mergeSingles (names.map text)) ∧ ¬ names.IsChain Apart ∨ ∃ ms, Squeezed names ms := by
  induction names with
  | nil => exact .inr ⟨[], rfl, rfl, fun _ => Iff.rfl, .nil, Iff.rfl⟩
  | cons s names ih =>
    rcases ih with ⟨hclass, hnot⟩ | ⟨ms, hms⟩
    · exact .inl ⟨hasClass_cons hclass, fun h => hnot h.of_cons⟩
    cases names with
    | nil => exact .inr ⟨[s], rfl, rfl, fun _ => Iff.rfl, .singleton _, Iff.rfl⟩
    | cons t names =>
      cases ms with
      | nil => cases hms.head
      | cons t' ms =>
        obtain rfl : t' = t := by simpa using hms.head
        have hmerge : mergeSingles ((s :: t' :: names).map text) =
            if isSingle (text s) && isSingle (text t') then
              mergeCharClass (text s) (text t') :: ms.map text
            else text s :: text t' :: ms.map text := by
          rw [List.map_cons, mergeSingles, hms.merged]
          rfl
        by_cases hboth : s.length = 1 ∧ t'.length = 1
        · obtain ⟨c, rfl⟩ := List.length_eq_one_iff.mp hboth.1
          obtain ⟨d, rfl⟩ := List.length_eq_one_iff.mp hboth.2
          have hmerge : mergeSingles (([c] :: [d] :: names).map text) =
              (if c = d then .literal [c] false else .charClass [(c, c), (d, d)]) ::
                ms.map text := hmerge
          by_cases hcd : c = d
          · subst hcd
            refine .inr ⟨[c] :: ms, ?_, rfl, fun s => ?_, hms.single, ?_⟩
            · rw [hmerge, if_pos rfl]
              rfl
            · rw [hms.mem]
              simp
            · rw [← hms.apart, List.isChain_cons_cons]
              exact and_iff_right (.inl rfl)
          · refine .inl ⟨⟨_, by rw [hmerge, if_neg hcd]; exact List.mem_cons_self⟩, fun h => ?_⟩
            rcases (List.isChain_cons_cons.mp h).1 with heq | hne
            · exact hcd (by simpa using heq)
            · exact hne.2 ⟨rfl, rfl⟩
        · refine .inr ⟨s :: t' :: ms, ?_, rfl, fun x => ?_, .cons_cons hboth hms.single, ?_⟩
          · rw [hmerge, isSingle_text, isSingle_text, if_neg (by simpa using hboth)]
            rfl
          · rw [List.mem_cons, hms.mem]
            exact List.mem_cons.symm
          · rw [List.isChain_cons_cons, List.isChain_cons_cons, hms.apart]

theorem run_of_names {g : List Regexp} (h : g ∈ runs (ms.map text)) :
    ∃ ss, ss <:+: ms ∧ g = ss.map text ∧ ss ≠ [] ∧ ss.IsChain fun x y => x.head? = y.head? := by
  obtain ⟨a, b, hab⟩ := mem_run h
  obtain ⟨as, bs, rfl, has, rfl⟩ := List.map_eq_append_iff.mp hab.symm
  obtain ⟨as, ss, rfl, rfl, rfl⟩ := List.map_eq_append_iff.mp has
  refine ⟨ss, ⟨as, bs, rfl⟩, rfl, fun hnil => run_ne_nil h (by rw [hnil]; rfl), ?_⟩
  refine ((List.isChain_map _).mp (run_chain h)).imp fun x y hxy => ?_
  simp only [sameLead, leadingString_text, Bool.and_eq_true, beq_iff_eq] at hxy
  exact hxy.2

theorem isChain_and {R S : Str → Str → Prop} {l : List Str} (h : l.IsChain R) (h' : l.IsChain S) :
    l.IsChain fun x y => R x y ∧ S x y := by
  induction h with
  | nil => exact .nil
  | singleton => exact .singleton _
  | cons_cons hxy _ ih =>
    rw [List.isChain_cons_cons] at h'
    exact .cons_cons ⟨hxy, h'.1⟩ (ih h'.2)

theorem isChain_text (R : Str → Str → Prop) (ss : List Str) : (ss.map text).IsChain
    (fun x y => R (leadingString x) (leadingString y)) ↔ ss.IsChain R := by
  rw [List.isChain_map]
  simp

theorem isChain_of_runs (hne : ∀ s ∈ ms, s ≠ [])
    (hsingle : ms.IsChain fun x y => ¬ (x.length = 1 ∧ y.length = 1))
    (h : ∀ ss : List Str, ss.map text ∈ runs (ms.map text) → ss.IsChain (· = ·)) :
    ms.IsChain Apart := by
  have hdiffer : ms.IsChain fun x y => x = y ∨ x.head? ≠ y.head? := by
    rw [← isChain_text (fun x y => x = y ∨ x.head? ≠ y.head?), ← flatten_runs (ms.map text),
      List.isChain_flatten fun hin => run_ne_nil hin rfl]
    refine ⟨fun g hg => ?_, (runs_between _).imp_of_mem_imp ?_⟩
    · obtain ⟨ss, -, rfl, -⟩ := run_of_names hg
      refine (isChain_text (fun x y => x = y ∨ x.head? ≠ y.head?) ss).mpr ?_
      exact (h ss hg).imp fun _ _ => .inl
    · intro g g' hg _ hlead x hx y hy
      obtain ⟨ss, hin, rfl, -⟩ := run_of_names hg
      obtain ⟨s, hs, rfl⟩ := List.mem_map.mp (List.mem_of_mem_getLast? hx)
      have hfalse := hlead _ hx y hy
      simp only [sameLead, leadingString_text, Bool.and_eq_false_iff, bne_eq_false_iff_eq,
        beq_eq_false_iff_ne] at hfalse
      rw [leadingString_text]
      exact .inr (hfalse.resolve_left (hne s (hin.subset hs)))
  refine (isChain_and hdiffer hsingle).imp fun x y hxy => ?_
  exact hxy.1.imp_right fun hhead => ⟨hhead, hxy.2⟩

/-! ### Names that are not apart -/

/-- A tree that is neither a text nor a shape that is translated. -/
structure Refused (r : Regexp) : Prop where
  literal : asLiteralHost r = none
  inner : translateInner r = none
  free : anchored r = false

theorem refused_class (ranges : List (Char × Char)) : Refused (.charClass ranges) :=
  ⟨rfl, rfl, rfl⟩

variable {r : Regexp} {rs : List Regexp} {f : List Regexp → Regexp} {ss : List Str}

theorem refused_prefix (s : Str) (h : Hard r) :
    Refused (.concat [.literal s false, r]) := by
  rcases h with ⟨rs, rfl⟩ | ⟨ranges, rfl⟩
  · exact ⟨rfl, rfl, rfl⟩
  · exact ⟨rfl, rfl, rfl⟩

theorem Refused.oneOf (h : Refused r) (hin : r ∈ rs) :
    translateInner (oneOf rs) = none ∧ anchored (oneOf rs) = false := by
  match rs with
  | [] => cases hin
  | [r'] =>
    cases List.mem_singleton.mp hin
    exact ⟨h.inner, h.free⟩
  | r₁ :: r₂ :: rs =>
    refine ⟨?_, rfl⟩
    have hnone : ∀ rs, r ∈ rs → alternatives rs = none := by
      intro rs hin
      induction rs with
      | nil => cases hin
      | cons r' rs ih =>
        rcases List.mem_cons.mp hin with rfl | hin
        · rw [alternatives, h.literal]
          rfl
        · rw [alternatives, ih hin]
          cases asLiteralHost r' with
          | none => rfl
          | some host => simp
    show translateAlternation (r₁ :: r₂ :: rs) = none
    rw [translateAlternation, hnone _ hin]
    rfl

theorem factorRun_names (h : ss.length ≠ 1) :
    factorRun f (ss.map text) = .concat [.literal (commonOf ss) false,
      f ((ss.map (·.drop (commonOf ss).length)).map text)] := by
  have hleads : (ss.map text).map leadingString = ss := by simp [Function.comp_def]
  unfold factorRun
  split
  · rename_i r hr
    exact absurd (by simpa using congrArg List.length hr) h
  · simp [hleads, Function.comp_def]

theorem refused_run {n : Nat} (hne : ss ≠ []) (h : ¬ ss.IsChain (· = ·)) :
    Refused (factorRun (collapse n) (ss.map text)) := by
  have hlen : 2 ≤ ss.length := by
    match ss with
    | [] => exact absurd rfl hne
    | [s] => exact absurd (.singleton s) h
    | _ :: _ :: _ => simp
  rw [factorRun_names (by omega)]
  refine refused_prefix _ (collapse_hard n _ (by simpa using hlen) ?_ ?_)
  · rintro ⟨c, hc⟩
    exact commonOf_longest hne ⟨c, fun s hs => hc _ (List.mem_map_of_mem hs)⟩
  · -- otherwise every name is the prefix
    by_contra hall
    have hall : ∀ s ∈ ss, s = commonOf ss := by
      intro s hs
      obtain ⟨t, ht⟩ := commonOf_prefix hs
      by_contra hs'
      refine hall ⟨_, List.mem_map_of_mem hs, fun hnil => hs' ?_⟩
      rw [← ht, List.drop_left] at hnil
      rw [← ht, hnil, List.append_nil]
    refine h (List.pairwise_of_forall_mem_list fun s hs t ht => ?_).isChain
    rw [hall s hs, ← hall t ht]

/-- A class among the alternatives is left as it is, or joined to a class. -/
theorem hasClass_factor (h : HasClass rs) :
    HasClass (factor f rs) := by
  obtain ⟨ranges, hin⟩ := h
  rw [← flatten_runs rs] at hin
  obtain ⟨g, hg, hin⟩ := List.mem_flatten.mp hin
  have hone : g = [.charClass ranges] := by
    match g, hin with
    | [r], hin => rw [List.mem_singleton.mp hin]
    | _ :: _ :: _, hin =>
      obtain ⟨c, hc⟩ := lead_of_chain (run_chain hg) (by simp)
      cases hc _ hin
  have hmem : .charClass ranges ∈ (runs rs).map (factorRun f) :=
    List.mem_map.mpr ⟨g, hg, by rw [hone]; rfl⟩
  obtain ⟨ranges', hin'⟩ := HasClass.mergeSingles ⟨ranges, hmem⟩
  exact ⟨ranges', mem_dropEmpties hin' rfl⟩

theorem refused_tree (hne : ∀ s ∈ names, s ≠ []) (h : ¬ names.IsChain Apart) :
    translateInner (alternationTree names) = none ∧ anchored (alternationTree names) = false := by
  suffices H : ∃ r ∈ factor (collapse names.flatten.length) (mergeSingles (names.map text)),
      Refused r by
    obtain ⟨r, hin, hr⟩ := H
    exact hr.oneOf hin
  rcases squeezed_or_class names with ⟨hclass, -⟩ | ⟨ms, hms⟩
  · obtain ⟨ranges, hin⟩ := hasClass_factor hclass
    exact ⟨_, hin, refused_class ranges⟩
  rw [hms.merged]
  have hrun : ∃ ss : List Str, ss.map text ∈ runs (ms.map text) ∧ ¬ ss.IsChain (· = ·) := by
    by_contra hall
    refine h (hms.apart.mpr (isChain_of_runs (fun s hs => hne s ((hms.mem s).mp hs)) hms.single ?_))
    exact fun ss hss => by_contra fun hnot => hall ⟨ss, hss, hnot⟩
  obtain ⟨ss, hss, hnot⟩ := hrun
  have hssne : ss ≠ [] := fun hnil => run_ne_nil hss (by rw [hnil]; rfl)
  have hlen : ss.length ≠ 1 := fun hlen => by
    obtain ⟨s, rfl⟩ := List.length_eq_one_iff.mp hlen
    exact hnot (.singleton s)
  refine ⟨_, mem_dropEmpties (mem_mergeSingles (List.mem_map_of_mem hss) ?_) ?_,
    refused_run hssne hnot⟩
  · rw [factorRun_names hlen]
    rfl
  · rw [factorRun_names hlen]
    rfl

/-! ### Names that are apart -/

/-- What is left of a run of one name. -/
def Node (s : Str) (r : Regexp) : Prop :=
  r = .literal s false ∨ r = .concat [.literal s false, .emptyMatch]

theorem Node.host (h : Node s r) : asLiteralHost r = some s := by
  rcases h with rfl | rfl
  · rfl
  · show some (s ++ ([] ++ [])) = some s
    simp

theorem Node.iff_eq (h : Node s r) : Node t r ↔ t = s := by
  refine ⟨fun ht => Option.some.inj (ht.host.symm.trans h.host), ?_⟩
  rintro rfl
  exact h

theorem Node.stripAnchors (h : Node s r) : stripAnchors r = some r := by
  rcases h with rfl | rfl
  · rfl
  · rfl

theorem Node.inner (h : Node s r) (hs : validateHostname s = true) :
    translateInner r = some [s] := by
  have hhost := h.host
  rcases h with rfl | rfl
  · simp [translateInner, unwrapCapture, hhost, hs]
  · simp [translateInner, unwrapCapture, hhost, hs]

theorem runs_leadless (h : ∀ r ∈ rs, leadingString r = []) :
    runs rs = rs.map ([·]) := by
  rw [runs, List.splitBy_eq_iff]
  refine ⟨?_, by simp, fun g hg => ?_, (List.isChain_map _).mpr ?_⟩
  · rw [← List.flatMap_def, List.flatMap_singleton']
  · obtain ⟨r, -, rfl⟩ := List.mem_map.mp hg
    exact .singleton r
  · refine (List.pairwise_of_forall_mem_list fun x hx y _ => ?_).isChain
    exact ⟨List.cons_ne_nil _ _, List.cons_ne_nil _ _, by simp [sameLead, h x hx]⟩

theorem dropEmpties_replicate (k : Nat) :
    dropEmpties (List.replicate (k + 1) .emptyMatch) = [.emptyMatch] := by
  induction k with
  | zero => rfl
  | succ k ih => exact ih

theorem collapse_empties (n k : Nat) :
    collapse (n + 1) (List.replicate (k + 1) .emptyMatch) = .emptyMatch := by
  have hmem : ∀ r ∈ List.replicate (k + 1) Regexp.emptyMatch, r = .emptyMatch := fun r hr =>
    List.eq_of_mem_replicate hr
  have hruns : (runs (List.replicate (k + 1) .emptyMatch)).map (factorRun (collapse n)) =
      List.replicate (k + 1) .emptyMatch := by
    rw [runs_leadless fun r hr => by rw [hmem r hr]; rfl, List.map_map]
    exact List.map_id _
  have hmerge : mergeSingles (List.replicate (k + 1) .emptyMatch) =
      List.replicate (k + 1) .emptyMatch := by
    refine mergeSingles_id (List.pairwise_of_forall_mem_list fun x hx y _ => ?_).isChain
    rw [hmem x hx]
    rfl
  rw [collapse, factor, hruns, hmerge, dropEmpties_replicate]
  rfl

theorem commonOf_replicate (k : Nat) (s : Str) : commonOf (List.replicate (k + 1) s) = s := by
  have hle : commonOf (List.replicate (k + 1) s) <+: s := commonOf_prefix (by simp)
  refine hle.eq_of_length_le (List.IsPrefix.length_le (prefix_commonOf (by simp) fun t ht => ?_))
  obtain rfl := List.eq_of_mem_replicate ht
  exact List.prefix_rfl

theorem node_of_run {n : Nat} (hne : ss ≠ []) (hnil : ∀ s ∈ ss, s ≠ []) (h : ss.IsChain (· = ·)) :
    ∃ s ∈ ss, (∀ t ∈ ss, t = s) ∧ Node s (factorRun (collapse (n + 1)) (ss.map text)) := by
  obtain ⟨s, ss, rfl⟩ := List.exists_cons_of_ne_nil hne
  have hall := List.isChain_eq_iff_eq_replicate.mp h s rfl
  refine ⟨s, by simp, fun t ht => ?_, ?_⟩
  · rw [hall] at ht
    exact List.eq_of_mem_replicate ht
  · cases ss with
    | nil => exact .inl (text_of_ne (hnil s (by simp)))
    | cons t ss =>
      refine .inr ?_
      rw [factorRun_names (by simp), hall]
      simp only [List.length_cons, commonOf_replicate, List.map_replicate, List.drop_length]
      rw [show text [] = .emptyMatch from rfl, collapse_empties]

theorem single_of_factorRun {g : List Regexp} (h : isSingle (factorRun f g) = true) :
    g = [factorRun f g] := by
  match g, h with
  | [r], _ => rfl
  | [], h => cases h
  | _ :: _ :: _, h => cases h

theorem mergeSingles_runs (h : rs.IsChain fun x y => (isSingle x && isSingle y) = false) :
    mergeSingles ((runs rs).map (factorRun f)) = (runs rs).map (factorRun f) := by
  refine mergeSingles_id ((List.isChain_map _).mpr ?_)
  rw [← flatten_runs rs, List.isChain_flatten fun hin => run_ne_nil hin rfl] at h
  refine h.2.imp fun g g' hgg => ?_
  by_contra hboth
  simp only [Bool.not_eq_false, Bool.and_eq_true] at hboth
  have hg := single_of_factorRun hboth.1
  have hg' := single_of_factorRun hboth.2
  rw [hg, hg'] at hgg
  have hfalse := hgg (factorRun f g) rfl (factorRun f g') rfl
  rw [hboth.1, hboth.2] at hfalse
  cases hfalse

theorem nodes_of_apart (hne : ∀ s ∈ names, s ≠ []) (hnames : names ≠ [])
    (h : names.IsChain Apart) : ∃ rs, alternationTree names = oneOf rs ∧ rs ≠ [] ∧
      (∀ r ∈ rs, ∃ s ∈ names, Node s r) ∧ ∀ s ∈ names, ∃ r ∈ rs, Node s r := by
  rcases squeezed_or_class names with ⟨-, hnot⟩ | ⟨ms, hms⟩
  · exact absurd h hnot
  have hmsne : ∀ s ∈ ms, s ≠ [] := fun s hs => hne s ((hms.mem s).mp hs)
  obtain ⟨n, hn⟩ : ∃ n, names.flatten.length = n + 1 := by
    obtain ⟨s, names, rfl⟩ := List.exists_cons_of_ne_nil hnames
    obtain ⟨c, s, rfl⟩ := List.exists_cons_of_ne_nil (hne s (by simp))
    exact ⟨_, rfl⟩
  -- a run is of one name
  have hrun : ∀ g ∈ runs (ms.map text), ∃ s ∈ ms, (∀ r ∈ g, r = text s) ∧
      Node s (factorRun (collapse (n + 1)) g) := by
    intro g hg
    obtain ⟨ss, hin, rfl, hss, hlead⟩ := run_of_names hg
    have happart : ss.IsChain Apart := by
      obtain ⟨before, after, hms'⟩ := hin
      have hall := hms.apart.mp h
      rw [← hms'] at hall
      exact hall.left_of_append.right_of_append
    have hsame : ss.IsChain (· = ·) :=
      (isChain_and hlead happart).imp fun x y hxy =>
        hxy.2.resolve_right fun hdiffer => hdiffer.1 hxy.1
    obtain ⟨s, hs, hall, hnode⟩ := node_of_run hss (fun s hs => hmsne s (hin.subset hs)) hsame
    refine ⟨s, hin.subset hs, fun r hr => ?_, hnode⟩
    obtain ⟨t, ht, rfl⟩ := List.mem_map.mp hr
    rw [hall t ht]
  have hsingle : (ms.map text).IsChain fun x y => (isSingle x && isSingle y) = false := by
    refine (List.isChain_map _).mpr (hms.single.imp fun x y hxy => ?_)
    simpa [isSingle_text] using hxy
  have hnodes : factor (collapse (n + 1)) (ms.map text) =
      (runs (ms.map text)).map (factorRun (collapse (n + 1))) := by
    rw [factor, mergeSingles_runs hsingle, dropEmpties_id fun r hr => ?_]
    obtain ⟨g, hg, rfl⟩ := List.mem_map.mp hr
    obtain ⟨s, -, -, hnode | hnode⟩ := hrun g hg
    · rw [hnode]
      rfl
    · rw [hnode]
      rfl
  refine ⟨(runs (ms.map text)).map (factorRun (collapse (n + 1))), ?_, ?_, fun r hr => ?_,
    fun s hs => ?_⟩
  · rw [alternationTree, hn, hms.merged, collapse, hnodes]
  · obtain ⟨s, hs⟩ := List.exists_mem_of_ne_nil names hnames
    have hms' := List.ne_nil_of_mem ((hms.mem s).mpr hs)
    simpa [runs] using hms'
  · obtain ⟨g, hg, rfl⟩ := List.mem_map.mp hr
    obtain ⟨s, hs, -, hnode⟩ := hrun g hg
    exact ⟨s, (hms.mem s).mp hs, hnode⟩
  · have hin : text s ∈ (runs (ms.map text)).flatten := by
      rw [flatten_runs]
      exact List.mem_map_of_mem ((hms.mem s).mpr hs)
    obtain ⟨g, hg, hin⟩ := List.mem_flatten.mp hin
    obtain ⟨t, ht, hall, hnode⟩ := hrun g hg
    have hst : s = t := by simpa using congrArg leadingString (hall _ hin)
    exact ⟨_, List.mem_map_of_mem hg, hst ▸ hnode⟩

theorem alternatives_nodes (hvalid : ∀ s ∈ names, validateHostname s = true)
    (h : ∀ r ∈ rs, ∃ s ∈ names, Node s r) :
    ∃ hosts, alternatives rs = some hosts ∧ ∀ s, s ∈ hosts ↔ ∃ r ∈ rs, Node s r := by
  induction rs with
  | nil => exact ⟨[], rfl, by simp⟩
  | cons r rs ih =>
    obtain ⟨hosts, hhosts, hmem⟩ := ih fun r hr => h r (List.mem_cons_of_mem _ hr)
    obtain ⟨s, hs, hnode⟩ := h r (by simp)
    refine ⟨s :: hosts, ?_, fun t => ?_⟩
    · simp [alternatives, hnode.host, hvalid s hs, hhosts]
    · simp [hmem, hnode.iff_eq]

theorem accepted_tree (hvalid : ∀ s ∈ names, validateHostname s = true) (hnames : names ≠ [])
    (h : names.IsChain Apart) :
    stripAnchors (alternationTree names) = some (alternationTree names) ∧
      ∃ hosts, translateInner (alternationTree names) = some hosts ∧
        ∀ s, s ∈ hosts ↔ s ∈ names := by
  have hne : ∀ s ∈ names, s ≠ [] := by
    rintro _ hs rfl
    cases hvalid [] hs
  obtain ⟨rs, htree, hrs, hnodes, hall⟩ := nodes_of_apart hne hnames h
  have hmem : ∀ s, (∃ r ∈ rs, Node s r) ↔ s ∈ names := by
    refine fun s => ⟨?_, hall s⟩
    rintro ⟨r, hr, hnode⟩
    obtain ⟨t, ht, hnode'⟩ := hnodes r hr
    rwa [hnode'.iff_eq.mp hnode]
  rw [htree]
  match rs, hrs with
  | [r], _ =>
    obtain ⟨s, hs, hnode⟩ := hnodes r (by simp)
    refine ⟨hnode.stripAnchors, [s], hnode.inner (hvalid s hs), fun t => ?_⟩
    simp [← hmem, hnode.iff_eq]
  | r₁ :: r₂ :: rs, _ =>
    obtain ⟨hosts, hhosts, hin⟩ := alternatives_nodes hvalid hnodes
    refine ⟨rfl, hosts.eraseDups, ?_, fun s => ?_⟩
    · have hhostsne : hosts ≠ [] := by
        obtain ⟨s, -, hnode⟩ := hnodes r₁ (by simp)
        exact List.ne_nil_of_mem ((hin s).mpr ⟨r₁, by simp, hnode⟩)
      show translateAlternation (r₁ :: r₂ :: rs) = some hosts.eraseDups
      rw [translateAlternation, hhosts]
      exact if_neg hhostsne
    · rw [List.mem_eraseDups, hin, hmem]

end Names

/-! ## Alternations in a pattern -/

/-- The characters with a meaning in patterns. -/
def isMeta (c : Char) : Bool := "\\.+*?()|[]\x7b\x7d^$".toList.contains c

/-- `regexp.QuoteMeta`. -/
def quoteMeta (s : Str) : Str := s.flatMap fun c => if isMeta c then ['\\', c] else [c]

/-- How an alternation is written in a pattern. -/
inductive Form
  | bare
  | group
  | anchored
  deriving DecidableEq

/-- The pattern of the alternation of the names. -/
def Form.pattern (form : Form) (names : List Str) : Str :=
  let alternation := "|".toList.intercalate (names.map quoteMeta)
  match form with
  | .bare => alternation
  | .group => '(' :: alternation ++ [')']
  | .anchored => "^(".toList ++ alternation ++ ")$".toList

/-- Its tree. -/
def Form.tree (form : Form) (names : List Str) : Regexp :=
  match form with
  | .bare => alternationTree names
  | .group => .capture (alternationTree names)
  | .anchored => .concat [.beginText, .capture (alternationTree names), .endText]

section Form

variable {names : List Str}

theorem Form.pattern_ne_nil (form : Form) (hnames : names ≠ []) (hne : ∀ s ∈ names, s ≠ []) :
    form.pattern names ≠ [] := by
  have hquote : ∀ s ∈ names, quoteMeta s ≠ [] := by
    intro s hs
    obtain ⟨c, s, rfl⟩ := List.exists_cons_of_ne_nil (hne s hs)
    rw [quoteMeta, List.flatMap_cons]
    split <;> exact List.cons_ne_nil _ _
  cases form with
  | bare =>
    obtain ⟨s, names, rfl⟩ := List.exists_cons_of_ne_nil hnames
    have hs := hquote s (by simp)
    cases names with
    | nil =>
      show [quoteMeta s].flatten ≠ []
      simpa using hs
    | cons t names =>
      intro hnil
      exact hs (List.append_eq_nil_iff.mp hnil).1
  | group => exact List.cons_ne_nil _ _
  | anchored => exact List.cons_ne_nil _ _

/-- An alternation of host names is translated to just these names if and only if neighbours that
are different begin with different characters, and are not both single characters. -/
theorem alternation_translated_iff (parse : Str → Option Regexp) (form : Form) (names : List Str)
    (hnames : names ≠ []) (hvalid : ∀ s ∈ names, validateHostname s = true)
    (hparse : parse (form.pattern names) = some (form.tree names)) :
    (∃ hosts, translateRegex parse (form.pattern names) = some hosts ∧ ∀ s, s ∈ hosts ↔ s ∈ names) ↔
      names.IsChain Apart := by
  have hne : ∀ s ∈ names, s ≠ [] := by
    rintro _ hs rfl
    cases hvalid [] hs
  have hregex : translateRegex parse (form.pattern names) =
      (stripAnchors (form.tree names)).bind translateInner := by
    rw [translateRegex, if_neg (form.pattern_ne_nil hnames hne), hparse]
    rfl
  rw [hregex]
  constructor
  · rintro ⟨hosts, hhosts, -⟩
    by_contra hnot
    obtain ⟨hinner, hfree⟩ := refused_tree hne hnot
    obtain ⟨inner, hstrip, hhosts⟩ := Option.bind_eq_some_iff.mp hhosts
    have htree : translateInner inner = translateInner (alternationTree names) := by
      cases form with
      | bare => exact congrArg translateInner (stripAnchors_free hstrip hfree)
      | group =>
        cases hstrip
        rfl
      | anchored =>
        cases hstrip
        rfl
    rw [htree, hinner] at hhosts
    cases hhosts
  · intro h
    obtain ⟨hstrip, hosts, hhosts, hmem⟩ := accepted_tree hvalid hnames h
    refine ⟨hosts, ?_, hmem⟩
    cases form with
    | bare =>
      show (stripAnchors (alternationTree names)).bind translateInner = some hosts
      rw [hstrip]
      exact hhosts
    | group => exact hhosts
    | anchored => exact hhosts

/-- A parser that knows the two alternations below. -/
def debianParse (names : List Str) (form : Form) (pattern : Str) : Option Regexp :=
  if pattern = form.pattern names then some (form.tree names) else none

def twoHosts : List Str := ["deb.debian.org".toList, "security.debian.org".toList]

theorem alternation_translated_two :
    ∃ hosts, translateRegex (debianParse twoHosts .anchored) (Form.anchored.pattern twoHosts) =
      some hosts ∧ ∀ s, s ∈ hosts ↔ s ∈ twoHosts :=
  (alternation_translated_iff (debianParse twoHosts .anchored) .anchored twoHosts (by decide)
    (by decide +kernel) (if_pos rfl)).mpr (by decide +kernel)

/-- Hosts that begin alike. -/
def mirrorHosts : List Str := ["deb.debian.org".toList, "deb.debian.net".toList]

theorem alternation_refused :
    (∀ s ∈ mirrorHosts, validateHostname s = true) ∧
    translateRegex (debianParse mirrorHosts .bare)
      "deb\\.debian\\.org|deb\\.debian\\.net".toList = none ∧
    translateRegex (debianParse mirrorHosts .group)
      "(deb\\.debian\\.org|deb\\.debian\\.net)".toList = none ∧
    translateRegex (debianParse mirrorHosts .anchored)
      "^(deb\\.debian\\.org|deb\\.debian\\.net)$".toList = none := by
  decide +kernel

end Form

end AptCacher.Tlsmitm
