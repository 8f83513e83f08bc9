import Mathlib.Data.List.DropRight
import Mathlib.Data.List.Infix
import AptCacher.Aptpath.Suite

/-!
# The shape of a clearsigned body

The decoder of clearsigned messages skips what stands before a message and ignores what follows it.
The bytes that are stored and served are the whole body, so the body has to be one message and
nothing else.

* `sniffInRelease`, `decodableClearsign`: the first line is the marker.
* `requireBareClearsigned`: the first line is the marker and only blanks follow the first end marker.
* `SoleMessage`: the first line opens a message, and the end marker stands in the body once.
* `soleMessage_of_bare`: that is what the check ensures.
-/

namespace AptCacher
namespace Aptpath

def clearsignBegin : Str := "-----BEGIN PGP SIGNED MESSAGE-----".toList

/-- The bytes before the first newline. -/
def firstLine (b : Str) : Str := b.takeWhile (· ≠ '\n')

def sniffInRelease (head : Str) : Bool :=
  (firstLine head).rdropWhile (fun c => ['\r', ' ', '\t'].contains c) = clearsignBegin

/-- `DecodableClearsign`: blanks after the marker of the first line go. -/
def decodableClearsign (b : Str) : Str :=
  if sniffInRelease b = false then b
  else
    let line := firstLine b
    if line.length = clearsignBegin.length ∨
        line.length = clearsignBegin.length + 1 ∧ line.getLast? = some '\r' then b
    else clearsignBegin ++ b.drop line.length

end Aptpath

namespace Gpg

open Aptpath

/-- `endSig`. -/
def clearsignEnd : Str := "-----END PGP SIGNATURE-----".toList

/-- What follows the first `sub` in the text. -/
def afterFirst (sub : Str) : Str → Option Str
  | [] => if sub = [] then some [] else none
  | c :: cs => if sub <+: c :: cs then some ((c :: cs).drop sub.length) else afterFirst sub cs

/-- A byte that `isWhitespaceOnly` lets through. -/
def isBlank (c : Char) : Bool := [' ', '\t', '\r', '\n'].contains c

def requireBareClearsigned (b : Str) : Bool :=
  !decide (clearsignBegin <:+: b) ||
    sniffInRelease b && (afterFirst clearsignEnd b).all fun rest => rest.all isBlank

/-! ## One message -/

/-- The body is one clearsigned message: its first line opens it, and it ends at the only end marker,
with blanks after it. -/
structure SoleMessage (b : Str) : Prop where
  opened : sniffInRelease b = true
  closed : ∃ pre post, b = pre ++ clearsignEnd ++ post ∧ (∀ c ∈ post, isBlank c = true) ∧
    ∀ pre' post', b = pre' ++ clearsignEnd ++ post' → pre' = pre

theorem afterFirst_eq_none {sub s : Str} (h : afterFirst sub s = none) : ¬ sub <:+: s := by
  induction s with
  | nil =>
    unfold afterFirst at h
    split at h
    · cases h
    · rename_i hne
      exact fun hin => hne (List.infix_nil.mp hin)
  | cons c cs ih =>
    unfold afterFirst at h
    split at h
    · cases h
    · rename_i hpre
      rw [List.infix_cons_iff]
      rintro (hin | hin)
      · exact hpre hin
      · exact ih h hin

theorem afterFirst_eq_some {sub s rest : Str} (h : afterFirst sub s = some rest) :
    ∃ pre, s = pre ++ sub ++ rest ∧ ∀ pre' post', s = pre' ++ sub ++ post' → pre.length ≤ pre'.length := by
  induction s with
  | nil =>
    unfold afterFirst at h
    split at h
    · rename_i hsub
      cases h
      exact ⟨[], by rw [hsub]; rfl, fun _ _ _ => Nat.zero_le _⟩
    · cases h
  | cons c cs ih =>
    unfold afterFirst at h
    split at h
    · rename_i hpre
      cases h
      exact ⟨[], (List.prefix_append_drop hpre), fun _ _ _ => Nat.zero_le _⟩
    · rename_i hpre
      obtain ⟨pre, hs, hfirst⟩ := ih h
      refine ⟨c :: pre, by rw [hs]; rfl, fun pre' post' he => ?_⟩
      cases pre' with
      | nil => exact absurd ⟨post', he.symm⟩ hpre
      | cons d pre' =>
        have hcs : cs = pre' ++ sub ++ post' := (List.cons.inj he).2
        exact Nat.succ_le_succ (hfirst pre' post' hcs)

theorem clearsignEnd_eq : ∃ body c, clearsignEnd = body ++ [c] ∧ isBlank c = false :=
  ⟨"-----END PGP SIGNATURE----".toList, '-', by decide, by decide⟩

/-- A second end marker would reach into the blanks after the first. -/
theorem eq_of_blanks {pre post pre' post' : Str} (hblank : ∀ c ∈ post, isBlank c = true)
    (hle : pre.length ≤ pre'.length)
    (he : pre ++ clearsignEnd ++ post = pre' ++ clearsignEnd ++ post') : pre' = pre := by
  obtain ⟨body, c, hend, hc⟩ := clearsignEnd_eq
  by_cases hlen : pre'.length = pre.length
  · rw [List.append_assoc, List.append_assoc] at he
    exact (List.append_inj he hlen.symm).1.symm
  · exfalso
    -- The last byte of the later marker stands after the end of the first one.
    have hpos : (pre ++ clearsignEnd).length ≤ (pre' ++ body).length := by
      rw [hend]
      simp only [List.length_append, List.length_singleton]
      omega
    have hpost : (pre' ++ body ++ [c] ++ post').drop (pre ++ clearsignEnd).length = post := by
      rw [List.append_assoc pre' body, ← hend, ← he]
      exact List.drop_left
    have hmem : c ∈ post := by
      rw [← hpost, List.append_assoc, List.drop_append_of_le_length hpos]
      simp
    rw [hblank c hmem] at hc
    cases hc

theorem soleMessage_of_bare {b : Str} (h : requireBareClearsigned b = true) (hbegin : clearsignBegin <:+: b)
    (hend : clearsignEnd <:+: b) : SoleMessage b := by
  simp only [requireBareClearsigned, hbegin, decide_true, Bool.not_true, Bool.false_or,
    Bool.and_eq_true] at h
  obtain ⟨hsniff, hafter⟩ := h
  cases hrest : afterFirst clearsignEnd b with
  | none => exact absurd hend (afterFirst_eq_none hrest)
  | some rest =>
    rw [hrest] at hafter
    have hblank : ∀ c ∈ rest, isBlank c = true := List.all_eq_true.mp hafter
    obtain ⟨pre, hb, hfirst⟩ := afterFirst_eq_some hrest
    refine ⟨hsniff, pre, rest, hb, hblank, fun pre' post' hb' => ?_⟩
    exact eq_of_blanks hblank (hfirst pre' post' hb') (hb.symm.trans hb')

/-! ## What the decoder is given -/

theorem infix_of_notMem {sub a r : Str} {c : Char} (hc : c ∉ sub) (h : sub <:+: a ++ c :: r) :
    sub <:+: a ∨ sub <:+: r := by
  induction a with
  | nil =>
    rcases List.infix_cons_iff.mp h with ⟨t, ht⟩ | h
    · cases sub with
      | nil => exact .inl (List.nil_infix)
      | cons d sub =>
        obtain rfl : d = c := (List.cons.inj ht).1
        exact absurd List.mem_cons_self hc
    · exact .inr h
  | cons d a ih =>
    rcases List.infix_cons_iff.mp h with hpre | h
    · left
      by_cases hle : sub.length ≤ (d :: a).length
      · exact (List.prefix_of_prefix_length_le hpre (List.prefix_append (d :: a) (c :: r)) hle).isInfix
      · obtain ⟨t, rfl⟩ : d :: a <+: sub :=
          List.prefix_of_prefix_length_le (List.prefix_append (d :: a) (c :: r)) hpre (by omega)
        cases t with
        | nil => simp at hle
        | cons x t =>
          have hx : x :: t <+: c :: r := (List.prefix_append_right_inj (d :: a)).mp hpre
          obtain ⟨t', ht'⟩ := hx
          obtain rfl : x = c := (List.cons.inj ht').1
          exact absurd (List.mem_append_right _ List.mem_cons_self) hc
    · exact (ih h).imp_left List.infix_cons

theorem firstLine_append (b : Str) : ∃ rest, b = firstLine b ++ rest ∧ (rest = [] ∨ ∃ r, rest = '\n' :: r) := by
  induction b with
  | nil => exact ⟨[], rfl, .inl rfl⟩
  | cons c cs ih =>
    by_cases hc : c = '\n'
    · subst hc
      exact ⟨'\n' :: cs, by simp [firstLine], .inr ⟨cs, rfl⟩⟩
    · obtain ⟨rest, hcs, hrest⟩ := ih
      refine ⟨rest, ?_, hrest⟩
      have hline : firstLine (c :: cs) = c :: firstLine cs := by simp [firstLine, hc]
      rw [hline, List.cons_append, ← hcs]

theorem begin_of_sniff {b : Str} (h : sniffInRelease b = true) : clearsignBegin <+: b := by
  have hline : clearsignBegin <+: firstLine b := by
    rw [← of_decide_eq_true h]
    exact List.rdropWhile_prefix _ _
  exact hline.trans (List.takeWhile_prefix _)

/-- The end marker of the bytes that are decoded stands in the body. -/
theorem end_of_decodable {b : Str} (h : clearsignEnd <:+: decodableClearsign b) : clearsignEnd <:+: b := by
  unfold decodableClearsign at h
  split at h
  · exact h
  · simp only at h
    split at h
    · exact h
    · obtain ⟨rest, hb, hrest⟩ := firstLine_append b
      have hdrop : b.drop (firstLine b).length = rest :=
        (congrArg (List.drop (firstLine b).length) hb).trans List.drop_left
      rw [hdrop] at h
      have hnot : ¬ clearsignEnd <:+: clearsignBegin := by decide
      rcases hrest with rfl | ⟨r, rfl⟩
      · rw [List.append_nil] at h
        exact absurd h hnot
      · have hr := (infix_of_notMem (by decide) h).resolve_left hnot
        rw [hb]
        exact (hr.trans (List.infix_cons List.infix_rfl)).trans (List.suffix_append _ _).isInfix

theorem begin_of_decodable {b : Str} (h : clearsignBegin <:+: decodableClearsign b) :
    clearsignBegin <:+: b := by
  unfold decodableClearsign at h
  split at h
  · exact h
  · rename_i hs
    exact (begin_of_sniff (by simpa using hs)).isInfix

end Gpg
end AptCacher
