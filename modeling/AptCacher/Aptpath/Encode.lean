import Mathlib.Data.List.Basic
import Mathlib.Data.Nat.Notation

/-!
# Paths on the wire

`AptEncodePath` percent-encodes a decoded path as apt does, and `BuildUpstreamURL` gives the result
to `net/url` as the raw path, which is used only if it is a valid escaping of the path.

* `aptEncodePath`: the encoder, with its way out for a path in which nothing is escaped.
* `unescape`: what a percent-encoded path means.
* `rooted`: `String` puts a slash in front of a path that has none.
* `buildUpstreamURL_path`: the encoding is always used, and it means the path it was made from.
-/

namespace AptCacher.Aptpath

def hexLower (n : ℕ) : UInt8 := if n < 10 then UInt8.ofNat (48 + n) else UInt8.ofNat (87 + n)

/-- The printable bytes that `needsEscape` names. -/
def special : List UInt8 := "+~%\"<>\\^`\x7b|\x7d#?".toUTF8.toList

def needsEscape (c : UInt8) : Bool := c ≤ 0x20 || 0x7f ≤ c || special.contains c

/-- One byte of the loop. -/
def encodeByte (c : UInt8) : List UInt8 :=
  if needsEscape c then [0x25, hexLower (c.toNat / 16), hexLower (c.toNat % 16)] else [c]

def aptEncodePath (p : List UInt8) : List UInt8 :=
  if p.countP needsEscape = 0 then p else p.flatMap encodeByte

/-- The value of a hex digit. -/
def hexValue (c : UInt8) : Option ℕ :=
  if 48 ≤ c ∧ c ≤ 57 then some (c.toNat - 48)
  else if 97 ≤ c ∧ c ≤ 102 then some (c.toNat - 87)
  else if 65 ≤ c ∧ c ≤ 70 then some (c.toNat - 55)
  else none

/-- `url.PathUnescape`: the bytes that a percent-encoded path stands for. -/
def unescape : List UInt8 → Option (List UInt8)
  | [] => some []
  | 0x25 :: a :: b :: rest => do
    let hi ← hexValue a
    let lo ← hexValue b
    let p ← unescape rest
    pure (UInt8.ofNat (16 * hi + lo) :: p)
  | c :: rest => if c = 0x25 then none else (unescape rest).map (c :: ·)

/-- `EscapedPath`: the raw path if it is a valid escaping of the path, of bytes that are `legal` in
a path, and else an escaping of `net/url`'s own. -/
def escapedPath (legal : UInt8 → Bool) (own : List UInt8 → List UInt8) (path raw : List UInt8) :
    List UInt8 :=
  if raw.all legal ∧ unescape raw = some path then raw else own path

/-- How `String` writes a path behind a host. -/
def rooted (path : List UInt8) : List UInt8 :=
  if path ≠ [] ∧ path.head? ≠ some 0x2f then 0x2f :: path else path

/-- The path in the URL of `BuildUpstreamURL`, which falls back to `net/url`'s own escaping; the
authority is not empty. -/
def buildUpstreamURL (legal : UInt8 → Bool) (own : List UInt8 → List UInt8) (path : List UInt8) :
    List UInt8 :=
  let raw := aptEncodePath path
  rooted (if escapedPath legal own path raw ≠ raw then own path else raw)

theorem aptEncodePath_eq (p : List UInt8) : aptEncodePath p = p.flatMap encodeByte := by
  unfold aptEncodePath
  split
  · rename_i h
    rw [List.countP_eq_zero] at h
    have hid : p.flatMap encodeByte = p.flatMap List.singleton :=
      List.flatMap_congr fun c hc => if_neg (h c hc)
    rw [hid]
    exact (List.flatMap_singleton' p).symm
  · rfl

theorem hexValue_hexLower : ∀ n < 16, hexValue (hexLower n) = some n := by decide

theorem unescape_encodeByte (c : UInt8) (rest : List UInt8) :
    unescape (encodeByte c ++ rest) = (unescape rest).map (c :: ·) := by
  unfold encodeByte
  split
  · have hlt := c.toNat_lt
    have hhi := hexValue_hexLower (c.toNat / 16) (by omega)
    have hlo := hexValue_hexLower (c.toNat % 16) (by omega)
    have hc : UInt8.ofNat (16 * (c.toNat / 16) + c.toNat % 16) = c := by
      rw [Nat.div_add_mod, UInt8.ofNat_toNat]
    simp only [List.cons_append, List.nil_append, unescape, hhi, hlo, hc, Option.bind_eq_bind,
      Option.bind_some, Option.pure_def]
    cases unescape rest <;> rfl
  · rename_i h
    have hc : c ≠ 0x25 := fun hc => h (by rw [hc]; decide +kernel)
    rw [List.singleton_append, unescape]
    · rw [if_neg hc]
    · exact fun _ _ _ hc' => absurd hc' hc

theorem encodeByte_legal (c : UInt8) : ∀ b ∈ encodeByte c, b = 0x25 ∨ needsEscape b = false := by
  have hdigit : ∀ n < 16, needsEscape (hexLower n) = false := by decide +kernel
  have hlt := c.toNat_lt
  intro b hb
  unfold encodeByte at hb
  split at hb
  · simp only [List.mem_cons, List.not_mem_nil, or_false] at hb
    rcases hb with rfl | rfl | rfl
    · exact .inl rfl
    · exact .inr (hdigit _ (by omega))
    · exact .inr (hdigit _ (by omega))
  · rename_i h
    rw [List.mem_singleton.mp hb]
    exact .inr (eq_false_of_ne_true h)

theorem unescape_aptEncodePath (p : List UInt8) : unescape (aptEncodePath p) = some p := by
  rw [aptEncodePath_eq]
  induction p with
  | nil => rfl
  | cons c p ih => rw [List.flatMap_cons, unescape_encodeByte, ih, Option.map_some]

theorem encodeByte_slash (c : UInt8) :
    encodeByte 0x2f = [0x2f] ∧ ((encodeByte c).head? = some 0x2f ↔ c = 0x2f) := by
  refine ⟨by decide +kernel, ?_⟩
  unfold encodeByte
  split
  · rename_i h
    refine ⟨(fun hc => by cases hc), fun hc => ?_⟩
    rw [hc] at h
    exact absurd h (by decide +kernel)
  · simp

theorem rooted_aptEncodePath (path : List UInt8) :
    rooted (aptEncodePath path) = (rooted path).flatMap encodeByte := by
  rw [aptEncodePath_eq]
  cases path with
  | nil => rfl
  | cons c path =>
    have hne : encodeByte c ≠ [] := by
      unfold encodeByte
      split <;> exact List.cons_ne_nil _ _
    have hhead : (encodeByte c ++ path.flatMap encodeByte).head? = (encodeByte c).head? :=
      List.head?_append_of_ne_nil _ hne
    have hslash := encodeByte_slash c
    by_cases hc : c = 0x2f
    · simp [rooted, hslash, hc]
    · simp [rooted, hhead, hslash, hne, hc]

/-- **The upstream gets what apt would send it.** Wherever the bytes that `needsEscape` lets
through, and the percent sign, are legal in a path, the URL has apt's own encoding of every path,
never the fallback; and that encoding is read as the path, so that two paths share a URL only if they
differ in the slash at their front. -/
theorem buildUpstreamURL_path (legal : UInt8 → Bool) (own : List UInt8 → List UInt8)
    (hlegal : ∀ c, c = 0x25 ∨ needsEscape c = false → legal c = true) :
    (∀ path, buildUpstreamURL legal own path = (rooted path).flatMap encodeByte ∧
      unescape (buildUpstreamURL legal own path) = some (rooted path)) ∧
    ∀ path path', buildUpstreamURL legal own path = buildUpstreamURL legal own path' ↔
      rooted path = rooted path' := by
  have hurl : ∀ path, buildUpstreamURL legal own path = (rooted path).flatMap encodeByte := by
    intro path
    have hraw : escapedPath legal own path (aptEncodePath path) = aptEncodePath path := by
      refine if_pos ⟨?_, unescape_aptEncodePath path⟩
      rw [aptEncodePath_eq, List.all_flatMap]
      refine List.all_eq_true.mpr fun c _ => List.all_eq_true.mpr fun b hb => ?_
      exact hlegal b (encodeByte_legal c b hb)
    rw [← rooted_aptEncodePath]
    exact congrArg rooted (if_neg (not_not_intro hraw))
  have hread : ∀ path, unescape (buildUpstreamURL legal own path) = some (rooted path) := by
    intro path
    rw [hurl, ← aptEncodePath_eq, unescape_aptEncodePath]
  refine ⟨fun path => ⟨hurl path, hread path⟩, fun path path' => ⟨fun h => ?_, fun h => ?_⟩⟩
  · have hsame := hread path
    rw [h, hread path'] at hsame
    exact (Option.some.inj hsame).symm
  · rw [hurl, hurl, h]

/-- The path `/a+`, which shares its URL with `a+`. -/
theorem buildUpstreamURL_path_plus :
    unescape (buildUpstreamURL (fun c => c == 0x25 || !needsEscape c) id [0x2f, 0x61, 0x2b]) =
        some [0x2f, 0x61, 0x2b] ∧
      buildUpstreamURL (fun c => c == 0x25 || !needsEscape c) id [0x61, 0x2b] =
        buildUpstreamURL (fun c => c == 0x25 || !needsEscape c) id [0x2f, 0x61, 0x2b] := by
  have h := buildUpstreamURL_path (fun c => c == 0x25 || !needsEscape c) id
    fun c hc => by simpa using hc
  exact ⟨(h.1 [0x2f, 0x61, 0x2b]).2, (h.2 _ _).mpr rfl⟩

end AptCacher.Aptpath
