import Mathlib.Data.List.Basic

/-!
# The path grammar of suites

The part of `internal/aptpath` that says which suite a request path belongs to. A path is a list
of characters; its segments are what stands between the slashes.

* `suitePath`: the suite of a request path, by the dists/ grammar or the flat grammar.
* `isCanonicalSuitePath`: the paths that `suitePath` can return.
* `markerBase`: the key of a suite's signed-seen marker, which the flat twins `/repo` and
  `/repo/.` share. `markerBase_markerBase` and `markerBase_twin`: on canonical suite paths the
  base is its own base.
-/

namespace AptCacher

/-- Paths, hosts and hashes. -/
abbrev Str := List Char

namespace Aptpath

/-- `strings.Split(p, "/")`. -/
def segments (p : Str) : List Str := p.splitOn '/'

/-- `strings.Join(segs, "/")`. -/
def join (segs : List Str) : Str := ['/'].intercalate segs

/-- A suffix that `strings.TrimSuffix` removes once. -/
def trimSuffix (s suffix : Str) : Str :=
  if suffix <:+ s then s.take (s.length - suffix.length) else s

/-- `ForbiddenPathBytes`: decoded bytes that disqualify a path from suite identity. -/
def forbiddenPathBytes : Str := ['#', '?', '%', '\\']

/-- No control byte and no forbidden byte. -/
def cleanBytes (p : Str) : Bool :=
  p.all fun c => !(c.val < 0x20 || c.val == 0x7f || forbiddenPathBytes.contains c)

/-- The path has a segment `dists`: it is never flat. -/
def hasDistsSegment (p : Str) : Bool := (segments p).contains "dists".toList

/-- A segment that is empty, `.` or `..`: no such segment in a canonical path. -/
def dotted (seg : Str) : Bool := seg == [] || seg == ".".toList || seg == "..".toList

/-- The last of the first `n` segments that is `dists`. -/
def lastDists (segs : List Str) : Nat → Option Nat
  | 0 => none
  | i + 1 => if segs[i]? = some "dists".toList then some i else lastDists segs i

/-- The dists/ grammar: `/<repo>/dists/<codename>/<member…>`, the last `dists` segment that a
codename and a member follow. -/
def distsSuitePath (segs : List Str) : Str :=
  if segs.any dotted then []
  else match lastDists segs (segs.length - 2) with
    | some i => '/' :: join (segs.take (i + 2))
    | none => []

/-- The compression extensions of the flat member grammar. -/
def flatIndexExts : List Str :=
  [".gz", ".xz", ".bz2", ".lzma", ".lz4", ".zst"].map String.toList

/-- `[a-z0-9-]`. -/
def contentsChar (c : Char) : Bool := ('a' ≤ c && c ≤ 'z') || ('0' ≤ c && c ≤ '9') || c == '-'

/-- The `Contents-[a-z0-9-]+` member names, with or without an extension. -/
def isContentsName (seg : Str) : Bool :=
  "Contents-".toList.isPrefixOf seg &&
    ([] :: flatIndexExts).any fun ext =>
      ext.isSuffixOf seg &&
        let arch := (trimSuffix seg ext).drop "Contents-".length
        arch != [] && arch.all contentsChar

/-- `FlatIndexNames`: Packages and Sources, plain or compressed. -/
def flatIndexNames : List Str :=
  ["Packages", "Sources"].flatMap fun stem =>
    stem.toList :: flatIndexExts.map fun ext => stem.toList ++ ext

/-- `flatMemberRE`: an anchor or a root index. -/
def isFlatMember (seg : Str) : Bool :=
  ["InRelease", "Release", "Release.gpg"].any (fun a => a.toList == seg) ||
    flatIndexNames.contains seg || isContentsName seg

/-- `n` lower-case hex digits (`hex64RE`, `hex128RE`). -/
def isHex (n : Nat) (seg : Str) : Bool :=
  seg.length == n && seg.all fun c => ('0' ≤ c && c ≤ '9') || ('a' ≤ c && c ≤ 'f')

/-- How many trailing segments form a flat member: an anchor or root index, a pdiff index, a
by-hash name; 0 if the tail is none of them. The segments are given last first. -/
def flatMemberSegments : List Str → Nat
  | [] => 0
  | a :: rest =>
    if isFlatMember a then 1
    else if a = "Index".toList ∧ rest.head?.any (fun b =>
        b == "Packages.diff".toList || b == "Sources.diff".toList) then 2
    else if rest[1]? = some "by-hash".toList ∧
        ((rest[0]? = some "SHA256".toList ∧ isHex 64 a) ∨
          (rest[0]? = some "SHA512".toList ∧ isHex 128 a)) then 3
    else 0

/-- The suite of a directory, given without its final `.` segment (`twin`: it has one). -/
def suiteOfDir (twin : Bool) (dir : List Str) : Str :=
  if dir = [] ∨ dir.any dotted then []
  else '/' :: join dir ++ (if twin then "/.".toList else [])

/-- The flat grammar: the directory before the flat member, which may end in one `.` segment and
is not the host root. -/
def flatSuitePath (segs : List Str) : Str :=
  let n := flatMemberSegments segs.reverse
  if n = 0 ∨ segs.length ≤ n then []
  else
    let dir := segs.take (segs.length - n)
    if dir.getLast? = some ".".toList then suiteOfDir true dir.dropLast else suiteOfDir false dir

/-- `SuitePath`: the suite of the decoded request path, empty if it belongs to none. -/
def suitePath (p : Str) : Str :=
  match p with
  | '/' :: rest =>
    if cleanBytes p then
      if hasDistsSegment p then distsSuitePath (segments rest) else flatSuitePath (segments rest)
    else []
  | _ => []

/-- `IsCanonicalSuitePath`: a suite path that `suitePath` could have produced. -/
def isCanonicalSuitePath (s : Str) : Bool :=
  s != [] && suitePath (s ++ "/InRelease".toList) == s

/-- `IsFlatSuitePath`: a suite path of the flat grammar. -/
def isFlatSuitePath (s : Str) : Bool := isCanonicalSuitePath s && !hasDistsSegment s

/-- `strings.Contains`. -/
def contains (sub : Str) : Str → Bool
  | [] => sub.isEmpty
  | c :: p => sub.isPrefixOf (c :: p) || contains sub p

/-- `MarkerBase`: the suite path with one trailing `/.` removed. -/
def markerBase (suite : Str) : Str := trimSuffix suite "/.".toList

/-! ## Segments -/

theorem join_segments (p : Str) : join (segments p) = p := List.intercalate_splitOn '/'

theorem segments_ne_nil (p : Str) : segments p ≠ [] := List.splitOn_ne_nil '/' p

theorem segments_append (a b : Str) : segments (a ++ '/' :: b) = segments a ++ segments b :=
  List.splitOnP_append_cons a b (by decide)

theorem segments_join {segs : List Str} (hne : segs ≠ []) (hs : ∀ s ∈ segs, '/' ∉ s) :
    segments (join segs) = segs := List.splitOn_intercalate '/' hs hne

theorem segments_rooted (p : Str) : segments ('/' :: p) = [] :: segments p := segments_append [] p

theorem join_cons_cons (s t : Str) (segs : List Str) :
    join (s :: t :: segs) = s ++ '/' :: join (t :: segs) := by
  simp [join, List.intercalate]

theorem join_append {a b : List Str} (ha : a ≠ []) (hb : b ≠ []) :
    join (a ++ b) = join a ++ '/' :: join b := by
  induction a with
  | nil => exact absurd rfl ha
  | cons s a ih =>
    cases a with
    | nil =>
      obtain ⟨t, b, rfl⟩ := List.exists_cons_of_ne_nil hb
      rw [List.singleton_append, join_cons_cons]
      simp [join, List.intercalate]
    | cons t a =>
      have := ih (List.cons_ne_nil _ _)
      rw [List.cons_append] at this
      rw [List.cons_append, List.cons_append, join_cons_cons, this, join_cons_cons, List.append_assoc,
        List.cons_append]

theorem join_nil_cons (segs : List Str) : join ([] :: segs) = segs.flatMap fun s => '/' :: s := by
  induction segs with
  | nil => rfl
  | cons s segs ih =>
    cases segs with
    | nil => simp [join, List.intercalate]
    | cons t segs =>
      rw [join_cons_cons, List.nil_append] at ih
      rw [join_cons_cons, join_cons_cons, List.flatMap_cons, ← ih]
      simp

/-- A rooted path is cut at a slash: the segments before it and the segments after it. -/
theorem rooted_eq_cut {rest base name : Str} : '/' :: rest = base ++ '/' :: name ↔
    ∃ k < (segments rest).length, base = ((segments rest).take k).flatMap (fun s => '/' :: s) ∧
      name = join ((segments rest).drop k) := by
  constructor
  · intro h
    have hsegs : [] :: segments rest = segments base ++ segments name := by
      rw [← segments_append, ← h, segments_rooted]
    obtain ⟨b, bs, hb⟩ := List.exists_cons_of_ne_nil (segments_ne_nil base)
    rw [hb, List.cons_append] at hsegs
    obtain ⟨rfl, hrest⟩ := List.cons.inj hsegs
    refine ⟨bs.length, ?_, ?_, ?_⟩
    · have := List.length_pos_iff.mpr (segments_ne_nil name)
      rw [hrest, List.length_append]
      omega
    · rw [hrest, List.take_left, ← join_nil_cons, ← hb, join_segments]
    · rw [hrest, List.drop_left, join_segments]
  · rintro ⟨k, hk, rfl, rfl⟩
    have hdrop : (segments rest).drop k ≠ [] := by
      rw [Ne, List.drop_eq_nil_iff]
      omega
    have hcut : [] :: segments rest = ([] :: (segments rest).take k) ++ (segments rest).drop k := by
      rw [List.cons_append, List.take_append_drop]
    rw [← join_segments ('/' :: rest), segments_rooted, hcut, join_append (List.cons_ne_nil _ _) hdrop,
      join_nil_cons]

/-- The base with a slash is a prefix of the path with a slash exactly if its segments are the
first segments of the path. -/
theorem isPrefixOf_slash {base p : Str} :
    (base ++ ['/']).isPrefixOf (p ++ ['/']) = true ↔ segments base <+: segments p := by
  rw [List.isPrefixOf_iff_prefix]
  constructor
  · rintro ⟨t, ht⟩
    rcases List.eq_nil_or_concat t with rfl | ⟨t, c, rfl⟩
    · rw [List.append_nil] at ht
      cases List.append_cancel_right ht
      exact List.prefix_rfl
    · rw [List.concat_eq_append, ← List.append_assoc] at ht
      obtain ⟨hp, -⟩ := List.append_inj' ht rfl
      rw [← hp, List.append_assoc, List.singleton_append, segments_append]
      exact List.prefix_append _ _
  · rintro ⟨segs, hsegs⟩
    rw [← join_segments p, ← hsegs]
    by_cases h : segs = []
    · exact ⟨[], by rw [h, List.append_nil, List.append_nil, join_segments]⟩
    · rw [join_append (segments_ne_nil _) h, join_segments, List.append_assoc, List.cons_append]
      exact ⟨join segs ++ ['/'], by simp⟩

/-! ## Canonical suite paths -/

theorem trimSuffix_append (s suffix : Str) : trimSuffix (s ++ suffix) suffix = s := by
  simp [trimSuffix]

theorem trimSuffix_of_not {s suffix : Str} (h : ¬ suffix <:+ s) : trimSuffix s suffix = s := by
  simp [trimSuffix, h]

@[simp] theorem markerBase_twin (base : Str) : markerBase (base ++ "/.".toList) = base :=
  trimSuffix_append _ _

theorem slash_notMem_segments {p seg : Str} (h : seg ∈ segments p) : '/' ∉ seg := by
  induction p generalizing seg with
  | nil => simp_all [segments]
  | cons c p ih =>
    simp only [segments, List.splitOn, List.splitOnP_cons_eq_if_modifyHead] at h ih
    by_cases hc : (c == '/') = true
    · simp only [hc, if_true, List.mem_cons] at h
      rcases h with rfl | h
      · simp
      · exact ih h
    · -- the first segment grows by `c`, the others are those of `p`
      obtain ⟨s, l, hs⟩ := List.exists_cons_of_ne_nil (List.splitOnP_ne_nil (· == '/') p)
      rw [if_neg hc, hs, List.modifyHead_cons, List.mem_cons] at h
      rcases h with rfl | h
      · have hns : '/' ∉ s := ih (by simp [hs])
        rintro (_ | ⟨_, hmem⟩)
        · exact hc rfl
        · exact hns hmem
      · exact ih (by simp [hs, h])

theorem getLast_segments_of_twin {s : Str} (h : "/.".toList <:+ s) :
    (segments s).getLast? = some ".".toList := by
  obtain ⟨t, rfl⟩ := h
  have : segments (t ++ "/.".toList) = segments t ++ [".".toList] := segments_append t ".".toList
  rw [this, List.getLast?_append]
  rfl

theorem markerBase_join {dir : List Str} (hne : dir ≠ []) (hs : ∀ d ∈ dir, '/' ∉ d)
    (hd : dir.any dotted = false) : markerBase ('/' :: join dir) = '/' :: join dir := by
  apply trimSuffix_of_not
  intro h
  have hseg : segments ('/' :: join dir) = [] :: dir := by
    rw [segments_rooted, segments_join hne hs]
  have hlast := getLast_segments_of_twin h
  rw [hseg] at hlast
  obtain ⟨d, l, rfl⟩ := List.exists_cons_of_ne_nil hne
  rw [List.getLast?_cons_cons] at hlast
  have hmem : ".".toList ∈ d :: l := List.mem_of_getLast? hlast
  have := (List.any_eq_false.mp hd) _ hmem
  simp [dotted] at this

theorem lastDists_lt {segs : List Str} {n i : Nat} (h : lastDists segs n = some i) : i < n := by
  induction n with
  | zero => simp [lastDists] at h
  | succ n ih =>
    simp only [lastDists] at h
    split at h
    · simp_all
    · exact Nat.lt_succ_of_lt (ih h)

/-- What the grammar makes of a request path: no suite, or undotted segments and possibly one
final `.`. -/
def WellFormed (s : Str) : Prop :=
  s ≠ [] → ∃ dir : List Str, dir ≠ [] ∧ (∀ d ∈ dir, '/' ∉ d) ∧ dir.any dotted = false ∧
    (s = '/' :: join dir ∨ s = '/' :: join dir ++ "/.".toList)

theorem wellFormed_suiteOfDir {twin : Bool} {dir : List Str} (hs : ∀ d ∈ dir, '/' ∉ d) :
    WellFormed (suiteOfDir twin dir) := by
  unfold suiteOfDir
  split
  · exact fun h => absurd rfl h
  · rename_i h
    obtain ⟨hne, hdot⟩ := not_or.mp h
    refine fun _ => ⟨dir, hne, hs, by simpa using hdot, ?_⟩
    cases twin with
    | true => exact .inr rfl
    | false => exact .inl (by simp)

theorem wellFormed_flatSuitePath {segs : List Str} (hs : ∀ d ∈ segs, '/' ∉ d) :
    WellFormed (flatSuitePath segs) := by
  unfold flatSuitePath
  dsimp only
  split
  · exact fun h => absurd rfl h
  · split
    · exact wellFormed_suiteOfDir fun d hd =>
        hs d (List.mem_of_mem_take (List.dropLast_subset _ hd))
    · exact wellFormed_suiteOfDir fun d hd => hs d (List.mem_of_mem_take hd)

theorem wellFormed_distsSuitePath {segs : List Str} (hs : ∀ d ∈ segs, '/' ∉ d) :
    WellFormed (distsSuitePath segs) := by
  unfold distsSuitePath
  split
  · exact fun h => absurd rfl h
  · rename_i hdot
    split
    · rename_i i hi
      have hlt := lastDists_lt hi
      refine fun _ => ⟨segs.take (i + 2), ?_, ?_, ?_, .inl rfl⟩
      · rw [← List.length_pos_iff, List.length_take]
        omega
      · exact fun d hd => hs d (List.mem_of_mem_take hd)
      · exact List.any_eq_false.mpr fun d hd =>
          List.any_eq_false.mp (by simpa using hdot) d (List.mem_of_mem_take hd)
    · exact fun h => absurd rfl h

theorem wellFormed_suitePath (p : Str) : WellFormed (suitePath p) := by
  unfold suitePath
  split
  · split
    · split
      · exact wellFormed_distsSuitePath fun _ => slash_notMem_segments
      · exact wellFormed_flatSuitePath fun _ => slash_notMem_segments
    · exact fun h => absurd rfl h
  · exact fun h => absurd rfl h

theorem markerBase_markerBase (p : Str) :
    markerBase (markerBase (suitePath p)) = markerBase (suitePath p) := by
  by_cases hne : suitePath p = []
  · rw [hne]
    decide
  · obtain ⟨dir, hdir, hslash, hdot, hcase⟩ := wellFormed_suitePath p hne
    have hbase := markerBase_join hdir hslash hdot
    rcases hcase with h | h
    · rw [h, hbase, hbase]
    · rw [h, markerBase_twin, hbase]

example : suitePath "/repo/./InRelease".toList = "/repo/.".toList := by decide +kernel
example : suitePath "/a/dists/b/dists/c/InRelease".toList = "/a/dists/b/dists/c".toList := by
  decide +kernel

end Aptpath
end AptCacher
