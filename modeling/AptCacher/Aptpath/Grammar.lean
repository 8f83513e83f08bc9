import AptCacher.Aptpath.Suite

/-!
# The grammar of suite paths

What `suitePath` reads, as a grammar: the segments of a request path fall apart into those of its
suite and those of a member, and the suite segments alone say which suite it is.

* `IsSuite`: the segments of a suite, with a final `dists/<codename>` or without any `dists`.
* `FlatMember`: the segments of a flat member.
* `suitePath_split`: a path that has a suite is the suite and a member; the member does not begin
  with a `.` segment.
* `suitePath_anchored`: behind every suite an anchor has that suite.
* `suite_path_grammar`: the properties that rows, snapshots and markers keyed by suites rely on.
-/

namespace AptCacher.Aptpath

/-! ## Suites and members -/

/-- The segments of a suite. -/
def IsSuite (top : List Str) : Prop :=
  (top.any dotted = false ∧ ∃ repo code, top = repo ++ ["dists".toList, code]) ∨
    ("dists".toList ∉ top ∧ ∃ dir, dir ≠ [] ∧ dir.any dotted = false ∧
      (top = dir ∨ top = dir ++ [".".toList]))

/-- The segments of a flat member: an anchor or a root index, a pdiff index, a by-hash name. -/
inductive FlatMember : List Str → Prop
  | name {a : Str} (h : isFlatMember a = true) : FlatMember [a]
  | pdiff {b : Str} (h : b = "Packages.diff".toList ∨ b = "Sources.diff".toList) :
    FlatMember [b, "Index".toList]
  | byHash (alg digest : Str) : FlatMember ["by-hash".toList, alg, digest]

theorem not_dotted_of_isFlatMember {a : Str} (h : isFlatMember a = true) : dotted a = false := by
  by_contra hd
  simp only [Bool.not_eq_false, dotted, Bool.or_eq_true, beq_iff_eq] at hd
  rcases hd with (rfl | rfl) | rfl
  · exact absurd h (by decide +kernel)
  · exact absurd h (by decide +kernel)
  · exact absurd h (by decide +kernel)

theorem FlatMember.head {member : List Str} (h : FlatMember member) :
    ∃ a rest, member = a :: rest ∧ dotted a = false := by
  cases h with
  | name h => exact ⟨_, _, rfl, not_dotted_of_isFlatMember h⟩
  | pdiff h =>
    refine ⟨_, _, rfl, ?_⟩
    rcases h with rfl | rfl
    · decide +kernel
    · decide +kernel
  | byHash => exact ⟨_, _, rfl, by decide +kernel⟩

variable {segs dir top : List Str} {p : Str}

theorem flatMember_take (h : flatMemberSegments segs ≠ 0)
    (hle : flatMemberSegments segs ≤ segs.length) :
    FlatMember (segs.take (flatMemberSegments segs)).reverse := by
  cases segs with
  | nil => exact absurd rfl h
  | cons a rest =>
    rw [flatMemberSegments] at h hle ⊢
    by_cases hname : isFlatMember a = true
    · rw [if_pos hname]
      exact .name hname
    · rw [if_neg hname] at h hle ⊢
      split at h <;> rename_i hcase
      · rw [if_pos hcase]
        obtain ⟨rfl, hb⟩ := hcase
        obtain ⟨b, rest, rfl⟩ := List.exists_cons_of_ne_nil (by rintro rfl; simp at hb : rest ≠ [])
        exact .pdiff (by simpa using hb)
      · rw [if_neg hcase] at hle ⊢
        split at h <;> rename_i hhash
        · rw [if_pos hhash] at hle ⊢
          obtain ⟨d, rest, rfl⟩ := List.exists_cons_of_length_pos (by simp at hle; omega : 0 < rest.length)
          obtain ⟨b, rest, rfl⟩ := List.exists_cons_of_length_pos (by simp at hle; omega : 0 < rest.length)
          obtain rfl : b = "by-hash".toList := by simpa using hhash.1
          exact .byHash d a
        · exact absurd rfl h

/-! ## Reading a path -/

theorem lastDists_eq_some {n i : Nat} (h : lastDists segs n = some i) :
    segs[i]? = some "dists".toList := by
  induction n with
  | zero => cases h
  | succ n ih =>
    rw [lastDists] at h
    split at h
    · cases h
      assumption
    · exact ih h

/-- A suite, its path and the segments of the member behind it. -/
structure Split (segs : List Str) (suite : Str) (top member : List Str) : Prop where
  segs_eq : segs = top ++ member
  suite_eq : suite = '/' :: join top
  isSuite : IsSuite top
  member : ∃ a rest, member = a :: rest ∧ dotted a = false

theorem split_dists (h : distsSuitePath segs ≠ []) :
    ∃ top member, Split segs (distsSuitePath segs) top member ∧ "dists".toList ∈ top := by
  unfold distsSuitePath at h ⊢
  by_cases hdot : segs.any dotted = true
  · rw [if_pos hdot] at h
    exact absurd rfl h
  rw [if_neg hdot] at h ⊢
  rw [Bool.not_eq_true, List.any_eq_false] at hdot
  cases hlast : lastDists segs (segs.length - 2) with
  | none =>
    rw [hlast] at h
    exact absurd rfl h
  | some i =>
    have hlt := lastDists_lt hlast
    have hdists := lastDists_eq_some hlast
    have htake : segs.take (i + 2) = segs.take i ++ ["dists".toList, segs[i + 1]] := by
      have hi : segs[i] = "dists".toList := by
        rwa [List.getElem?_eq_getElem (by omega), Option.some.injEq] at hdists
      rw [← List.take_append_getElem (by omega), ← List.take_append_getElem (by omega), hi,
        List.append_assoc]
      rfl
    have hdrop : segs.drop (i + 2) ≠ [] := by
      rw [Ne, List.drop_eq_nil_iff]
      omega
    obtain ⟨a, rest, ha⟩ := List.exists_cons_of_ne_nil hdrop
    refine ⟨segs.take (i + 2), segs.drop (i + 2), ⟨(List.take_append_drop _ _).symm, rfl,
      .inl ⟨?_, _, _, htake⟩, a, rest, ha, ?_⟩, ?_⟩
    · exact List.any_eq_false.mpr fun d hd => hdot d (List.mem_of_mem_take hd)
    · have ha : a ∈ segs.drop (i + 2) := by simp [ha]
      simpa using hdot a (List.mem_of_mem_drop ha)
    · rw [htake]
      simp

theorem suiteOfDir_eq {twin : Bool} (h : suiteOfDir twin dir ≠ []) :
    dir ≠ [] ∧ dir.any dotted = false ∧
      suiteOfDir twin dir = '/' :: join (if twin then dir ++ [".".toList] else dir) := by
  unfold suiteOfDir at h ⊢
  by_cases hbad : dir = [] ∨ dir.any dotted = true
  · rw [if_pos hbad] at h
    exact absurd rfl h
  rw [if_neg hbad]
  obtain ⟨hne, hdot⟩ := not_or.mp hbad
  refine ⟨hne, Bool.not_eq_true _ ▸ hdot, ?_⟩
  cases twin with
  | false => simp
  | true =>
    rw [if_pos rfl, if_pos rfl, join_append hne (List.cons_ne_nil _ _)]
    rfl

theorem split_flat (hflat : "dists".toList ∉ segs) (h : flatSuitePath segs ≠ []) :
    ∃ top member, Split segs (flatSuitePath segs) top member := by
  unfold flatSuitePath at h ⊢
  generalize hn : flatMemberSegments segs.reverse = n at h ⊢
  dsimp only at h ⊢
  by_cases hshort : n = 0 ∨ segs.length ≤ n
  · rw [if_pos hshort] at h
    exact absurd rfl h
  rw [if_neg hshort] at h ⊢
  obtain ⟨hn0, hlen⟩ := not_or.mp hshort
  have hmember : FlatMember (segs.drop (segs.length - n)) := by
    have htake : FlatMember (segs.reverse.take (flatMemberSegments segs.reverse)).reverse :=
      flatMember_take (by omega) (by rw [List.length_reverse]; omega)
    rwa [hn, List.take_reverse, List.reverse_reverse] at htake
  have hnotin : "dists".toList ∉ segs.take (segs.length - n) := fun hin =>
    hflat (List.mem_of_mem_take hin)
  generalize hdir : segs.take (segs.length - n) = dir at h hnotin ⊢
  have hsegs : segs = dir ++ segs.drop (segs.length - n) := by
    rw [← hdir, List.take_append_drop]
  by_cases htwin : dir.getLast? = some ".".toList
  · rw [if_pos htwin] at h ⊢
    obtain ⟨hne, hdot, heq⟩ := suiteOfDir_eq h
    have hlast : dir.dropLast ++ [".".toList] = dir :=
      List.dropLast_append_getLast? _ (by rw [htwin]; rfl)
    rw [if_pos rfl, hlast] at heq
    exact ⟨dir, _, hsegs, heq, .inr ⟨hnotin, dir.dropLast, hne, hdot, .inr hlast.symm⟩,
      hmember.head⟩
  · rw [if_neg htwin] at h ⊢
    obtain ⟨hne, hdot, heq⟩ := suiteOfDir_eq h
    exact ⟨dir, _, hsegs, heq, .inr ⟨hnotin, dir, hne, hdot, .inl rfl⟩, hmember.head⟩

/-- A path that has a suite: its segments are those of the suite and those of a member, and it has
a `dists` segment if and only if the suite has one. -/
theorem suitePath_split (h : suitePath p ≠ []) : ∃ rest top member,
    p = '/' :: rest ∧ cleanBytes p = true ∧ Split (segments rest) (suitePath p) top member ∧
      (hasDistsSegment p = true ↔ "dists".toList ∈ top) := by
  unfold suitePath at h ⊢
  split at h
  · rename_i rest
    by_cases hclean : cleanBytes ('/' :: rest) = true
    · simp only [hclean, if_true] at h ⊢
      by_cases hd : hasDistsSegment ('/' :: rest) = true
      · rw [if_pos hd] at h ⊢
        obtain ⟨top, member, hsplit, hin⟩ := split_dists h
        exact ⟨rest, top, member, rfl, trivial, hsplit, iff_of_true hd hin⟩
      · rw [if_neg hd] at h ⊢
        have hnotin : "dists".toList ∉ segments rest := by
          intro hin
          apply hd
          rw [hasDistsSegment, segments_rooted, List.contains_iff_mem]
          exact List.mem_cons_of_mem _ hin
        obtain ⟨top, member, hsplit⟩ := split_flat hnotin h
        refine ⟨rest, top, member, rfl, trivial, hsplit, iff_of_false hd fun hin => hnotin ?_⟩
        rw [hsplit.segs_eq]
        exact List.mem_append_left _ hin
    · rw [if_neg hclean] at h
      exact absurd rfl h
  · exact absurd rfl h

/-! ## Anchoring a suite -/

theorem IsSuite.ne_nil (h : IsSuite top) : top ≠ [] := by
  rcases h with ⟨-, repo, code, rfl⟩ | ⟨-, dir, hne, -, rfl | rfl⟩
  · simp
  · exact hne
  · simp

theorem distsSuitePath_anchored {repo : List Str} {code : Str}
    (hdot : (repo ++ ["dists".toList, code]).any dotted = false) :
    distsSuitePath (repo ++ ["dists".toList, code] ++ ["InRelease".toList]) =
      '/' :: join (repo ++ ["dists".toList, code]) := by
  have hany : (repo ++ ["dists".toList, code] ++ ["InRelease".toList]).any dotted = false := by
    rw [List.any_append, hdot]
    decide +kernel
  have hlen : (repo ++ ["dists".toList, code] ++ ["InRelease".toList]).length - 2 =
      repo.length + 1 := by simp
  have hlast : lastDists (repo ++ ["dists".toList, code] ++ ["InRelease".toList])
      (repo.length + 1) = some repo.length := by
    rw [lastDists, if_pos (by simp)]
  have htake : (repo ++ ["dists".toList, code] ++ ["InRelease".toList]).take (repo.length + 2) =
      repo ++ ["dists".toList, code] := List.take_left' (by simp)
  rw [distsSuitePath, hany, hlen, hlast]
  simp only [Bool.false_eq_true, if_false, htake]

theorem suiteOfDir_of {twin : Bool} (hne : dir ≠ []) (hdot : dir.any dotted = false) :
    suiteOfDir twin dir = '/' :: join (if twin then dir ++ [".".toList] else dir) := by
  have hsome : suiteOfDir twin dir ≠ [] := by
    rw [suiteOfDir, if_neg (by simp [hne, hdot])]
    exact List.cons_ne_nil _ _
  exact (suiteOfDir_eq hsome).2.2

theorem flatSuitePath_anchored (hne : dir ≠ []) (hdot : dir.any dotted = false)
    (h : top = dir ∨ top = dir ++ [".".toList]) :
    flatSuitePath (top ++ ["InRelease".toList]) = '/' :: join top := by
  have hmember : flatMemberSegments (top ++ ["InRelease".toList]).reverse = 1 := by
    rw [List.reverse_append, List.reverse_singleton, List.singleton_append, flatMemberSegments,
      if_pos (by decide +kernel)]
  have htop : top ≠ [] := by
    rcases h with rfl | rfl
    · exact hne
    · simp
  have hlen : ¬ ((1 : Nat) = 0 ∨ (top ++ ["InRelease".toList]).length ≤ 1) := by
    have := List.length_pos_iff.mpr htop
    simp
    omega
  have htake : (top ++ ["InRelease".toList]).take ((top ++ ["InRelease".toList]).length - 1) =
      top := List.take_left' (by simp)
  rw [flatSuitePath, hmember]
  simp only [if_neg hlen, htake]
  rcases h with rfl | rfl
  · have hlast : top.getLast? ≠ some ".".toList := by
      intro hlast
      have := List.any_eq_false.mp hdot _ (List.mem_of_getLast? hlast)
      exact this (by decide +kernel)
    rw [if_neg hlast, suiteOfDir_of hne hdot]
    rfl
  · rw [if_pos (by simp), List.dropLast_concat, suiteOfDir_of hne hdot]
    rfl

theorem suitePath_anchored (hs : IsSuite top) (hslash : ∀ d ∈ top, '/' ∉ d)
    (hclean : cleanBytes ('/' :: join top) = true) :
    suitePath ('/' :: join top ++ "/InRelease".toList) = '/' :: join top := by
  have hsegs : segments (join top ++ "/InRelease".toList) = top ++ ["InRelease".toList] := by
    have := segments_append (join top) "InRelease".toList
    rwa [segments_join hs.ne_nil hslash] at this
  have hclean' : cleanBytes ('/' :: (join top ++ "/InRelease".toList)) = true := by
    rw [← List.cons_append, cleanBytes, List.all_append, Bool.and_eq_true]
    exact ⟨hclean, by decide +kernel⟩
  have hdists : hasDistsSegment ('/' :: (join top ++ "/InRelease".toList)) = true ↔
      "dists".toList ∈ top := by
    rw [hasDistsSegment, segments_rooted, hsegs, List.contains_iff_mem]
    simp
  rw [List.cons_append, suitePath]
  simp only [hclean', if_true, hsegs]
  rcases hs with ⟨hdot, repo, code, rfl⟩ | ⟨hnot, dir, hne, hdot, h⟩
  · rw [if_pos (hdists.mpr (by simp))]
    exact distsSuitePath_anchored hdot
  · rw [if_neg (mt hdists.mp hnot)]
    exact flatSuitePath_anchored hne hdot h

/-! ## The grammar -/

theorem join_ne_nil {a : Str} (ha : a ≠ []) (segs : List Str) : join (a :: segs) ≠ [] := by
  cases segs with
  | nil => simpa [join, List.intercalate] using ha
  | cons b segs => simp [join_cons_cons]

namespace Split

variable {rest suite : Str} {top member : List Str}

/-- The path is the suite and the member. -/
theorem path (h : Split (segments rest) suite top member) :
    '/' :: rest = suite ++ '/' :: join member := by
  obtain ⟨a, tail, rfl, -⟩ := h.member
  rw [← join_segments rest, h.segs_eq, join_append h.isSuite.ne_nil (List.cons_ne_nil _ _),
    h.suite_eq, List.cons_append]

theorem join_member_ne_nil (h : Split (segments rest) suite top member) : join member ≠ [] := by
  obtain ⟨a, tail, rfl, ha⟩ := h.member
  refine join_ne_nil ?_ tail
  rintro rfl
  cases ha

theorem slash (h : Split (segments rest) suite top member) : ∀ d ∈ top, '/' ∉ d := by
  intro d hd
  apply slash_notMem_segments (p := rest)
  rw [h.segs_eq]
  exact List.mem_append_left _ hd

/-- The suite is that of an anchor behind it. -/
theorem anchored (h : Split (segments rest) suite top member)
    (hclean : cleanBytes ('/' :: rest) = true) : suitePath (suite ++ "/InRelease".toList) = suite := by
  have hpart : cleanBytes suite = true := by
    rw [h.path, cleanBytes, List.all_append, Bool.and_eq_true] at hclean
    exact hclean.1
  rw [h.suite_eq] at hpart ⊢
  exact suitePath_anchored h.isSuite h.slash hpart

theorem hasDistsSegment_iff (h : Split (segments rest) suite top member) :
    hasDistsSegment suite = true ↔ "dists".toList ∈ top := by
  rw [hasDistsSegment, h.suite_eq, segments_rooted, segments_join h.isSuite.ne_nil h.slash,
    List.contains_iff_mem]
  simp

end Split

theorem isCanonicalSuitePath_iff {s : Str} :
    isCanonicalSuitePath s = true ↔ s ≠ [] ∧ ∃ p, suitePath p = s := by
  rw [isCanonicalSuitePath, Bool.and_eq_true, bne_iff_ne, beq_iff_eq]
  refine and_congr_right fun hne => ⟨fun h => ⟨_, h⟩, ?_⟩
  rintro ⟨p, rfl⟩
  obtain ⟨rest, top, member, rfl, hclean, hsplit, -⟩ := suitePath_split hne
  exact hsplit.anchored hclean

/-- The suite of a path is flat if and only if the path has no `dists` segment. -/
theorem isFlatSuitePath_suitePath (h : suitePath p ≠ []) :
    isFlatSuitePath (suitePath p) = !hasDistsSegment p := by
  obtain ⟨rest, top, member, rfl, -, hsplit, hdists⟩ := suitePath_split h
  have hsame : hasDistsSegment (suitePath ('/' :: rest)) = hasDistsSegment ('/' :: rest) :=
    Bool.eq_iff_iff.mpr (hsplit.hasDistsSegment_iff.trans hdists.symm)
  rw [isFlatSuitePath, isCanonicalSuitePath_iff.mpr ⟨h, _, rfl⟩, hsame, Bool.true_and]

theorem suitePath_member (h : suitePath p ≠ []) :
    ∃ m, m ≠ [] ∧ p = suitePath p ++ '/' :: m := by
  obtain ⟨rest, top, member, rfl, -, hsplit, -⟩ := suitePath_split h
  exact ⟨join member, hsplit.join_member_ne_nil, hsplit.path⟩

/-- The texts that begin with `s/` stand from `s/` on and before `s0`. -/
theorem slash_range (s m : Str) :
    ¬ s ++ '/' :: m < s ++ ['/'] ∧ s ++ '/' :: m < s ++ ['0'] := by
  refine ⟨List.not_lt.mpr (List.append_left_le ?_), List.append_left_lt ?_⟩
  · exact List.cons_le_cons_iff.mpr (.inr ⟨rfl, List.nil_le m⟩)
  · exact List.cons_lt_cons_iff.mpr (.inl (by decide))

/-- Of the texts that begin with `s/`, `s/` itself is the first. -/
theorem slash_lt (s : Str) {m : Str} (h : m ≠ []) : s ++ ['/'] < s ++ '/' :: m := by
  refine List.append_left_lt (List.cons_lt_cons_iff.mpr (.inr ⟨rfl, ?_⟩))
  cases m with
  | nil => exact absurd rfl h
  | cons c m => exact List.nil_lt_cons c m

/-- A path under `s/./` has another suite than `s`: no member begins with a `.` segment. -/
theorem suitePath_dot_ne {s : Str} (h : s ≠ []) (m : Str) : suitePath (s ++ "/./".toList ++ m) ≠ s := by
  intro heq
  obtain ⟨rest, top, member, hp, -, hsplit, -⟩ := suitePath_split (by rwa [heq])
  rw [heq] at hsplit
  obtain ⟨a, tail, rfl, ha⟩ := hsplit.member
  have hpath := hsplit.path
  rw [← hp, List.append_assoc, List.append_cancel_left_eq] at hpath
  have hmember : ".".toList ++ '/' :: m = join (a :: tail) := (List.cons.inj hpath).2
  have hslash : ∀ d ∈ a :: tail, '/' ∉ d := by
    intro d hd
    apply slash_notMem_segments (p := rest)
    rw [hsplit.segs_eq]
    exact List.mem_append_right _ hd
  have hsegs := congrArg segments hmember
  rw [segments_append, segments_join (List.cons_ne_nil _ _) hslash] at hsegs
  obtain rfl : ".".toList = a := (List.cons.inj hsegs).1
  cases ha

/-- **The grammar of suite paths.** A path that has a suite is that suite, a slash and a member that
is not empty; the suite is canonical, and flat if and only if the path has no `dists` segment. The
canonical paths are the suites of paths. The paths of a suite stand between `s/` and `s0` in byte
order, and a path under `s/./` never has the suite `s`, so twins share no path. -/
theorem suite_path_grammar :
    (∀ p, suitePath p ≠ [] → (∃ m, m ≠ [] ∧ p = suitePath p ++ '/' :: m) ∧
      isCanonicalSuitePath (suitePath p) = true ∧
      isFlatSuitePath (suitePath p) = !hasDistsSegment p) ∧
    (∀ s, isCanonicalSuitePath s = true ↔ s ≠ [] ∧ ∃ p, suitePath p = s) ∧
    (∀ s p, isCanonicalSuitePath s = true → suitePath p = s →
      ¬ p < s ++ ['/'] ∧ p < s ++ ['0']) ∧
    ∀ s m, s ≠ [] → suitePath (s ++ "/./".toList ++ m) ≠ s := by
  refine ⟨fun p hp => ⟨suitePath_member hp, ?_, isFlatSuitePath_suitePath hp⟩,
    fun _ => isCanonicalSuitePath_iff, ?_, fun s m hs => suitePath_dot_ne hs m⟩
  · exact isCanonicalSuitePath_iff.mpr ⟨hp, p, rfl⟩
  · rintro s p hs rfl
    obtain ⟨m, -, hm⟩ := suitePath_member (isCanonicalSuitePath_iff.mp hs).1
    have hrange := slash_range (suitePath p) m
    rwa [← hm] at hrange

end AptCacher.Aptpath
