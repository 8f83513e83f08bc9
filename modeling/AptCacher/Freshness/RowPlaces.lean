import AptCacher.Freshness.PackageRows

/-!
# Where the package rows are

The builders put every row below one repository root, which they cut from the suite path at its
first `/dists/`. The suite itself is formed at the last `dists` segment.

* `packages_rowsAt`, `sources_rowsAt`, `pdiff_rowsAt`: the rows of a builder are those of the
  entries, below the root that it uses.
* `repoRoot_eq_iff`: that root is the suite's repository exactly if no segment of the repository is
  `dists`.
* `Db.Serves`, `declared_of_serves`: what the lookup finds once the snapshot is current.
-/

namespace AptCacher.Freshness

open Spec Cache Aptpath

variable {B : Type}

/-! ## The rows of the entries -/

/-- The rows are those of entries `f` with hash `x` below the root: one for each entry in `must`,
and each for an entry in `listed`. -/
def RowsAt (suite : SuiteKey) (root : Str) (must listed : Str → Str → Prop) (rows : List PackageHash) :
    Prop :=
  (∀ f x, must f x → ∃ row ∈ rows,
    row.url = ⟨suite.scheme, suite.host, root ++ '/' :: f⟩ ∧ row.declared = x) ∧
  ∀ row ∈ rows, ∃ f x, listed f x ∧ row.url = ⟨suite.scheme, suite.host, root ++ '/' :: f⟩ ∧
    row.declared = x

/-- The entries of the Packages indexes. -/
def Indexes.packageRefs (ix : Indexes B) (members : List ReleaseMember) : List PackageRef :=
  members.flatMap fun m => match ix.packages m with
    | .ok entries => entries.1
    | .error _ => []

/-- Every identity field is there. -/
def PackageRef.complete (ref : PackageRef) : Bool :=
  ref.package != [] && ref.architecture != [] && ref.version != []

variable {ix : Indexes B} {root p r c : Str} {suite : SuiteKey} {id : Nat}
  {fetched : List ReleaseMember} {rows : List PackageHash}

theorem dedup_of_scan {members : List ReleaseMember} {st st' : PackageScan}
    (h : members.foldlM (scanPackages ix root) st = .ok st') :
    (packageMerge root).gather (ix.packageRefs members) st.dedup = .ok st'.dedup := by
  induction members generalizing st with
  | nil =>
    cases h
    rfl
  | cons m members ih =>
    rw [List.foldlM_cons] at h
    cases hm : ix.packages m with
    | error e =>
      rw [scanPackages, hm] at h
      cases h
    | ok entries =>
      cases hg : (packageMerge root).gather entries.1 st.dedup with
      | error e =>
        simp only [scanPackages, hm, Except.bind, hg] at h
        cases h
      | ok dedup =>
        simp only [scanPackages, hm, Except.bind, hg] at h
        have hrest := ih h
        simp only [Indexes.packageRefs, List.flatMap_cons, hm, Merge.gather, List.foldlM_append]
        rw [Merge.gather] at hg
        rw [hg]
        exact hrest

theorem fill_ne_nil {a b : Str} (h : a ≠ [] ∨ b ≠ []) : fill a b ≠ [] := by
  unfold fill
  split
  · rename_i ha
    exact h.resolve_left (not_not.mpr ha)
  · assumption

/-- The entry of a path has the hash of each declaration, and a complete declaration makes it
complete. -/
def DebPathDecl.Of (l : List PackageRef) (d : DebPathDecl) : Prop :=
  (∃ ref ∈ l, ref.sha256 = d.sha256) ∧
    ∀ ref ∈ l, ref.sha256 = d.sha256 ∧ (ref.complete = true → d.complete = true)

theorem packageMerge_first (root : Str) (ref : PackageRef) :
    DebPathDecl.Of [ref] ((packageMerge root).first ref) := by
  refine ⟨⟨ref, List.mem_singleton_self _, rfl⟩, fun ref' h => ?_⟩
  rw [List.mem_singleton.mp h]
  exact ⟨rfl, id⟩

theorem packageMerge_merge (root : Str) (l : List PackageRef) (d : DebPathDecl) (ref : PackageRef)
    (d' : DebPathDecl) (h : DebPathDecl.Of l d) (hm : (packageMerge root).merge d ref = .ok d') :
    DebPathDecl.Of (l ++ [ref]) d' := by
  obtain ⟨⟨ref₀, hmem₀, hsha₀⟩, hall⟩ := h
  simp only [packageMerge, DebPathDecl.merge] at hm
  split at hm
  · cases hm
  rename_i hsha
  simp only [ne_eq, not_not] at hsha
  repeat (split at hm; · cases hm)
  cases hm
  refine ⟨⟨ref₀, List.mem_append_left _ hmem₀, hsha₀⟩, fun ref' h' => ?_⟩
  rcases List.mem_append.mp h' with h' | h'
  · obtain ⟨hs, hc⟩ := hall ref' h'
    refine ⟨hs, fun hcomplete => ?_⟩
    have := hc hcomplete
    simp only [DebPathDecl.complete, Bool.and_eq_true, bne_iff_ne] at this ⊢
    exact ⟨⟨fill_ne_nil (.inl this.1.1), fill_ne_nil (.inl this.1.2)⟩, fill_ne_nil (.inl this.2)⟩
  · rw [List.mem_singleton.mp h']
    refine ⟨hsha.symm, fun hcomplete => ?_⟩
    simp only [PackageRef.complete, DebPathDecl.complete, Bool.and_eq_true, bne_iff_ne] at hcomplete ⊢
    exact ⟨⟨fill_ne_nil (.inr hcomplete.1.1), fill_ne_nil (.inr hcomplete.1.2)⟩,
      fill_ne_nil (.inr hcomplete.2)⟩

/-- The fetched Packages indexes of a dists suite. -/
def packagesIndexes (fetchedMembers : List ReleaseMember) : List ReleaseMember :=
  fetchedMembers.filter fun m => isPackagesMember m.path

/-- The fetched indexes declare the package `f` with hash `x`. -/
def Indexes.ListsPackage (ix : Indexes B) (fetchedMembers : List ReleaseMember) (f x : Str) : Prop :=
  ∃ ref ∈ ix.packageRefs (packagesIndexes fetchedMembers), ref.filename = f ∧ ref.sha256 = x

/-- A complete stanza declares it. -/
def Indexes.ListsComplete (ix : Indexes B) (fetchedMembers : List ReleaseMember) (f x : Str) : Prop :=
  ∃ ref ∈ ix.packageRefs (packagesIndexes fetchedMembers), ref.filename = f ∧ ref.sha256 = x ∧
    ref.complete = true

theorem packages_rowsAt {form : AnchorForm} {all : List ReleaseMember} {coverage : Bool}
    (hform : form ≠ .unsigned) (hflat : isFlatSuitePath suite.suitePath = false)
    (hroot : repoRootFromSuitePath suite.suitePath = some (root ++ ['/']))
    (h : buildPackageHashes ix suite id form all fetched = .ok (rows, coverage)) :
    RowsAt suite root (ix.ListsComplete fetched) (ix.ListsPackage fetched) rows := by
  simp only [buildPackageHashes, if_neg hform, rowsRoot, hflat, hroot, Bool.false_eq_true, if_false,
    Bool.not_false, Bool.true_or, Bool.and_true] at h
  cases hscan : (packagesIndexes fetched).foldlM (scanPackages ix (root ++ ['/'])) ⟨∅, [], []⟩ with
  | error e =>
    rw [packagesIndexes] at hscan
    rw [hscan] at h
    cases h
  | ok st =>
    have hdedup := dedup_of_scan hscan
    rw [packagesIndexes] at hscan
    rw [hscan] at h
    cases h
    have hkey : ∀ f : Str, root ++ ['/'] ++ f = root ++ '/' :: f := fun f => by simp
    constructor
    · rintro f x ⟨ref, href, rfl, rfl, hcomplete⟩
      obtain ⟨d, hd, -, hall⟩ := Merge.exists_entry (packageMerge_first _) (packageMerge_merge _) hdedup href
      obtain ⟨hsha, hc⟩ := hall ref (List.mem_filter.mpr ⟨href, by simp⟩)
      refine ⟨_, List.mem_filterMap.mpr ⟨⟨_, d⟩, AList.mem_lookup_iff.mp hd, if_pos (hc hcomplete)⟩, ?_, ?_⟩
      · simp only [packageRow, packageMerge, hkey]
      · exact hsha.symm
    · intro row hrow
      obtain ⟨⟨path, d⟩, he, hrow⟩ := List.mem_filterMap.mp hrow
      split at hrow
      · cases hrow
        obtain ⟨⟨ref, href, hsha⟩, -⟩ :=
          Merge.exists_of_entry (packageMerge_first _) (packageMerge_merge _) hdedup he
        obtain ⟨href, hpath⟩ := List.mem_filter.mp href
        have hpath : root ++ ['/'] ++ ref.filename = path := of_decide_eq_true hpath
        refine ⟨ref.filename, ref.sha256, ⟨ref, href, rfl, rfl⟩, ?_, hsha.symm⟩
        simp only [packageRow, ← hpath, hkey]
      · cases hrow

/-- The entry of a source path has the hash of each declaration unless two differ. -/
def SourcePathDecl.Of (l : List SourceRef) (d : SourcePathDecl) : Prop :=
  (∃ ref ∈ l, ref.sha256 = d.sha256) ∧ (∀ ref ∈ l, d.conflicted = true ∨ ref.sha256 = d.sha256) ∧
    (d.conflicted = true → ∃ ref ∈ l, ref.sha256 ≠ d.sha256)

theorem sourceMerge_first (root : Str) (ref : SourceRef) :
    SourcePathDecl.Of [ref] ((sourceMerge root).first ref) := by
  refine ⟨⟨ref, List.mem_singleton_self _, rfl⟩, fun ref' h => ?_, fun h => absurd h Bool.false_ne_true⟩
  rw [List.mem_singleton.mp h]
  exact .inr rfl

theorem sourceMerge_merge (root : Str) (l : List SourceRef) (d : SourcePathDecl) (ref : SourceRef)
    (d' : SourcePathDecl) (h : SourcePathDecl.Of l d) (hm : (sourceMerge root).merge d ref = .ok d') :
    SourcePathDecl.Of (l ++ [ref]) d' := by
  obtain ⟨⟨ref₀, hmem₀, hsha₀⟩, hall, hconf⟩ := h
  have hd' : d.merge ref = d' := Except.ok.inj hm
  have hsha : d'.sha256 = d.sha256 := by
    rw [← hd', SourcePathDecl.merge]
    split
    · rfl
    · split <;> rfl
  have hflag : d'.conflicted = (d.conflicted || d.sha256 != ref.sha256) := by
    rw [← hd', SourcePathDecl.merge]
    split
    · rename_i hne
      simp [hne]
    · rename_i heq
      simp only [ne_eq, not_not] at heq
      split <;> simp [heq]
  rw [SourcePathDecl.Of, hsha, hflag]
  refine ⟨⟨ref₀, List.mem_append_left _ hmem₀, hsha₀⟩, fun ref' h' => ?_, fun hc => ?_⟩
  · rcases List.mem_append.mp h' with h' | h'
    · exact (hall ref' h').imp_left fun hc => by rw [hc, Bool.true_or]
    · rw [List.mem_singleton.mp h']
      by_cases heq : ref.sha256 = d.sha256
      · exact .inr heq
      · exact .inl (by simp [Ne.symm heq])
  · by_cases hold : d.conflicted = true
    · obtain ⟨ref', hmem, hne⟩ := hconf hold
      exact ⟨ref', List.mem_append_left _ hmem, hne⟩
    · refine ⟨ref, List.mem_append_right _ (List.mem_singleton_self _), fun heq => ?_⟩
      simp [hold, heq] at hc

/-- The fetched indexes declare the source file `f` with hash `x`. -/
def Indexes.ListsSource (ix : Indexes B) (fetchedMembers : List ReleaseMember) (f x : Str) : Prop :=
  ∃ ref ∈ ix.sourceRefs fetchedMembers, ref.path = f ∧ ref.sha256 = x

/-- They declare it, and with no other hash. -/
def Indexes.ListsOnly (ix : Indexes B) (fetchedMembers : List ReleaseMember) (f x : Str) : Prop :=
  ix.ListsSource fetchedMembers f x ∧ ∀ y, ix.ListsSource fetchedMembers f y → y = x

theorem sources_rowsAt {n : Nat}
    (hroot : repoRootFromSuitePath suite.suitePath = some (root ++ ['/']))
    (h : buildSourceHashes ix suite id fetched = .ok (rows, n)) :
    RowsAt suite root (ix.ListsOnly fetched) (ix.ListsSource fetched) rows := by
  simp only [buildSourceHashes, hroot] at h
  cases hdedup : (sourceMerge (root ++ ['/'])).gather (ix.sourceRefs fetched) ∅ with
  | error e =>
    rw [hdedup] at h
    cases h
  | ok dedup =>
    rw [hdedup] at h
    cases h
    have hkey : ∀ f : Str, root ++ ['/'] ++ f = root ++ '/' :: f := fun f => by simp
    constructor
    · rintro f x ⟨⟨ref, href, rfl, rfl⟩, honly⟩
      obtain ⟨d, hd, ⟨ref₀, href₀, hsha₀⟩, hall, hconf⟩ :=
        Merge.exists_entry (sourceMerge_first _) (sourceMerge_merge _) hdedup href
      -- every declaration of the path is one of the file, so all have its hash
      have hsame : ∀ ref' ∈ (ix.sourceRefs fetched).filter fun r => (sourceMerge (root ++ ['/'])).key r =
          (sourceMerge (root ++ ['/'])).key ref, ref'.sha256 = ref.sha256 := by
        intro ref' href'
        obtain ⟨href', hpath⟩ := List.mem_filter.mp href'
        have hpath : root ++ ['/'] ++ ref'.path = root ++ ['/'] ++ ref.path := of_decide_eq_true hpath
        exact honly _ ⟨ref', href', List.append_cancel_left hpath, rfl⟩
      have hno : d.conflicted = false := by
        by_contra hc
        obtain ⟨ref', href', hne⟩ := hconf (by simpa using hc)
        exact hne ((hsame ref' href').trans ((hsame ref₀ href₀).symm.trans hsha₀))
      have hrow : (if d.conflicted then none else
          some (sourceRow suite id (root ++ ['/'] ++ ref.path) d)) =
            some (sourceRow suite id (root ++ ['/'] ++ ref.path) d) := by
        rw [hno]
        rfl
      refine ⟨_, List.mem_filterMap.mpr ⟨⟨_, d⟩, AList.mem_lookup_iff.mp hd, hrow⟩, ?_, ?_⟩
      · simp only [sourceRow, hkey]
      · exact hsha₀.symm.trans (hsame ref₀ href₀)
    · intro row hrow
      obtain ⟨⟨path, d⟩, he, hrow⟩ := List.mem_filterMap.mp hrow
      split at hrow
      · cases hrow
      · cases hrow
        obtain ⟨⟨ref, href, hsha⟩, -⟩ :=
          Merge.exists_of_entry (sourceMerge_first _) (sourceMerge_merge _) hdedup he
        obtain ⟨href, hpath⟩ := List.mem_filter.mp href
        have hpath : root ++ ['/'] ++ ref.path = path := of_decide_eq_true hpath
        refine ⟨ref.path, ref.sha256, ⟨ref, href, rfl, rfl⟩, ?_, hsha.symm⟩
        simp only [sourceRow, ← hpath, hkey]

/-- The entry of a patch path has the hash of each declaration. -/
def PdiffPathDecl.Of (l : List Patch) (d : PdiffPathDecl) : Prop :=
  (∃ p ∈ l, p.sha256 = d.sha256) ∧ ∀ p ∈ l, p.sha256 = d.sha256

theorem pdiffMerge_first (root : Str) (p : Patch) :
    PdiffPathDecl.Of [p] ((pdiffMerge root).first p) := by
  refine ⟨⟨p, List.mem_singleton_self _, rfl⟩, fun p' h => ?_⟩
  rw [List.mem_singleton.mp h]
  rfl

theorem pdiffMerge_merge (root : Str) (l : List Patch) (d : PdiffPathDecl) (p : Patch)
    (d' : PdiffPathDecl) (h : PdiffPathDecl.Of l d) (hm : (pdiffMerge root).merge d p = .ok d') :
    PdiffPathDecl.Of (l ++ [p]) d' := by
  obtain ⟨⟨p₀, hmem₀, hsha₀⟩, hall⟩ := h
  simp only [pdiffMerge] at hm
  split at hm
  · cases hm
  · rename_i hsha
    simp only [ne_eq, not_not] at hsha
    cases hm
    refine ⟨⟨p₀, List.mem_append_left _ hmem₀, hsha₀⟩, fun p' h' => ?_⟩
    rcases List.mem_append.mp h' with h' | h'
    · exact hall p' h'
    · rw [List.mem_singleton.mp h', hsha]

/-- The patches that the fetched pdiff indexes list, each as a path below the suite. -/
def Indexes.listedPatches (ix : Indexes B) (fetchedMembers : List ReleaseMember) : List (Str × Str) :=
  (fetchedMembers.filter fun m => isPdiffIndexMember m.path).flatMap fun m =>
    ((ix.patches m).getD []).map fun ref => (pathDir m.path ++ '/' :: ref.filename, ref.sha256)

/-- Every row is one of a listed patch, below the root of the builder. -/
theorem exists_patch_of_row {n : Nat}
    (hroot : repoRootFromSuitePath suite.suitePath = some (root ++ ['/']))
    (h : buildPdiffHashes ix suite id fetched = .ok (rows, n)) {row : PackageHash}
    (hrow : row ∈ rows) :
    ∃ y ∈ ix.listedPatches fetched, row.url = ⟨suite.scheme, suite.host, root ++ '/' :: y.1⟩ ∧
      row.declared = y.2 := by
  simp only [buildPdiffHashes, hroot] at h
  cases hdedup : (pdiffMerge (root ++ ['/'])).gather
      ((fetched.filter fun m => isPdiffIndexMember m.path).flatMap fun m => (ix.pdiffPatches m).getD []) ∅ with
  | error e =>
    rw [hdedup] at h
    cases h
  | ok dedup =>
    rw [hdedup] at h
    cases h
    obtain ⟨⟨path, d⟩, he, rfl⟩ := List.mem_map.mp hrow
    obtain ⟨⟨p, hp, hsha⟩, -⟩ := Merge.exists_of_entry (pdiffMerge_first _) (pdiffMerge_merge _) hdedup he
    obtain ⟨hp, hpath⟩ := List.mem_filter.mp hp
    have hpath : root ++ ['/'] ++ p.indexDir ++ '/' :: p.filename = path := of_decide_eq_true hpath
    obtain ⟨m, hm, hp⟩ := List.mem_flatMap.mp hp
    -- the index has patches, so it was parsed and its path names an architecture
    have hpatch : ∃ ref ∈ (ix.patches m).getD [], p.indexDir = pathDir m.path ∧
        p.filename = ref.filename ∧ p.sha256 = ref.sha256 := by
      unfold Indexes.pdiffPatches at hp
      cases harch : archFromPdiffIndexPath m.path with
      | none =>
        rw [harch] at hp
        cases hp
      | some arch =>
        cases hrefs : ix.patches m with
        | none =>
          rw [harch, hrefs] at hp
          cases hp
        | some refs =>
          rw [harch, hrefs] at hp
          obtain ⟨ref, href, rfl⟩ := List.mem_map.mp hp
          exact ⟨ref, href, rfl, rfl, rfl⟩
    obtain ⟨ref, href, hdir, hname, hsha'⟩ := hpatch
    refine ⟨_, List.mem_flatMap.mpr ⟨m, hm, List.mem_map_of_mem href⟩, ?_, ?_⟩
    · simp only [pdiffRow, ← hpath, hdir, hname, List.append_assoc, List.cons_append, List.nil_append]
    · exact hsha.symm.trans hsha'

/-! ## The repository root -/

theorem indexOf_eq_some {sub : Str} {i : Nat} (h : indexOf sub p = some i) :
    sub <+: p.drop i ∧ ∀ j < i, ¬ sub <+: p.drop j := by
  induction p generalizing i with
  | nil =>
    simp only [indexOf] at h
    split at h
    · rename_i hsub
      cases h
      exact ⟨hsub ▸ List.nil_prefix, fun j hj => absurd hj (Nat.not_lt_zero j)⟩
    · cases h
  | cons c p ih =>
    simp only [indexOf] at h
    split at h
    · rename_i hpre
      cases h
      exact ⟨List.isPrefixOf_iff_prefix.mp hpre, fun j hj => absurd hj (Nat.not_lt_zero j)⟩
    · rename_i hpre
      obtain ⟨j, hj, rfl⟩ := Option.map_eq_some_iff.mp h
      obtain ⟨hfound, hfirst⟩ := ih hj
      refine ⟨hfound, fun k hk => ?_⟩
      cases k with
      | zero => exact fun hp => hpre (List.isPrefixOf_iff_prefix.mpr hp)
      | succ k => exact hfirst k (by omega)

theorem indexOf_isSome {sub : Str} {i : Nat} (hi : i ≤ p.length) (h : sub <+: p.drop i) :
    ∃ j ≤ i, indexOf sub p = some j := by
  induction p generalizing i with
  | nil =>
    rw [List.drop_nil, List.prefix_nil] at h
    exact ⟨0, Nat.zero_le _, by rw [indexOf, if_pos h]⟩
  | cons c p ih =>
    by_cases hpre : sub.isPrefixOf (c :: p) = true
    · exact ⟨0, Nat.zero_le _, by rw [indexOf, if_pos hpre]⟩
    · cases i with
      | zero => exact absurd (List.isPrefixOf_iff_prefix.mpr h) hpre
      | succ i =>
        obtain ⟨j, hj, heq⟩ := ih (Nat.le_of_succ_le_succ hi) h
        exact ⟨j + 1, Nat.succ_le_succ hj, by rw [indexOf, if_neg hpre, heq]; rfl⟩

theorem repoRoot_of_occurrence {s a b : Str} (h : s = a ++ "/dists/".toList ++ b) :
    ∃ a₀ b₀, s = a₀ ++ "/dists/".toList ++ b₀ ∧ a₀.length ≤ a.length ∧
      repoRootFromSuitePath s = some (a₀ ++ ['/']) := by
  have hdrop : s.drop a.length = "/dists/".toList ++ b := by
    rw [h, List.append_assoc, List.drop_left]
  obtain ⟨i, hi, hindex⟩ := indexOf_isSome (by rw [h]; simp) ⟨b, hdrop.symm⟩
  obtain ⟨⟨b₀, hb₀⟩, -⟩ := indexOf_eq_some hindex
  have hcut : s = s.take i ++ "/dists/".toList ++ b₀ := by
    rw [List.append_assoc, hb₀, List.take_append_drop]
  have hlen : i ≤ s.length := by
    have : a.length ≤ s.length := by rw [h]; simp
    omega
  refine ⟨s.take i, b₀, hcut, by rw [List.length_take]; omega, ?_⟩
  rw [repoRootFromSuitePath, hindex, Option.map_some]
  have htake : s.take (i + 1) = s.take i ++ ['/'] := by
    rw [List.take_add, ← hb₀]
    rfl
  rw [htake]

/-- The root that the builders use is at or above the suite's repository, and is the repository
exactly if no segment of it is `dists`. -/
theorem repoRoot_eq_iff (hr : r = [] ∨ r.head? = some '/') (hc : '/' ∉ c) :
    ∃ a b, r ++ "/dists/".toList ++ c = a ++ "/dists/".toList ++ b ∧
      repoRootFromSuitePath (r ++ "/dists/".toList ++ c) = some (a ++ ['/']) ∧
      (a = r ↔ "dists".toList ∉ segments r) := by
  obtain ⟨a, b, hcut, hle, hroot⟩ := repoRoot_of_occurrence (rfl : r ++ "/dists/".toList ++ c = _)
  have hsegs : ∀ x y : Str, segments (x ++ "/dists/".toList ++ y) =
      segments x ++ "dists".toList :: segments y := by
    intro x y
    have : x ++ "/dists/".toList ++ y = x ++ '/' :: ("dists".toList ++ '/' :: y) := by simp
    rw [this, segments_append, segments_append]
    rfl
  have hcsegs : segments c = [c] := by
    have := segments_join (List.cons_ne_nil c []) (by simpa using hc)
    simpa [join, List.intercalate] using this
  refine ⟨a, b, hcut, hroot, ?_⟩
  constructor
  · rintro rfl hmem
    -- the repository is rooted, so the segment stands behind a slash and before the suite's own
    rcases hr with rfl | hr
    · exact absurd hmem (by decide)
    · obtain ⟨rest, rfl⟩ : ∃ rest, a = '/' :: rest := by
        cases a with
        | nil => cases hr
        | cons x rest => exact ⟨rest, by rw [Option.some.inj hr]⟩
      rw [segments_rooted] at hmem
      obtain ⟨l₁, l₂, hl⟩ := List.append_of_mem ((List.mem_cons.mp hmem).resolve_left (by decide))
      have hearlier : '/' :: rest = join ([] :: l₁) ++ '/' :: join ("dists".toList :: l₂) := by
        rw [← join_append (List.cons_ne_nil _ _) (List.cons_ne_nil _ _), ← join_segments ('/' :: rest),
          segments_rooted, hl]
        rfl
      obtain ⟨t, ht⟩ : ∃ t, join ("dists".toList :: l₂) ++ "/dists/".toList ++ c =
          "dists/".toList ++ t := by
        cases l₂ with
        | nil => exact ⟨"dists/".toList ++ c, rfl⟩
        | cons x l₂ => exact ⟨join (x :: l₂) ++ "/dists/".toList ++ c, by rw [join_cons_cons]; simp⟩
      have hfirst : '/' :: rest ++ "/dists/".toList ++ c = join ([] :: l₁) ++ "/dists/".toList ++ t := by
        rw [hearlier, List.append_assoc, List.append_assoc, List.cons_append, ← List.append_assoc _ _ c,
          ht]
        simp
      obtain ⟨a₀, b₀, -, hle₀, hroot₀⟩ := repoRoot_of_occurrence hfirst
      rw [hroot] at hroot₀
      have hsame : '/' :: rest = a₀ := List.append_cancel_right (Option.some.inj hroot₀)
      have hlen := congrArg List.length hearlier
      rw [hsame] at hlen
      simp only [List.length_append, List.length_cons] at hlen
      omega
  · intro hno
    have heq := congrArg segments hcut
    rw [hsegs, hsegs, hcsegs] at heq
    have hb := segments_ne_nil b
    have hequal : segments a = segments r := by
      rcases List.append_eq_append_iff.mp heq with ⟨l, hl, hrest⟩ | ⟨l, hl, hrest⟩
      · cases l with
        | nil => rw [hl, List.append_nil]
        | cons x l =>
          -- the suite's own `dists` is followed by its name only
          have hlen := congrArg List.length hrest
          simp only [List.length_cons, List.length_append, List.length_nil] at hlen
          have := List.length_pos_iff.mpr hb
          omega
      · cases l with
        | nil => rw [hl, List.append_nil]
        | cons x l =>
          obtain ⟨rfl, -⟩ := List.cons.inj hrest
          exact absurd (hl ▸ List.mem_append_right _ List.mem_cons_self) hno
    rw [← join_segments a, hequal, join_segments]

/-! ## What the lookup finds -/

/-- The snapshot is the suite's current one, signed, and its rows are stored. -/
structure Serves (db : Db) (suite : SuiteKey) (id : Nat) (rows : List PackageHash) : Prop where
  snapshot : ∃ s ∈ db.snapshots, s.id = id ∧ s.key = suite ∧ (s.form = .inline ∨ s.form = .detached)
  current : ∃ r ∈ db.suites, r.key = suite ∧ r.current = some id
  stored : ∀ row ∈ rows, { row with snapshotId := id } ∈ db.packageHashes

theorem declared_of_serves {db : Db} (h : Serves db suite id rows) {row : PackageHash}
    (hrow : row ∈ rows) :
    ∃ d ∈ db.declaredHashes row.url, d.declared = row.declared := by
  obtain ⟨s, hs, hid, hkey, hform⟩ := h.snapshot
  obtain ⟨r, hr, hrkey, hcur⟩ := h.current
  refine ⟨⟨row.declared, s.id, row.packageName, s.key.suitePath⟩, mem_declaredHashes.mpr (.inl ?_), rfl⟩
  exact ⟨_, h.stored row hrow, rfl, s, hs, r, hr, hid, hform, hrkey.trans hkey.symm, by rw [hcur, hid], rfl⟩

theorem RowsAt.declared {must listed : Str → Str → Prop} (h : RowsAt suite root must listed rows)
    {db : Db} (hdb : Serves db suite id rows) {f x : Str} (hf : must f x) :
    ∃ d ∈ db.declaredHashes ⟨suite.scheme, suite.host, root ++ '/' :: f⟩, d.declared = x := by
  obtain ⟨row, hrow, hurl, rfl⟩ := h.1 f x hf
  rw [← hurl]
  exact declared_of_serves hdb hrow

/-! ## The suite's repository -/

theorem suitePath_rooted (p : Str) : suitePath p = [] ∨ (suitePath p).head? = some '/' := by
  by_cases h : suitePath p = []
  · exact .inl h
  · obtain ⟨dir, -, -, -, hs | hs⟩ := wellFormed_suitePath p h <;> exact .inr (by rw [hs]; rfl)

theorem repository_rooted (hs : suitePath p = r ++ "/dists/".toList ++ c) :
    r = [] ∨ r.head? = some '/' := by
  cases r with
  | nil => exact .inl rfl
  | cons x r =>
    rcases suitePath_rooted p with h | h
    · rw [hs] at h
      cases h
    · rw [hs] at h
      exact .inr h

theorem not_flat : isFlatSuitePath (r ++ "/dists/".toList ++ c) = false := by
  have hcut : r ++ "/dists/".toList ++ c = r ++ '/' :: ("dists".toList ++ '/' :: c) := by simp
  have hmem : "dists".toList ∈ segments (r ++ "/dists/".toList ++ c) := by
    rw [hcut, segments_append, segments_append]
    exact List.mem_append_right _ (List.mem_append_left _ (by decide))
  rw [isFlatSuitePath, hasDistsSegment, List.contains_iff_mem.mpr hmem, Bool.not_true, Bool.and_false]

/-- An index file that declares one package. -/
def onePackage (ref : PackageRef) : Indexes Unit where
  readPackagesBlob _ _ := some ()
  parsePackages _ := some ([ref], [])
  parseSources _ := none
  parsePdiffIndex _ := none

/-- A Packages member. -/
def packagesMember : ReleaseMember := ⟨"main/binary-amd64/Packages".toList, digest 'c', [], 10⟩

/-- A complete stanza. -/
def debRef : PackageRef :=
  ⟨"pool/x.deb".toList, digest 'b', "x".toList, "amd64".toList, "1".toList⟩

theorem build_onePackage (suite : SuiteKey) (id : Nat)
    (hflat : isFlatSuitePath suite.suitePath = false)
    (hroot : repoRootFromSuitePath suite.suitePath = some root) :
    buildPackageHashes (onePackage debRef) suite id .inline [packagesMember] [packagesMember] =
      .ok ([packageRow suite id false root (root ++ "pool/x.deb".toList)
        ⟨digest 'b', "x".toList, "amd64".toList, "1".toList⟩], true) := by
  simp only [buildPackageHashes, rowsRoot, hflat, hroot]
  rfl

theorem listsPackage_onePackage {f x : Str}
    (h : (onePackage debRef).ListsPackage [packagesMember] f x) : f = "pool/x.deb".toList := by
  obtain ⟨ref, href, rfl, -⟩ := h
  have : ref ∈ [debRef] := href
  rw [List.mem_singleton.mp this]
  rfl

/-- Packages and sources are vouched at the suite's own repository exactly if no segment of the
repository is `dists`. -/
theorem vouched_at_repository_iff {p r c : Str} (scheme : Scheme) (host : Str)
    (hs : suitePath p = r ++ "/dists/".toList ++ c) (hc : '/' ∉ c) :
    (∀ (B : Type) (ix : Indexes B) (id : Nat) (form : AnchorForm) (all fetched : List ReleaseMember)
        (rows sourceRows : List PackageHash) (coverage : Bool) (n : Nat), form ≠ .unsigned →
      buildPackageHashes ix ⟨scheme, host, suitePath p⟩ id form all fetched = .ok (rows, coverage) →
      buildSourceHashes ix ⟨scheme, host, suitePath p⟩ id fetched = .ok (sourceRows, n) →
      RowsAt ⟨scheme, host, suitePath p⟩ r (ix.ListsComplete fetched) (ix.ListsPackage fetched) rows ∧
      RowsAt ⟨scheme, host, suitePath p⟩ r (ix.ListsOnly fetched) (ix.ListsSource fetched) sourceRows ∧
      ∀ db, Serves db ⟨scheme, host, suitePath p⟩ id rows → ∀ f x, ix.ListsComplete fetched f x →
        ∃ d ∈ db.declaredHashes ⟨scheme, host, r ++ '/' :: f⟩, d.declared = x) ↔
    "dists".toList ∉ segments r := by
  obtain ⟨a, b, -, hroot, hiff⟩ := repoRoot_eq_iff (repository_rooted hs) hc
  rw [← hs] at hroot
  have hflat : isFlatSuitePath (suitePath p) = false := by
    rw [hs]
    exact not_flat
  constructor
  · intro h
    have hpkg := build_onePackage ⟨scheme, host, suitePath p⟩ 1 hflat hroot
    have hsrc : buildSourceHashes (onePackage debRef) ⟨scheme, host, suitePath p⟩ 1 [packagesMember] =
        .ok ([], 0) := by
      simp only [buildSourceHashes, hroot]
      rfl
    obtain ⟨hrows, -⟩ := h Unit _ 1 .inline _ _ _ _ _ _ (by decide) hpkg hsrc
    -- the one row is below the builders' root, and so it is where the suite's repository wants it
    -- only if the two are the same
    obtain ⟨f, x, hf, hurl, -⟩ := hrows.2 _ List.mem_cons_self
    rw [listsPackage_onePackage hf] at hurl
    have hpath : a ++ ['/'] ++ "pool/x.deb".toList = r ++ '/' :: "pool/x.deb".toList :=
      congrArg UrlKey.path hurl
    rw [List.append_assoc] at hpath
    exact hiff.mp (List.append_cancel_right hpath)
  · intro hno B ix id form all fetched rows sourceRows coverage n hform hpkg hsrc
    obtain rfl := hiff.mpr hno
    have hrows := packages_rowsAt hform hflat hroot hpkg
    exact ⟨hrows, sources_rowsAt hroot hsrc, fun db hdb f x hf => hrows.declared hdb hf⟩

/-- The suite of a repository without a segment `dists`. -/
def bookworm : SuiteKey := ⟨.http, "deb".toList, "/debian/dists/bookworm".toList⟩

theorem vouched_at_repository_bookworm :
    suitePath "/debian/dists/bookworm/InRelease".toList = bookworm.suitePath ∧
    RowsAt bookworm "/debian".toList ((onePackage debRef).ListsComplete [packagesMember])
      ((onePackage debRef).ListsPackage [packagesMember])
      [packageRow bookworm 1 false "/debian/".toList "/debian/pool/x.deb".toList
        ⟨digest 'b', "x".toList, "amd64".toList, "1".toList⟩] := by
  have hs : suitePath "/debian/dists/bookworm/InRelease".toList =
      "/debian".toList ++ "/dists/".toList ++ "bookworm".toList := by decide +kernel
  have hpkg : buildPackageHashes (onePackage debRef)
      ⟨.http, "deb".toList, suitePath "/debian/dists/bookworm/InRelease".toList⟩ 1 .inline
      [packagesMember] [packagesMember] = .ok ([packageRow bookworm 1 false "/debian/".toList
        "/debian/pool/x.deb".toList ⟨digest 'b', "x".toList, "amd64".toList, "1".toList⟩], true) := by
    rw [hs]
    exact build_onePackage bookworm 1 (by decide +kernel) (by decide +kernel)
  have hsrc : buildSourceHashes (onePackage debRef)
      ⟨.http, "deb".toList, suitePath "/debian/dists/bookworm/InRelease".toList⟩ 1 [packagesMember] =
        .ok ([], 0) := by
    rw [hs]
    rfl
  have h := (vouched_at_repository_iff .http "deb".toList hs (by decide)).mpr (by decide +kernel)
  have hrows := (h Unit _ 1 .inline _ _ _ _ _ _ (by decide) hpkg hsrc).1
  rw [hs] at hrows
  exact ⟨hs, hrows⟩

/-- A suite whose repository has a segment `dists`. -/
def nested : SuiteKey := ⟨.http, "deb".toList, "/a/dists/b/dists/c".toList⟩

/-- The rows of its Packages index. -/
def nestedRows : List PackageHash :=
  match buildPackageHashes (onePackage debRef) nested 1 .inline [packagesMember] [packagesMember] with
  | .ok built => built.1
  | .error _ => []

/-- A snapshot of the suite is adopted with the rows, with complete coverage. -/
def nestedRun : List Op :=
  [.putBlob (digest 'a') 10 1, .putBlob (digest 'c') 10 1, .createSuite ⟨nested, 2, 0, []⟩ ⟨0, 0⟩ none 2,
    .insertCandidateSnapshot ⟨nested, some (digest 'a'), none, none, none, false⟩ 3,
    .commitAdoption 1 [⟨1, packagesMember.path, digest 'c', digest 'c'⟩] [] nestedRows [] true 4 4]

/-- The database after `nestedRun`. -/
def nestedDb : Db := (sys.exec Db.empty nestedRun).getD Db.empty

/-- The package's row is below the outer repository: nothing vouches for the path that the suite's
index lists, while the host's coverage is complete. -/
theorem nested_unvouched :
    suitePath "/a/dists/b/dists/c/InRelease".toList = nested.suitePath ∧ sys.Reach nestedDb ∧
    (onePackage debRef).packageRefs [packagesMember] = [debRef] ∧
    nestedRows.map (fun row => row.url.path) = ["/a/pool/x.deb".toList] ∧
    nestedDb.hostCoverage .http "deb".toList = [(1, true)] ∧
    nestedDb.declaredHashes ⟨.http, "deb".toList, "/a/dists/b/pool/x.deb".toList⟩ = [] := by
  refine ⟨by decide +kernel, .exec rfl (eq_some_getD _ (by decide +kernel)), rfl, ?_, ?_, ?_⟩ <;>
    decide +kernel

/-! ## Patches -/

/-- The patches of pdiff indexes are vouched below the suite exactly if the indexes list none. -/
theorem patches_vouched_iff {ix : Indexes B} {suite : SuiteKey} {id : Nat} {fetched : List ReleaseMember}
    {rows : List PackageHash} {n : Nat} {r c : Str}
    (hs : suite.suitePath = r ++ "/dists/".toList ++ c)
    (h : buildPdiffHashes ix suite id fetched = .ok (rows, n)) :
    (RowsAt suite suite.suitePath (fun f x => (f, x) ∈ ix.listedPatches fetched)
        (fun f x => (f, x) ∈ ix.listedPatches fetched) rows ∧
      ∀ db, Serves db suite id rows → ∀ f x, (f, x) ∈ ix.listedPatches fetched →
        ∃ d ∈ db.declaredHashes ⟨suite.scheme, suite.host, suite.suitePath ++ '/' :: f⟩, d.declared = x) ↔
    ix.listedPatches fetched = [] := by
  obtain ⟨a, b, hcut, -, hroot⟩ := repoRoot_of_occurrence hs
  constructor
  · rintro ⟨hrows, -⟩
    -- the row of the longest patch would be one of a longer patch below the builder's root
    by_contra hne
    obtain ⟨y, hy⟩ := Option.ne_none_iff_exists'.mp
      (fun hnone => hne ((List.argmax_eq_none (f := fun y : Str × Str => y.1.length)).mp hnone))
    have hmem := List.argmax_mem hy
    obtain ⟨row, hrow, hurl, -⟩ := hrows.1 y.1 y.2 hmem
    obtain ⟨y', hy', hurl', -⟩ := exists_patch_of_row hroot h hrow
    have hpath : suite.suitePath ++ '/' :: y.1 = a ++ '/' :: y'.1 :=
      congrArg UrlKey.path (hurl.symm.trans hurl')
    have hlen := congrArg List.length hpath
    have hle : y'.1.length ≤ y.1.length :=
      List.le_of_mem_argmax (f := fun y : Str × Str => y.1.length) hy' hy
    rw [hcut] at hlen
    simp only [List.length_append, List.length_cons] at hlen
    have : "/dists/".toList.length = 7 := rfl
    omega
  · intro hnil
    have hnone : rows = [] := by
      rw [List.eq_nil_iff_forall_not_mem]
      intro row hrow
      obtain ⟨y, hy, -⟩ := exists_patch_of_row hroot h hrow
      rw [hnil] at hy
      cases hy
    rw [hnil, hnone]
    exact ⟨⟨fun f x hf => (List.not_mem_nil hf).elim, fun row hrow => (List.not_mem_nil hrow).elim⟩,
      fun db _ f x hf => (List.not_mem_nil hf).elim⟩

/-- A pdiff index that lists one patch. -/
def onePatch : Indexes Unit where
  readPackagesBlob _ _ := some ()
  parsePackages _ := none
  parseSources _ := none
  parsePdiffIndex _ := some [⟨"2026-05-09-1234.56.gz".toList, digest 'b'⟩]

/-- A pdiff index member. -/
def pdiffMember : ReleaseMember := ⟨"main/binary-amd64/Packages.diff/Index".toList, digest 'c', [], 10⟩

/-- The rows of the index. -/
def patchRows : List PackageHash :=
  match buildPdiffHashes onePatch bookworm 1 [pdiffMember] with
  | .ok built => built.1
  | .error _ => []

/-- The same index without a patch. -/
def noPatch : Indexes Unit := { onePatch with parsePdiffIndex := fun _ => some [] }

/-- For an index without a patch there is nothing to vouch for; with one the rows are in the wrong
place. -/
theorem patches_vouched_bookworm :
    RowsAt bookworm bookworm.suitePath (fun f x => (f, x) ∈ noPatch.listedPatches [pdiffMember])
      (fun f x => (f, x) ∈ noPatch.listedPatches [pdiffMember]) [] ∧
    ¬ (RowsAt bookworm bookworm.suitePath (fun f x => (f, x) ∈ onePatch.listedPatches [pdiffMember])
        (fun f x => (f, x) ∈ onePatch.listedPatches [pdiffMember]) patchRows ∧
      ∀ db, Serves db bookworm 1 patchRows → ∀ f x, (f, x) ∈ onePatch.listedPatches [pdiffMember] →
        ∃ d ∈ db.declaredHashes ⟨bookworm.scheme, bookworm.host, bookworm.suitePath ++ '/' :: f⟩,
          d.declared = x) := by
  have hs : bookworm.suitePath = "/debian".toList ++ "/dists/".toList ++ "bookworm".toList := by decide
  have hnone : buildPdiffHashes noPatch bookworm 1 [pdiffMember] = .ok ([], 1) := by decide +kernel
  have hone : buildPdiffHashes onePatch bookworm 1 [pdiffMember] = .ok (patchRows, 1) := by
    decide +kernel
  exact ⟨((patches_vouched_iff hs hnone).mpr (by decide +kernel)).1,
    mt (patches_vouched_iff hs hone).mp (by decide +kernel)⟩

/-- A snapshot of the suite is adopted with the rows. -/
def patchRun : List Op :=
  [.putBlob (digest 'a') 10 1, .putBlob (digest 'c') 10 1, .createSuite ⟨bookworm, 2, 0, []⟩ ⟨0, 0⟩ none 2,
    .insertCandidateSnapshot ⟨bookworm, some (digest 'a'), none, none, none, false⟩ 3,
    .commitAdoption 1 [⟨1, pdiffMember.path, digest 'c', digest 'c'⟩] [] patchRows [] true 4 4]

/-- The database after `patchRun`. -/
def patchDb : Db := (sys.exec Db.empty patchRun).getD Db.empty

/-- The patch's row is below the repository and not below the suite, where the index is. -/
theorem patch_unvouched :
    onePatch.listedPatches [pdiffMember] =
      [("main/binary-amd64/Packages.diff/2026-05-09-1234.56.gz".toList, digest 'b')] ∧
    patchRows.map (fun row => row.url.path) =
      ["/debian/main/binary-amd64/Packages.diff/2026-05-09-1234.56.gz".toList] ∧ sys.Reach patchDb ∧
    (patchDb.suites.find bookworm).bind Suite.current = some 1 ∧
    patchDb.declaredHashes ⟨.http, "deb".toList, bookworm.suitePath ++
      "/main/binary-amd64/Packages.diff/2026-05-09-1234.56.gz".toList⟩ = [] := by
  refine ⟨?_, ?_, .exec rfl (eq_some_getD _ (by decide +kernel)), ?_, ?_⟩ <;> decide +kernel

end AptCacher.Freshness
