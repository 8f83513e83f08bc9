import AptCacher.Cache.Retention
import AptCacher.Cache.Pointer
import AptCacher.Spec.Sweep

/-!
# The hot set and retention

Before an adoption commits, `ComputeHotSet` picks the packages to prefetch: the rows of the
candidate whose package was requested lately in the prior snapshot, capped to the newest versions.
After the commit `url_path` GC ranks the versions of the stored rows.

* `computeHotSet`: the two stages.
* `commitAdoption_packages`: the package rows and the pointer after the commit.
* `prefetch_retention`: the two agree if the comparison of versions is a strict linear order on the
  versions of every hot package, as it is on strings without a NUL byte.
-/

namespace AptCacher.Cache

open Spec Table Ranking

/-! ## The hot set -/

structure HotSetEntry where
  path : Str
  declared : Str
  deriving DecidableEq

/-- `ErrHotSetCandidateMismatch`. -/
inductive HotSetErr
  | candidateMismatch
  deriving DecidableEq

/-- A package and an architecture. -/
abbrev PkgArch := Str × Str

/-- The order of `(package_name, architecture)`. -/
def PkgArch.before (a b : PkgArch) : Bool := a.1 < b.1 || (a.1 = b.1 && a.2 < b.2)

/-- Stage 1: the packages of the prior snapshot that were requested since `hotSince`. -/
def Db.hotPairs (db : Db) (prior : Nat) (hotSince : Int) : List PkgArch :=
  inOrder PkgArch.before id ((db.packageHashes.select fun p =>
    p.snapshotId == prior && p.packageName != [] && p.architecture != [] &&
      (db.urlPaths.find p.url).any fun u => u.lastRequestedAt.any (hotSince ≤ ·)).map
    fun p => (p.packageName, p.architecture)).dedup

/-- The pairs that `ComputeHotSet` looks at: none without a prior snapshot or a window. -/
def Db.hotPairsOf (db : Db) (prior : Nat) (hotWindow now : Int) : List PkgArch :=
  if prior = 0 ∨ hotWindow = 0 then [] else db.hotPairs prior (now - hotWindow)

/-- The row is one of the pair. -/
def PackageHash.isOf (pair : PkgArch) (p : PackageHash) : Bool :=
  p.packageName != [] && p.architecture != [] && (p.packageName, p.architecture) == pair

variable {pair : PkgArch} {p : PackageHash} {sort : SortSlice Str}
  {sortRows : SortSlice PackageHash} {rows : List PackageHash}

theorem PackageHash.isOf_eq (hname : pair.1 ≠ []) (harch : pair.2 ≠ []) (p : PackageHash) :
    p.isOf pair = (p.packageName == pair.1 && p.architecture == pair.2) := by
  rw [Bool.eq_iff_iff]
  simp only [PackageHash.isOf, Bool.and_eq_true, bne_iff_ne, beq_iff_eq, Prod.ext_iff]
  constructor
  · exact fun h => h.2
  · rintro ⟨h₁, h₂⟩
    exact ⟨⟨h₁ ▸ hname, h₂ ▸ harch⟩, h₁, h₂⟩

/-- The rows of a pair in the order of their paths. -/
def hotMatches (sortRows : SortSlice PackageHash) (rows : List PackageHash) (pair : PkgArch) :
    List PackageHash :=
  let found := rows.filter (PackageHash.isOf pair)
  if 1 < found.length then sortRows (fun p q => p.url.path < q.url.path) found else found

/-- The versions of some rows. -/
def versionsIn (rows : List PackageHash) : List Str :=
  (rows.map PackageHash.version).filter (· ≠ [])

/-- Stage 2 for a pair: the rows without a version, and those of the newest versions. -/
def hotEntries (sort : SortSlice Str) (sortRows : SortSlice PackageHash) (rows : List PackageHash)
    (maxVersions : Int) (pair : PkgArch) : List HotSetEntry :=
  let found := hotMatches sortRows rows pair
  let keep := keepNewestNVersionSet sort (versionsIn found) maxVersions
  (found.filter fun p => p.version == [] || keep.contains p.version).map fun p =>
    ⟨p.url.path, p.declared⟩

def computeHotSet (sort : SortSlice Str) (sortRows : SortSlice PackageHash) (db : Db)
    (scheme : Scheme) (host : Str) (prior candidate : Nat) (rows : List PackageHash)
    (hotWindow now maxVersions : Int) : Except HotSetErr (List HotSetEntry) :=
  let pairs := db.hotPairsOf prior hotWindow now
  if pairs = [] then .ok []
  else if rows.all (fun p => p.url.scheme == scheme && p.url.host == host &&
      p.snapshotId == candidate) then
    .ok (pairs.flatMap (hotEntries sort sortRows rows maxVersions))
  else .error .candidateMismatch

/-! ## The commit -/

section Commit

variable {db : Db}

/-- The rows of the candidate come before those that were there, and declare hashes. -/
theorem commitPackageHashes_packages (id : Nat) (rows : List PackageHash) :
    Tx.Post (commitPackageHashes id rows) db fun _ db' => db'.packageHashes.rows =
        (rows.map fun p => { p with snapshotId := id }).reverse ++ db.packageHashes.rows ∧
      ∀ p ∈ rows, validBlobHash p.declared = true := by
  induction rows generalizing db with
  | nil => exact Tx.post_pure.mpr ⟨rfl, fun _ h => absurd h List.not_mem_nil⟩
  | cons p rows ih =>
    show Tx.Post ((do
      Tx.ensure (validBlobHash p.declared = true) .invalidHash
      let db ← get
      let rows ← Tx.getOr (db.packageHashes.insert? { p with snapshotId := id }) .constraint
      modify fun db => { db with packageHashes := rows }) >>=
        fun _ => commitPackageHashes id rows) db _
    refine Tx.post_bind.mpr (Tx.post_bind.mpr (Tx.post_ensure.mpr fun hvalid => ?_))
    refine Tx.post_bind.mpr (Tx.post_get.mpr (Tx.post_bind.mpr (Tx.post_getOr.mpr fun t ht => ?_)))
    refine Tx.post_modify.mpr (ih.mono fun _ db' h => ⟨?_, List.forall_mem_cons.mpr ⟨hvalid, h.2⟩⟩)
    rw [h.1, (insert?_eq_some.mp ht).2]
    simp

/-- The package rows are the same, and the suite points at the snapshot. -/
def Points (db : Db) (s : Snapshot) (db' : Db) : Prop :=
  db'.packageHashes = db.packageHashes ∧ ∃ r ∈ db'.suites, r.key = s.key ∧ r.current = some s.id

theorem Points.frame {W : Tab → Bool} {s : Snapshot} {db₁ db₂ : Db} (h : Points db s db₁)
    (hframe : Frame W db₁ db₂) (hp : W .packageHashes = false) (hs : W .suites = false) :
    Points db s db₂ := by
  have hsuites : db₂.suites = db₁.suites := (Prod.mk.inj (hframe .suites hs)).1
  have hpackages : db₂.packageHashes = db₁.packageHashes := hframe .packageHashes hp
  exact ⟨hpackages.trans h.1, hsuites ▸ h.2⟩

theorem flipPointer_points (s : Snapshot) (stamp now : Int) :
    Tx.Post (flipPointer s stamp now) db fun _ db' => Points db s db' := by
  refine Tx.post_bind.mpr (Tx.post_modify.mpr (Tx.post_bind.mpr (Tx.post_get.mpr ?_)))
  refine Tx.post_bind.mpr (Tx.post_getOr.mpr fun r hr => ?_)
  obtain ⟨hmem, hkey⟩ := find_eq_some.mp hr
  refine Tx.post_bind.mpr (Tx.post_modify.mpr (Tx.post_bind.mpr (Tx.post_modify.mpr ?_)))
  have mark : Tx.Within (Frame (· == .markers)) (Tx.onlyIf (s.form = .inline ∨ s.form = .detached)
      (markSignedSeen s.key.mark now)) := .onlyIf fun _ => .marks (markSignedSeen_within _ _) rfl
  refine Tx.post_bind.mpr ((mark _).mono fun _ db₁ h₁ => ?_)
  have hpoints : Points db s db₁ := by
    refine Points.frame ?_ h₁ rfl rfl
    exact ⟨rfl, _, mem_updateAt.mpr (.inr ⟨r, hmem, hkey, rfl⟩), hkey, rfl⟩
  cases r.current with
  | none => exact Tx.post_pure.mpr hpoints
  | some prior =>
    exact Tx.post_modify.mpr (hpoints.frame (W := (· == .blobs)) (.blobs rfl) rfl rfl)

theorem commitAdoption_packages (id : Nat) (members : List Member) (skipped : List Skipped)
    (rows : List PackageHash) (prefetched : List (UrlKey × Str)) (coverage : Bool)
    (skipNow now : Int) {s : Snapshot} (hs : db.snapshots.find id = some s) :
    Tx.Post (commitAdoption id members skipped rows prefetched coverage skipNow now) db
      fun _ db' => (db'.packageHashes.rows =
          (rows.map fun p => { p with snapshotId := id }).reverse ++ db.packageHashes.rows ∧
        ∀ p ∈ rows, validBlobHash p.declared = true) ∧
        ∃ r ∈ db'.suites, r.key = s.key ∧ r.current = some id := by
  obtain ⟨-, hid⟩ := find_eq_some.mp hs
  refine Tx.post_bind.mpr (Tx.post_get.mpr (Tx.post_bind.mpr (Tx.post_getOr.mpr fun s' hs' => ?_)))
  obtain rfl : s = s' := Option.some.inj (hs.symm.trans hs')
  have refuse : Tx.Within (Frame (· != .packageHashes)) (Tx.onlyIf (s.form = .unsigned)
      (refuseUnsignedDowngrade s.key.host s.key.suitePath)) :=
    .onlyIf fun _ => .keep (refuseUnsignedDowngrade_keep _ _)
  have members : Tx.Within (Frame (· != .packageHashes)) (commitMembers id members) :=
    .of_prepares (commitMembers_stmts rfl fun _ _ => trivial)
  have skips : Tx.Within (Frame (· != .packageHashes)) (commitSkipped id skipped skipNow) :=
    .of_prepares (commitSkipped_stmts _ _ _ rfl)
  have warm : Tx.Within (Frame (· != .packageHashes)) (commitPrefetched prefetched now) :=
    .of_prepares (commitPrefetched_stmts rfl fun _ _ => trivial)
  have seeds : Tx.Within (Frame (· != .packageHashes)) (seedAnchors s now) :=
    .of_prepares (seedAnchors_stmts rfl fun _ _ _ _ => trivial)
  refine Tx.post_bind.mpr (Tx.post_ensure.mpr fun _ => ?_)
  refine Tx.post_bind.mpr (Tx.post_ensure.mpr fun _ => ?_)
  refine Tx.post_bind.mpr ((refuse _).mono fun _ db₁ h₁ => ?_)
  refine Tx.post_bind.mpr ((members _).mono fun _ db₂ h₂ => ?_)
  refine Tx.post_bind.mpr ((skips _).mono fun _ db₃ h₃ => ?_)
  have hbefore : db₃.packageHashes = db.packageHashes :=
    (IsTrans.trans _ _ _ (IsTrans.trans _ _ _ h₁ h₂) h₃ : Frame _ db db₃) .packageHashes rfl
  refine Tx.post_bind.mpr ((commitPackageHashes_packages id rows).mono fun _ db₄ h₄ => ?_)
  refine Tx.post_bind.mpr (Tx.post_get.mpr ?_)
  refine Tx.post_bind.mpr ((warm _).mono fun _ db₅ h₅ => ?_)
  refine Tx.post_bind.mpr (Tx.post_modify.mpr ?_)
  refine Tx.post_bind.mpr ((seeds _).mono fun _ db₆ h₆ => ?_)
  refine (flipPointer_points s _ now).mono fun _ db₇ h₇ => ?_
  have hafter : db₆.packageHashes = db₄.packageHashes :=
    Eq.trans (h₆ .packageHashes rfl) (h₅ .packageHashes rfl)
  rw [← hid]
  exact ⟨⟨by rw [h₇.1, hafter, h₄.1, hbefore, hid], h₄.2⟩, h₇.2⟩

end Commit

/-! ## The stored rows -/

/-- The rows of the candidate are stored, and its suite points at it. -/
structure Installed (db : Db) (key : SuiteKey) (id : Nat) (rows : List PackageHash) : Prop where
  pointers : Pointers db
  current : ∃ r ∈ db.suites, r.key = key ∧ r.current = some id
  stored : ∃ old, db.packageHashes.rows =
    (rows.map fun p => { p with snapshotId := id }).reverse ++ old ∧ ∀ q ∈ old, q.snapshotId ≠ id
  valid : ∀ p ∈ rows, validBlobHash p.declared = true

/-- The versions of a pair as the query reads them: in the order in which the rows were stored. -/
def storedVersions (rows : List PackageHash) (pair : PkgArch) : List Str :=
  versionsIn (rows.filter (PackageHash.isOf pair))

namespace Installed

variable {db : Db} {key : SuiteKey} {id : Nat} {rows : List PackageHash}

theorem isCurrent (h : Installed db key id rows) : db.isCurrent id = true := by
  obtain ⟨r, hr, -, hc⟩ := h.current
  exact any_iff.mpr ⟨r, hr, by rw [hc]; exact beq_self_eq_true _⟩

theorem snapshot (h : Installed db key id rows) : ∃ s ∈ db.snapshots, s.id = id ∧ s.key = key := by
  obtain ⟨r, hr, hk, hc⟩ := h.current
  obtain ⟨s, hs, hid, hkey, -⟩ := h.pointers.current r hr id hc
  exact ⟨s, hs, hid, hkey.trans hk⟩

/-- The current snapshot of the suite is the candidate. -/
theorem only (h : Installed db key id rows) {s : Snapshot} (hs : s ∈ db.snapshots)
    (hk : s.key = key) (hc : db.isCurrent s.id = true) : s.id = id := by
  obtain ⟨r, hr, hrk, hrc⟩ := h.current
  obtain ⟨r', hr', hc'⟩ := any_iff.mp hc
  obtain ⟨s', hs', hid', hkey', -⟩ := h.pointers.current r' hr' s.id (beq_iff_eq.mp hc')
  obtain rfl : s' = s := eq_of_key hs' hs hid'
  obtain rfl : r' = r := eq_of_key hr' hr (hkey'.symm.trans (hk.trans hrk.symm))
  exact Option.some.inj ((beq_iff_eq.mp hc').symm.trans hrc)

theorem mem_iff (h : Installed db key id rows) {q : PackageHash} :
    q ∈ db.packageHashes ∧ q.snapshotId = id ↔ ∃ p ∈ rows, q = { p with snapshotId := id } := by
  obtain ⟨old, hrows, hold⟩ := h.stored
  rw [mem_def, hrows, List.mem_append, List.mem_reverse, List.mem_map]
  constructor
  · rintro ⟨⟨p, hp, rfl⟩ | hq, hid⟩
    · exact ⟨p, hp, rfl⟩
    · exact absurd hid (hold q hq)
  · rintro ⟨p, hp, rfl⟩
    exact ⟨.inl ⟨p, hp, rfl⟩, rfl⟩

variable {p : PackageHash} {pair : PkgArch}

theorem eq_of_url (h : Installed db key id rows) {q : PackageHash} (hp : p ∈ rows) (hq : q ∈ rows)
    (hurl : p.url = q.url) :
    { p with snapshotId := id } = { q with snapshotId := id } :=
  eq_of_key (t := db.packageHashes) (h.mem_iff.mpr ⟨p, hp, rfl⟩).1 (h.mem_iff.mpr ⟨q, hq, rfl⟩).1
    (congrArg (·, id) hurl)

theorem versionsOf (h : Installed db key id rows)
    (hat : ∀ p ∈ rows, p.url.scheme = key.scheme ∧ p.url.host = key.host) (hname : pair.1 ≠ [])
    (harch : pair.2 ≠ []) :
    db.versionsOf ⟨key.scheme, key.host, key.suitePath, pair.1, pair.2⟩ =
      distinct (storedVersions rows pair) := by
  obtain ⟨old, hrows, hold⟩ := h.stored
  refine congrArg distinct ?_
  rw [storedVersions, versionsIn, select, hrows, List.filter_append, List.filter_reverse,
    List.filter_map, List.filter_map, List.filter_filter]
  -- no other row is of a current snapshot of the suite
  have hnone : (old.filter fun p => db.snapshots.any (fun s => s.id == p.snapshotId &&
      s.key == ⟨key.scheme, key.host, key.suitePath⟩) && p.url.scheme == key.scheme &&
      p.url.host == key.host && p.packageName == pair.1 && p.architecture == pair.2 &&
      p.version != [] && db.isCurrent p.snapshotId) = [] := by
    refine List.filter_eq_nil_iff.mpr fun q hq hpred => hold q hq ?_
    simp only [Bool.and_eq_true, any_iff, beq_iff_eq] at hpred
    obtain ⟨⟨⟨⟨⟨⟨⟨s, hs, hid, hk⟩, -⟩, -⟩, -⟩, -⟩, -⟩, hc⟩ := hpred
    rw [← hid]
    exact h.only hs hk (hid ▸ hc)
  rw [hnone, List.append_nil, List.reverse_reverse, List.map_map]
  refine congrArg (List.map _) (List.filter_congr fun p hp => ?_)
  obtain ⟨s, hs, hid, hk⟩ := h.snapshot
  obtain ⟨hscheme, hhost⟩ := hat p hp
  have hany : db.snapshots.any (fun s => s.id == id &&
      s.key == ⟨key.scheme, key.host, key.suitePath⟩) = true :=
    any_iff.mpr ⟨s, hs, by rw [hid, hk, beq_self_eq_true]; exact beq_self_eq_true key⟩
  show (_ && p.url.scheme == key.scheme && p.url.host == key.host && p.packageName == pair.1 &&
    p.architecture == pair.2 && p.version != [] && db.isCurrent id) = _
  rw [hany, hscheme, hhost, h.isCurrent]
  rw [PackageHash.isOf_eq hname harch]
  simp only [beq_self_eq_true, Bool.true_and, Bool.and_true, Function.comp]
  rw [Bool.and_comm]
  cases p.version <;> rfl

theorem topNVersionSet (h : Installed db key id rows)
    (hat : ∀ p ∈ rows, p.url.scheme = key.scheme ∧ p.url.host = key.host) (hname : pair.1 ≠ [])
    (harch : pair.2 ≠ []) (sort : SortSlice Str) (maxVersions : Int) :
    db.topNVersionSet sort maxVersions ⟨key.scheme, key.host, key.suitePath, pair.1, pair.2⟩ =
      keepNewestNVersionSet sort (storedVersions rows pair) maxVersions := by
  rw [Db.topNVersionSet, h.versionsOf hat hname harch, keepNewestNVersionSet, distinct_distinct,
    keepNewestNVersionSet]

theorem mirrored_of_incomplete (h : Installed db key id rows) (sort : SortSlice Str)
    (maxVersions : Int) (hp : p ∈ rows) (hinc : p.incomplete = true) :
    db.mirrored sort maxVersions p.url p.declared = true := by
  obtain ⟨s, hs, hid, -⟩ := h.snapshot
  exact Cache.mirrored_iff.mpr ⟨{ p with snapshotId := id }, (h.mem_iff.mpr ⟨p, hp, rfl⟩).1, rfl,
    rfl, s, hs, hid, hid ▸ h.isCurrent, .inl hinc⟩

/-- A current snapshot vouches for a versioned row of the candidate, whose path no other one lists,
if and only if GC counts its version as newest. -/
theorem mirrored_iff (h : Installed db key id rows)
    (hat : ∀ p ∈ rows, p.url.scheme = key.scheme ∧ p.url.host = key.host) (sort : SortSlice Str)
    (maxVersions : Int) (hp : p ∈ rows) (hof : p.isOf pair = true) (hversion : p.version ≠ [])
    (hother : ∀ q ∈ db.packageHashes, q.snapshotId ≠ id → db.isCurrent q.snapshotId = true →
      q.url ≠ p.url) :
    db.mirrored sort maxVersions p.url p.declared = true ↔
      p.version ∈ keepNewestNVersionSet sort (storedVersions rows pair) maxVersions := by
  obtain ⟨s, hs, hid, hk⟩ := h.snapshot
  have hcomplete : p.incomplete = false ∧ pair.1 ≠ [] ∧ pair.2 ≠ [] ∧
      (p.packageName, p.architecture) = pair := by
    simp only [PackageHash.isOf, Bool.and_eq_true, bne_iff_ne, beq_iff_eq] at hof
    obtain ⟨⟨hname, harch⟩, rfl⟩ := hof
    refine ⟨?_, hname, harch, rfl⟩
    simp [PackageHash.incomplete, hname, harch, hversion]
  obtain ⟨hcomplete, hname, harch, rfl⟩ := hcomplete
  have hkey : p.topNKey p.url s.key.suitePath =
      ⟨key.scheme, key.host, key.suitePath, p.packageName, p.architecture⟩ := by
    rw [PackageHash.topNKey, (hat p hp).1, (hat p hp).2, hk]
  have htop := h.topNVersionSet hat hname harch sort maxVersions
  rw [Cache.mirrored_iff, ← htop]
  constructor
  · rintro ⟨q, hq, hurl, -, s', hs', hid', hc', hin⟩
    -- the row that vouches is that of the candidate
    have hqid : q.snapshotId = id := by
      by_contra hne
      exact hother q hq hne (hid' ▸ hc') hurl
    obtain ⟨p', hp', rfl⟩ := h.mem_iff.mp ⟨hq, hqid⟩
    rw [h.eq_of_url hp' hp hurl] at hin
    obtain rfl : s' = s := eq_of_key hs' hs (hid'.trans hid.symm)
    rcases hin with hin | hin
    · exact absurd (hcomplete.symm.trans hin) (by decide)
    · exact hkey ▸ hin
  · intro hin
    refine ⟨{ p with snapshotId := id }, (h.mem_iff.mpr ⟨p, hp, rfl⟩).1, rfl, rfl, s, hs, hid,
      hid ▸ h.isCurrent, .inr ?_⟩
    exact hkey ▸ hin

end Installed

/-! ## Agreement -/

/-- The cached row of a package. -/
def PackageHash.cached (p : PackageHash) : UrlPath :=
  ⟨p.url, some p.declared, false, none, 0, none, none⟩

theorem retained_cached (sort : SortSlice Str) (ttlCutoff maxVersions : Int) (db : Db)
    (p : PackageHash) : urlPathRetained sort ttlCutoff maxVersions db p.cached =
      (db.guarded p.cached ||
        (p.declared != [] && db.mirrored sort maxVersions p.url p.declared)) :=
  rfl

/-- A row of the same path and blob is retained for the same reasons. -/
theorem retained_of_cached {maxVersions : Int} {db : Db} {r : UrlPath} (hkey : r.key = p.url)
    (hblob : r.blobHash = some p.declared) (ttlCutoff : Int)
    (h : urlPathRetained sort ttlCutoff maxVersions db p.cached = true) :
    urlPathRetained sort ttlCutoff maxVersions db r = true := by
  obtain ⟨key, blob, isMetadata, requested, count, fetched, dropped⟩ := r
  obtain rfl : key = p.url := hkey
  obtain rfl : blob = some p.declared := hblob
  show (requested.any (ttlCutoff ≤ ·) || db.guarded p.cached || _) = true
  rw [Bool.or_assoc]
  exact Bool.or_eq_true_iff.mpr (.inr h)

theorem byPath_strictWeak (rows : List PackageHash) :
    StrictWeak (fun p q => p.url.path < q.url.path) rows where
  asymm p _ q _ hpq := by
    simp only [decide_eq_true_eq, decide_eq_false_iff_not] at hpq ⊢
    exact List.lt_asymm hpq
  trans p _ q _ r _ hqp hrq := by
    simp only [decide_eq_false_iff_not, List.not_lt] at hqp hrq ⊢
    exact List.le_trans hqp hrq

theorem mem_hotMatches (hsort : Sorts sortRows) :
    p ∈ hotMatches sortRows rows pair ↔ p ∈ rows ∧ p.isOf pair = true := by
  unfold hotMatches
  dsimp only
  split
  · rw [(hsort _ _ (byPath_strictWeak _)).1.mem_iff, List.mem_filter]
  · exact List.mem_filter

section Entries

variable {sort : SortSlice Str} {sortRows : SortSlice PackageHash} {db : Db} {scheme : Scheme}
  {host : Str} {prior candidate : Nat} {rows : List PackageHash} {hotWindow now maxVersions : Int}
  {entries : List HotSetEntry}

theorem computeHotSet_ok
    (h : computeHotSet sort sortRows db scheme host prior candidate rows hotWindow now
      maxVersions = .ok entries) :
    entries = (db.hotPairsOf prior hotWindow now).flatMap
        (hotEntries sort sortRows rows maxVersions) ∧
      (db.hotPairsOf prior hotWindow now ≠ [] →
        ∀ p ∈ rows, p.url.scheme = scheme ∧ p.url.host = host) := by
  unfold computeHotSet at h
  dsimp only at h
  split at h
  · rename_i hnil
    cases h
    rw [hnil]
    exact ⟨rfl, fun hne => absurd rfl hne⟩
  · split at h
    · rename_i hall
      cases h
      refine ⟨rfl, fun _ p hp => ?_⟩
      have := List.all_eq_true.mp hall p hp
      simp only [Bool.and_eq_true, beq_iff_eq] at this
      exact this.1
    · cases h

/-- The entries: rows of the hot pairs without a version or with one of the newest. -/
theorem mem_entries (hsort : Sorts sortRows)
    (h : computeHotSet sort sortRows db scheme host prior candidate rows hotWindow now
      maxVersions = .ok entries) {e : HotSetEntry} :
    e ∈ entries ↔ ∃ pair ∈ db.hotPairsOf prior hotWindow now, ∃ p ∈ rows, p.isOf pair = true ∧
      (p.version = [] ∨ p.version ∈ keepNewestNVersionSet sort
        (versionsIn (hotMatches sortRows rows pair)) maxVersions) ∧
      e = ⟨p.url.path, p.declared⟩ := by
  rw [(computeHotSet_ok h).1, List.mem_flatMap]
  refine exists_congr fun pair => and_congr_right fun _ => ?_
  simp only [hotEntries, List.mem_map, List.mem_filter, mem_hotMatches hsort, Bool.or_eq_true,
    beq_iff_eq, List.contains_iff_mem, and_assoc, eq_comm (a := e)]

end Entries

/-- What is prefetched is retained whenever it was requested last, and what is capped is not
retained by the mirror rule. -/
structure Agree (sort : SortSlice Str) (db : Db) (scheme : Scheme) (host : Str)
    (rows : List PackageHash) (maxVersions : Int) (pairs : List PkgArch)
    (entries : List HotSetEntry) : Prop where
  retained : ∀ e ∈ entries, ∀ r : UrlPath, r.key = ⟨scheme, host, e.path⟩ →
    r.blobHash = some e.declared → ∀ ttlCutoff,
      urlPathRetained sort ttlCutoff maxVersions db r = true
  capped : ∀ p ∈ rows, ∀ pair ∈ pairs, p.isOf pair = true → p.version ≠ [] →
    ⟨p.url.path, p.declared⟩ ∉ entries → db.mirrored sort maxVersions p.url p.declared = false

/-- Where no two versions of a pair tie, it is all one whether its rows are read in the order of
their paths or in that of their row ids. -/
theorem keepNewest_hotMatches (hsort : Sorts sort) (hsortRows : Sorts sortRows)
    (h : StrictLinear newer (storedVersions rows pair)) (maxVersions : Int) :
    keepNewestNVersionSet sort (versionsIn (hotMatches sortRows rows pair)) maxVersions =
      keepNewestNVersionSet sort (storedVersions rows pair) maxVersions := by
  refine keepNewestNVersionSet_congr hsort h (fun v => ?_) maxVersions
  simp only [storedVersions, versionsIn, List.mem_filter, List.mem_map, mem_hotMatches hsortRows]

theorem Installed.agree (hsort : Sorts sort) (hsortRows : Sorts sortRows) {db₀ db : Db}
    {key : SuiteKey} {id prior : Nat} {hotWindow hotNow maxVersions : Int}
    {entries : List HotSetEntry} (h : Installed db key id rows)
    (hset : computeHotSet sort sortRows db₀ key.scheme key.host prior id rows hotWindow hotNow
      maxVersions = .ok entries) (hother : ∀ p ∈ rows, ∀ q ∈ db.packageHashes, q.snapshotId ≠ id →
      db.isCurrent q.snapshotId = true → q.url ≠ p.url)
    (hlinear : ∀ pair ∈ db₀.hotPairsOf prior hotWindow hotNow,
      StrictLinear newer (storedVersions rows pair)) :
    Agree sort db key.scheme key.host rows maxVersions (db₀.hotPairsOf prior hotWindow hotNow)
      entries := by
  have hat : ∀ pair ∈ db₀.hotPairsOf prior hotWindow hotNow,
      ∀ p ∈ rows, p.url.scheme = key.scheme ∧ p.url.host = key.host :=
    fun pair hpair => (computeHotSet_ok hset).2 (List.ne_nil_of_mem hpair)
  have hurl : ∀ pair ∈ db₀.hotPairsOf prior hotWindow hotNow, ∀ p ∈ rows,
      p.url = ⟨key.scheme, key.host, p.url.path⟩ := by
    intro pair hpair p hp
    rw [← (hat pair hpair p hp).1, ← (hat pair hpair p hp).2]
  have hmirror : ∀ pair ∈ db₀.hotPairsOf prior hotWindow hotNow, ∀ p ∈ rows, p.isOf pair = true →
      p.version ≠ [] → (db.mirrored sort maxVersions p.url p.declared = true ↔
        p.version ∈ keepNewestNVersionSet sort (storedVersions rows pair) maxVersions) :=
    fun pair hpair p hp hof hv =>
      h.mirrored_iff (hat pair hpair) sort maxVersions hp hof hv (hother p hp)
  refine ⟨fun e he r hr hb ttlCutoff => ?_, fun p hp pair hpair hof hv hnot => ?_⟩
  · obtain ⟨pair, hpair, p, hp, hof, hkeep, rfl⟩ := (mem_entries hsortRows hset).mp he
    refine retained_of_cached (hr.trans (hurl pair hpair p hp).symm) hb ttlCutoff ?_
    rw [retained_cached, Bool.or_eq_true, Bool.and_eq_true, bne_iff_ne]
    have hdeclared : p.declared ≠ [] := by
      intro hnil
      have hvalid := h.valid p hp
      rw [hnil] at hvalid
      exact absurd hvalid (by decide)
    refine .inr ⟨hdeclared, ?_⟩
    by_cases hv : p.version = []
    · exact h.mirrored_of_incomplete sort maxVersions hp (by simp [PackageHash.incomplete, hv])
    · rw [hmirror pair hpair p hp hof hv, ← keepNewest_hotMatches hsort hsortRows (hlinear pair hpair)]
      exact hkeep.resolve_left hv
  · -- the row of a version among the newest is an entry
    rw [← Bool.not_eq_true, hmirror pair hpair p hp hof hv,
      ← keepNewest_hotMatches hsort hsortRows (hlinear pair hpair)]
    exact fun hkeep => hnot
      ((mem_entries hsortRows hset).mpr ⟨pair, hpair, p, hp, hof, .inr hkeep, rfl⟩)

/-- Prefetch and retention agree where the order of the sort is a strict linear one on the versions
of every hot package. -/
theorem prefetch_retention (sort : SortSlice Str) (hsort : Sorts sort)
    (sortRows : SortSlice PackageHash) (hsortRows : Sorts sortRows) (db₀ db db' : Db)
    (hdb : sys.Reach db) (id prior : Nat) (s : Snapshot)
    (hs : db.snapshots.find id = some s) (hnew : ∀ q ∈ db.packageHashes, q.snapshotId ≠ id)
    (rows : List PackageHash) (hotWindow hotNow maxVersions : Int) (entries : List HotSetEntry)
    (hset : computeHotSet sort sortRows db₀ s.key.scheme s.key.host prior id rows hotWindow hotNow
      maxVersions = .ok entries)
    (members : List Member) (skipped : List Skipped) (prefetched : List (UrlKey × Str))
    (coverage : Bool) (skipNow now : Int)
    (hcommit : commitAdoption id members skipped rows prefetched coverage skipNow now db =
      .ok ((), db'))
    (hother : ∀ p ∈ rows, ∀ q ∈ db'.packageHashes, q.snapshotId ≠ id →
      db'.isCurrent q.snapshotId = true → q.url ≠ p.url)
    (hlinear : ∀ pair ∈ db₀.hotPairsOf prior hotWindow hotNow,
      StrictLinear newer (storedVersions rows pair)) :
    Agree sort db' s.key.scheme s.key.host rows maxVersions
      (db₀.hotPairsOf prior hotWindow hotNow) entries := by
  obtain ⟨⟨hstored, hvalid⟩, hcurrent⟩ := commitAdoption_packages id members skipped rows
    prefetched coverage skipNow now hs () db' hcommit
  have hreach : sys.Reach db' := by
    refine .step (.commitAdoption id members skipped rows prefetched coverage skipNow now) hdb ?_
    show some (Spec.Tx.commit (commitAdoption id members skipped rows prefetched coverage skipNow
      now) db) = some db'
    rw [Tx.commit, hcommit]
  have hinstalled : Installed db' s.key id rows :=
    ⟨pointers_inductive.reach hreach, hcurrent, ⟨_, hstored, hnew⟩, hvalid⟩
  exact hinstalled.agree hsort hsortRows hset hother hlinear

theorem storedVersions_strictLinear (h : ∀ p ∈ rows, Debversion.nul ∉ p.version) (pair : PkgArch) :
    StrictLinear newer (storedVersions rows pair) := by
  refine newer_strictLinear fun v hv => ?_
  obtain ⟨q, hq, rfl⟩ := List.mem_map.mp (List.mem_filter.mp hv).1
  exact h q (List.mem_filter.mp hq).1

/-! ## Two candidates -/

/-- A package row of the suite `stable`. -/
def packageRow (id : Nat) (path version : Str) (hash : Char) : PackageHash :=
  ⟨⟨stable.scheme, stable.host, path⟩, id, digest hash, ['x'], ['y'], version, []⟩

/-- A package of the first snapshot is requested, and a second candidate is there. -/
def hotRun : List Op :=
  [.putBlob (digest 'a') 10 1, .putBlob (digest 'b') 20 2,
    .createSuite ⟨stable, 3, 0, []⟩ ⟨0, 0⟩ none 3,
    .insertCandidateSnapshot ⟨stable, some (digest 'a'), none, none, none, false⟩ 4,
    .commitAdoption 1 [] [] [packageRow 1 ['o'] ['1'] 'b'] [] true 5 5,
    .putURLPath ⟨⟨stable.scheme, stable.host, ['o']⟩, some (digest 'b'), false, some 100, 1,
      some 90, none⟩,
    .putBlob (digest 'c') 10 6,
    .insertCandidateSnapshot ⟨stable, some (digest 'c'), none, none, none, false⟩ 7]

/-- The database after `hotRun`. -/
def hotDb : Db := (sys.exec Db.empty hotRun).getD Db.empty

theorem hotDb_reach : sys.Reach hotDb := .exec rfl (eq_some_getD _ (by decide +kernel))

theorem hotDb_candidate : ∃ s, hotDb.snapshots.find 2 = some s ∧ s.key = stable := by
  have hkey : (hotDb.snapshots.find 2).map Snapshot.key = some stable := by decide +kernel
  obtain ⟨s, hs, hk⟩ := Option.map_eq_some_iff.mp hkey
  exact ⟨s, hs, hk⟩

/-- Two versions of the package. -/
def plainRows : List PackageHash :=
  [packageRow 2 ['q'] ['2'] 'd', packageRow 2 ['p'] ['1'] 'e']

/-- The commit of the second candidate with these rows. -/
def plainCommit : Tx Unit := commitAdoption 2 [] [] plainRows [] true 110 110

theorem prefetch_retention_plainRows :
    Agree insertionSlice (plainCommit.commit hotDb) stable.scheme stable.host plainRows 1
      (hotDb.hotPairsOf 1 50 100) [⟨['q'], digest 'd'⟩] := by
  obtain ⟨s, hs, hkey⟩ := hotDb_candidate
  have hagree := prefetch_retention insertionSlice insertionSlice_sorts insertionSlice
    insertionSlice_sorts hotDb hotDb (plainCommit.commit hotDb) hotDb_reach 2 1 s hs
    (by decide +kernel : ∀ q ∈ hotDb.packageHashes.rows, q.snapshotId ≠ 2) plainRows 50 100 1
    [⟨['q'], digest 'd'⟩] (by rw [hkey]; decide +kernel) [] [] [] true 110 110
    (Tx.ok_commit (by decide +kernel))
    (by decide +kernel : ∀ p ∈ plainRows, ∀ q ∈ (plainCommit.commit hotDb).packageHashes.rows,
      q.snapshotId ≠ 2 → (plainCommit.commit hotDb).isCurrent q.snapshotId = true →
        q.url ≠ p.url)
    fun pair _ => storedVersions_strictLinear (by decide) pair
  rwa [hkey] at hagree

/-- Three versions, one with a NUL byte. -/
def hotRows : List PackageHash :=
  [packageRow 2 ['q'] ['2'] 'd', packageRow 2 ['r'] ['1', 'a'] 'e',
    packageRow 2 ['p'] [Debversion.nul] 'f']

/-- The commit of the second candidate with these rows. -/
def hotCommit : Tx Unit := commitAdoption 2 [] [] hotRows [] true 110 110

/-- A package with a NUL byte in its version is prefetched and not retained. -/
theorem prefetched_not_retained :
    ¬ ∀ (sort : SortSlice Str), Sorts sort → ∀ (sortRows : SortSlice PackageHash), Sorts sortRows →
      ∀ (db₀ db db' : Db), sys.Reach db → ∀ (id prior : Nat) (s : Snapshot),
      db.snapshots.find id = some s → (∀ q ∈ db.packageHashes, q.snapshotId ≠ id) →
      ∀ (rows : List PackageHash) (hotWindow hotNow maxVersions : Int)
        (entries : List HotSetEntry),
      computeHotSet sort sortRows db₀ s.key.scheme s.key.host prior id rows hotWindow hotNow
        maxVersions = .ok entries →
      ∀ (members : List Member) (skipped : List Skipped) (prefetched : List (UrlKey × Str))
        (coverage : Bool) (skipNow now : Int),
      commitAdoption id members skipped rows prefetched coverage skipNow now db = .ok ((), db') →
      (∀ p ∈ rows, ∀ q ∈ db'.packageHashes, q.snapshotId ≠ id →
        db'.isCurrent q.snapshotId = true → q.url ≠ p.url) →
      Agree sort db' s.key.scheme s.key.host rows maxVersions
        (db₀.hotPairsOf prior hotWindow hotNow) entries := by
  intro h
  obtain ⟨s, hs, hkey⟩ := hotDb_candidate
  have hagree := h insertionSlice insertionSlice_sorts insertionSlice insertionSlice_sorts hotDb
    hotDb (hotCommit.commit hotDb) hotDb_reach 2 1 s hs
    (by decide +kernel : ∀ q ∈ hotDb.packageHashes.rows, q.snapshotId ≠ 2) hotRows 50 100 1
    [⟨['p'], digest 'f'⟩, ⟨['q'], digest 'd'⟩] (by rw [hkey]; decide +kernel) [] [] [] true 110 110
    (Tx.ok_commit (by decide +kernel))
    (by decide +kernel : ∀ p ∈ hotRows, ∀ q ∈ (hotCommit.commit hotDb).packageHashes.rows,
      q.snapshotId ≠ 2 → (hotCommit.commit hotDb).isCurrent q.snapshotId = true → q.url ≠ p.url)
  have hret := hagree.retained ⟨['p'], digest 'f'⟩ List.mem_cons_self
    (packageRow 2 ['p'] [Debversion.nul] 'f').cached (by rw [hkey]; rfl) rfl 0
  revert hret
  decide +kernel

end AptCacher.Cache
