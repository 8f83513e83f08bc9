import AptCacher.Cache.Adoption
import AptCacher.Cache.NewestVersions

/-!
# Which cached paths are kept

The rule by which `url_path` GC keeps a row (`urlPathRetainedTx`): it was requested within the TTL,
or a current snapshot needs it as a member or an anchor, or a current snapshot lists its package
with an incomplete identity or with one of the newest versions.

* `Db.guarded`, `Db.mirrorMatches`, `Db.topNVersionSet`: the queries of the rule.
* `urlPathRetained`: the rule.
* `urlPathRetainedTx`: the rule as the code evaluates it, with the version sets that the batch has
  ranked so far; `urlPathRetainedTx_spec`: the same verdict.
* `Db.Retains`, `urlPathRetained_iff`: the reasons for which the rule keeps a row.
* `RetentionRule`: what GC needs of a rule: a recent row is kept, and the cached paths and the blobs
  do not matter; `retention` is one.
-/

namespace AptCacher.Cache

open Spec Aptpath Ranking Table

/-! ## The queries -/

/-- The guards of metadata: the blob is that of a member or of an anchor of a current snapshot, or
the path is an anchor path of a suite with a current snapshot. -/
def Db.guarded (db : Db) (r : UrlPath) : Bool :=
  r.blobHash.any (fun h => db.members.any fun m => m.blobHash == h && db.isCurrent m.snapshotId) ||
    r.blobHash.any (fun h => db.snapshots.any fun s => s.names h && db.isCurrent s.id) ||
    db.suites.any fun f => f.key.scheme == r.key.scheme && f.key.host == r.key.host &&
      f.current.any fun id => db.snapshots.any fun s => s.id == id &&
        s.form.anchorPaths.any fun name => r.key.path == f.key.suitePath ++ '/' :: name

/-- The rows of current snapshots that list the path with the blob, with the suites of these
snapshots. -/
def Db.mirrorMatches (db : Db) (url : UrlKey) (hash : Str) : List (Str × PackageHash) :=
  (db.packageHashes.select fun p =>
    p.url == url && p.declared == hash && db.isCurrent p.snapshotId).filterMap fun p =>
      (db.snapshots.find p.snapshotId).map fun s => (s.key.suitePath, p)

/-- `topNKey`: the versions that are ranked together. -/
structure TopNKey where
  scheme : Scheme
  host : Str
  suite : Str
  name : Str
  arch : Str
  deriving DecidableEq

/-- The versions of a package that the current snapshots of the suite list, in the order of the row
ids: a table has the row that was stored last in front. -/
def Db.versionsOf (db : Db) (k : TopNKey) : List Str :=
  distinct ((db.packageHashes.select fun p =>
    db.snapshots.any (fun s => s.id == p.snapshotId && s.key == ⟨k.scheme, k.host, k.suite⟩) &&
      p.url.scheme == k.scheme && p.url.host == k.host && p.packageName == k.name &&
      p.architecture == k.arch && p.version != [] &&
      db.isCurrent p.snapshotId).reverse.map PackageHash.version)

/-- The versions that count as newest. -/
def Db.topNVersionSet (db : Db) (sort : SortSlice Str) (maxVersions : Int) (k : TopNKey) :
    List Str :=
  keepNewestNVersionSet sort (db.versionsOf k) maxVersions

/-- The ranking of a row of a current snapshot of the suite. -/
def PackageHash.topNKey (p : PackageHash) (url : UrlKey) (suite : Str) : TopNKey :=
  ⟨url.scheme, url.host, suite, p.packageName, p.architecture⟩

/-- The name, the architecture or the version is missing. -/
def PackageHash.incomplete (p : PackageHash) : Bool :=
  p.packageName == [] || p.architecture == [] || p.version == []

/-! ## The rule -/

/-- Rules 3 and 4: a current snapshot lists the row with an incomplete identity, or with one of the
newest versions. -/
def Db.mirrored (db : Db) (sort : SortSlice Str) (maxVersions : Int) (url : UrlKey) (hash : Str) :
    Bool :=
  (db.mirrorMatches url hash).any (fun m => m.2.incomplete) ||
    (db.mirrorMatches url hash).any fun m =>
      (db.topNVersionSet sort maxVersions (m.2.topNKey url m.1)).contains m.2.version

/-- The row is kept. -/
def urlPathRetained (sort : SortSlice Str) (ttlCutoff maxVersions : Int) (db : Db) (r : UrlPath) :
    Bool :=
  r.lastRequestedAt.any (ttlCutoff ≤ ·) || db.guarded r ||
    r.blobHash.any fun h => h != [] && db.mirrored sort maxVersions r.key h

/-! ## What the rule says -/

/-- A current snapshot lists the path with the blob, without a complete identity or with one of the
newest versions of its suite. -/
def Db.Vouches (db : Db) (sort : SortSlice Str) (maxVersions : Int) (url : UrlKey) (hash : Str) :
    Prop :=
  ∃ p ∈ db.packageHashes, p.url = url ∧ p.declared = hash ∧
    ∃ s ∈ db.snapshots, s.id = p.snapshotId ∧ db.isCurrent s.id = true ∧
      (p.incomplete = true ∨
        p.version ∈ db.topNVersionSet sort maxVersions (p.topNKey url s.key.suitePath))

/-- Why a row is kept. -/
inductive Db.Retains (db : Db) (sort : SortSlice Str) (ttlCutoff maxVersions : Int)
    (r : UrlPath) : Prop
  | requested (t : Int) : r.lastRequestedAt = some t → ttlCutoff ≤ t →
      db.Retains sort ttlCutoff maxVersions r
  | member (m : Member) : m ∈ db.members → r.blobHash = some m.blobHash →
      db.isCurrent m.snapshotId = true → db.Retains sort ttlCutoff maxVersions r
  | anchor (s : Snapshot) (h : Str) : s ∈ db.snapshots → r.blobHash = some h → s.names h = true →
      db.isCurrent s.id = true → db.Retains sort ttlCutoff maxVersions r
  | anchorPath (f : Suite) (s : Snapshot) (name : Str) : f ∈ db.suites → s ∈ db.snapshots →
      f.current = some s.id → name ∈ s.form.anchorPaths →
      r.key = ⟨f.key.scheme, f.key.host, f.key.suitePath ++ '/' :: name⟩ →
      db.Retains sort ttlCutoff maxVersions r
  | vouched (h : Str) : r.blobHash = some h → h ≠ [] → db.Vouches sort maxVersions r.key h →
      db.Retains sort ttlCutoff maxVersions r

section

variable {db : Db} {sort : SortSlice Str} {ttlCutoff maxVersions : Int} {r : UrlPath}

theorem mem_mirrorMatches {url : UrlKey} {hash : Str} {m : Str × PackageHash} :
    m ∈ db.mirrorMatches url hash ↔
      m.2 ∈ db.packageHashes ∧ m.2.url = url ∧ m.2.declared = hash ∧ ∃ s ∈ db.snapshots,
        s.id = m.2.snapshotId ∧ db.isCurrent s.id = true ∧ s.key.suitePath = m.1 := by
  obtain ⟨suite, p⟩ := m
  simp only [Db.mirrorMatches, List.mem_filterMap, mem_select, Bool.and_eq_true, beq_iff_eq,
    Option.map_eq_some_iff, find_eq_some, Prod.mk.injEq]
  constructor
  · rintro ⟨p', ⟨hp, ⟨hurl, hdecl⟩, hcur⟩, s, ⟨hs, hid⟩, hsuite, rfl⟩
    exact ⟨hp, hurl, hdecl, s, hs, hid, hid ▸ hcur, hsuite⟩
  · rintro ⟨hp, hurl, hdecl, s, hs, hid, hcur, hsuite⟩
    exact ⟨p, ⟨hp, ⟨hurl, hdecl⟩, hid ▸ hcur⟩, s, ⟨hs, hid⟩, hsuite, rfl⟩

theorem mirrored_iff {url : UrlKey} {hash : Str} :
    db.mirrored sort maxVersions url hash = true ↔ db.Vouches sort maxVersions url hash := by
  rw [Db.mirrored, Bool.or_eq_true, List.any_eq_true, List.any_eq_true]
  constructor
  · rintro (⟨m, hm, hin⟩ | ⟨m, hm, hin⟩)
    · obtain ⟨hp, hurl, hdecl, s, hs, hid, hcur, -⟩ := mem_mirrorMatches.mp hm
      exact ⟨m.2, hp, hurl, hdecl, s, hs, hid, hcur, .inl hin⟩
    · obtain ⟨hp, hurl, hdecl, s, hs, hid, hcur, hsuite⟩ := mem_mirrorMatches.mp hm
      exact ⟨m.2, hp, hurl, hdecl, s, hs, hid, hcur, .inr (hsuite ▸ List.contains_iff_mem.mp hin)⟩
  · rintro ⟨p, hp, hurl, hdecl, s, hs, hid, hcur, hin | hin⟩
    · exact .inl ⟨(s.key.suitePath, p),
        mem_mirrorMatches.mpr ⟨hp, hurl, hdecl, s, hs, hid, hcur, rfl⟩, hin⟩
    · exact .inr ⟨(s.key.suitePath, p),
        mem_mirrorMatches.mpr ⟨hp, hurl, hdecl, s, hs, hid, hcur, rfl⟩,
        List.contains_iff_mem.mpr hin⟩

theorem guarded_iff : db.guarded r = true ↔
    (∃ m ∈ db.members, r.blobHash = some m.blobHash ∧ db.isCurrent m.snapshotId = true) ∨
    (∃ s ∈ db.snapshots, ∃ h, r.blobHash = some h ∧ s.names h = true ∧ db.isCurrent s.id = true) ∨
    ∃ f ∈ db.suites, ∃ s ∈ db.snapshots, f.current = some s.id ∧ ∃ name ∈ s.form.anchorPaths,
      r.key = ⟨f.key.scheme, f.key.host, f.key.suitePath ++ '/' :: name⟩ := by
  have hkey : ∀ (k : UrlKey) (f : Suite) (name : Str),
      k = ⟨f.key.scheme, f.key.host, f.key.suitePath ++ '/' :: name⟩ ↔
        (f.key.scheme = k.scheme ∧ f.key.host = k.host) ∧
          k.path = f.key.suitePath ++ '/' :: name := by
    rintro ⟨_, _, _⟩ f name
    simp only [UrlKey.mk.injEq]
    tauto
  simp only [Db.guarded, Bool.or_eq_true, any_iff, Option.any_eq_true, List.any_eq_true,
    Bool.and_eq_true, beq_iff_eq, hkey, or_assoc]
  refine or_congr ?_ (or_congr ?_ (exists_congr fun f => and_congr_right fun _ => ?_))
  · constructor
    · rintro ⟨_, hb, m, hm, rfl, hc⟩
      exact ⟨m, hm, hb, hc⟩
    · rintro ⟨m, hm, hb, hc⟩
      exact ⟨_, hb, m, hm, rfl, hc⟩
  · constructor
    · rintro ⟨h, hb, s, hs, hn, hc⟩
      exact ⟨s, hs, h, hb, hn, hc⟩
    · rintro ⟨s, hs, h, hb, hn, hc⟩
      exact ⟨h, hb, s, hs, hn, hc⟩
  · constructor
    · rintro ⟨hat, _, hcur, s, hs, rfl, name, hname, hpath⟩
      exact ⟨s, hs, hcur, name, hname, hat, hpath⟩
    · rintro ⟨s, hs, hcur, name, hname, hat, hpath⟩
      exact ⟨hat, _, hcur, s, hs, rfl, name, hname, hpath⟩

theorem urlPathRetained_iff :
    urlPathRetained sort ttlCutoff maxVersions db r = true ↔
      db.Retains sort ttlCutoff maxVersions r := by
  rw [urlPathRetained, Bool.or_eq_true, Bool.or_eq_true, guarded_iff]
  constructor
  · rintro ((h | ⟨m, hm, hb, hc⟩ | ⟨s, hs, h, hb, hn, hc⟩ | ⟨f, hf, s, hs, hc, name, hn, hk⟩) | h)
    · cases ht : r.lastRequestedAt with
      | none => simp [ht] at h
      | some t => exact .requested t ht (by simpa [ht] using h)
    · exact .member m hm hb hc
    · exact .anchor s h hs hb hn hc
    · exact .anchorPath f s name hf hs hc hn hk
    · cases hb : r.blobHash with
      | none => simp [hb] at h
      | some hash =>
        rw [hb, Option.any_some, Bool.and_eq_true, mirrored_iff] at h
        exact .vouched hash hb (by simpa using h.1) h.2
  · intro h
    cases h with
    | requested t ht hle => exact .inl (.inl (by simpa [ht] using hle))
    | member m hm hb hc => exact .inl (.inr (.inl ⟨m, hm, hb, hc⟩))
    | anchor s h hs hb hn hc => exact .inl (.inr (.inr (.inl ⟨s, hs, h, hb, hn, hc⟩)))
    | anchorPath f s name hf hs hc hn hk =>
      exact .inl (.inr (.inr (.inr ⟨f, hf, s, hs, hc, name, hn, hk⟩)))
    | vouched h hb hne hv =>
      rw [hb, Option.any_some, mirrored_iff.mpr hv]
      exact .inr (by simpa using hne)

end

/-! ## The rule with the rankings of the batch -/

/-- `topNCache`: the version sets ranked so far. -/
abbrev TopNCache := List (TopNKey × List Str)

def topNVersionSetTx (sort : SortSlice Str) (maxVersions : Int) (db : Db) (cache : TopNCache)
    (k : TopNKey) : List Str × TopNCache :=
  match cache.lookup k with
  | some set => (set, cache)
  | none =>
    let set := db.topNVersionSet sort maxVersions k
    (set, (k, set) :: cache)

/-- The loop of rule 4. -/
def inTopNTx (sort : SortSlice Str) (maxVersions : Int) (db : Db) (url : UrlKey) :
    TopNCache → List (Str × PackageHash) → Bool × TopNCache
  | cache, [] => (false, cache)
  | cache, m :: matches' =>
    let r := topNVersionSetTx sort maxVersions db cache (m.2.topNKey url m.1)
    if r.1.contains m.2.version then (true, r.2)
    else inTopNTx sort maxVersions db url r.2 matches'

def urlPathRetainedTx (sort : SortSlice Str) (ttlCutoff maxVersions : Int) (db : Db)
    (cache : TopNCache) (r : UrlPath) : Bool × TopNCache :=
  if r.lastRequestedAt.any (ttlCutoff ≤ ·) then (true, cache)
  else if db.guarded r then (true, cache)
  else match r.blobHash with
    | none => (false, cache)
    | some h =>
      if h = [] then (false, cache)
      else if (db.mirrorMatches r.key h).any (fun m => m.2.incomplete) then (true, cache)
      else inTopNTx sort maxVersions db r.key cache (db.mirrorMatches r.key h)

/-- The sets in the cache are those of the database. -/
def TopNCache.Agrees (sort : SortSlice Str) (maxVersions : Int) (db : Db) (cache : TopNCache) :
    Prop :=
  ∀ k set, cache.lookup k = some set → set = db.topNVersionSet sort maxVersions k

section Memo

variable {sort : SortSlice Str} {ttlCutoff maxVersions : Int} {db : Db} {cache : TopNCache}

theorem TopNCache.agrees_nil : TopNCache.Agrees sort maxVersions db [] := by
  intro k set h
  cases h

theorem topNVersionSetTx_spec (h : cache.Agrees sort maxVersions db) (k : TopNKey) :
    (topNVersionSetTx sort maxVersions db cache k).1 = db.topNVersionSet sort maxVersions k ∧
      (topNVersionSetTx sort maxVersions db cache k).2.Agrees sort maxVersions db := by
  unfold topNVersionSetTx
  cases hk : cache.lookup k with
  | some set => exact ⟨h k set hk, h⟩
  | none =>
    refine ⟨rfl, fun k' set hset => ?_⟩
    rw [List.lookup_cons] at hset
    split at hset
    · rename_i heq
      rw [beq_iff_eq.mp heq]
      exact (Option.some.inj hset).symm
    · exact h k' set hset

theorem inTopNTx_spec (url : UrlKey) (matches' : List (Str × PackageHash))
    (h : cache.Agrees sort maxVersions db) :
    (inTopNTx sort maxVersions db url cache matches').1 =
        matches'.any (fun m =>
          (db.topNVersionSet sort maxVersions (m.2.topNKey url m.1)).contains m.2.version) ∧
      (inTopNTx sort maxVersions db url cache matches').2.Agrees sort maxVersions db := by
  induction matches' generalizing cache with
  | nil => exact ⟨rfl, h⟩
  | cons m matches' ih =>
    obtain ⟨hset, hcache⟩ := topNVersionSetTx_spec h (m.2.topNKey url m.1)
    rw [inTopNTx, List.any_cons, ← hset]
    split
    · rename_i hin
      exact ⟨by rw [hin, Bool.true_or], hcache⟩
    · rename_i hin
      rw [Bool.eq_false_iff.mpr hin, Bool.false_or]
      exact ih hcache

/-- With a cache that agrees the verdict is that of the rule, and the cache agrees after it. -/
theorem urlPathRetainedTx_spec (h : cache.Agrees sort maxVersions db) (r : UrlPath) :
    (urlPathRetainedTx sort ttlCutoff maxVersions db cache r).1 =
        urlPathRetained sort ttlCutoff maxVersions db r ∧
      (urlPathRetainedTx sort ttlCutoff maxVersions db cache r).2.Agrees sort maxVersions db := by
  unfold urlPathRetainedTx urlPathRetained
  split
  · rename_i hrecent
    exact ⟨by rw [hrecent]; rfl, h⟩
  rename_i hrecent
  split
  · rename_i hguard
    exact ⟨by rw [hguard, Bool.or_true]; rfl, h⟩
  rename_i hguard
  rw [Bool.eq_false_iff.mpr hrecent, Bool.eq_false_iff.mpr hguard, Bool.false_or, Bool.false_or]
  cases hb : r.blobHash with
  | none => exact ⟨rfl, h⟩
  | some hash =>
    by_cases hnil : hash = []
    · simp only [hnil, if_true]
      exact ⟨rfl, h⟩
    · simp only [hnil, if_false, Option.any_some, Db.mirrored]
      have hne : (hash != []) = true := by simpa using hnil
      split
      · rename_i hinc
        exact ⟨by rw [hinc, hne]; rfl, h⟩
      · rename_i hinc
        rw [Bool.eq_false_iff.mpr hinc, hne, Bool.false_or, Bool.true_and]
        exact inTopNTx_spec r.key _ h

end Memo

/-! ## Rules -/

/-- A rule that keeps recent rows and does not read the cached paths or the blobs. -/
structure RetentionRule (ttlCutoff : Int) where
  run : Db → UrlPath → Bool
  recent : ∀ db r, r.lastRequestedAt.any (ttlCutoff ≤ ·) = true → run db r = true
  frame : ∀ db urlPaths blobs, run { db with urlPaths := urlPaths, blobs := blobs } = run db

/-- The rule of the code. -/
def retention (sort : SortSlice Str) (ttlCutoff maxVersions : Int) : RetentionRule ttlCutoff where
  run := urlPathRetained sort ttlCutoff maxVersions
  recent db r h := by
    unfold urlPathRetained
    rw [h]
    rfl
  frame _ _ _ := rfl

end AptCacher.Cache
