import AptCacher.Aptpath.Grammar
import AptCacher.Cache.Fence
import AptCacher.Cache.Growth
import AptCacher.Cache.PathGc

/-!
# The cached metadata of a suite

`DeleteSuiteMetadata` lists the paths of a suite and deletes them in batches, the anchors last.
`InvalidateLegacyMetadata` goes over the metadata rows of a suite page by page and deletes as it
goes. Both read a range of paths, in which the twin of the suite and suites below it stand too, and
leave the choice of rows to `SuitePath`.

* `Db.suiteMetadataPaths`, `deleteSuiteMetadata`: the batches, and how far they come.
* `invalidatePage`, `invalidateLegacyMetadataTx`: the pages, in one transaction.
* `owned_range`: every path of a suite is in the range.
* `suite_metadata_deletion`: the rows that go are those of the suite, whatever stands beside them.
-/

namespace AptCacher.Cache

open Spec Table Aptpath

/-! ## Rows of a suite -/

/-- The cached path is of the suite. -/
def SuiteKey.owns (key : SuiteKey) (k : UrlKey) : Bool :=
  k.scheme == key.scheme && k.host == key.host && Aptpath.suitePath k.path == key.suitePath

/-- The cached path of a suite's scheme and host. -/
def SuiteKey.url (key : SuiteKey) (p : Str) : UrlKey := ⟨key.scheme, key.host, p⟩

/-- The order of paths. -/
def pathBefore (a b : Str) : Bool := decide (a < b)

/-- What is left of the path behind the suite names an anchor. -/
def SuiteKey.isAnchor (key : SuiteKey) (p : Str) : Bool :=
  let name := if (key.suitePath ++ ['/']).isPrefixOf p then p.drop (key.suitePath.length + 1) else p
  ["InRelease".toList, "Release".toList, "Release.gpg".toList].contains name

/-- `suiteMetadataPaths`: the plain paths and the anchors of a suite. -/
def Db.suiteMetadataPaths (db : Db) (key : SuiteKey) : List Str × List Str :=
  if isCanonicalSuitePath key.suitePath then
    let rows := inOrder pathBefore (fun r : UrlPath => r.key.path) (db.urlPaths.select fun r =>
      r.key.scheme == key.scheme && r.key.host == key.host &&
        !decide (r.key.path < key.suitePath ++ ['/']) &&
        decide (r.key.path < key.suitePath ++ ['0']))
    let paths := (rows.map fun r => r.key.path).filter fun p => suitePath p == key.suitePath
    (paths.filter fun p => !key.isAnchor p, paths.filter key.isAnchor)
  else ([], [])

/-! ## The batches -/

/-- `deleteURLPathRows`: a batch in a transaction of its own; how many rows it deleted. -/
def deleteBatch (key : SuiteKey) (batch : List Str) (w : Wait) (now : Int) (db : Db) :
    (ℕ × Option CallErr) × Db :=
  let op := deleteSuiteMetadataRows (batch.map key.url) now
  match w with
  | .answered =>
    match op db with
    | .ok (n, db') => ((n, none), db')
    | .error e => ((0, some (.failed e)), db)
  | .abandoned ran => ((0, some .stopped), if ran then op.commit db else db)

/-- The batches from the `i`-th on, until one fails. -/
def deleteBatches (key : SuiteKey) (ends : ℕ → Wait × Int) :
    ℕ → List (List Str) → Db → (ℕ × Option CallErr) × Db
  | _, [], db => ((0, none), db)
  | i, batch :: rest, db =>
    match deleteBatch key batch (ends i).1 (ends i).2 db with
    | ((n, some e), db') => ((n, some e), db')
    | ((n, none), db') =>
      let res := deleteBatches key ends (i + 1) rest db'
      ((n + res.1.1, res.1.2), res.2)

def reapMetadataBatch : ℕ := 1000

/-- `DeleteSuiteMetadata`; `ends` says how the wait for each batch ends, and its clock. -/
def deleteSuiteMetadata (key : SuiteKey) (ends : ℕ → Wait × Int) (db : Db) :
    (ℕ × Option CallErr) × Db :=
  let paths := db.suiteMetadataPaths key
  deleteBatches key ends 0
    (batches reapMetadataBatch paths.1 ++ batches reapMetadataBatch paths.2) db

/-! ## The pages -/

/-- The metadata rows of the suite's range behind a path, in the order of their paths. -/
def Db.legacyRows (db : Db) (key : SuiteKey) (after : Option Str) : List UrlPath :=
  inOrder pathBefore (fun r : UrlPath => r.key.path) (db.urlPaths.select fun r =>
    r.key.scheme == key.scheme && r.key.host == key.host && r.isMetadata &&
      after.all (fun a => pathBefore a r.key.path) && decide (r.key.path < key.suitePath ++ ['0']))

/-- The rows that a page collects. -/
def SuiteKey.dooms (key : SuiteKey) (r : UrlPath) : Bool :=
  Aptpath.suitePath r.key.path == key.suitePath && !contains "/by-hash/".toList r.key.path

def legacyPageSize : ℕ := 256

/-- A page of `InvalidateLegacyMetadata`: how many rows it scanned, which, and the last path. -/
def invalidatePage (key : SuiteKey) (now : UrlKey → Int) (after : Option Str) :
    Tx (ℕ × List UrlPath × Option Str) := do
  let page := ((← get).legacyRows key after).take legacyPageSize
  (page.filter key.dooms).forM fun u => do
    let _ ← deleteCachedRowTx u.key (now u.key)
    pure ()
  pure (page.length, page, page.foldl (fun _ r => some r.key.path) after)

/-- `InvalidateLegacyMetadata` with its pages; whether they have ended, and the rows scanned. -/
def invalidateLegacyMetadataTx (key : SuiteKey) (anchorPath oldHash : Str) (now : UrlKey → Int)
    (fuel : ℕ) : Tx (Bool × List UrlPath) := do
  Tx.ensure (isCanonicalSuitePath key.suitePath = true ∧
    (anchorPath = key.suitePath ++ "/InRelease".toList ∨
      anchorPath = key.suitePath ++ "/Release".toList) ∧ validBlobHash oldHash = true)
    .invalidArgument
  let db ← get
  let r ← Tx.getOr (db.suites.find key) .notFound
  Tx.ensure (r.current = none) .invalidArgument
  let u ← Tx.getOr (db.urlPaths.find ⟨key.scheme, key.host, anchorPath⟩) .notFound
  Tx.ensure (u.blobHash = some oldHash) .metadataChanged
  let scan ← pagesUntil (fun scanned => decide (scanned < legacyPageSize)) (invalidatePage key now)
    fuel (some (key.suitePath ++ ['/']))
  modify fun db => db.nextGeneration key
  pure scan

/-! ## The range -/

section Range

variable {key : SuiteKey} {k : UrlKey}

theorem owns_iff : key.owns k = true ↔
    k.scheme = key.scheme ∧ k.host = key.host ∧ suitePath k.path = key.suitePath := by
  simp only [SuiteKey.owns, Bool.and_eq_true, beq_iff_eq, and_assoc]

theorem owned_range (hs : isCanonicalSuitePath key.suitePath = true)
    (h : suitePath k.path = key.suitePath) :
    key.suitePath ++ ['/'] < k.path ∧ k.path < key.suitePath ++ ['0'] := by
  obtain ⟨m, hm, hp⟩ := suitePath_member (h.trans_ne (isCanonicalSuitePath_iff.mp hs).1)
  rw [h] at hp
  rw [hp]
  exact ⟨slash_lt _ hm, (slash_range _ m).2⟩

theorem mem_suiteMetadataPaths {db : Db} (hs : isCanonicalSuitePath key.suitePath = true)
    {p : Str} :
    (p ∈ (db.suiteMetadataPaths key).1 ↔
      (∃ r ∈ db.urlPaths, key.owns r.key = true ∧ r.key.path = p) ∧ key.isAnchor p = false) ∧
    (p ∈ (db.suiteMetadataPaths key).2 ↔
      (∃ r ∈ db.urlPaths, key.owns r.key = true ∧ r.key.path = p) ∧ key.isAnchor p = true) := by
  rw [Db.suiteMetadataPaths, if_pos hs]
  simp only [List.mem_filter, List.mem_map, mem_inOrder, mem_select, Bool.not_eq_true',
    Bool.and_eq_true, beq_iff_eq, decide_eq_true_eq, decide_eq_false_iff_not]
  have hrows : ((∃ r, (r ∈ db.urlPaths ∧ ((r.key.scheme = key.scheme ∧ r.key.host = key.host) ∧
      ¬ r.key.path < key.suitePath ++ ['/']) ∧ r.key.path < key.suitePath ++ ['0']) ∧
      r.key.path = p) ∧ suitePath p = key.suitePath) ↔
      ∃ r ∈ db.urlPaths, key.owns r.key = true ∧ r.key.path = p := by
    constructor
    · rintro ⟨⟨r, ⟨hr, ⟨⟨hscheme, hhost⟩, -⟩, -⟩, rfl⟩, hsuite⟩
      exact ⟨r, hr, owns_iff.mpr ⟨hscheme, hhost, hsuite⟩, rfl⟩
    · rintro ⟨r, hr, howns, rfl⟩
      obtain ⟨hscheme, hhost, hsuite⟩ := owns_iff.mp howns
      obtain ⟨hlow, hhigh⟩ := owned_range hs hsuite
      exact ⟨⟨r, ⟨hr, ⟨⟨hscheme, hhost⟩, List.lt_asymm hlow⟩, hhigh⟩, rfl⟩, hsuite⟩
  rw [hrows]
  exact ⟨Iff.rfl, Iff.rfl⟩

end Range

/-! ## A delete of cached paths -/

/-- The database without the row of a key. -/
def Db.evict (db : Db) (now : Int) (k : UrlKey) : Db :=
  { db with
    urlPaths := db.urlPaths.deleteAt k
    blobs := releaseBlob now db.blobs ((db.urlPaths.find k).bind UrlPath.blobHash) }

/-- The database without the rows of some keys. -/
def Db.evictAll (db : Db) (now : UrlKey → Int) (ks : List UrlKey) : Db :=
  ks.foldl (fun db k => db.evict (now k) k) db

theorem deleteCachedRowTx_ok (k : UrlKey) (now : Int) (db : Db) :
    deleteCachedRowTx k now db = .ok ((db.urlPaths.find k).isSome, db.evict now k) := by
  unfold deleteCachedRowTx
  rw [Tx.get_bind]
  cases hk : db.urlPaths.find k with
  | none =>
    have hgone : db.urlPaths.deleteAt k = db.urlPaths :=
      delete_of_none fun r hr => decide_eq_false (find_eq_none.mp hk r hr)
    rw [Db.evict, hgone, hk]
    rfl
  | some r =>
    have hsome : (db.urlPaths.find k).isSome = true := by rw [hk]; rfl
    simp only [bind, StateT.bind, deleteURLPathRowTx_ok r.blobHash now hsome]
    rw [Db.evict, hk]
    rfl

theorem urlPaths_evictAll (db : Db) (now : UrlKey → Int) (ks : List UrlKey) :
    (db.evictAll now ks).urlPaths = db.urlPaths.delete fun r => ks.contains r.key := by
  induction ks generalizing db with
  | nil => exact (delete_of_none fun _ _ => rfl).symm
  | cons k ks ih =>
    refine (ih _).trans ?_
    show (db.urlPaths.deleteAt k).delete _ = _
    rw [deleteAt, delete_delete]
    refine delete_congr fun r _ => ?_
    rw [List.contains_cons]
    rfl

/-! ## How far the batches come -/

section Batches

variable {key : SuiteKey} {db : Db}

theorem deleteSuiteMetadataRows_ok (ks : List UrlKey) (now : Int) (db : Db) :
    deleteSuiteMetadataRows ks now db =
      .ok (db.urlPaths.count fun r => ks.contains r.key, db.evictAll (fun _ => now) ks) := by
  suffices h : ∀ n : ℕ, (ks.foldlM (fun n k => do
      let deleted ← deleteCachedRowTx k now
      pure (if deleted then n + 1 else n)) n : Tx ℕ) db =
      .ok (n + db.urlPaths.count fun r => ks.contains r.key, db.evictAll (fun _ => now) ks) by
    refine (h 0).trans ?_
    rw [Nat.zero_add]
  induction ks generalizing db with
  | nil =>
    intro n
    have hnone : db.urlPaths.count (fun r => ([] : List UrlKey).contains r.key) = 0 :=
      List.countP_eq_zero.mpr fun _ _ => by simp
    rw [hnone]
    rfl
  | cons k ks ih =>
    intro n
    have hcount : (db.urlPaths.count fun r => (k :: ks).contains r.key) =
        (if (db.urlPaths.find k).isSome then 1 else 0) +
          (db.evict now k).urlPaths.count fun r => ks.contains r.key := by
      rw [← count_key]
      refine Eq.trans (count_congr fun r _ => ?_) count_or
      rw [List.contains_cons]
      rfl
    rw [List.foldlM_cons]
    simp only [bind, StateT.bind, Except.bind, deleteCachedRowTx_ok]
    refine (ih (db.evict now k) _).trans ?_
    rw [hcount, ← Nat.add_assoc]
    cases (db.urlPaths.find k).isSome <;> rfl

/-- A batch deletes its paths and counts them, or fails, and then it has deleted them or not. -/
theorem deleteBatch_cases (key : SuiteKey) (batch : List Str) (w : Wait) (now : Int) (db : Db) :
    ∃ n e db', deleteBatch key batch w now db = ((n, e), db') ∧ (w = .answered → e = none) ∧
      (db' = db ∧ e ≠ none ∨ db' = db.evictAll (fun _ => now) (batch.map key.url) ∧
        (e = none → n = db.urlPaths.count fun r => (batch.map key.url).contains r.key)) := by
  cases w with
  | answered =>
    refine ⟨_, _, _, ?_, fun _ => rfl, .inr ⟨rfl, fun _ => rfl⟩⟩
    simp only [deleteBatch, deleteSuiteMetadataRows_ok]
  | abandoned ran =>
    have hne : some CallErr.stopped ≠ none := Option.some_ne_none _
    refine ⟨_, _, _, rfl, (fun h => by cases h), ?_⟩
    cases ran with
    | false => exact .inl ⟨rfl, hne⟩
    | true =>
      refine .inr ⟨?_, fun h => absurd h hne⟩
      exact Tx.commit_of_ok (deleteSuiteMetadataRows_ok _ now db)

theorem deleteBatches_spec (key : SuiteKey) (ends : ℕ → Wait × Int) (bs : List (List Str)) (i : ℕ) (db : Db) :
    ∃ done rest n e db', deleteBatches key ends i bs db = ((n, e), db') ∧ bs = done ++ rest ∧
      db'.urlPaths = db.urlPaths.delete (fun r => (done.flatten.map key.url).contains r.key) ∧
      (e = none → rest = [] ∧
        n = db.urlPaths.count fun r => (done.flatten.map key.url).contains r.key) ∧
      ((∀ i, (ends i).1 = .answered) → e = none) := by
  induction bs generalizing i db with
  | nil =>
    have hnone : ∀ r ∈ db.urlPaths, (([] : List (List Str)).flatten.map key.url).contains r.key =
        false := fun _ _ => rfl
    refine ⟨[], [], _, _, _, rfl, rfl, (delete_of_none hnone).symm, fun _ => ⟨rfl, ?_⟩,
      fun _ => rfl⟩
    exact (List.countP_eq_zero.mpr fun r hr => by rw [hnone r hr]; decide).symm
  | cons batch bs ih =>
    obtain ⟨n, e, db₁, hrun, hans, hcases⟩ :=
      deleteBatch_cases key batch (ends i).1 (ends i).2 db
    cases e with
    | some e =>
      have hres : deleteBatches key ends i (batch :: bs) db = ((n, some e), db₁) := by
        simp only [deleteBatches, hrun]
      have hall : (∀ i, (ends i).1 = .answered) → some e = none := fun h => hans (h i)
      rcases hcases with ⟨rfl, -⟩ | ⟨rfl, -⟩
      · refine ⟨[], batch :: bs, n, some e, _, hres, rfl, ?_, (fun h => by cases h), hall⟩
        exact (delete_of_none fun _ _ => rfl).symm
      · refine ⟨[batch], bs, n, some e, _, hres, rfl, ?_, (fun h => by cases h), hall⟩
        rw [urlPaths_evictAll, List.flatten_singleton]
    | none =>
      obtain ⟨hdb, hn⟩ := hcases.resolve_left fun h => h.2 rfl
      obtain ⟨done, rest, m, e, db', hnext, rfl, hpaths, hend, hall⟩ := ih (i + 1) db₁
      have hres : deleteBatches key ends i (batch :: (done ++ rest)) db = ((n + m, e), db') := by
        simp only [deleteBatches, hrun, hnext]
      have hcontains : ∀ r : UrlPath, ((batch :: done).flatten.map key.url).contains r.key =
          ((batch.map key.url).contains r.key || (done.flatten.map key.url).contains r.key) := by
        intro r
        rw [List.flatten_cons, List.map_append, Bool.eq_iff_iff, Bool.or_eq_true]
        simp only [List.contains_iff_mem, List.mem_append]
      subst hdb
      refine ⟨batch :: done, rest, n + m, e, db', hres, rfl, ?_, fun he => ⟨(hend he).1, ?_⟩, hall⟩
      · rw [hpaths, urlPaths_evictAll, delete_delete]
        exact delete_congr fun r _ => (hcontains r).symm
      · rw [hn rfl, (hend he).2, urlPaths_evictAll, ← count_or]
        exact count_congr fun r _ => (hcontains r).symm

end Batches

/-! ## The pages as a sweep -/

theorem pathBefore_strictTotal : StrictTotal pathBefore where
  irrefl a := decide_eq_false (List.lt_irrefl a)
  trans hab hbc := decide_eq_true (List.lt_trans (of_decide_eq_true hab) (of_decide_eq_true hbc))
  total hne := (Str.lt_or_lt hne).imp decide_eq_true decide_eq_true

section Pages

variable {key : SuiteKey} {db : Db} {after : Option Str} {r : UrlPath}

theorem mem_legacyRows : r ∈ db.legacyRows key after ↔ r ∈ db.urlPaths ∧
    r.key.scheme = key.scheme ∧ r.key.host = key.host ∧ r.isMetadata = true ∧
    after.all (fun a => pathBefore a r.key.path) = true ∧
    r.key.path < key.suitePath ++ ['0'] := by
  rw [Db.legacyRows, mem_inOrder, mem_select]
  simp only [Bool.and_eq_true, beq_iff_eq, decide_eq_true_eq, and_assoc]

theorem nodup_paths (key : SuiteKey) {p : UrlPath → Bool} {t : Table UrlPath UrlKey UrlPath.key}
    (h : ∀ r, p r = true → r.key.scheme = key.scheme ∧ r.key.host = key.host) :
    ((t.select p).map fun r => r.key.path).Nodup := by
  have hkeys : ((t.select p).map UrlPath.key).Nodup :=
    t.nodup.sublist (List.filter_sublist.map UrlPath.key)
  rw [List.Nodup, List.pairwise_map] at hkeys ⊢
  refine hkeys.imp_of_mem fun {a b} ha hb hne hpath => hne ?_
  obtain ⟨hscheme, hhost⟩ := h a (mem_select.mp ha).2
  obtain ⟨hscheme', hhost'⟩ := h b (mem_select.mp hb).2
  cases hka : a.key
  cases hkb : b.key
  simp_all

theorem legacyRows_select_nodup (db : Db) (key : SuiteKey) (after : Option Str) :
    ((db.urlPaths.select fun r => r.key.scheme == key.scheme && r.key.host == key.host &&
      r.isMetadata && after.all (fun a => pathBefore a r.key.path) &&
      decide (r.key.path < key.suitePath ++ ['0'])).map fun r => r.key.path).Nodup := by
  refine nodup_paths key fun r hr => ?_
  simp only [Bool.and_eq_true, beq_iff_eq] at hr
  exact ⟨hr.1.1.1.1, hr.1.1.1.2⟩

theorem legacyRows_nodup (db : Db) (key : SuiteKey) (after : Option Str) :
    (db.legacyRows key after).Nodup :=
  .of_map _ ((perm_inOrder.map _).nodup_iff.mpr (legacyRows_select_nodup db key after))

theorem legacyRows_tail {rest : List UrlPath} (h : db.legacyRows key after = r :: rest) :
    db.legacyRows key (some r.key.path) = rest := by
  have hafter := (mem_legacyRows.mp (h ▸ List.mem_cons_self)).2.2.2.2.1
  rw [← inOrder_tail pathBefore_strictTotal (legacyRows_select_nodup db key after) h]
  refine congrArg (inOrder pathBefore _) ?_
  rw [select, select, List.filter_filter]
  refine List.filter_congr fun x _ => ?_
  rw [Option.all_some]
  cases hbefore : pathBefore r.key.path x.key.path with
  | false => simp
  | true =>
    have hx : after.all (fun a => pathBefore a x.key.path) = true := by
      cases after with
      | none => rfl
      | some a => exact pathBefore_strictTotal.trans hafter hbefore
    rw [hx, Bool.true_and]

theorem legacyRows_evict (now : Int) :
    (db.evict now r.key).legacyRows key (some r.key.path) =
      db.legacyRows key (some r.key.path) := by
  refine congrArg (inOrder pathBefore _) (select_deleteAt fun x hx => ?_)
  rw [hx, Option.all_some, pathBefore_strictTotal.irrefl, Bool.and_false, Bool.false_and]

/-- The pages as a sweep over the metadata rows of the range. -/
def legacySweep (key : SuiteKey) (now : UrlKey → Int) : Sweep Db Str UrlPath where
  key r := r.key.path
  pending db after := db.legacyRows key after
  act r db := if key.dooms r then db.evict (now r.key) r.key else db
  step {db after r rest} h := by
    split
    · rw [legacyRows_evict, legacyRows_tail h]
    · exact legacyRows_tail h

theorem actAll_legacySweep (key : SuiteKey) (now : UrlKey → Int) (rows : List UrlPath) (db : Db) :
    (legacySweep key now).actAll rows db =
      db.evictAll now ((rows.filter key.dooms).map UrlPath.key) := by
  rw [Db.evictAll, List.foldl_map, List.foldl_filter]
  rfl

theorem forM_deleteCachedRowTx (now : UrlKey → Int) (rows : List UrlPath) (db : Db) :
    (rows.forM fun u => do
      let _ ← deleteCachedRowTx u.key (now u.key)
      pure () : Tx Unit) db = .ok (⟨⟩, db.evictAll now (rows.map UrlPath.key)) := by
  rw [Db.evictAll, List.foldl_map]
  exact Tx.forM_run (fun u db => Tx.ok_bind (deleteCachedRowTx_ok u.key (now u.key) db)) rows db

theorem page_invalidatePage (key : SuiteKey) (now : UrlKey → Int) :
    (legacySweep key now).Page legacyPageSize (invalidatePage key now) := by
  intro after db
  unfold invalidatePage
  rw [Tx.get_bind, Tx.ok_bind (forM_deleteCachedRowTx now _ db), actAll_legacySweep]
  rfl

/-- The loop ends, with every metadata row of the range visited once. -/
theorem invalidatePages_ok (key : SuiteKey) (now : UrlKey → Int) (db : Db) {fuel : ℕ}
    (hfuel : (db.legacyRows key (some (key.suitePath ++ ['/']))).length < fuel) :
    pagesUntil (fun scanned => decide (scanned < legacyPageSize)) (invalidatePage key now) fuel
        (some (key.suitePath ++ ['/'])) db =
      .ok ((true, db.legacyRows key (some (key.suitePath ++ ['/']))), db.evictAll now
        (((db.legacyRows key (some (key.suitePath ++ ['/']))).filter key.dooms).map
          UrlPath.key)) := by
  rw [Sweep.pagesUntil_done (page_invalidatePage key now) (by decide)
    (fun m hm => of_decide_eq_true hm) hfuel, actAll_legacySweep]
  rfl

/-- The rows that `InvalidateLegacyMetadata` deletes. -/
def SuiteKey.legacy (key : SuiteKey) (r : UrlPath) : Bool :=
  r.isMetadata && key.owns r.key && !contains "/by-hash/".toList r.key.path

theorem legacy_iff : key.legacy r = true ↔
    r.isMetadata = true ∧ key.owns r.key = true ∧
      contains "/by-hash/".toList r.key.path = false := by
  simp only [SuiteKey.legacy, Bool.and_eq_true, Bool.not_eq_true', and_assoc]

theorem mem_doomed (hs : isCanonicalSuitePath key.suitePath = true) :
    r ∈ (db.legacyRows key (some (key.suitePath ++ ['/']))).filter key.dooms ↔
      r ∈ db.urlPaths ∧ key.legacy r = true := by
  rw [List.mem_filter, mem_legacyRows, legacy_iff, owns_iff, SuiteKey.dooms, Option.all_some,
    Bool.and_eq_true, beq_iff_eq, Bool.not_eq_true']
  constructor
  · rintro ⟨⟨hr, hscheme, hhost, hmeta, -, -⟩, hsuite, hhash⟩
    exact ⟨hr, hmeta, ⟨hscheme, hhost, hsuite⟩, hhash⟩
  · rintro ⟨hr, hmeta, ⟨hscheme, hhost, hsuite⟩, hhash⟩
    obtain ⟨hlow, hhigh⟩ := owned_range hs hsuite
    exact ⟨⟨hr, hscheme, hhost, hmeta, decide_eq_true hlow, hhigh⟩, hsuite, hhash⟩

theorem urlPaths_doomed (hs : isCanonicalSuitePath key.suitePath = true) (now : UrlKey → Int) :
    (db.evictAll now (((db.legacyRows key (some (key.suitePath ++ ['/']))).filter
      key.dooms).map UrlPath.key)).urlPaths = db.urlPaths.delete key.legacy := by
  rw [urlPaths_evictAll]
  refine delete_congr fun r hr => ?_
  rw [Bool.eq_iff_iff, List.contains_iff_mem, List.mem_map]
  constructor
  · rintro ⟨u, hu, hkey⟩
    obtain ⟨hmem, hlegacy⟩ := (mem_doomed hs).mp hu
    rwa [← eq_of_key hmem hr hkey]
  · exact fun hlegacy => ⟨r, (mem_doomed hs).mpr ⟨hr, hlegacy⟩, rfl⟩

theorem invalidateLegacyMetadataTx_post (anchorPath oldHash : Str) (now : UrlKey → Int) {fuel : ℕ}
    (hfuel : (db.legacyRows key (some (key.suitePath ++ ['/']))).length < fuel) :
    Tx.Post (invalidateLegacyMetadataTx key anchorPath oldHash now fuel) db fun out db' =>
      isCanonicalSuitePath key.suitePath = true ∧
      out = (true, db.legacyRows key (some (key.suitePath ++ ['/']))) ∧
      db'.urlPaths = db.urlPaths.delete key.legacy := by
  unfold invalidateLegacyMetadataTx
  rw [Tx.post_bind, Tx.post_ensure]
  rintro ⟨hs, -⟩
  rw [Tx.post_bind, Tx.post_get, Tx.post_bind, Tx.post_getOr]
  intro suite _
  rw [Tx.post_bind, Tx.post_ensure]
  intro _
  rw [Tx.post_bind, Tx.post_getOr]
  intro u _
  rw [Tx.post_bind, Tx.post_ensure]
  intro _
  rw [Tx.post_bind]
  intro out db' hrun
  rw [invalidatePages_ok key now db hfuel] at hrun
  obtain ⟨rfl, rfl⟩ := Prod.mk.inj (Except.ok.inj hrun)
  rw [Tx.post_bind, Tx.post_modify, Tx.post_pure]
  exact ⟨hs, rfl, urlPaths_doomed hs now⟩

/-! ## All rows at once -/

theorem evict_comm (now : Int) (db : Db) (k k' : UrlKey) :
    (db.evict now k).evict now k' = (db.evict now k').evict now k := by
  by_cases hk : k = k'
  · rw [hk]
  have h : (db.evict now k).urlPaths.find k' = db.urlPaths.find k' :=
    find_deleteAt.trans (if_neg (Ne.symm hk))
  have h' : (db.evict now k').urlPaths.find k = db.urlPaths.find k :=
    find_deleteAt.trans (if_neg hk)
  simp only [Db.evict] at h h' ⊢
  rw [h, h', deleteAt_comm, releaseBlob_comm]

theorem evictAll_perm (now : Int) (db : Db) {ks ks' : List UrlKey} (h : ks.Perm ks') :
    db.evictAll (fun _ => now) ks = db.evictAll (fun _ => now) ks' :=
  h.foldl_eq' (fun k _ k' _ db => (evict_comm now db k' k).symm) db

/-- At one time, the pages come to what `invalidateLegacyMetadata` does with all rows at once. -/
theorem invalidateLegacyMetadataTx_outcome (anchorPath oldHash : Str) (now : Int) {fuel : ℕ}
    (hfuel : (db.legacyRows key (some (key.suitePath ++ ['/']))).length < fuel) :
    (invalidateLegacyMetadataTx key anchorPath oldHash (fun _ => now) fuel).outcome db =
      (invalidateLegacyMetadata key anchorPath oldHash fun _ => now).outcome db := by
  refine Tx.outcome_ensure_congr fun hargs => ?_
  refine Tx.outcome_get_congr (Tx.outcome_getOr_congr fun suite _ => ?_)
  refine Tx.outcome_ensure_congr fun _ => ?_
  refine Tx.outcome_getOr_congr fun u _ => ?_
  refine Tx.outcome_ensure_congr fun _ => ?_
  have hperm : (((db.legacyRows key (some (key.suitePath ++ ['/']))).filter key.dooms).map
      UrlPath.key).Perm ((db.urlPaths.select fun u => u.isMetadata && u.key.scheme == key.scheme &&
        u.key.host == key.host && suitePath u.key.path == key.suitePath &&
        !contains "/by-hash/".toList u.key.path).map UrlPath.key) := by
    refine ((List.perm_ext_iff_of_nodup ((legacyRows_nodup db key _).filter _)
      (.filter _ (.of_map _ db.urlPaths.nodup))).mpr fun r => ?_).map _
    rw [mem_doomed hargs.1, List.mem_filter, legacy_iff, owns_iff, mem_def]
    simp only [Bool.and_eq_true, beq_iff_eq, Bool.not_eq_true', and_assoc]
  have hpages := invalidatePages_ok key (fun _ => now) db hfuel
  rw [evictAll_perm now db hperm] at hpages
  have hrows := forM_deleteCachedRowTx (fun _ => now) (db.urlPaths.select fun u =>
    u.isMetadata && u.key.scheme == key.scheme && u.key.host == key.host &&
      suitePath u.key.path == key.suitePath && !contains "/by-hash/".toList u.key.path) db
  refine (Tx.outcome_ok_bind hpages).trans (Eq.trans ?_ (Tx.outcome_ok_bind hrows).symm)
  rfl

/-- A metadata row of the suite `stable`. -/
def memberRow (name : Str) : UrlPath :=
  ⟨⟨stable.scheme, stable.host, stable.suitePath ++ '/' :: name⟩, some (digest 'a'), true, none, 0,
    none, none⟩

/-- The anchor and as many members as a page has. -/
def pagedRows : List UrlPath :=
  memberRow "InRelease".toList ::
    (List.range 256).map fun n => memberRow ("main/".toList ++ List.replicate n 'x')

/-- The suite with these rows. -/
def pagedDb : Db :=
  { indexCache.db with
    urlPaths := ⟨pagedRows, by
      rw [pagedRows, List.map_cons, List.map_map, List.nodup_cons]
      refine ⟨fun h => ?_, List.nodup_range.map fun m n hmn => ?_⟩
      · obtain ⟨n, -, hn⟩ := List.mem_map.mp h
        cases congrArg UrlKey.path hn
      · simpa [memberRow] using congrArg (fun k : UrlKey => k.path.length) hmn⟩ }

theorem length_legacyRows_pagedDb :
    (pagedDb.legacyRows stable (some (stable.suitePath ++ ['/']))).length = 257 := by
  have hall : ∀ r ∈ pagedRows, (r.key.scheme == stable.scheme && r.key.host == stable.host &&
      r.isMetadata && pathBefore (stable.suitePath ++ ['/']) r.key.path &&
      decide (r.key.path < stable.suitePath ++ ['0'])) = true := by
    intro r hr
    rcases List.mem_cons.mp hr with rfl | hr
    · rfl
    · obtain ⟨n, -, rfl⟩ := List.mem_map.mp hr
      rfl
  rw [Db.legacyRows, inOrder, List.length_insertionSort]
  exact (congrArg List.length (List.filter_eq_self.mpr hall)).trans (by simp [pagedRows])

theorem invalidateLegacyMetadataTx_outcome_paged :
    legacyPageSize < (pagedDb.legacyRows stable (some (stable.suitePath ++ ['/']))).length ∧
    (invalidateLegacyMetadataTx stable "/debian/dists/stable/InRelease".toList (digest 'a')
      (fun _ => 4) 258).outcome pagedDb =
    (invalidateLegacyMetadata stable "/debian/dists/stable/InRelease".toList (digest 'a')
      fun _ => 4).outcome pagedDb :=
  ⟨by rw [length_legacyRows_pagedDb]; decide,
    invalidateLegacyMetadataTx_outcome _ _ 4 (by rw [length_legacyRows_pagedDb]; decide)⟩

end Pages

/-! ## Exactness -/

section Exact

variable {key : SuiteKey} {db : Db} {k : UrlKey}

theorem mem_map_url {l : List Str} : k ∈ l.map key.url ↔
    k.scheme = key.scheme ∧ k.host = key.host ∧ k.path ∈ l := by
  rw [List.mem_map]
  constructor
  · rintro ⟨p, hp, rfl⟩
    exact ⟨rfl, rfl, hp⟩
  · rintro ⟨hscheme, hhost, hp⟩
    refine ⟨k.path, hp, ?_⟩
    rw [SuiteKey.url, ← hscheme, ← hhost]

theorem owns_of_listed (hs : isCanonicalSuitePath key.suitePath = true)
    (h : k ∈ ((db.suiteMetadataPaths key).1 ++ (db.suiteMetadataPaths key).2).map key.url) :
    key.owns k = true := by
  obtain ⟨hscheme, hhost, hpath⟩ := mem_map_url.mp h
  rw [List.mem_append, (mem_suiteMetadataPaths hs).1, (mem_suiteMetadataPaths hs).2,
    ← and_or_left] at hpath
  obtain ⟨⟨u, -, howns, hu⟩, -⟩ := hpath
  rw [owns_iff] at howns ⊢
  exact ⟨hscheme, hhost, hu ▸ howns.2.2⟩

/-- The path of a row is listed if and only if the row is of the suite. -/
theorem listed_iff (hs : isCanonicalSuitePath key.suitePath = true) {r : UrlPath}
    (hr : r ∈ db.urlPaths) :
    r.key ∈ ((db.suiteMetadataPaths key).1 ++ (db.suiteMetadataPaths key).2).map key.url ↔
      key.owns r.key = true := by
  refine ⟨owns_of_listed hs, fun howns => ?_⟩
  obtain ⟨hscheme, hhost, -⟩ := owns_iff.mp howns
  rw [mem_map_url, List.mem_append, (mem_suiteMetadataPaths hs).1, (mem_suiteMetadataPaths hs).2,
    ← and_or_left]
  exact ⟨hscheme, hhost, ⟨r, hr, howns, rfl⟩, (Bool.eq_false_or_eq_true _).symm⟩

end Exact

/-- What `DeleteSuiteMetadata` leaves, with the number and the error that it returns. -/
structure MetadataDeleted (key : SuiteKey) (db : Db) (n : ℕ) (e : Option CallErr) (db' : Db) :
    Prop where
  /-- Without an error the rows of the suite are gone, and no others. -/
  exact_rows : e = none → db'.urlPaths = db.urlPaths.delete (fun r => key.owns r.key) ∧
    n = db.urlPaths.count fun r => key.owns r.key
  /-- If an anchor is gone, then every row of the suite that is not one is gone. -/
  anchors_last : ∀ r ∈ db.urlPaths, key.owns r.key = true → key.isAnchor r.key.path = true →
    r ∉ db'.urlPaths →
      ∀ x ∈ db'.urlPaths, key.owns x.key = true → key.isAnchor x.key.path = true
  /-- In any case the other rows are as they were. -/
  others : ∀ k, key.owns k = false → db'.urlPaths.find k = db.urlPaths.find k

theorem deleteSuiteMetadata_deleted {key : SuiteKey} {ends : ℕ → Wait × Int} {db db' : Db} {n : ℕ}
    {e : Option CallErr} (hs : isCanonicalSuitePath key.suitePath = true)
    (h : deleteSuiteMetadata key ends db = ((n, e), db')) : MetadataDeleted key db n e db' := by
  have hflat : ∀ l : List Str, (batches reapMetadataBatch l).flatten = l :=
    flatten_batches (by decide)
  obtain ⟨done, rest, n₁, e₁, db₁, hrun, hsplit, hpaths, hend, -⟩ := deleteBatches_spec key ends
    (batches reapMetadataBatch (db.suiteMetadataPaths key).1 ++
      batches reapMetadataBatch (db.suiteMetadataPaths key).2) 0 db
  obtain ⟨hout, rfl⟩ := Prod.mk.inj (hrun.symm.trans h)
  obtain ⟨rfl, rfl⟩ := Prod.mk.inj hout
  have hlisted : (db.suiteMetadataPaths key).1 ++ (db.suiteMetadataPaths key).2 =
      done.flatten ++ rest.flatten := by
    have hall := congrArg List.flatten hsplit
    rwa [List.flatten_append, hflat, hflat, List.flatten_append] at hall
  -- a row is gone if its path is in a batch that was run
  have hgone : ∀ {x : UrlPath}, x ∈ db.urlPaths →
      (x ∉ db₁.urlPaths ↔ x.key ∈ done.flatten.map key.url) := by
    intro x hx
    rw [hpaths, mem_delete, and_iff_right hx, Bool.not_eq_false, List.contains_iff_mem]
  refine ⟨fun he => ?_, fun r hr howns hanchor hr' x hx hxowns => ?_, fun k hk => ?_⟩
  · obtain ⟨rfl, hn⟩ := hend he
    rw [List.flatten_nil, List.append_nil] at hlisted
    have hsame : ∀ r ∈ db.urlPaths, (done.flatten.map key.url).contains r.key = key.owns r.key := by
      intro r hr
      rw [Bool.eq_iff_iff, List.contains_iff_mem, ← hlisted, listed_iff hs hr]
    exact ⟨hpaths.trans (delete_congr hsame), hn.trans (count_congr hsame)⟩
  · have hpath : r.key.path ∈ done.flatten := (mem_map_url.mp ((hgone hr).mp hr')).2.2
    rw [List.append_eq_append_iff] at hsplit
    rcases hsplit with ⟨as, rfl, -⟩ | ⟨bs, hplain, -⟩
    · -- all the plain paths were in a batch that was run
      have hxdb : x ∈ db.urlPaths := by
        rw [hpaths] at hx
        exact (mem_delete.mp hx).1
      by_contra hxanchor
      refine (hgone hxdb).mpr (mem_map_url.mpr ?_) hx
      obtain ⟨hscheme, hhost, -⟩ := owns_iff.mp hxowns
      refine ⟨hscheme, hhost, ?_⟩
      rw [List.flatten_append, hflat]
      exact List.mem_append_left _ ((mem_suiteMetadataPaths hs).1.mpr
        ⟨⟨x, hxdb, hxowns, rfl⟩, Bool.eq_false_of_not_eq_true hxanchor⟩)
    · have hmem : r.key.path ∈ (db.suiteMetadataPaths key).1 := by
        rw [← hflat (db.suiteMetadataPaths key).1, hplain, List.flatten_append]
        exact List.mem_append_left _ hpath
      rw [((mem_suiteMetadataPaths hs).1.mp hmem).2] at hanchor
      cases hanchor
  · rw [hpaths]
    refine find_delete_eq fun r hr => ?_
    rw [Bool.eq_false_iff, Ne, List.contains_iff_mem, hr]
    intro hmem
    have hlist : k ∈ ((db.suiteMetadataPaths key).1 ++ (db.suiteMetadataPaths key).2).map key.url := by
      rw [hlisted, List.map_append]
      exact List.mem_append_left _ hmem
    rw [owns_of_listed hs hlist] at hk
    cases hk

theorem deleteSuiteMetadata_of_not_canonical {key : SuiteKey}
    (hs : isCanonicalSuitePath key.suitePath = false) (ends : ℕ → Wait × Int) (db : Db) :
    deleteSuiteMetadata key ends db = ((0, none), db) := by
  rw [deleteSuiteMetadata, Db.suiteMetadataPaths, if_neg (by rw [hs]; decide)]
  rfl

theorem deleteSuiteMetadata_answered (key : SuiteKey) {ends : ℕ → Wait × Int}
    (h : ∀ i, (ends i).1 = .answered) (db : Db) : (deleteSuiteMetadata key ends db).1.2 = none := by
  obtain ⟨-, -, n, e, db', hrun, -, -, -, hall⟩ := deleteBatches_spec key ends
    (batches reapMetadataBatch (db.suiteMetadataPaths key).1 ++
      batches reapMetadataBatch (db.suiteMetadataPaths key).2) 0 db
  rw [deleteSuiteMetadata, hrun]
  exact hall h

theorem owns_twin {key : SuiteKey} (hs : isCanonicalSuitePath key.suitePath = true)
    (scheme : Scheme) (host m : Str) : key.owns ⟨scheme, host, key.suitePath ++ "/./".toList ++ m⟩ = false := by
  rw [Bool.eq_false_iff, Ne, owns_iff]
  exact fun h => suitePath_dot_ne (isCanonicalSuitePath_iff.mp hs).1 m h.2.2

/-- **Suite metadata deletion is exact.** `DeleteSuiteMetadata` deletes the rows of the suite and no
others, the anchors only when all other rows of the suite are gone, and nothing for a key that is
not canonical. The pages of `InvalidateLegacyMetadata` end and visit every row to delete once; a
transaction that commits has deleted the metadata rows of the suite outside `by-hash`, and one that
fails nothing. Rows of the twin, of other suites, hosts and schemes stay. -/
theorem suite_metadata_deletion (db : Db) (key : SuiteKey) :
    (isCanonicalSuitePath key.suitePath = false →
      ∀ ends, deleteSuiteMetadata key ends db = ((0, none), db)) ∧
    (isCanonicalSuitePath key.suitePath = true →
      (∀ ends n e db', deleteSuiteMetadata key ends db = ((n, e), db') →
        MetadataDeleted key db n e db' ∧ ((∀ i, (ends i).1 = .answered) → e = none)) ∧
      ∀ scheme host m, key.owns ⟨scheme, host, key.suitePath ++ "/./".toList ++ m⟩ = false) ∧
    ∀ anchorPath oldHash now, ∃ rows : List UrlPath, rows.Nodup ∧ ∀ fuel, rows.length < fuel →
      (∀ out db', invalidateLegacyMetadataTx key anchorPath oldHash now fuel db = .ok (out, db') →
        out = (true, rows) ∧ (∀ r ∈ db.urlPaths, key.legacy r = true → r ∈ rows) ∧
        db'.urlPaths = db.urlPaths.delete key.legacy ∧
        ∀ k, key.owns k = false → db'.urlPaths.find k = db.urlPaths.find k) ∧
      ∀ e, invalidateLegacyMetadataTx key anchorPath oldHash now fuel db = .error e →
        ∀ w, (submitWrite (Functor.discard
          (invalidateLegacyMetadataTx key anchorPath oldHash now fuel)) w db).2 = db := by
  refine ⟨fun hs ends => deleteSuiteMetadata_of_not_canonical hs ends db,
    fun hs => ⟨fun ends n e db' h => ⟨deleteSuiteMetadata_deleted hs h, fun hans => ?_⟩,
      owns_twin hs⟩, fun anchorPath oldHash now => ?_⟩
  · have hnone := deleteSuiteMetadata_answered key hans db
    rwa [h] at hnone
  · refine ⟨db.legacyRows key (some (key.suitePath ++ ['/'])), legacyRows_nodup db key _,
      fun fuel hfuel => ⟨fun out db' h => ?_, fun e h w => ?_⟩⟩
    · obtain ⟨hs, hout, hpaths⟩ :=
        invalidateLegacyMetadataTx_post anchorPath oldHash now hfuel out db' h
      refine ⟨hout, fun r hr hlegacy => ?_, hpaths, fun k hk => ?_⟩
      · exact (List.mem_filter.mp ((mem_doomed hs).mpr ⟨hr, hlegacy⟩)).1
      · rw [hpaths]
        refine find_delete_eq fun r hr => ?_
        rw [SuiteKey.legacy, hr, hk, Bool.and_false, Bool.false_and]
    · exact submitWrite_error (Tx.discard_error h) w

/-- A suite with an anchor and an index, and an anchor of a suite below it. -/
def nestedDb : Db :=
  { Db.empty with
    urlPaths := ⟨[⟨⟨.http, ['h'], "/d/dists/a/InRelease".toList⟩, none, true, none, 0, none, none⟩,
      ⟨⟨.http, ['h'], "/d/dists/a/main/Packages".toList⟩, none, true, none, 0, none, none⟩,
      ⟨⟨.http, ['h'], "/d/dists/a/dists/b/Release".toList⟩, none, true, none, 0, none, none⟩],
      by decide +kernel⟩ }

/-- The suite with the two files. -/
def nestedKey : SuiteKey := ⟨.http, ['h'], "/d/dists/a".toList⟩

theorem suite_metadata_deletion_nestedDb :
    ((deleteSuiteMetadata nestedKey (fun _ => (.answered, 5)) nestedDb).2.urlPaths.rows.map
      fun r => r.key.path) = ["/d/dists/a/dists/b/Release".toList] := by
  generalize hrun : deleteSuiteMetadata nestedKey (fun _ => (.answered, 5)) nestedDb = res
  obtain ⟨⟨n, e⟩, db'⟩ := res
  obtain ⟨hdeleted, hdone⟩ := ((suite_metadata_deletion nestedDb nestedKey).2.1
    (by decide +kernel)).1 (fun _ => (.answered, 5)) n e db' hrun
  rw [(hdeleted.exact_rows (hdone fun _ => rfl)).1]
  decide +kernel

end AptCacher.Cache
