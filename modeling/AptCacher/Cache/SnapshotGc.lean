import AptCacher.Cache.Pointer
import AptCacher.Spec.Drain
import AptCacher.Spec.Ranking
import Mathlib.Data.List.Lex
import Mathlib.Data.Prod.Lex

/-!
# The snapshot pass

The pass runs `RunSnapshotGCBatch` until a batch reaps nothing, and then
`RunRetiredSnapshotGCChunk` until no retired snapshot is left. Both take an arbitrary part of what
their query finds (a `LIMIT` without an order), and the first ranks the displaced snapshots anew
in each batch. Both drain (`Spec.Drain`): what is due and was not picked stays due, so the pass
ends with the same database whatever was picked.

* `snapshotGCBatch limit`, `retiredChunk limits`: the transactions with their limits open;
  `runSnapshotGCBatch` and `runRetiredSnapshotGCChunk` take the first rows.
* `snapshotPass`, `retiredPass`: the loops.
* `surplus_dropSnapshots`: deleting surplus snapshots keeps the rest of them surplus, and makes no
  other one surplus.
* `snapshot_gc_result`: what the first loop deletes.
-/

namespace AptCacher.Cache

open Spec Table

/-- The database without the snapshots whose ids meet `p`, and without their rows. -/
def Db.dropSnapshots (db : Db) (p : Nat → Bool) : Db :=
  { db with
    members := db.members.delete fun m => p m.snapshotId
    skipped := db.skipped.delete fun m => p m.snapshotId
    packageHashes := db.packageHashes.delete fun r => p r.snapshotId
    snapshots := db.snapshots.delete fun s => p s.id }

theorem dropSnapshots_dropSnapshots (db : Db) (p q : Nat → Bool) :
    (db.dropSnapshots p).dropSnapshots q = db.dropSnapshots fun id => p id || q id := by
  simp only [Db.dropSnapshots, delete_delete]

theorem dropSnapshots_none (db : Db) : db.dropSnapshots (fun _ => false) = db := by
  simp only [Db.dropSnapshots, delete_of_none, implies_true]

/-! ## Orphaned and surplus snapshots -/

/-- `reap_class`. -/
inductive ReapClass
  | orphan
  | displaced
  deriving DecidableEq

/-- The result of the `UNION ALL` before its `LIMIT`. -/
def Db.reapRows (db : Db) (cutoff : Int) (keep : Nat) : List (Nat × ReapClass) :=
  (db.snapshots.select (db.orphan cutoff)).map (fun s => (s.id, .orphan)) ++
    (db.snapshots.select (db.surplus keep)).map fun s => (s.id, .displaced)

/-- `RunSnapshotGCBatch`, with the rows its `LIMIT` picks. -/
def snapshotGCBatch (limit : Limit (Nat × ReapClass))
    (batchSize staleGraceSeconds keepDisplaced now : Int) : Tx (Nat × Nat) := do
  Tx.ensure (1 ≤ batchSize) .invalidArgument
  Tx.ensure (0 ≤ keepDisplaced) .invalidArgument
  let db ← get
  let picked := limit.pick batchSize.toNat
    (db.reapRows (now - staleGraceSeconds) keepDisplaced.toNat)
  deleteSnapshots (picked.map Prod.fst)
  pure (picked.countP (·.2 = .orphan), picked.countP (·.2 = .displaced))

theorem take_reapRows (db : Db) (cutoff : Int) (keep n : Nat) :
    (db.reapRows cutoff keep).take n =
      ((db.snapshots.select (db.orphan cutoff)).take n).map (fun s => (s.id, .orphan)) ++
        ((db.snapshots.select (db.surplus keep)).take
          (n - ((db.snapshots.select (db.orphan cutoff)).take n).length)).map
            fun s => (s.id, .displaced) := by
  have hleft : ∀ k : Nat, n - min n k = n - k := fun k => by omega
  rw [Db.reapRows, List.take_append, List.length_map, ← List.map_take, ← List.map_take,
    List.length_take, hleft]

theorem runSnapshotGCBatch_eq (batchSize grace keep now : Int) :
    runSnapshotGCBatch batchSize grace keep now = snapshotGCBatch .first batchSize grace keep now := by
  have hcount : ∀ (l : List Snapshot) (c c' : ReapClass),
      (l.map fun s => (s.id, c)).countP (·.2 = c') = if c = c' then l.length else 0 := by
    intro l c c'
    by_cases hc : c = c' <;> simp [List.countP_map, Function.comp_def, hc]
  have hids : ∀ (l : List Snapshot) (c : ReapClass),
      (l.map fun s => (s.id, c)).map Prod.fst = l.map Snapshot.id := by
    intro l c
    rw [List.map_map]
    rfl
  simp only [runSnapshotGCBatch, snapshotGCBatch, Limit.first, take_reapRows, List.map_append,
    hids, List.countP_append, hcount, if_true, reduceCtorEq, if_false, Nat.add_zero, Nat.zero_add]

/-- The loop of `runSnapshotPass`: batches until one reaps nothing. The limit of each batch picks
its own rows. -/
def snapshotPass (limits : Nat → Limit (Nat × ReapClass)) (batchSize grace keep now : Int)
    (fuel : Nat) : Tx Bool :=
  rounds (fun i => do
    let (orphans, displaced) ← snapshotGCBatch (limits i) batchSize grace keep now
    pure (orphans + displaced != 0)) fuel 0

/-- The ids a batch may delete. -/
def Db.reapIds (db : Db) (cutoff : Int) (keep : Nat) : Finset Nat :=
  ((db.reapRows cutoff keep).map Prod.fst).toFinset

variable {db : Db} {cutoff : Int} {keep : Nat} {s : Snapshot}

theorem mem_reapIds {id : Nat} : id ∈ db.reapIds cutoff keep ↔
    ∃ s ∈ db.snapshots, s.id = id ∧ (db.orphan cutoff s = true ∨ db.surplus keep s = true) := by
  simp only [Db.reapIds, Db.reapRows, List.mem_toFinset, List.map_append, List.map_map,
    List.mem_append, List.mem_map, mem_select, Function.comp_apply]
  constructor
  · rintro (⟨s, ⟨hs, ho⟩, rfl⟩ | ⟨s, ⟨hs, ho⟩, rfl⟩)
    · exact ⟨s, hs, rfl, .inl ho⟩
    · exact ⟨s, hs, rfl, .inr ho⟩
  · rintro ⟨s, hs, rfl, ho | ho⟩
    · exact .inl ⟨s, ⟨hs, ho⟩, rfl⟩
    · exact .inr ⟨s, ⟨hs, ho⟩, rfl⟩

theorem mem_reapIds_of_mem (hs : s ∈ db.snapshots) : s.id ∈ db.reapIds cutoff keep ↔
      db.orphan cutoff s = true ∨ db.surplus keep s = true := by
  rw [mem_reapIds]
  constructor
  · rintro ⟨s', hs', hid, h⟩
    rwa [eq_of_key hs' hs hid] at h
  · exact fun h => ⟨s, hs, rfl, h⟩

/-! ## The ranking -/

section Ranking

variable {db : Db} {cutoff : Int} {keep : Nat} {s : Snapshot}

/-- The order of the ranking. -/
def Snapshot.age (s : Snapshot) : Int ×ₗ Nat := toLex (s.adoptedAt.getD 0, s.id)

theorem newer_iff {s' : Snapshot} : s'.newer s = true ↔ s.age < s'.age := by
  simp [Snapshot.newer, Snapshot.age, Prod.Lex.toLex_lt_toLex]

/-- The displaced snapshots of a suite. -/
def Db.displacedSet (db : Db) (key : SuiteKey) : Finset Snapshot :=
  (db.snapshots.select fun s => db.displaced s && s.key == key).toFinset

theorem mem_displacedSet {key : SuiteKey} : s ∈ db.displacedSet key ↔
    s ∈ db.snapshots ∧ db.displaced s = true ∧ s.key = key := by
  simp [Db.displacedSet, mem_select]

theorem age_injOn (key : SuiteKey) : Set.InjOn Snapshot.age (db.displacedSet key) := by
  intro a ha b hb hab
  have hid : a.id = b.id := congrArg (fun x => (ofLex x).2) hab
  exact eq_of_key (mem_displacedSet.mp ha).1 (mem_displacedSet.mp hb).1 hid

theorem count_displaced (key : SuiteKey) (p : Snapshot → Bool) :
    db.snapshots.count (fun s => db.displaced s && s.key == key && p s) =
      ((db.displacedSet key).filter fun s => p s = true).card := by
  have hnodup : db.snapshots.rows.Nodup := db.snapshots.nodup.of_map _
  rw [Db.displacedSet, ← List.toFinset_filter, select, List.filter_filter,
    List.toFinset_card_of_nodup (hnodup.filter _), Table.count, List.countP_eq_length_filter]
  congr 2
  funext s
  rw [Bool.and_comm]

theorem surplus_iff : db.surplus keep s = true ↔ db.displaced s = true ∧
    keep ≤ Ranking.rank (db.displacedSet s.key) Snapshot.age s := by
  simp only [Db.surplus, Bool.and_eq_true, decide_eq_true_eq, count_displaced, Ranking.rank,
    newer_iff]

variable {A : Finset Nat}

/-- A displaced snapshot that is not surplus stays when a part of what a batch may delete goes. -/
theorem notMem_of_rank (hA : A ⊆ db.reapIds cutoff keep) (hs : s ∈ db.snapshots)
    (hd : db.displaced s = true) (hr : Ranking.rank (db.displacedSet s.key) Snapshot.age s < keep) :
    s.id ∉ A := by
  intro hin
  rcases (mem_reapIds_of_mem hs).mp (hA hin) with ho | hsur
  · simp only [Db.orphan, Db.displaced, Bool.and_eq_true, Option.isNone_iff_eq_none] at ho hd
    rw [ho.1.1] at hd
    exact absurd hd.1.1.1 (by decide)
  · have := (surplus_iff.mp hsur).2
    omega

/-- A snapshot that stays is surplus after a batch if and only if it was before: the `keep` newest
ones are never picked, and the rank of the others falls no lower than `keep`. -/
theorem surplus_dropSnapshots (hA : A ⊆ db.reapIds cutoff keep) :
    (db.dropSnapshots fun id => decide (id ∈ A)).surplus keep s = db.surplus keep s := by
  have hcount : (db.dropSnapshots fun id => decide (id ∈ A)).snapshots.count
      (fun s' => db.displaced s' && s'.key == s.key && s'.newer s) =
      ((db.displacedSet s.key).filter fun s' => (s'.newer s && !decide (s'.id ∈ A)) = true).card := by
    rw [← count_displaced]
    exact count_delete.trans (count_congr fun r _ => by rw [Bool.and_assoc])
  have hsurplus : (db.dropSnapshots fun id => decide (id ∈ A)).surplus keep s =
      (db.displaced s && decide (keep ≤ (db.dropSnapshots fun id => decide (id ∈ A)).snapshots.count
        fun s' => db.displaced s' && s'.key == s.key && s'.newer s)) := rfl
  rw [Bool.eq_iff_iff, hsurplus, hcount, surplus_iff, Bool.and_eq_true, decide_eq_true_eq]
  refine and_congr_right fun _ => ⟨fun h => h.trans (Finset.card_le_card fun x hx => ?_), fun h => ?_⟩
  · obtain ⟨hmem, hx⟩ := Finset.mem_filter.mp hx
    rw [Bool.and_eq_true] at hx
    exact Finset.mem_filter.mpr ⟨hmem, newer_iff.mp hx.1⟩
  · refine (Ranking.le_card_rank_lt (age_injOn s.key) h).trans (Finset.card_le_card fun x hx => ?_)
    obtain ⟨hmem, hlt, hrank⟩ := Finset.mem_filter.mp hx
    obtain ⟨hx, hd, hkey⟩ := mem_displacedSet.mp hmem
    have hstay : x.id ∉ A := notMem_of_rank hA hx hd (hkey ▸ hrank)
    refine Finset.mem_filter.mpr ⟨hmem, ?_⟩
    rw [Bool.and_eq_true]
    exact ⟨newer_iff.mpr hlt, by simpa using hstay⟩

theorem reapIds_dropSnapshots (hA : A ⊆ db.reapIds cutoff keep) :
    (db.dropSnapshots fun id => decide (id ∈ A)).reapIds cutoff keep =
      db.reapIds cutoff keep \ A := by
  ext id
  rw [Finset.mem_sdiff, mem_reapIds, mem_reapIds]
  constructor
  · rintro ⟨s, hs, rfl, h⟩
    obtain ⟨hs, hstay⟩ := mem_delete.mp hs
    rw [surplus_dropSnapshots hA] at h
    exact ⟨⟨s, hs, rfl, h⟩, by simpa using hstay⟩
  · rintro ⟨⟨s, hs, rfl, h⟩, hstay⟩
    refine ⟨s, mem_delete.mpr ⟨hs, by simpa using hstay⟩, rfl, ?_⟩
    rw [surplus_dropSnapshots hA]
    exact h

end Ranking

/-! ## The first loop -/

/-- Batches drain the snapshots they may delete. -/
def snapshotDrain (cutoff : Int) (keep : Nat) : Drain Db Nat where
  due db := db.reapIds cutoff keep
  erase A db := db.dropSnapshots fun id => decide (id ∈ A)
  part db A := A ⊆ db.reapIds cutoff keep
  sub h := h
  due_erase h := reapIds_dropSnapshots h
  erase_empty db := by
    simp only [Finset.notMem_empty, decide_false]
    exact dropSnapshots_none db
  erase_erase A B db := by
    simp only [dropSnapshots_dropSnapshots, Finset.mem_union, Bool.decide_or]

theorem deleteSnapshots_ok (ids : List Nat) (db : Db) :
    deleteSnapshots ids db = .ok (⟨⟩, db.dropSnapshots fun id => decide (id ∈ ids.toFinset)) := by
  simp only [List.mem_toFinset, ← List.contains_eq_mem]
  rfl

theorem countP_reapClass (l : List (Nat × ReapClass)) :
    l.countP (·.2 = .orphan) + l.countP (·.2 = .displaced) = l.length := by
  rw [List.length_eq_countP_add_countP (p := fun r => r.2 = .orphan)]
  congr 1
  refine List.countP_congr fun r _ => ?_
  cases r.2 with
  | orphan => decide
  | displaced => decide

/-- A batch deletes what its limit picks, and reaps nothing only if there is nothing. -/
theorem snapshotGCBatch_deletes (limit : Limit (Nat × ReapClass)) {batchSize keep : Int}
    (grace now : Int) (hn : 1 ≤ batchSize) (hk : 0 ≤ keep) :
    (snapshotDrain (now - grace) keep.toNat).Deletes (do
      let (orphans, displaced) ← snapshotGCBatch limit batchSize grace keep now
      pure (orphans + displaced != 0) : Tx Bool) := by
  intro db
  have hlimit : 1 ≤ batchSize.toNat := by omega
  generalize hpicked : limit.pick batchSize.toNat
    (db.reapRows (now - grace) keep.toNat) = picked
  refine ⟨(picked.map Prod.fst).toFinset, picked.length != 0, ?_, ?_, ?_, ?_⟩
  · intro id hid
    rw [List.mem_toFinset] at hid
    obtain ⟨r, hr, rfl⟩ := List.mem_map.mp hid
    subst hpicked
    exact List.mem_toFinset.mpr (List.mem_map_of_mem (limit.mem_of_mem_pick hr))
  · have hbatch : snapshotGCBatch limit batchSize grace keep now db =
        .ok ((picked.countP (·.2 = .orphan), picked.countP (·.2 = .displaced)),
          db.dropSnapshots fun id => decide (id ∈ (picked.map Prod.fst).toFinset)) := by
      rw [snapshotGCBatch, Tx.ensure_bind hn, Tx.ensure_bind hk, Tx.get_bind, hpicked]
      simp only [bind, StateT.bind, deleteSnapshots_ok]
      rfl
    simp only [bind, StateT.bind, hbatch]
    rw [← countP_reapClass picked]
    rfl
  · intro hmore
    have hne : picked ≠ [] := by simpa using hmore
    obtain ⟨r, hr⟩ := List.exists_mem_of_ne_nil _ hne
    exact ⟨r.1, List.mem_toFinset.mpr (List.mem_map_of_mem hr)⟩
  · intro hnone
    have hnil : picked = [] := by simpa using hnone
    have hrows : db.reapRows (now - grace) keep.toNat = [] := by
      by_contra hne
      exact limit.pick_ne_nil hlimit hne (hpicked.trans hnil)
    show db.reapIds _ _ = ∅
    rw [Db.reapIds, hrows]
    rfl

/-- A candidate that was never adopted and whose heartbeat is older than the cutoff. -/
def Snapshot.stale (s : Snapshot) (cutoff : Int) : Bool :=
  s.adoptedAt.isNone && s.heartbeatAt.any (· < cutoff)

/-- The id is that of a stale candidate, or of a displaced snapshot that is not among the `keep`
newest ones of its suite. -/
def Db.collected (db : Db) (cutoff : Int) (keep : Nat) (id : Nat) : Bool :=
  db.snapshots.any fun s => s.id == id && (s.stale cutoff ||
    db.displaced s && decide (keep ≤ Ranking.rank (db.displacedSet s.key) Snapshot.age s))

theorem orphan_eq_stale (hp : Pointers db) (hs : s ∈ db.snapshots) :
    db.orphan cutoff s = s.stale cutoff := by
  rw [Db.orphan, Snapshot.stale]
  by_cases hc : db.isCurrent s.id = true
  · obtain ⟨r, hr, hcur⟩ := any_iff.mp hc
    obtain ⟨s', hs', hid, -, -, a, ha, -⟩ := hp.current r hr s.id (by simpa using hcur)
    rw [eq_of_key hs hs' hid.symm, ha]
    rfl
  · rw [Bool.eq_false_iff.mpr hc, Bool.not_false, Bool.and_true]

theorem mem_reapIds_iff_collected (hp : Pointers db) {id : Nat} :
    decide (id ∈ db.reapIds cutoff keep) = db.collected cutoff keep id := by
  rw [Bool.eq_iff_iff, decide_eq_true_eq, mem_reapIds, Db.collected, any_iff]
  refine exists_congr fun s => and_congr_right fun hs => ?_
  rw [Bool.and_eq_true, beq_iff_eq, Bool.or_eq_true, Bool.and_eq_true, decide_eq_true_eq,
    ← surplus_iff, orphan_eq_stale hp hs]

theorem notMem_reapIds (hs : s ∈ db.snapshots)
    (h : db.isCurrent s.id = true ∨ s.adoptedAt.isSome = true ∧
      (s.retiredAt.isSome = true ∨ (db.audit.find s.id).isSome = true)) :
    s.id ∉ db.reapIds cutoff keep := by
  rw [mem_reapIds_of_mem hs]
  rcases h with h | ⟨ha, h⟩
  · simp [Db.orphan, Db.surplus, Db.displaced, h]
  · have hsome : s.adoptedAt.isNone = false := by simpa using ha
    rcases h with h | h
    · have hlive : s.retiredAt.isNone = false := by simpa using h
      simp [Db.orphan, Db.surplus, Db.displaced, hsome, hlive]
    · have hqueued : (db.audit.find s.id).isNone = false := by simpa using h
      simp [Db.orphan, Db.surplus, Db.displaced, hsome, hqueued]

/-- **The result of snapshot GC**: in a database with sound current pointers, batches of any size,
with any rows picked by their limits, end after as many calls as there are snapshots and one. Then
exactly the stale candidates are deleted and, suite by suite, all adopted snapshots that are
neither retired nor current nor queued for the audit except the `keep` newest, each with its
rows. Whenever the loop stops, no current snapshot and no adopted snapshot that is retired or
queued is deleted. -/
theorem snapshot_gc_result {db : Db} (hp : Pointers db) (limits : Nat → Limit (Nat × ReapClass))
    {batchSize keep : Int} (grace now : Int) (hn : 1 ≤ batchSize) (hk : 0 ≤ keep) :
    (∀ fuel, db.snapshots.rows.length < fuel →
      snapshotPass limits batchSize grace keep now fuel db =
        .ok (true, db.dropSnapshots (db.collected (now - grace) keep.toNat))) ∧
    ∀ fuel, ∃ done db', snapshotPass limits batchSize grace keep now fuel db = .ok (done, db') ∧
      ∀ s ∈ db.snapshots, (db.isCurrent s.id = true ∨ s.adoptedAt.isSome = true ∧
        (s.retiredAt.isSome = true ∨ (db.audit.find s.id).isSome = true)) → s ∈ db'.snapshots := by
  have hround := fun i => snapshotGCBatch_deletes (limits i) grace now hn hk
  refine ⟨fun fuel hfuel => ?_, fun fuel => ?_⟩
  · have hsub : db.reapIds (now - grace) keep.toNat ⊆
        (db.snapshots.rows.map Snapshot.id).toFinset := by
      intro id hid
      obtain ⟨s, hs, rfl, -⟩ := mem_reapIds.mp hid
      exact List.mem_toFinset.mpr (List.mem_map_of_mem hs)
    have hcard : (db.reapIds (now - grace) keep.toNat).card < fuel := by
      have hle := (Finset.card_le_card hsub).trans (List.toFinset_card_le _)
      rw [List.length_map] at hle
      omega
    have hdone := Drain.rounds_done hround hcard 0
    refine hdone.trans ?_
    show Except.ok (true, db.dropSnapshots fun id => decide (id ∈ db.reapIds _ _)) = _
    simp only [mem_reapIds_iff_collected hp]
  · obtain ⟨A, hA, b, hrun, -⟩ := Drain.rounds_ok hround fuel 0 db
    refine ⟨b, _, hrun, fun s hs h => mem_delete.mpr ⟨hs, ?_⟩⟩
    exact decide_eq_false fun hin => notMem_reapIds hs h (hA hin)

/-- A second and a third snapshot are adopted one after the other, and a fourth one stays a candidate
that is queued for the audit. -/
def garbageRun : List Op :=
  adoptionRun ++
    [.putBlob (digest 'c') 10 6, .putBlob (digest 'd') 10 6, .putBlob (digest 'e') 10 6,
      .insertCandidateSnapshot ⟨stable, some (digest 'c'), none, none, none, false⟩ 7,
      .commitAdoption 2 [⟨2, "main/Packages".toList, digest 'b', digest 'b'⟩] [] [] [] true 8 8,
      .insertCandidateSnapshot ⟨stable, some (digest 'd'), none, none, none, false⟩ 9,
      .commitAdoption 3 [] [] [] [] true 10 10,
      .insertCandidateSnapshot ⟨stable, some (digest 'e'), none, none, none, false⟩ 11,
      .enqueueLegacyTrustAudit [4]]

/-- The database after `garbageRun`. -/
def garbageDb : Db := (sys.exec Db.empty garbageRun).getD Db.empty

theorem garbageDb_pointers : Pointers garbageDb :=
  pointers_inductive.reach (.exec rfl (eq_some_getD _ (by decide +kernel)))

/-- Of the two displaced snapshots the newer one is kept. -/
theorem snapshot_gc_result_garbageDb :
    garbageDb.snapshots.rows.map Snapshot.id = [4, 3, 2, 1] ∧
    ∃ db', snapshotPass (fun _ => .first) 1 10 1 100 5 garbageDb = .ok (true, db') ∧
      db'.snapshots.rows.map Snapshot.id = [3, 2] := by
  refine ⟨by decide +kernel, _, (snapshot_gc_result garbageDb_pointers (fun _ => .first) 10 100
    (by decide) (by decide)).1 5 (by decide +kernel), by decide +kernel⟩

/-- A queued snapshot is not always kept: a stale candidate is deleted although it is queued. -/
theorem queued_candidate_deleted :
    ¬ ∀ db : Db, Pointers db → ∀ s ∈ db.snapshots, (db.audit.find s.id).isSome = true →
      ∀ batchSize grace keep now : Int,
        s ∈ ((runSnapshotGCBatch batchSize grace keep now).commit db).snapshots := by
  intro h
  obtain ⟨s, hs, hid, -⟩ : ∃ s ∈ garbageDb.snapshots, s.id = 4 ∧ s.adoptedAt = none :=
    exists_of_find (by decide +kernel)
  have hin := h garbageDb garbageDb_pointers s hs (by rw [hid]; decide +kernel) 3 10 0 100
  have hids : s.id ∈ (((runSnapshotGCBatch 3 10 0 100).commit garbageDb).snapshots.rows.map
      Snapshot.id) := List.mem_map_of_mem hin
  rw [hid] at hids
  revert hids
  decide +kernel

end AptCacher.Cache
