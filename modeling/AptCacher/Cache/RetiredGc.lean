import AptCacher.Cache.SnapshotGc

/-!
# Retired snapshots

`RunRetiredSnapshotGCChunk` deletes up to a number of rows of the oldest retired snapshot, table by
table, and its header when no row of it is left. The snapshot pass calls it until there is no
retired snapshot.

* `GcRow`: the rows of retired snapshots, headers and children; `Db.garbage`: all of them.
* `retiredDrain`: a header goes with the last of its rows, so what is left stays due.
* `retired_gc`: what one chunk does, and what the loop leaves.
-/

namespace AptCacher.Cache

open Spec Table

/-! ## The chunk -/

/-- The limits of the three child deletes. -/
structure ChunkLimits where
  members : Limit Member
  skipped : Limit Skipped
  packageHashes : Limit PackageHash

/-- The limits that keep the first rows. -/
def ChunkLimits.first : ChunkLimits := ⟨.first, .first, .first⟩

/-- The child rows one chunk deletes, and what is left of its budget. -/
structure Chunk where
  members : List Member
  skipped : List Skipped
  packageHashes : List PackageHash
  left : Nat

/-- The deletes of one chunk, table by table: a full budget leaves the later tables alone. -/
def Db.chunk (db : Db) (limits : ChunkLimits) (budget id : Nat) : Chunk :=
  let ms := limits.members.pick budget (db.members.select fun m => m.snapshotId == id)
  let left := budget - ms.length
  let ks := limits.skipped.pick left (db.skipped.select fun m => m.snapshotId == id)
  let left := left - ks.length
  let ps := limits.packageHashes.pick left (db.packageHashes.select fun p => p.snapshotId == id)
  ⟨ms, ks, ps, left - ps.length⟩

/-- `RunRetiredSnapshotGCChunk`, with the rows its limits pick. The header that was found is
there, so its delete deletes one row. -/
def retiredChunk (limits : ChunkLimits) (maxRows : Int) : Tx (Nat × Bool) := do
  let db ← get
  match db.nextRetired with
  | none => pure (0, false)
  | some id =>
    let c := db.chunk limits (effectiveChunkRows maxRows) id
    modify fun db =>
      { db with
        members := db.members.delete fun m => c.members.contains m
        skipped := db.skipped.delete fun m => c.skipped.contains m
        packageHashes := db.packageHashes.delete fun p => c.packageHashes.contains p }
    if 0 < c.left then
      modify fun db =>
        { db with snapshots := db.snapshots.delete fun s => s.id == id && s.retiredAt.isSome }
      pure (1, true)
    else pure (0, true)

theorem runRetiredSnapshotGCChunk_eq (maxRows : Int) :
    runRetiredSnapshotGCChunk maxRows = retiredChunk .first maxRows := rfl

/-- The loop of `runSubJobC`: chunks until one finds no retired snapshot. -/
def retiredPass (limits : Nat → ChunkLimits) (maxRows : Int) (fuel : Nat) : Tx Bool :=
  rounds (fun i => do
    let (_, more) ← retiredChunk (limits i) maxRows
    pure more) fuel 0

theorem effectiveChunkRows_pos (maxRows : Int) : 0 < effectiveChunkRows maxRows := by
  unfold effectiveChunkRows
  split <;> omega

/-! ## The rows of retired snapshots -/

/-- The id is that of a retired snapshot that is not current. -/
def Db.retired (db : Db) (id : Nat) : Bool :=
  db.snapshots.any fun s => s.id == id && s.retiredAt.isSome && !db.isCurrent s.id

variable {db : Db} {id : Nat}

theorem retired_iff : db.retired id = true ↔
    ∃ s ∈ db.snapshots, s.id = id ∧ s.retiredAt.isSome = true ∧ db.isCurrent s.id = false := by
  simp [Db.retired, any_iff, and_assoc]

theorem nextRetired_eq_none : db.nextRetired = none ↔ ∀ id, db.retired id = false := by
  rw [Db.nextRetired, List.min?_eq_none_iff, List.map_eq_nil_iff, List.eq_nil_iff_forall_not_mem]
  simp only [← Bool.not_eq_true, retired_iff, mem_select, Bool.and_eq_true, Bool.not_eq_true']
  constructor
  · rintro h id ⟨s, hs, -, hr⟩
    exact h s ⟨hs, hr⟩
  · rintro h s ⟨hs, hr⟩
    exact h s.id ⟨s, hs, rfl, hr⟩

theorem retired_of_nextRetired (h : db.nextRetired = some id) :
    db.retired id = true := by
  obtain ⟨s, hs, rfl⟩ := List.mem_map.mp (List.min?_mem h)
  obtain ⟨hs, hr⟩ := mem_select.mp hs
  exact retired_iff.mpr ⟨s, hs, rfl, by simpa using hr⟩

theorem isSome_of_retired {s : Snapshot} (hs : s ∈ db.snapshots) (h : db.retired s.id = true) :
    s.retiredAt.isSome = true := by
  obtain ⟨s', hs', hid, hr, -⟩ := retired_iff.mp h
  rwa [eq_of_key hs' hs hid] at hr

/-- A row of a snapshot. -/
inductive GcRow
  | header (s : Snapshot)
  | member (m : Member)
  | skipped (m : Skipped)
  | packageHash (p : PackageHash)
  deriving DecidableEq

/-- The snapshot of a row. -/
@[simp] def GcRow.snapshotId : GcRow → Nat
  | .header s => s.id
  | .member m => m.snapshotId
  | .skipped m => m.snapshotId
  | .packageHash p => p.snapshotId

/-- The row is stored. -/
def Db.Holds (db : Db) : GcRow → Prop
  | .header s => s ∈ db.snapshots
  | .member m => m ∈ db.members
  | .skipped m => m ∈ db.skipped
  | .packageHash p => p ∈ db.packageHashes

/-- The rows of the retired snapshots. -/
def Db.garbage (db : Db) : List GcRow :=
  (db.snapshots.select fun s => db.retired s.id).map .header ++
    ((db.members.select fun m => db.retired m.snapshotId).map .member ++
      ((db.skipped.select fun m => db.retired m.snapshotId).map .skipped ++
        (db.packageHashes.select fun p => db.retired p.snapshotId).map .packageHash))

/-- How many rows retired snapshots that are not current have, their headers included. -/
def Db.retiredRows (db : Db) : Nat :=
  db.snapshots.count (fun s => db.retired s.id) +
    (db.members.count (fun m => db.retired m.snapshotId) +
      (db.skipped.count (fun m => db.retired m.snapshotId) +
        db.packageHashes.count fun p => db.retired p.snapshotId))

theorem mem_garbage {x : GcRow} :
    x ∈ db.garbage ↔ db.Holds x ∧ db.retired x.snapshotId = true := by
  cases x <;> simp [Db.garbage, mem_select, Db.Holds, GcRow.snapshotId]

theorem nodup_garbage (db : Db) : db.garbage.Nodup := by
  have hs := (db.snapshots.nodup.of_map _).filter fun s => db.retired s.id
  have hm := (db.members.nodup.of_map _).filter fun m => db.retired m.snapshotId
  have hk := (db.skipped.nodup.of_map _).filter fun m => db.retired m.snapshotId
  have hp := (db.packageHashes.nodup.of_map _).filter fun p => db.retired p.snapshotId
  unfold Db.garbage
  refine .append (hs.map fun _ _ => GcRow.header.inj) (.append (hm.map fun _ _ => GcRow.member.inj)
    (.append (hk.map fun _ _ => GcRow.skipped.inj) (hp.map fun _ _ => GcRow.packageHash.inj) ?_) ?_)
    ?_
  all_goals
    intro x hx hy
    simp only [List.mem_append, List.mem_map] at hx hy
    grind

theorem card_garbage (db : Db) : db.garbage.toFinset.card = db.retiredRows := by
  rw [List.toFinset_card_of_nodup (nodup_garbage db)]
  simp only [Db.garbage, Db.retiredRows, List.length_append, List.length_map, select, Table.count,
    List.countP_eq_length_filter]

/-! ## Deleting rows -/

/-- The database without the rows of `A`. -/
def Db.eraseRows (A : Finset GcRow) (db : Db) : Db :=
  { db with
    members := db.members.delete fun m => decide (.member m ∈ A)
    skipped := db.skipped.delete fun m => decide (.skipped m ∈ A)
    packageHashes := db.packageHashes.delete fun p => decide (.packageHash p ∈ A)
    snapshots := db.snapshots.delete fun s => decide (.header s ∈ A) }

variable {A : Finset GcRow}

theorem holds_eraseRows {x : GcRow} :
    (db.eraseRows A).Holds x ↔ db.Holds x ∧ x ∉ A := by
  cases x <;> simp [Db.Holds, Db.eraseRows, mem_delete]

theorem retired_eraseRows :
    (db.eraseRows A).retired id = true ↔
      ∃ s ∈ db.snapshots, s.id = id ∧ db.retired id = true ∧ .header s ∉ A := by
  rw [retired_iff]
  constructor
  · rintro ⟨s, hs, rfl, hr, hc⟩
    obtain ⟨hs, hA⟩ := mem_delete.mp hs
    exact ⟨s, hs, rfl, retired_iff.mpr ⟨s, hs, rfl, hr, hc⟩, by simpa using hA⟩
  · rintro ⟨s, hs, rfl, hret, hA⟩
    obtain ⟨s', hs', hid, hr, hc⟩ := retired_iff.mp hret
    obtain rfl := eq_of_key hs' hs hid
    exact ⟨s', mem_delete.mpr ⟨hs, by simpa using hA⟩, rfl, hr, hc⟩

/-- Chunks drain the rows of the retired snapshots; a header goes only with all its rows. -/
def retiredDrain : Drain Db GcRow where
  due db := db.garbage.toFinset
  erase := Db.eraseRows
  part db A := A ⊆ db.garbage.toFinset ∧
    ∀ s, .header s ∈ A → ∀ x ∈ db.garbage, x.snapshotId = s.id → x ∈ A
  sub h := h.1
  due_erase := by
    rintro db A ⟨hA, hwhole⟩
    ext x
    simp only [Finset.mem_sdiff, List.mem_toFinset, mem_garbage, holds_eraseRows, retired_eraseRows]
    constructor
    · rintro ⟨⟨hx, hxA⟩, s, -, -, hr, -⟩
      exact ⟨⟨hx, hr⟩, hxA⟩
    · rintro ⟨⟨hx, hr⟩, hxA⟩
      obtain ⟨s, hs, hid, -⟩ := retired_iff.mp hr
      refine ⟨⟨hx, hxA⟩, s, hs, hid, hr, fun hin => hxA ?_⟩
      exact hwhole s hin x (mem_garbage.mpr ⟨hx, hr⟩) hid.symm
  erase_empty db := by
    simp only [Db.eraseRows, Finset.notMem_empty, decide_false, delete_of_none, implies_true]
  erase_erase A B db := by
    simp only [Db.eraseRows, delete_delete, Finset.mem_union, Bool.decide_or]

/-! ## One chunk -/

section OneChunk

variable {db : Db} {limits : ChunkLimits} {budget id : Nat}

/-- The rows that a chunk deletes. -/
def Db.chunkRows (db : Db) (c : Chunk) (id : Nat) : List GcRow :=
  c.members.map .member ++ (c.skipped.map .skipped ++ (c.packageHashes.map .packageHash ++
    if 0 < c.left then
      (db.snapshots.select fun s => s.id == id && s.retiredAt.isSome).map .header
    else []))

variable {c : Chunk}

theorem header_mem_chunkRows {s : Snapshot} : .header s ∈ db.chunkRows c id ↔
    0 < c.left ∧ s ∈ db.snapshots ∧ s.id = id ∧ s.retiredAt.isSome = true := by
  by_cases h : 0 < c.left <;> simp [Db.chunkRows, h, mem_select]

theorem member_mem_chunkRows {m : Member} :
    .member m ∈ db.chunkRows c id ↔ m ∈ c.members := by
  by_cases h : 0 < c.left <;> simp [Db.chunkRows, h]

theorem skipped_mem_chunkRows {m : Skipped} :
    .skipped m ∈ db.chunkRows c id ↔ m ∈ c.skipped := by
  by_cases h : 0 < c.left <;> simp [Db.chunkRows, h]

theorem packageHash_mem_chunkRows {p : PackageHash} :
    .packageHash p ∈ db.chunkRows c id ↔ p ∈ c.packageHashes := by
  by_cases h : 0 < c.left <;> simp [Db.chunkRows, h]

theorem of_mem_chunkRows {x : GcRow} (h : x ∈ db.chunkRows (db.chunk limits budget id) id) :
    db.Holds x ∧ x.snapshotId = id := by
  cases x with
  | header s =>
    obtain ⟨-, hs, hid, -⟩ := header_mem_chunkRows.mp h
    exact ⟨hs, hid⟩
  | member m =>
    have hm := mem_select.mp (limits.members.mem_of_mem_pick (member_mem_chunkRows.mp h))
    exact ⟨hm.1, by simpa using hm.2⟩
  | skipped m =>
    have hm := mem_select.mp (limits.skipped.mem_of_mem_pick (skipped_mem_chunkRows.mp h))
    exact ⟨hm.1, by simpa using hm.2⟩
  | packageHash p =>
    have hp := mem_select.mp (limits.packageHashes.mem_of_mem_pick (packageHash_mem_chunkRows.mp h))
    exact ⟨hp.1, by simpa using hp.2⟩

/-- A chunk with some budget left came up short in every table: it deletes all that is left of
its snapshot. -/
theorem mem_chunkRows_of_left (hleft : 0 < (db.chunk limits budget id).left)
    (hr : db.retired id = true) {x : GcRow} (hx : db.Holds x) (hid : x.snapshotId = id) :
    x ∈ db.chunkRows (db.chunk limits budget id) id := by
  have hrow : 0 < (db.chunk limits budget id).left := hleft
  simp only [Db.chunk] at hrow
  cases x with
  | header s =>
    have hid : s.id = id := hid
    exact header_mem_chunkRows.mpr ⟨hleft, hx, hid, isSome_of_retired hx (hid ▸ hr)⟩
  | member m =>
    refine member_mem_chunkRows.mpr (limits.members.mem_pick_of_lt (by omega) ?_)
    exact mem_select.mpr ⟨hx, by simpa using hid⟩
  | skipped m =>
    refine skipped_mem_chunkRows.mpr (limits.skipped.mem_pick_of_lt (by omega) ?_)
    exact mem_select.mpr ⟨hx, by simpa using hid⟩
  | packageHash p =>
    refine packageHash_mem_chunkRows.mpr (limits.packageHashes.mem_pick_of_lt (by omega) ?_)
    exact mem_select.mpr ⟨hx, by simpa using hid⟩

/-- A chunk deletes something: its budget is spent, or the header goes. -/
theorem chunkRows_ne_nil (hb : 0 < budget) (hr : db.retired id = true) :
    db.chunkRows (db.chunk limits budget id) id ≠ [] := by
  by_cases hleft : 0 < (db.chunk limits budget id).left
  · obtain ⟨s, hs, hid, -⟩ := retired_iff.mp hr
    exact List.ne_nil_of_mem
      (mem_chunkRows_of_left hleft hr (show db.Holds (.header s) from hs) hid)
  · intro hnil
    simp only [Db.chunkRows, List.append_eq_nil_iff, List.map_eq_nil_iff] at hnil
    obtain ⟨hm, hk, hp, -⟩ := hnil
    have hspent : ¬ 0 < budget - (db.chunk limits budget id).members.length -
        (db.chunk limits budget id).skipped.length -
        (db.chunk limits budget id).packageHashes.length := hleft
    simp only [hm, hk, hp, List.length_nil] at hspent
    omega

theorem retiredChunk_ok (limits : ChunkLimits) (maxRows : Int) (h : db.nextRetired = some id) :
    ∃ n, retiredChunk limits maxRows db = .ok ((n, true), db.eraseRows
      (db.chunkRows (db.chunk limits (effectiveChunkRows maxRows) id) id).toFinset) := by
  generalize hc : db.chunk limits (effectiveChunkRows maxRows) id = c
  have hheader : db.snapshots.delete (fun s => decide (.header s ∈ db.chunkRows c id)) =
      if 0 < c.left then db.snapshots.delete fun s => s.id == id && s.retiredAt.isSome
      else db.snapshots := by
    by_cases hleft : 0 < c.left
    · rw [if_pos hleft]
      refine delete_congr fun s hs => ?_
      simp only [header_mem_chunkRows, hleft, hs, true_and, Bool.decide_and, Bool.decide_eq_true]
      rfl
    · rw [if_neg hleft]
      exact delete_of_none fun s _ => by simp [header_mem_chunkRows, hleft]
  rw [retiredChunk, Tx.get_bind, h]
  simp only [hc, Db.eraseRows, List.mem_toFinset, member_mem_chunkRows, skipped_mem_chunkRows,
    packageHash_mem_chunkRows, hheader, List.contains_eq_mem]
  by_cases hleft : 0 < c.left
  · rw [if_pos hleft, if_pos hleft]
    exact ⟨1, rfl⟩
  · rw [if_neg hleft, if_neg hleft]
    exact ⟨0, rfl⟩

theorem retiredChunk_none (limits : ChunkLimits) {maxRows : Int} (h : db.nextRetired = none) :
    retiredChunk limits maxRows db = .ok ((0, false), db) := by
  rw [retiredChunk, Tx.get_bind, h]
  rfl

theorem chunkRows_part (hr : db.retired id = true) :
    retiredDrain.part db (db.chunkRows (db.chunk limits budget id) id).toFinset := by
  refine ⟨fun x hx => ?_, fun s hs x hx hid => ?_⟩
  · obtain ⟨hold, hid⟩ := of_mem_chunkRows (List.mem_toFinset.mp hx)
    exact List.mem_toFinset.mpr (mem_garbage.mpr ⟨hold, hid ▸ hr⟩)
  · obtain ⟨hleft, -, hsid, -⟩ := header_mem_chunkRows.mp (List.mem_toFinset.mp hs)
    exact List.mem_toFinset.mpr
      (mem_chunkRows_of_left hleft hr (mem_garbage.mp hx).1 (hid.trans hsid))

end OneChunk

/-! ## The second loop -/

theorem retiredChunk_deletes (limits : ChunkLimits) (maxRows : Int) :
    retiredDrain.Deletes (do
      let (_, more) ← retiredChunk limits maxRows
      pure more : Tx Bool) := by
  intro db
  cases h : db.nextRetired with
  | none =>
    refine ⟨∅, false, ⟨Finset.empty_subset _, by simp⟩, ?_, by simp, fun _ => ?_⟩
    · rw [retiredDrain.erase_empty]
      simp only [bind, StateT.bind, retiredChunk_none limits h]
      rfl
    · refine Finset.eq_empty_of_forall_notMem fun x hx => ?_
      have hr := (mem_garbage.mp (List.mem_toFinset.mp hx)).2
      rw [nextRetired_eq_none.mp h] at hr
      cases hr
  | some id =>
    have hr := retired_of_nextRetired h
    obtain ⟨n, hrun⟩ := retiredChunk_ok limits maxRows h
    refine ⟨(db.chunkRows (db.chunk limits (effectiveChunkRows maxRows) id) id).toFinset, true,
      chunkRows_part hr, ?_, fun _ => ?_, by simp⟩
    · simp only [bind, StateT.bind, hrun]
      rfl
    · exact (List.toFinset_nonempty_iff _).mpr (chunkRows_ne_nil (effectiveChunkRows_pos _) hr)

/-- Without all rows of its retired snapshots the database is without these snapshots. -/
theorem eraseRows_garbage (db : Db) :
    db.eraseRows db.garbage.toFinset = db.dropSnapshots db.retired := by
  have hrow : ∀ x : GcRow, db.Holds x →
      decide (x ∈ db.garbage.toFinset) = db.retired x.snapshotId := by
    intro x hx
    rw [Bool.eq_iff_iff, decide_eq_true_eq, List.mem_toFinset, mem_garbage]
    exact and_iff_right hx
  rw [Db.eraseRows, Db.dropSnapshots, delete_congr fun m hm => hrow (.member m) hm,
    delete_congr fun m hm => hrow (.skipped m) hm,
    delete_congr fun p hp => hrow (.packageHash p) hp,
    delete_congr fun s hs => hrow (.header s) hs]
  rfl

theorem dropSnapshots_eraseRows (h : ∀ x ∈ A, x.snapshotId = id) :
    (db.eraseRows A).dropSnapshots (· == id) = db.dropSnapshots (· == id) := by
  have hrow : ∀ x : GcRow, (decide (x ∈ A) || x.snapshotId == id) = (x.snapshotId == id) := by
    intro x
    simpa using h x
  have hm := fun m => hrow (.member m)
  have hk := fun m => hrow (.skipped m)
  have hp := fun p => hrow (.packageHash p)
  have hs := fun s => hrow (.header s)
  simp only [GcRow.snapshotId] at hm hk hp hs
  simp only [Db.eraseRows, Db.dropSnapshots, delete_delete, hm, hk, hp, hs]

/-- The database holds no row of the snapshot but its header. -/
def Db.Childless (db : Db) (id : Nat) : Prop :=
  (∀ m ∈ db.members, m.snapshotId ≠ id) ∧ (∀ m ∈ db.skipped, m.snapshotId ≠ id) ∧
    ∀ p ∈ db.packageHashes, p.snapshotId ≠ id

/-- **Retired snapshot GC**: a chunk, whatever its limits pick, reports more only if it leaves
fewer rows of retired snapshots, headers included; it changes nothing but rows of one retired
snapshot, and deletes a header only if no other row of that snapshot is left. It reports no more
only if there is no retired snapshot. So the loop ends, and then all retired snapshots that are
not current are gone with all their rows, and everything else is as it was. -/
theorem retired_gc (db : Db) (maxRows : Int) :
    (∀ limits, ∃ n more db', retiredChunk limits maxRows db = .ok ((n, more), db') ∧
      (more = true → db'.retiredRows < db.retiredRows ∧ ∃ id, db.retired id = true ∧
        db'.dropSnapshots (· == id) = db.dropSnapshots (· == id)) ∧
      (∀ s ∈ db.snapshots, s ∉ db'.snapshots → db'.Childless s.id) ∧
      (more = false → db' = db ∧ ∀ id, db.retired id = false)) ∧
    ∀ limits fuel, db.retiredRows < fuel →
      retiredPass limits maxRows fuel db = .ok (true, db.dropSnapshots db.retired) := by
  refine ⟨fun limits => ?_, fun limits fuel hfuel => ?_⟩
  · cases h : db.nextRetired with
    | none =>
      exact ⟨0, false, db, retiredChunk_none limits h, by simp, fun s hs hn => absurd hs hn,
        fun _ => ⟨rfl, nextRetired_eq_none.mp h⟩⟩
    | some id =>
      have hr := retired_of_nextRetired h
      obtain ⟨n, hrun⟩ := retiredChunk_ok limits maxRows h
      refine ⟨n, true, _, hrun, fun _ => ⟨?_, id, hr, ?_⟩, fun s hs hgone => ?_, by simp⟩
      · rw [← card_garbage, ← card_garbage]
        exact Drain.card_lt (D := retiredDrain) (chunkRows_part hr)
          ((List.toFinset_nonempty_iff _).mpr (chunkRows_ne_nil (effectiveChunkRows_pos _) hr))
      · exact dropSnapshots_eraseRows fun x hx => (of_mem_chunkRows (List.mem_toFinset.mp hx)).2
      · -- the header went, so the budget was not spent and every row of the snapshot went too
        have hin : GcRow.header s ∈
            db.chunkRows (db.chunk limits (effectiveChunkRows maxRows) id) id := by
          by_contra hn
          exact hgone (mem_delete.mpr ⟨hs, by simpa using hn⟩)
        obtain ⟨hleft, -, hsid, -⟩ := header_mem_chunkRows.mp hin
        have hall : ∀ x : GcRow, (db.eraseRows (db.chunkRows
            (db.chunk limits (effectiveChunkRows maxRows) id) id).toFinset).Holds x →
            x.snapshotId ≠ s.id := by
          intro x hx hid
          obtain ⟨hx, hout⟩ := holds_eraseRows.mp hx
          exact hout (List.mem_toFinset.mpr (mem_chunkRows_of_left hleft hr hx (hid.trans hsid)))
        exact ⟨fun m => hall (.member m), fun m => hall (.skipped m),
          fun p => hall (.packageHash p)⟩
  · have hround := fun i => retiredChunk_deletes (limits i) maxRows
    have hdone := Drain.rounds_done (s := db) hround (by rwa [← card_garbage] at hfuel) 0
    refine hdone.trans ?_
    show Except.ok (true, db.eraseRows db.garbage.toFinset) = _
    rw [eraseRows_garbage]

end AptCacher.Cache
