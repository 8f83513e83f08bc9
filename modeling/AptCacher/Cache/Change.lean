import AptCacher.Cache.Writer

/-!
# What a writer operation can do

The abstract writer: the few kinds of change that the pins, the current pointers and the markers
see. A suite points at a snapshot, a current snapshot pins its blobs, and a snapshot is adopted
once and retired once. Every operation is a sequence of such changes (`Op.tx_within`), so an
invariant is proved once for each kind of change and not for each statement of each operation.

The flip is one change, although its statements are many: between them the refcounts and the
pointers do not agree.

* `Change`: the kinds of change; `Changes`: their sequences.
* `Marks`: statements that write markers, and delete none.
* `Unmarks`: what forgetting a suite and the sweep do to the markers, only where no suite row is
  left; `Forgets`: changes, and then such a deletion.
-/

namespace AptCacher.Cache

open Spec Table

/-- The clock of a blob runs if and only if nobody pins it. -/
def Blob.Clocked (b : Blob) : Prop := b.refcount ≤ 0 ↔ b.zeroedAt.isSome = true

/-- Blob rows that nobody gained a pin on: a row is new and unpinned, or comes from a row with at
least its count. -/
def Eased (old new : Table Blob Str Blob.hash) : Prop :=
  ∀ b' ∈ new, (b'.refcount ≤ 0 ∧ b'.zeroedAt.isSome = true) ∨
    ∃ b ∈ old, b.hash = b'.hash ∧ b'.refcount ≤ b.refcount ∧ (b.Clocked → b'.Clocked)

/-- The blob rows after the snapshot `id` took its pins. -/
def Db.pinned (db : Db) (id : Nat) : Table Blob Str Blob.hash :=
  db.blobs.update (fun b => db.binds id b.hash) Blob.bumped

/-- Blob rows after the snapshot a suite pointed at, if any, gave up its pins. -/
def Db.unpinned (db : Db) (current : Option Nat) (now : Int) (blobs : Table Blob Str Blob.hash) :
    Table Blob Str Blob.hash :=
  match current with
  | some id => blobs.update (fun b => db.binds id b.hash) (Blob.released now)
  | none => blobs

/-- Retire the snapshots that `p` selects and that are not retired. -/
def Db.retire (db : Db) (p : Snapshot → Bool) (now : Int) : Table Snapshot Nat Snapshot.id :=
  db.snapshots.update (fun s => p s && s.retiredAt.isNone)
    (Snapshot.retired now)

/-- The kinds of change; new members meet `N`. -/
inductive Change (N : Member → Prop) : Db → Db → Prop
  /-- Nothing that pins, pointers and markers depend on. -/
  | quiet {db db' : Db} : db'.blobs = db.blobs → db'.members = db.members →
      db'.markers = db.markers → SameBy Suite.pointer db.suites db'.suites →
      SameBy Snapshot.head db.snapshots db'.snapshots → Change N db db'
  /-- Blob rows that nobody gained a pin on. -/
  | ease {db : Db} {blobs} : Eased db.blobs blobs → Change N db { db with blobs := blobs }
  /-- New markers, or later stamps. -/
  | mark {db : Db} {markers} : (∀ k, (∃ m ∈ db.markers, m.key = k) → ∃ m ∈ markers, m.key = k) →
      Change N db { db with markers := markers }
  /-- More members, without a pin. -/
  | add {db : Db} {members} : (∀ m ∈ db.members, m ∈ members) →
      (∀ m ∈ members, m ∈ db.members ∨ N m) → Change N db { db with members := members }
  /-- A current snapshot names the blob `h` for the first time, and pins it. -/
  | grow {db : Db} {members} {id : Nat} {h : Str} : db.isCurrent id = true →
      db.binds id h = false → (∀ m ∈ db.members, m ∈ members) →
      (∀ m ∈ members, m ∈ db.members ∨ N m) →
      (∃ m ∈ members, m.snapshotId = id ∧ m.blobHash = h) →
      Change N db { db with
        members := members
        blobs := db.blobs.update (fun b => b.hash == h) Blob.bumped }
  /-- Members of snapshots that are not current go. -/
  | shrink {db : Db} {p} : (∀ m ∈ db.members, p m = true → db.isCurrent m.snapshotId = false) →
      Change N db { db with members := db.members.delete p }
  /-- A candidate with a fresh natural key. -/
  | candidate {db : Db} {s : Snapshot} {snapshots} {n : Nat} :
      db.snapshots.insert? s = some snapshots → s.adoptedAt = none → s.retiredAt = none →
      s.content.isSome = true → db.collides s = none →
      Change N db { db with snapshots := snapshots, snapshotSeq := n }
  /-- The flip: the candidate `id` becomes the current snapshot of its suite. -/
  | adopt {db : Db} {id : Nat} {key : SuiteKey} {r : Suite} {stamp now : Int} :
      (∃ s ∈ db.snapshots, s.id = id ∧ s.key = key ∧ s.adoptedAt = none ∧ s.retiredAt = none) →
      r ∈ db.suites → r.key = key →
      (∀ s ∈ db.snapshots, s.key = key → ∀ a, s.adoptedAt = some a → a < stamp) →
      Change N db { db with
        blobs := db.unpinned r.current now (db.pinned id)
        suites := db.suites.updateAt key (Suite.pointed (some id))
        snapshots := db.snapshots.updateAt id (Snapshot.adopted stamp) }
  /-- A suite row without a current snapshot. -/
  | track {db : Db} {r : Suite} {suites} {n : Nat} : db.suites.insert? r = some suites →
      r.current = none → Change N db { db with suites := suites, metadataClock := n }
  /-- A suite row goes, with its pins, and its snapshots are retired. -/
  | untrack {db : Db} {r : Suite} {now : Int} : r ∈ db.suites →
      Change N db { db with
        blobs := db.unpinned r.current now db.blobs
        snapshots := db.retire (fun s => s.key == r.key) now
        suites := db.suites.deleteAt r.key }
  /-- A snapshot is retired, and the suites that pointed at it point at none. -/
  | quarantine {db : Db} {id : Nat} {now : Int} :
      Change N db { db with
        suites := db.suites.update (fun r => r.current == some id)
          (Suite.pointed none)
        blobs := db.unpinned (if db.isCurrent id then some id else none) now db.blobs
        snapshots := db.retire (fun s => s.id == id) now }
  /-- Snapshots that are not current go. -/
  | purge {db : Db} {p} : (∀ s ∈ db.snapshots, p s = true → db.isCurrent s.id = false) →
      Change N db { db with snapshots := db.snapshots.delete p }

/-- A sequence of changes. -/
abbrev Changes (N : Member → Prop) : Db → Db → Prop := Relation.ReflTransGen (Change N)

variable {N : Member → Prop}

/-- Markers go whose base has no suite row. -/
def Unmarks (db db' : Db) : Prop :=
  db'.suites = db.suites ∧ ∃ markers, db' = { db with markers := markers } ∧
    ∀ m ∈ db.markers, (∃ m' ∈ markers, m'.key = m.key) ∨ db.suitesAt m.key.host m.key.base = false

variable {db db' : Db} {now : Int} {t : Table Blob Str Blob.hash} {p : Blob → Bool}

theorem Change.one (h : Change N db db') : Changes N db db' := Relation.ReflTransGen.single h

/-! ## Statements as changes -/

theorem Blob.clocked_release {b : Blob} (h : b.Clocked) : (b.release now).Clocked := by
  unfold Blob.Clocked Blob.release at *
  simp only
  by_cases hz : b.zeroedAt.isSome = true
  · have := h.mpr hz
    obtain ⟨z, hz⟩ := Option.isSome_iff_exists.mp hz
    simp only [hz, Option.orElse_eq_orElse, Option.orElse_some, Option.isSome_some, iff_true]
    omega
  · have hn : b.zeroedAt = none := by simpa using hz
    by_cases h1 : b.refcount - 1 ≤ 0 <;> simp [hn, h1]

theorem Blob.clocked_bump {b : Blob} (h : b.Clocked) : b.bump.Clocked := by
  unfold Blob.Clocked Blob.bump at *
  simp only
  by_cases h1 : b.refcount + 1 > 0
  · simp only [h1, if_true, Option.isSome_none, Bool.false_eq_true, iff_false]
    omega
  · simp only [h1, if_false, ← h]
    omega

theorem Eased.update_release :
    Eased t (t.update p (Blob.released now)) := by
  intro b' hb'
  obtain ⟨b, hb, rfl⟩ := mem_update.mp hb'
  right
  split
  · exact ⟨b, hb, rfl, Int.sub_le_self _ (by decide), Blob.clocked_release⟩
  · exact ⟨b, hb, rfl, Int.le_refl _, id⟩

theorem Eased.delete : Eased t (t.delete p) := by
  intro b hb
  exact .inr ⟨b, (mem_delete.mp hb).1, rfl, Int.le_refl _, id⟩

theorem Eased.update_clock (hp : ∀ b, p b = true → b.refcount ≤ 0) :
    Eased t (t.update p ⟨fun b => { b with zeroedAt := some now }, fun _ => rfl⟩) := by
  intro b' hb'
  obtain ⟨b, hb, rfl⟩ := mem_update.mp hb'
  split
  · exact .inl ⟨hp b ‹_›, rfl⟩
  · exact .inr ⟨b, hb, rfl, Int.le_refl _, id⟩

theorem Changes.quiet (hb : db'.blobs = db.blobs) (hm : db'.members = db.members)
    (hk : db'.markers = db.markers) (hs : SameBy Suite.pointer db.suites db'.suites)
    (hh : SameBy Snapshot.head db.snapshots db'.snapshots) : Changes N db db' :=
  .single (.quiet hb hm hk hs hh)

/-- The change of a statement that writes only cached paths, skip records, package hashes or the
audit queue. -/
theorem Changes.elsewhere (hb : db'.blobs = db.blobs) (hm : db'.members = db.members)
    (hk : db'.markers = db.markers) (hs : db'.suites = db.suites)
    (hh : db'.snapshots = db.snapshots) : Changes N db db' :=
  .quiet hb hm hk (hs ▸ .refl _) (hh ▸ .refl _)

/-! ## Markers and suite rows -/

/-- Only markers were written, and none went. -/
def Marks (db db' : Db) : Prop :=
  ∃ markers, db' = { db with markers := markers } ∧
    ∀ k, (∃ m ∈ db.markers, m.key = k) → ∃ m ∈ markers, m.key = k

instance : Std.Refl Marks where
  refl db := ⟨db.markers, rfl, fun _ h => h⟩

instance : IsTrans Db Marks where
  trans _ _ _ := by
    rintro ⟨m₁, rfl, h₁⟩ ⟨m₂, rfl, h₂⟩
    exact ⟨m₂, rfl, fun k hk => h₂ k (h₁ k hk)⟩

theorem markSignedSeen_within (k : MarkKey) (seenAt : Int) :
    Tx.Within Marks (markSignedSeen k seenAt) :=
  .modify fun _ => ⟨_, rfl, fun _ hk => exists_mem_upsert.mpr (.inr hk)⟩

theorem markSignedSeenBatch_within (marks : List Marker) :
    Tx.Within Marks (markSignedSeenBatch marks) :=
  .forM fun _ _ => markSignedSeen_within _ _

theorem markSnapshotHistoryTx_within (key : SuiteKey) (now : Int) :
    Tx.Within Marks (markSnapshotHistoryTx key now) :=
  .bind .get fun _ => .ite (fun _ => markSignedSeen_within _ _) fun _ => .pure _

theorem stampBaseMarkersTx_within (key : SuiteKey) (now : Int) :
    Tx.Within Marks (stampBaseMarkersTx key now) := by
  refine .modify fun db => ⟨_, rfl, ?_⟩
  rintro _ ⟨m, hm, rfl⟩
  refine ⟨_, mem_update.mpr ⟨m, hm, rfl⟩, ?_⟩
  split <;> rfl

theorem markSnapshotBaseTx_within (id : Nat) : Tx.Within Marks (markSnapshotBaseTx id) := by
  refine .bind .get fun _ => ?_
  split
  · exact .pure _
  · exact .ite (fun _ => markSignedSeen_within _ _) fun _ => .pure _

theorem markCreated_within (seed : SuiteSeed) : Tx.Within Marks (markCreated seed) :=
  .bind .get fun _ => .ite (fun _ => .pure _)
    fun _ => .bind (markSignedSeen_within _ _) fun _ => .pure _

/-! ### The ordering stamp -/

theorem le_floorAbove (stamp : Int) (l : List Int) : stamp ≤ floorAbove stamp l := by
  induction l generalizing stamp with
  | nil => exact Int.le_refl _
  | cons a l ih => exact Int.le_trans (Int.le_max_left _ _) (ih _)

theorem lt_floorAbove {stamp a : Int} {l : List Int} (h : a ∈ l) : a < floorAbove stamp l := by
  induction l generalizing stamp with
  | nil => cases h
  | cons b l ih =>
    rcases List.mem_cons.mp h with rfl | h
    · have : max stamp (a + 1) ≤ floorAbove stamp (a :: l) := le_floorAbove _ l
      omega
    · exact ih h

theorem lt_adoptionStamp {key : SuiteKey} {a : Int} {s : Snapshot} (hs : s ∈ db.snapshots)
    (hk : s.key = key) (ha : s.adoptedAt = some a) :
    a < db.adoptionStamp key now := by
  have hlt : a < floorAbove now
      ((db.snapshots.select fun s => s.key == key).filterMap Snapshot.adoptedAt) :=
    lt_floorAbove (List.mem_filterMap.mpr ⟨s, mem_select.mpr ⟨hs, by simp [hk]⟩, ha⟩)
  unfold Db.adoptionStamp
  dsimp only
  split
  · exact hlt
  · exact Int.lt_of_lt_of_le hlt (le_floorAbove _ _)

/-! ### The flip -/

theorem Snapshot.head_eq {s s' : Snapshot} : s.head = s'.head ↔ s.id = s'.id ∧ s.key = s'.key ∧
    s.content = s'.content ∧ s.form = s'.form ∧ s.adoptedAt = s'.adoptedAt ∧
    s.retiredAt = s'.retiredAt := by
  simp [Snapshot.head]

/-! ## Growth of a current snapshot -/

theorem Db.binds_iff {id : Nat} {h : Str} :
    db.binds id h = true ↔ ∃ m ∈ db.members, m.snapshotId = id ∧ m.blobHash = h := by
  simp [Db.binds, any_iff]

theorem isCurrent_congr (h : db'.suites = db.suites) (id : Nat) :
    db'.isCurrent id = db.isCurrent id := by
  simp only [Db.isCurrent, h]

/-- Changes, and then a deletion of markers. -/
def Forgets (N : Member → Prop) (db db' : Db) : Prop := ∃ mid, Changes N db mid ∧ Unmarks mid db'

instance : Std.Refl Unmarks where
  refl db := ⟨rfl, db.markers, rfl, fun m hm => .inl ⟨m, hm, rfl⟩⟩

instance : IsTrans Db Unmarks where
  trans _ _ _ := by
    rintro ⟨-, m₁, rfl, h₁⟩ ⟨-, m₂, rfl, h₂⟩
    refine ⟨rfl, m₂, rfl, fun m hm => ?_⟩
    rcases h₁ m hm with ⟨m', hm', hk⟩ | hgone
    · rw [← hk]
      exact h₂ m' hm'
    · exact .inr hgone

theorem deleteOrphanMarkers_within (keys : List MarkKey) (cutoff : Int) :
    Tx.Within Unmarks (deleteOrphanMarkers keys cutoff) := by
  refine .forM fun k _ => .modify fun db => ⟨rfl, _, rfl, fun m hm => ?_⟩
  by_cases hgone : (m.key == k && decide (m.lastSeenAt < cutoff) && !db.suitesAt k.host k.base) = true
  · right
    simp only [Bool.and_eq_true, beq_iff_eq, Bool.not_eq_true'] at hgone
    rw [hgone.1.1]
    exact hgone.2
  · exact .inl ⟨m, mem_delete.mpr ⟨hm, by simpa using hgone⟩, rfl⟩

theorem Changes.forgets (h : Changes N db db') : Forgets N db db' :=
  ⟨db', h, Std.Refl.refl db'⟩

instance : Std.Refl (Forgets N) where
  refl _ := Changes.forgets .refl

/-! ## Member rows -/

theorem Change.added (h : Change N db db') : ∀ m ∈ db'.members, m ∈ db.members ∨ N m := by
  cases h with
  | quiet _ hm _ _ _ =>
    rw [hm]
    exact fun _ => .inl
  | add _ hnew => exact hnew
  | grow _ _ _ hnew _ => exact hnew
  | shrink _ => exact fun m hm => .inl (mem_delete.mp hm).1
  | _ => exact fun _ => .inl

theorem Changes.added (h : Changes N db db') :
    ∀ m ∈ db'.members, m ∈ db.members ∨ N m := by
  induction h with
  | refl => exact fun _ => .inl
  | tail _ hc ih => exact fun m hm => (hc.added m hm).elim (ih m) .inr

end AptCacher.Cache
