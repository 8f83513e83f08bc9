import AptCacher.Cache.Walk

/-!
# What rows an operation can add

The rows that name a blob are cached paths, members and the anchors of snapshots. An operation adds
only rows that it is given, or cached paths of the anchors of the snapshot that it adopts; blob rows
go only in blob GC, and a clock that an operation starts shows one of its own readings.

* `Adds`: a change that adds only what is given.
* `Op.commit_adds`: every operation but blob GC stays within it.
* `Adds.references`: a blob that is named after an operation was named before or is given.
* `Op.at`: an operation with a given reading of the clock.
-/

namespace AptCacher.Cache

open Spec Table

/-- Only rows of `g` are added, and no blob row goes. -/
structure Adds (g : Given) (db db' : Db) : Prop where
  paths : ∀ u ∈ db'.urlPaths, ∀ h, u.blobHash = some h →
    (∃ u₀ ∈ db.urlPaths, u₀.key = u.key ∧ u₀.blobHash = some h) ∨ g.path u.key h
  members : ∀ m ∈ db'.members, m ∈ db.members ∨ g.member m
  anchors : Anchored g db.snapshots db'.snapshots
  blobs : ∀ b ∈ db.blobs, ∃ b' ∈ db'.blobs, b'.hash = b.hash ∧ (b.Since g.clock → b'.Since g.clock)

namespace Adds

variable {g : Given}

theorem refl (db : Db) : Adds g db db :=
  ⟨fun u hu _ h => .inl ⟨u, hu, rfl, h⟩, fun _ => .inl,
    fun s hs _ h => .inl ⟨s, hs, rfl, rfl, h⟩, fun b hb => ⟨b, hb, rfl, id⟩⟩

instance adds_refl : Std.Refl (Adds g) where
  refl := refl

instance adds_trans : IsTrans Db (Adds g) where
  trans _ _ _ h₁ h₂ := by
    refine ⟨fun u hu h hh => ?_, fun m hm => ?_, fun s hs h hh => ?_, fun b hb => ?_⟩
    · rcases h₂.paths u hu h hh with ⟨u₁, hu₁, hk, hh₁⟩ | hg
      · rw [← hk]
        exact h₁.paths u₁ hu₁ h hh₁
      · exact .inr hg
    · exact (h₂.members m hm).elim (h₁.members m) .inr
    · rcases h₂.anchors s hs h hh with ⟨s₁, hs₁, hid, hk, hh₁⟩ | hg
      · rw [← hid, ← hk]
        exact h₁.anchors s₁ hs₁ h hh₁
      · exact .inr hg
    · obtain ⟨b₁, hb₁, hh₁, hc₁⟩ := h₁.blobs b hb
      obtain ⟨b₂, hb₂, hh₂, hc₂⟩ := h₂.blobs b₁ hb₁
      exact ⟨b₂, hb₂, hh₂.trans hh₁, fun h => hc₂ (hc₁ h)⟩

end Adds

theorem kept_unpinned {T : Int → Prop} {now : Int} (hT : T now) (db : Db) (current : Option Nat)
    (blobs : Table Blob Str Blob.hash) : ∀ b ∈ blobs, ∃ b' ∈ db.unpinned current now blobs,
      b'.hash = b.hash ∧ (b.Since T → b'.Since T) := by
  cases current with
  | none => exact fun b hb => ⟨b, hb, rfl, id⟩
  | some id => exact kept_update fun _ h => h.release hT

/-- A statement adds only what is given. -/
theorem Stmt.adds {g : Given} {db db' : Db} (h : Stmt g db db') (hc : g.collects = false) :
    Adds g db db' := by
  have same := Adds.refl (g := g) db
  cases h with
  | blobs _ h => exact { same with blobs := h.kept hc }
  | paths _ h => exact { same with paths := h.named }
  | heads _ _ h => exact { same with anchors := h }
  | candidate _ hins _ _ _ _ ha =>
    refine { same with anchors := fun s hs h hn => ?_ }
    rcases (mem_insert hins).mp hs with rfl | hs
    · exact .inr (ha h hn)
    · exact same.anchors s hs h hn
  | members _ _ h => exact { same with members := h }
  | grow _ _ _ _ _ h =>
    exact { same with members := h, blobs := kept_update fun _ hs => hs.bump }
  | shrink => exact { same with members := fun m hm => .inl (mem_delete.mp hm).1 }
  | adopt hm =>
    refine { same with anchors := .update fun _ => ⟨rfl, fun _ => rfl⟩, blobs := fun b hb => ?_ }
    obtain ⟨b₁, hb₁, hh₁, hc₁⟩ := kept_update (f := Blob.bumped) (fun _ hs => hs.bump) b hb
    obtain ⟨b₂, hb₂, hh₂, hc₂⟩ := kept_unpinned hm.clock db _ _ b₁ hb₁
    exact ⟨b₂, hb₂, hh₂.trans hh₁, fun h => hc₂ (hc₁ h)⟩
  | untrack hm | quarantine hm =>
    exact { same with
      anchors := .update fun _ => ⟨rfl, fun _ => rfl⟩
      blobs := kept_unpinned hm.clock db _ _ }
  | purge => exact { same with anchors := fun s hs => same.anchors s (mem_delete.mp hs).1 }
  | mark | unmark | touch | next | track | skipped | packages | audit => exact { same with }

/-- Every operation but blob GC adds only what it is given. -/
theorem Op.commit_adds {op : Op} (db : Db) {T : Int → Prop} (hT : op.Clocks T)
    (hc : op.collects = false) : Adds (op.given db T) db (op.tx.commit db) :=
  (op.commit_stmts db hT).within fun _ _ hs => hs.adds hc

/-- The blobs that an operation is given to name. -/
def Op.blobs (db : Db) (op : Op) : List Str :=
  (op.paths db).map Prod.snd ++ op.members.map Member.blobHash ++ op.anchors.map Prod.snd

theorem references_iff {db : Db} {h : Str} : db.references h = true ↔
    (∃ u ∈ db.urlPaths, u.blobHash = some h) ∨ (∃ m ∈ db.members, m.blobHash = h) ∨
      ∃ s ∈ db.snapshots, s.names h = true := by
  simp only [Db.references, Bool.or_eq_true, any_iff, beq_iff_eq, or_assoc]

/-- A blob that is named after an operation was named before, or is one that it is given. -/
theorem Adds.references {op : Op} {db db' : Db} {T : Int → Prop} (ha : Adds (op.given db T) db db')
    {h : Str} (hr : db'.references h = true) : db.references h = true ∨ h ∈ op.blobs db := by
  unfold Op.blobs
  rcases references_iff.mp hr with ⟨u, hu, hh⟩ | ⟨m, hm, rfl⟩ | ⟨s, hs, hn⟩
  · rcases ha.paths u hu h hh with ⟨u₀, hu₀, -, hh₀⟩ | hg
    · exact .inl (references_iff.mpr (.inl ⟨u₀, hu₀, hh₀⟩))
    · exact .inr (List.mem_append_left _ (List.mem_append_left _ (List.mem_map.mpr ⟨_, hg, rfl⟩)))
  · rcases ha.members m hm with hm | hg
    · exact .inl (references_iff.mpr (.inr (.inl ⟨m, hm, rfl⟩)))
    · exact .inr (List.mem_append_left _ (List.mem_append_right _ (List.mem_map.mpr ⟨_, hg, rfl⟩)))
  · rcases ha.anchors s hs h hn with ⟨s₀, hs₀, -, -, hn₀⟩ | hg
    · exact .inl (references_iff.mpr (.inr (.inr ⟨s₀, hs₀, hn₀⟩)))
    · exact .inr (List.mem_append_right _ (List.mem_map.mpr ⟨_, hg, rfl⟩))

/-- The operation with the reading `now` of the clock. -/
def Op.at (now : Int) : Op → Op
  | .putBlob hash size _ => .putBlob hash size now
  | .heartbeatBlobs hashes _ => .heartbeatBlobs hashes now
  | .evictURLPath k _ => .evictURLPath k now
  | .deleteSuiteMetadataRows ks _ => .deleteSuiteMetadataRows ks now
  | .deleteURLPathRows rows _ => .deleteURLPathRows rows now
  | .runURLPathGCBatch retained n ttl hold after _ => .runURLPathGCBatch retained n ttl hold after now
  | .reapIdleSuite key want cutoff _ => .reapIdleSuite key want cutoff now
  | .forgetSuite key want _ => .forgetSuite key want now
  | .createSuite seed caps held _ => .createSuite seed caps held now
  | .storeFetched m caps held _ => .storeFetched m caps held now
  | .commitAdoption id ms ks ps ups coverage _ _ => .commitAdoption id ms ks ps ups coverage now now
  | .applyLegacyAuditDecisions ds _ => .applyLegacyAuditDecisions ds now
  | .invalidateLegacyMetadata key anchor old _ => .invalidateLegacyMetadata key anchor old fun _ => now
  | op => op

theorem Op.at_clocks (now : Int) (op : Op) {T : Int → Prop} (h : T now) : (op.at now).Clocks T := by
  cases op <;> first | exact h | exact fun _ => h | trivial

theorem Op.at_collects (now : Int) (op : Op) : (op.at now).collects = op.collects := by
  cases op <;> rfl

end AptCacher.Cache
