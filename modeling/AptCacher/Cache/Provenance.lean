import AptCacher.Cache.Rows
import AptCacher.Cache.Vouching
import AptCacher.Cache.Fence

/-!
# Where the rows of a run come from

The database is what the operations that the writer ran left of an empty one.

* `run`, `Called`: a whole run, and an operation of it with the database that it was run on.
* `rows_given`: every row that names a blob, and every package row, is one that an operation of the
  run was given; nothing that serves bytes is made up, moved to another path or to another hash.
* `token_steady`: a suite that has the same token at two times has had it all the time between.
-/

namespace AptCacher.Cache

open Spec Table

/-- The database after the operations. -/
def run (ops : List Op) : Db := ops.foldl (fun db op => op.tx.commit db) .empty

theorem run_append (ops later : List Op) :
    run (ops ++ later) = later.foldl (fun db op => op.tx.commit db) (run ops) :=
  List.foldl_append

/-- An operation of the run, with the database that it found. -/
def Called (ops : List Op) (P : Op → Db → Prop) : Prop :=
  ∃ before op after, ops = before ++ op :: after ∧ P op (run before)

theorem Called.snoc {ops : List Op} {P : Op → Db → Prop} (h : Called ops P) (op : Op) :
    Called (ops ++ [op]) P := by
  obtain ⟨before, op', after, rfl, hP⟩ := h
  exact ⟨before, op', after ++ [op], by simp, hP⟩

theorem Called.last {ops : List Op} {P : Op → Db → Prop} {op : Op} (h : P op (run ops)) :
    Called (ops ++ [op]) P :=
  ⟨ops, op, [], rfl, h⟩

/-- Blob GC writes no other table, and every other operation adds only what it is given. -/
theorem Op.commit_named (op : Op) (db : Db) : ∃ db', Adds (op.given db fun _ => True) db db' ∧
    (op.tx.commit db).urlPaths = db'.urlPaths ∧ (op.tx.commit db).members = db'.members ∧
      (op.tx.commit db).snapshots = db'.snapshots := by
  cases hc : op.collects with
  | false => exact ⟨_, op.commit_adds db op.clocks_true hc, rfl, rfl, rfl⟩
  | true =>
    have hframe := (op.commit_stmts db op.clocks_true).frame
    cases op with
    | runBlobGCBatch =>
      exact ⟨db, .refl db, hframe .urlPaths rfl, hframe .members rfl,
        (Prod.mk.inj (hframe .snapshots rfl)).1⟩
    | _ => cases hc

/-- Every row that names a blob, and every package row, was given to an operation of the run: a
cached path with this hash, a member row as it stands, an anchor for this suite, the declaration. -/
theorem rows_given (ops : List Op) :
    (∀ u ∈ (run ops).urlPaths, ∀ h, u.blobHash = some h →
      Called ops fun op db => (u.key, h) ∈ op.paths db) ∧
    (∀ m ∈ (run ops).members, Called ops fun op _ => m ∈ op.members) ∧
    (∀ s ∈ (run ops).snapshots, ∀ h, s.names h = true →
      Called ops fun op _ => (s.key, h) ∈ op.anchors) ∧
    ∀ p ∈ (run ops).packageHashes,
      Called ops fun op _ => ∃ q ∈ op.packageRows, q.entry = p.entry := by
  induction ops using List.reverseRecOn with
  | nil => exact ⟨fun _ h => (List.not_mem_nil h).elim, fun _ h => (List.not_mem_nil h).elim,
      fun _ h => (List.not_mem_nil h).elim, fun _ h => (List.not_mem_nil h).elim⟩
  | append_singleton ops op ih =>
    -- a row of the last database was there before `op`, or `op` was given it
    obtain ⟨ihPaths, ihMembers, ihAnchors, ihPackages⟩ := ih
    obtain ⟨db', hadds, hpaths, hmembers, hsnapshots⟩ := op.commit_named (run ops)
    rw [show run (ops ++ [op]) = op.tx.commit (run ops) from run_append ops [op], hpaths, hmembers,
      hsnapshots]
    refine ⟨fun u hu h hh => ?_, fun m hm => ?_, fun s hs h hn => ?_, fun p hp => ?_⟩
    · rcases hadds.paths u hu h hh with ⟨u₀, hu₀, hkey, hh₀⟩ | hgiven
      · exact hkey ▸ (ihPaths u₀ hu₀ h hh₀).snoc op
      · exact .last hgiven
    · rcases hadds.members m hm with hm | hgiven
      · exact (ihMembers m hm).snoc op
      · exact .last hgiven
    · rcases hadds.anchors s hs h hn with ⟨s₀, hs₀, -, hkey, hn₀⟩ | hgiven
      · exact hkey ▸ (ihAnchors s₀ hs₀ h hn₀).snoc op
      · exact .last hgiven
    · obtain ⟨q, hq | hq, hentry⟩ := op.commit_packageRows (run ops) p hp
      · exact hentry ▸ (ihPackages q hq).snoc op
      · exact .last ⟨q, hq, hentry⟩

theorem run_ticks (ops later : List Op) : Ticks (run ops) (run (ops ++ later)) := by
  rw [run_append]
  exact List.foldlRecOn (motive := Ticks (run ops)) later _ (.refl _) fun db h op _ =>
    IsTrans.trans _ _ _ h (op.commit_ticks db)

/-- A token that was read does not come back: the suite has had it all the time between. -/
theorem token_steady {ops mid : List Op} (later : List Op) {key : SuiteKey} {t : MetadataGeneration}
    (ht : t ≠ ⟨0, 0⟩) (h : (run ops).metadataGeneration (some key) = t)
    (h' : (run (ops ++ mid ++ later)).metadataGeneration (some key) = t) :
    (run (ops ++ mid)).metadataGeneration (some key) = t := by
  have found {db : Db} (h : db.metadataGeneration (some key) = t) :
      ∃ r ∈ db.suites, r.key = key ∧ r.token = t :=
    ((metadataGeneration_cases db key).resolve_left fun hnone => ht (h.symm.trans hnone.2)).imp
      fun _ hr => ⟨hr.1, hr.2.1, hr.2.2.symm.trans h⟩
  obtain ⟨r, hr, -, rfl⟩ := found h
  obtain ⟨r', hr', hkey', htoken⟩ := found h'
  rcases (run_ticks (ops ++ mid) later).tokens r' hr' with ⟨q, hq, hkey, heq⟩ | ⟨hlt, -⟩
  · rw [Db.metadataGeneration, Option.bind_some, find_eq_some.mpr ⟨hq, hkey.trans hkey'⟩]
    exact heq.trans htoken
  · -- a generation above the clock of between is above the one that the row had at first
    have hgen : r'.generation = r.generation := congrArg MetadataGeneration.generation htoken
    have hle := ((run_ticks [] ops).rows (fun _ h => (List.not_mem_nil h).elim) r hr).2
    exact absurd (hle.trans (run_ticks ops mid).clock) (Nat.not_le.mpr (hgen ▸ hlt))

theorem token_steady_index : (run ([.putBlob (digest 'a') 10 1,
    .storeFetched anchorMiss ⟨0, 0⟩ none 2] ++ [.touchSuite stable 3])).metadataGeneration
      (some stable) = ⟨1, 1⟩ :=
  token_steady [.touchSuite stable 4] (by decide) (by decide +kernel) (by decide +kernel)

end AptCacher.Cache
