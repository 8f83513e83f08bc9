import AptCacher.Cache.Pointer

/-!
# The pins of the blobs

The refcount ledger: what a blob's row counts and what its clock says, in every state of the
database. The count never exceeds the number of suites whose current snapshot names the blob, and
the clock runs if and only if the count is not positive. So a blob that no row names any more is
always taken by blob GC, once its clock is old enough: nothing leaks.

* `Ledger`: the invariant; `Ledger.change`: every change keeps it.
* `refcount_ledger`: the invariant of every reachable database.
-/

namespace AptCacher.Cache

open Spec Table

/-- The invariant of the pins. -/
structure Ledger (db : Db) : Prop where
  /-- A count is covered by current snapshots. -/
  bound : ∀ b ∈ db.blobs, b.refcount ≤ db.pins b.hash
  /-- The clock runs without pins, and only then. -/
  clock : ∀ b ∈ db.blobs, b.Clocked

/-! ## Pins -/

variable {db db' : Db}

variable {id : Nat}

theorem Db.binds_mono (h : ∀ m ∈ db.members, m ∈ db'.members) {x : Str} (hb : db.binds id x = true) :
    db'.binds id x = true := by
  obtain ⟨m, hm, he⟩ := any_iff.mp hb
  exact any_iff.mpr ⟨m, h m hm, he⟩

theorem Db.pins_mono (hs : db'.suites = db.suites) (h : ∀ m ∈ db.members, m ∈ db'.members)
    (x : Str) : db.pins x ≤ db'.pins x := by
  unfold Db.pins
  rw [hs]
  refine count_mono fun r _ => ?_
  cases r.current with
  | none => exact fun h => h
  | some id => exact Db.binds_mono h

/-- A current snapshot names a blob for the first time: a pin more. -/
theorem Db.pins_lt (hs : db'.suites = db.suites) (h : ∀ m ∈ db.members, m ∈ db'.members) {x : Str}
    (hc : db.isCurrent id = true) (hn : db.binds id x = false) (hx : db'.binds id x = true) :
    db.pins x < db'.pins x := by
  obtain ⟨r, hr, hcur⟩ := any_iff.mp hc
  have hcur : r.current = some id := by simpa using hcur
  unfold Db.pins
  rw [hs]
  refine count_lt (fun r _ => ?_) hr (by simp [hcur, hn]) (by simp [hcur, hx])
  cases r.current with
  | none => exact fun h => h
  | some id => exact Db.binds_mono h

theorem Db.pins_of_members (hm : db'.members = db.members) (x : Str) :
    db'.pins x = db'.suites.count fun r => r.current.any fun id => db.binds id x := by
  simp only [Db.pins, Db.binds, hm]

/-- The pins depend on the pointers and on the members of the current snapshots. -/
theorem Db.pins_congr (hs : SameBy Suite.pointer db.suites db'.suites)
    (hm : ∀ id x, db'.isCurrent id = true → db'.binds id x = db.binds id x) (x : Str) :
    db'.pins x = db.pins x := by
  have hnew : db'.pins x = db'.suites.count fun r => r.current.any fun id => db.binds id x := by
    refine count_congr fun r hr => ?_
    cases hc : r.current with
    | none => rfl
    | some id => exact hm id x (any_iff.mpr ⟨r, hr, by simp [hc]⟩)
  exact hnew.trans (hs.count fun y => y.2.any fun id => db.binds id x)

/-- What one pointer adds to the pins of a blob. -/
def Db.share (db : Db) (current : Option Nat) (x : Str) : Nat :=
  if current.any fun id => db.binds id x then 1 else 0

theorem Db.mem_pinned {b' : Blob} (h : b' ∈ db.pinned id) :
    ∃ b ∈ db.blobs, b.hash = b'.hash ∧ b'.refcount = b.refcount + db.share (some id) b.hash ∧
      (b.Clocked → b'.Clocked) := by
  obtain ⟨b, hb, rfl⟩ := mem_update.mp h
  refine ⟨b, hb, ?_⟩
  by_cases hn : db.binds id b.hash = true
  · simp only [share, Option.any_some, hn, if_true]
    exact ⟨rfl, rfl, Blob.clocked_bump⟩
  · simp [share, hn]

theorem Db.mem_unpinned {current : Option Nat} {now : Int} {blobs} {b' : Blob}
    (h : b' ∈ db.unpinned current now blobs) :
    ∃ b ∈ blobs, b.hash = b'.hash ∧ b'.refcount = b.refcount - db.share current b.hash ∧
      (b.Clocked → b'.Clocked) := by
  cases current with
  | none => exact ⟨b', h, rfl, by simp [share], fun hc => hc⟩
  | some id =>
    obtain ⟨b, hb, rfl⟩ := mem_update.mp h
    refine ⟨b, hb, ?_⟩
    by_cases hn : db.binds id b.hash = true
    · simp only [share, Option.any_some, hn, if_true]
      exact ⟨rfl, rfl, Blob.clocked_release⟩
    · simp [share, hn]

namespace Ledger

theorem empty : Ledger Db.empty where
  bound _ h := absurd h notMem_empty
  clock _ h := absurd h notMem_empty

/-- Rows are new and unpinned, or their count grew no more than their pins did. -/
theorem of_rows (h : Ledger db)
    (hb : ∀ b' ∈ db'.blobs, (b'.refcount ≤ 0 ∧ b'.zeroedAt.isSome = true) ∨
      ∃ b ∈ db.blobs, b.hash = b'.hash ∧
        b'.refcount + db.pins b.hash ≤ b.refcount + db'.pins b.hash ∧ (b.Clocked → b'.Clocked)) :
    Ledger db' where
  bound b' hb' := by
    rcases hb b' hb' with ⟨h0, -⟩ | ⟨b, hmem, hh, hle, -⟩
    · omega
    · have := h.bound b hmem
      rw [← hh]
      omega
  clock b' hb' := by
    rcases hb b' hb' with ⟨h0, hz⟩ | ⟨b, hmem, -, -, hc⟩
    · exact iff_of_true h0 hz
    · exact hc (h.clock b hmem)

/-- No pin was gained or lost, and no count grew. -/
theorem ease (h : Ledger db) (hp : ∀ x, db'.pins x = db.pins x)
    (hb : Eased db.blobs db'.blobs) : Ledger db' := by
  refine h.of_rows fun b' hb' => ?_
  rcases hb b' hb' with hnew | ⟨b, hmem, hh, hle, hc⟩
  · exact .inl hnew
  · exact .inr ⟨b, hmem, hh, by rw [hp]; omega, hc⟩

/-- No count changed, and no pin was lost. -/
theorem same (h : Ledger db) (hb : db'.blobs = db.blobs) (hp : ∀ x, db.pins x ≤ db'.pins x) :
    Ledger db' := by
  refine h.of_rows fun b' hb' => .inr ⟨b', hb ▸ hb', rfl, ?_, fun hc => hc⟩
  have := hp b'.hash
  omega

variable {id : Nat} {now : Int}

/-- A current snapshot that names a blob for the first time covers the bump. -/
theorem grow (h : Ledger db) {x : Str} (hs : db'.suites = db.suites)
    (hm : ∀ m ∈ db.members, m ∈ db'.members) (hc : db.isCurrent id = true)
    (hn : db.binds id x = false) (hx : ∃ m ∈ db'.members, m.snapshotId = id ∧ m.blobHash = x)
    (hb : db'.blobs = db.blobs.update (fun b => b.hash == x) Blob.bumped) :
    Ledger db' := by
  refine h.of_rows fun b' hb' => .inr ?_
  rw [hb] at hb'
  obtain ⟨b, hmem, rfl⟩ := mem_update.mp hb'
  refine ⟨b, hmem, by split <;> rfl, ?_, by split; exacts [Blob.clocked_bump, fun hc => hc]⟩
  split
  · rename_i he
    obtain rfl : b.hash = x := by simpa using he
    obtain ⟨m, hm', hid, hmx⟩ := hx
    have hlt := Db.pins_lt hs hm hc hn (any_iff.mpr ⟨m, hm', by simp [hid, hmx]⟩)
    simp only [Blob.bump]
    omega
  · have := Db.pins_mono hs hm b.hash
    omega

/-- Members go, none of a current snapshot. -/
theorem shrink (h : Ledger db) {p : Member → Bool} (hb : db'.blobs = db.blobs)
    (hs : db'.suites = db.suites) (hm : db'.members = db.members.delete p)
    (hp : ∀ m ∈ db.members, p m = true → db.isCurrent m.snapshotId = false) : Ledger db' := by
  have hbinds : ∀ id x, db'.isCurrent id = true → db'.binds id x = db.binds id x := by
    intro id x hcur
    rw [Db.isCurrent, hs] at hcur
    simp only [Db.binds, hm]
    refine Bool.eq_iff_iff.mpr ⟨fun hb => ?_, fun hb => ?_⟩
    · obtain ⟨m, hmem, he⟩ := any_iff.mp hb
      exact any_iff.mpr ⟨m, (mem_delete.mp hmem).1, he⟩
    · obtain ⟨m, hmem, he⟩ := any_iff.mp hb
      refine any_iff.mpr ⟨m, mem_delete.mpr ⟨hmem, ?_⟩, he⟩
      by_contra hne
      have hid : m.snapshotId = id := by simp_all
      have hfalse := hp m hmem (by simpa using hne)
      rw [Db.isCurrent, hid, hcur] at hfalse
      cases hfalse
  exact h.same hb fun x => (Db.pins_congr (hs ▸ .refl _) hbinds x).ge

/-- A pointer moves, and the pins of its two snapshots with it. -/
theorem adopt (h : Ledger db) {r : Suite} (hr : r ∈ db.suites) (hm : db'.members = db.members)
    (hs : db'.suites = db.suites.updateAt r.key (Suite.pointed (some id)))
    (hb : db'.blobs = db.unpinned r.current now (db.pinned id)) : Ledger db' := by
  have hpins : ∀ x, db'.pins x + db.share r.current x = db.pins x + db.share (some id) x := by
    intro x
    rw [Db.pins_of_members hm, hs]
    exact count_updateAt hr rfl
  refine h.of_rows fun b' hb' => .inr ?_
  rw [hb] at hb'
  obtain ⟨b₁, hb₁, hh₁, hle₁, hc₁⟩ := Db.mem_unpinned hb'
  obtain ⟨b, hmem, hh, hle, hc⟩ := Db.mem_pinned hb₁
  refine ⟨b, hmem, hh.trans hh₁, ?_, fun h => hc₁ (hc h)⟩
  have := hpins b.hash
  rw [← hh] at hle₁
  omega

/-- A pointer goes, and its pins with it. -/
theorem unpin (h : Ledger db) {current : Option Nat}
    (hpins : ∀ x, db'.pins x + db.share current x = db.pins x)
    (hb : db'.blobs = db.unpinned current now db.blobs) : Ledger db' := by
  refine h.of_rows fun b' hb' => .inr ?_
  rw [hb] at hb'
  obtain ⟨b, hmem, hh, hle, hc⟩ := Db.mem_unpinned hb'
  refine ⟨b, hmem, hh, ?_, hc⟩
  have := hpins b.hash
  omega

/-- One suite at most points at a quarantined snapshot, so its blobs are released once for all the
pins that go. -/
theorem quarantine (h : Ledger db) (hp : Pointers db) (hm : db'.members = db.members)
    (hs : db'.suites = db.suites.update (fun r => r.current == some id) (Suite.pointed none))
    (hb : db'.blobs = db.unpinned (if db.isCurrent id then some id else none) now db.blobs) :
    Ledger db' := by
  refine h.unpin (fun x => ?_) hb
  rw [Db.pins_of_members hm, hs]
  split
  · rename_i hcur
    obtain ⟨r, hr, hc⟩ := any_iff.mp hcur
    have hc : r.current = some id := by simpa using hc
    have hone : ∀ r' ∈ db.suites, (r'.current == some id) = true ↔ r'.key = r.key := by
      intro r' hr'
      constructor
      · exact fun hc' => congrArg Suite.key (hp.unique hr' hr (by simpa using hc') hc)
      · exact fun hk => by simp [eq_of_key hr' hr hk, hc]
    rw [update_eq_updateAt hone]
    have := count_updateAt (p := fun r => r.current.any fun id => db.binds id x)
      (f := (Suite.pointed none)) hr rfl
    simpa [Db.share, Db.pins, hc] using this
  · rename_i hcur
    have hnone : ∀ r' ∈ db.suites, (r'.current == some id) = false :=
      any_eq_false.mp (by simpa [Db.isCurrent] using hcur)
    rw [update_of_none hnone]
    simp [Db.share, Db.pins]

/-- Every change keeps the invariant. -/
theorem change {N : Member → Prop} (h : Ledger db) (hp : Pointers db) (hc : Change N db db') :
    Ledger db' := by
  cases hc with
  | quiet hb hm _ hs _ =>
    refine h.same hb fun x => (Db.pins_congr hs (fun id x _ => ?_) x).ge
    simp only [Db.binds, hm]
  | ease he => exact h.ease (fun _ => rfl) he
  | mark _ => exact h.same rfl fun _ => Nat.le_refl _
  | add hm _ => exact h.same rfl (Db.pins_mono rfl hm)
  | grow hcur hn hm _ hx => exact h.grow rfl hm hcur hn hx rfl
  | shrink hgone => exact h.shrink rfl rfl rfl hgone
  | candidate _ _ _ _ _ => exact h.same rfl fun _ => Nat.le_refl _
  | adopt _ hr hk _ =>
    subst hk
    exact h.adopt hr rfl rfl rfl
  | track hins hcur =>
    refine h.same rfl fun x => ?_
    have := count_insert (p := fun r => r.current.any fun id => db.binds id x) hins
    exact (Nat.le_add_right _ _).trans this.ge
  | untrack hr => exact h.unpin (fun x => count_deleteAt hr rfl) rfl
  | quarantine => exact h.quarantine hp rfl rfl rfl
  | purge _ => exact h.same rfl fun _ => Nat.le_refl _

theorem changes {N : Member → Prop} (h : Ledger db) (hp : Pointers db) (hc : Changes N db db') :
    Ledger db' := by
  have both : Pointers db' ∧ Ledger db' := by
    induction hc with
    | refl => exact ⟨hp, h⟩
    | tail _ hstep ih => exact ⟨ih.1.change hstep, ih.2.change ih.1 hstep⟩
  exact both.2

/-- The collection predicate at a cutoff after the clock of a blob that nothing pins or names. -/
theorem reapable (h : Ledger db) {b : Blob} (hb : b ∈ db.blobs) (hpins : db.pins b.hash = 0)
    (hrefs : db.references b.hash = false) :
    ∃ z, b.zeroedAt = some z ∧ ∀ cutoff, z < cutoff → db.reapable cutoff b = true := by
  have hle : b.refcount ≤ 0 := by simpa [hpins] using h.bound b hb
  obtain ⟨z, hz⟩ := Option.isSome_iff_exists.mp ((h.clock b hb).mp hle)
  exact ⟨z, hz, fun cutoff hlt => by simp [Db.reapable, hle, hz, hlt, hrefs]⟩

end Ledger

theorem ledger_inductive : sys.Inductive fun db => Pointers db ∧ Ledger db where
  init _ h := h ▸ ⟨.empty, .empty⟩
  step db op db' h hs := by
    refine ⟨pointers_inductive.step db op db' h.1 hs, ?_⟩
    obtain ⟨mid, hc, -, _, hmid, -⟩ := op.commit_forgets db
    cases hs
    rw [hmid]
    exact (h.2.changes h.1 hc).same rfl fun _ => Nat.le_refl _

/-- In every reachable database a blob's refcount is at most the number of suites whose current
snapshot names it, and its clock is set if and only if the count is not positive. So blob GC
selects a blob that no current snapshot pins and no row names, once the clock is older than the
grace. -/
theorem refcount_ledger {db : Db} (h : sys.Reach db) {b : Blob} (hb : b ∈ db.blobs) :
    b.refcount ≤ db.pins b.hash ∧ (b.refcount ≤ 0 ↔ b.zeroedAt ≠ none) ∧
    (db.pins b.hash = 0 → db.references b.hash = false →
      ∃ z, b.zeroedAt = some z ∧ ∀ graceSeconds now, z < now - graceSeconds →
        b ∈ db.blobs.select (db.reapable (now - graceSeconds))) := by
  obtain ⟨-, inv⟩ := ledger_inductive.reach h
  refine ⟨inv.bound b hb, ?_, fun hpins hrefs => ?_⟩
  · rw [← Option.isSome_iff_ne_none]
    exact inv.clock b hb
  · obtain ⟨z, hz, hreap⟩ := inv.reapable hb hpins hrefs
    exact ⟨z, hz, fun grace now hlt => mem_select.mpr ⟨hb, hreap _ hlt⟩⟩

/-- The index of the adopted snapshot is pinned once. -/
theorem refcount_ledger_adoptedDb :
    sys.Reach adoptedDb ∧ (adoptedDb.blobs.find (digest 'b')).map Blob.refcount = some 1 ∧
    ∃ b ∈ adoptedDb.blobs, b.hash = digest 'b' ∧ b.refcount ≤ adoptedDb.pins b.hash := by
  have hone : (adoptedDb.blobs.find (digest 'b')).map Blob.refcount = some 1 := by decide +kernel
  obtain ⟨b, hb, -⟩ := Option.map_eq_some_iff.mp hone
  obtain ⟨hb, hh⟩ := find_eq_some.mp hb
  exact ⟨adoptedDb_reach, hone, b, hb, hh, (refcount_ledger adoptedDb_reach hb).1⟩

end AptCacher.Cache
