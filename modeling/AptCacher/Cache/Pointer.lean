import AptCacher.Cache.Walk

/-!
# Current pointers

What holds of the suites' current snapshots in every state of the database, kept by each kind of
change and so by every operation: a suite points at its own newest adopted snapshot, which is not
retired; an adopted snapshot that is not retired belongs to a tracked suite; live snapshots have
different natural keys.

* `Pointers`: the invariant; `Pointers.change`: every change keeps it.
* `Pointers.unique`: two suites never point at the same snapshot.
* `current_pointer`: the invariant of every reachable database.
-/

namespace AptCacher.Cache

open Spec Table

/-- Every other adopted snapshot of the suite that is stored was adopted before `a`. -/
def Db.Newest (db : Db) (key : SuiteKey) (id : Nat) (a : Int) : Prop :=
  ∀ s ∈ db.snapshots, s.key = key → s.id ≠ id → ∀ a', s.adoptedAt = some a' → a' < a

/-- The invariant of the pointers. -/
structure Pointers (db : Db) : Prop where
  /-- A suite points at a live, adopted snapshot of its own, the newest one. -/
  current : ∀ r ∈ db.suites, ∀ id, r.current = some id → ∃ s ∈ db.snapshots, s.id = id ∧
    s.key = r.key ∧ s.retiredAt = none ∧ ∃ a, s.adoptedAt = some a ∧ db.Newest r.key id a
  /-- The suite of a live, adopted snapshot has a row. -/
  tracked : ∀ s ∈ db.snapshots, s.adoptedAt ≠ none → s.retiredAt = none →
    ∃ r ∈ db.suites, r.key = s.key
  /-- One live snapshot for each natural key. -/
  natural : ∀ s ∈ db.snapshots, ∀ s' ∈ db.snapshots, s.retiredAt = none → s'.retiredAt = none →
    s.key = s'.key → s.form = s'.form → s.content = s'.content → s.id = s'.id
  /-- A snapshot has an anchor. -/
  content : ∀ s ∈ db.snapshots, s.content.isSome = true

namespace Pointers

variable {db db' : Db}

theorem empty : Pointers Db.empty where
  current _ h := absurd h notMem_empty
  tracked _ h := absurd h notMem_empty
  natural _ h := absurd h notMem_empty
  content _ h := absurd h notMem_empty

variable {r : Suite} {id : Nat} {p : Snapshot → Bool} {now : Int}

/-- Two suites never point at the same snapshot: it is a snapshot of both. -/
theorem unique (h : Pointers db) {r' : Suite} (hr : r ∈ db.suites) (hr' : r' ∈ db.suites)
    (hc : r.current = some id) (hc' : r'.current = some id) : r = r' := by
  obtain ⟨s, hs, hid, hk, -⟩ := h.current r hr id hc
  obtain ⟨s', hs', hid', hk', -⟩ := h.current r' hr' id hc'
  have : s = s' := eq_of_key hs hs' (hid.trans hid'.symm)
  subst this
  exact eq_of_key hr hr' (hk.symm.trans hk')

theorem quiet (h : Pointers db) (hs : SameBy Suite.pointer db.suites db'.suites)
    (hh : SameBy Snapshot.head db.snapshots db'.snapshots) : Pointers db' where
  current r' hr' id hc := by
    obtain ⟨r, hr, hp⟩ := hs.mem hr'
    obtain ⟨hk, hcur⟩ := Prod.mk.inj hp
    obtain ⟨s, hs, hid, hkey, hre, a, ha, hnew⟩ := h.current r hr id (hcur.trans hc)
    obtain ⟨s', hs', hhead⟩ := hh.symm.mem hs
    obtain ⟨hid', hkey', -, -, had', hre'⟩ := Snapshot.head_eq.mp hhead
    refine ⟨s', hs', hid'.trans hid, hkey'.trans (hkey.trans hk), hre'.trans hre, a,
      had'.trans ha, fun t ht htk hne a' ha' => ?_⟩
    obtain ⟨t₀, ht₀, hth⟩ := hh.mem ht
    obtain ⟨hti, htk', -, -, hta, -⟩ := Snapshot.head_eq.mp hth
    exact hnew t₀ ht₀ (htk'.trans (htk.trans hk.symm)) (fun e => hne (hti.symm.trans e)) a'
      (hta.trans ha')
  tracked s' hs' ha hr := by
    obtain ⟨s, hs₀, hhead⟩ := hh.mem hs'
    obtain ⟨-, hkey, -, -, had, hre⟩ := Snapshot.head_eq.mp hhead
    obtain ⟨r, hrm, hk⟩ := h.tracked s hs₀ (had ▸ ha) (hre.trans hr)
    obtain ⟨r', hr', hp⟩ := hs.symm.mem hrm
    exact ⟨r', hr', (Prod.mk.inj hp).1.trans (hk.trans hkey)⟩
  natural s' hs' t' ht' hr hr' hk hf hc := by
    obtain ⟨s, hs₀, hsh⟩ := hh.mem hs'
    obtain ⟨t, ht₀, hth⟩ := hh.mem ht'
    obtain ⟨hsi, hsk, hsc, hsf, -, hsr⟩ := Snapshot.head_eq.mp hsh
    obtain ⟨hti, htk, htc, htf, -, htr⟩ := Snapshot.head_eq.mp hth
    rw [← hsi, ← hti]
    exact h.natural s hs₀ t ht₀ (hsr.trans hr) (htr.trans hr') (hsk.trans (hk.trans htk.symm))
      (hsf.trans (hf.trans htf.symm)) (hsc.trans (hc.trans htc.symm))
  content s' hs' := by
    obtain ⟨s, hs₀, hhead⟩ := hh.mem hs'
    obtain ⟨-, -, hc, -⟩ := Snapshot.head_eq.mp hhead
    exact hc ▸ h.content s hs₀

/-- Changes of other tables. -/
theorem congr (h : Pointers db) (hs : db'.suites = db.suites) (hh : db'.snapshots = db.snapshots) :
    Pointers db' :=
  h.quiet (hs ▸ .refl _) (hh ▸ .refl _)

theorem candidate (h : Pointers db) {s : Snapshot} {snapshots} {n : Nat}
    (hins : db.snapshots.insert? s = some snapshots) (ha : s.adoptedAt = none)
    (hc : s.content.isSome = true) (hcol : db.collides s = none) :
    Pointers { db with snapshots := snapshots, snapshotSeq := n } where
  current r hr id hcur := by
    obtain ⟨s₁, hs₁, hid, hkey, hre, a, hat, hnew⟩ := h.current r hr id hcur
    refine ⟨s₁, (mem_insert hins).mpr (.inr hs₁), hid, hkey, hre, a, hat, ?_⟩
    intro t ht htk hne a' ha'
    rcases (mem_insert hins).mp ht with rfl | ht
    · simp [ha] at ha'
    · exact hnew t ht htk hne a' ha'
  tracked t ht hta htr := by
    rcases (mem_insert hins).mp ht with rfl | ht
    · exact absurd ha hta
    · exact h.tracked t ht hta htr
  natural := by
    have fresh : ∀ t ∈ db.snapshots, t.retiredAt = none → t.key = s.key → t.form = s.form →
        t.content ≠ s.content := by
      intro t ht hr hk hf hcc
      have := List.find?_eq_none.mp hcol t ht
      simp [hr, hk, hf, hc, hcc] at this
    intro t ht u hu hr hr' hk hf hcc
    rcases (mem_insert hins).mp ht with rfl | ht <;> rcases (mem_insert hins).mp hu with rfl | hu
    · rfl
    · exact absurd hcc.symm (fresh u hu hr' hk.symm hf.symm)
    · exact absurd hcc (fresh t ht hr hk hf)
    · exact h.natural t ht u hu hr hr' hk hf hcc
  content t ht := by
    rcases (mem_insert hins).mp ht with rfl | ht
    · exact hc
    · exact h.content t ht

/-- A suite row without a current snapshot appears. -/
theorem track (h : Pointers db) {suites} {n : Nat} (hins : db.suites.insert? r = some suites)
    (hc : r.current = none) :
    Pointers { db with suites := suites, metadataClock := n } where
  current r' hr' id hcur := by
    rcases (mem_insert hins).mp hr' with rfl | hr'
    · simp [hc] at hcur
    · exact h.current r' hr' id hcur
  tracked s hs ha hr := by
    obtain ⟨r', hr', hk⟩ := h.tracked s hs ha hr
    exact ⟨r', (mem_insert hins).mpr (.inr hr'), hk⟩
  natural := h.natural
  content := h.content

/-- The flip: no other adoption of the suite is as new, and no other suite has the snapshot. -/
theorem adopt (h : Pointers db) {key : SuiteKey} {stamp : Int} {blobs}
    (hs : ∃ s ∈ db.snapshots, s.id = id ∧ s.key = key ∧ s.adoptedAt = none ∧ s.retiredAt = none)
    (hr : r ∈ db.suites) (hk : r.key = key)
    (hst : ∀ s ∈ db.snapshots, s.key = key → ∀ a, s.adoptedAt = some a → a < stamp) :
    Pointers { db with
      blobs := blobs
      suites := db.suites.updateAt key (Suite.pointed (some id))
      snapshots := db.snapshots.updateAt id (Snapshot.adopted stamp) } := by
  obtain ⟨s₀, hs₀, hid₀, hk₀, -, hr₀⟩ := hs
  -- the other columns of the head are those of a row before
  have origin : ∀ s ∈ db.snapshots.updateAt id (Snapshot.adopted stamp), ∃ t ∈ db.snapshots, t.id = s.id ∧ t.key = s.key ∧ t.content = s.content ∧
        t.form = s.form ∧ t.retiredAt = s.retiredAt ∧
        (t.adoptedAt = s.adoptedAt ∨ s.id = id ∧ s.key = key) := by
    intro s hs
    rcases mem_updateAt.mp hs with ⟨hs, -⟩ | ⟨t, ht, hid, rfl⟩
    · exact ⟨s, hs, rfl, rfl, rfl, rfl, rfl, .inl rfl⟩
    · have : t = s₀ := eq_of_key ht hs₀ (hid.trans hid₀.symm)
      subst this
      exact ⟨t, ht, rfl, rfl, rfl, rfl, rfl, .inr ⟨hid, hk₀⟩⟩
  constructor
  · intro r' hr' id' hc
    rcases mem_updateAt.mp hr' with ⟨hr', hne⟩ | ⟨r₁, -, hr₁k, rfl⟩
    · obtain ⟨s, hs, hid, hkey, hre, a, ha, hnew⟩ := h.current r' hr' id' hc
      have hother : s.id ≠ id := by
        intro he
        have : s = s₀ := eq_of_key hs hs₀ (he.trans hid₀.symm)
        exact hne (by rw [← hkey, this, hk₀])
      refine ⟨s, mem_updateAt.mpr (.inl ⟨hs, hother⟩), hid, hkey, hre, a, ha, ?_⟩
      intro t ht htk htne a' ha'
      obtain ⟨t₀, ht₀, hti, htk', -, -, -, hta | ⟨-, hkk⟩⟩ := origin t ht
      · exact hnew t₀ ht₀ (htk'.trans htk) (hti ▸ htne) a' (hta.trans ha')
      · exact absurd (htk.symm.trans hkk) hne
    · cases hc
      refine ⟨{ s₀ with adoptedAt := some stamp },
        mem_updateAt.mpr (.inr ⟨s₀, hs₀, hid₀, rfl⟩), hid₀, hk₀.trans hr₁k.symm, hr₀, stamp, rfl, ?_⟩
      intro t ht htk htne a' ha'
      rcases mem_updateAt.mp ht with ⟨ht, -⟩ | ⟨t₁, -, hid, rfl⟩
      · exact hst t ht (htk.trans hr₁k) a' ha'
      · exact absurd hid htne
  · intro s hs ha hre
    have row : ∃ r ∈ db.suites, r.key = s.key := by
      obtain ⟨t, ht, -, hk', -, -, hr', hta | ⟨-, hkk⟩⟩ := origin s hs
      · obtain ⟨r', hr', hkr⟩ := h.tracked t ht (hta ▸ ha) (hr'.trans hre)
        exact ⟨r', hr', hkr.trans hk'⟩
      · exact ⟨r, hr, hk.trans hkk.symm⟩
    exact exists_mem_update.mpr row
  · intro s hs t ht hsr htr hkk hff hcc
    obtain ⟨s₁, hs₁, hsi, hsk, hsc, hsf, hsr', -⟩ := origin s hs
    obtain ⟨t₁, ht₁, hti, htk, htc, htf, htr', -⟩ := origin t ht
    rw [← hsi, ← hti]
    exact h.natural s₁ hs₁ t₁ ht₁ (hsr'.trans hsr) (htr'.trans htr) (hsk.trans (hkk.trans htk.symm))
      (hsf.trans (hff.trans htf.symm)) (hsc.trans (hcc.trans htc.symm))
  · intro s hs
    obtain ⟨t, ht, -, -, hc, -⟩ := origin s hs
    exact hc ▸ h.content t ht

/-! ### Retirement -/

/-- A row after a retirement comes from a row that differs at most in its stamp, and not at all if
it is live. -/
theorem mem_retire {s' : Snapshot} (h : s' ∈ db.retire p now) :
    ∃ s ∈ db.snapshots, s.id = s'.id ∧ s.key = s'.key ∧ s.content = s'.content ∧
      s.adoptedAt = s'.adoptedAt ∧ (s'.retiredAt = none → s = s' ∧ p s = false) := by
  obtain ⟨s, hs, rfl⟩ := mem_update.mp h
  refine ⟨s, hs, ?_⟩
  split
  · exact ⟨rfl, rfl, rfl, rfl, fun h => by simp at h⟩
  · rename_i hp
    exact ⟨rfl, rfl, rfl, rfl, fun hr => ⟨rfl, by simpa [hr] using hp⟩⟩

theorem mem_retire_of_not {s : Snapshot} (h : s ∈ db.snapshots) (hp : p s = false) :
    s ∈ db.retire p now :=
  mem_update.mpr ⟨s, h, by simp [hp]⟩

/-- A retirement keeps what holds of every snapshot, and of live ones. -/
theorem retire (h : Pointers db) {suites blobs}
    (hcur : ∀ r' ∈ suites, ∀ id, r'.current = some id → ∃ r ∈ db.suites, r.key = r'.key ∧
      r.current = some id ∧ ∀ s ∈ db.snapshots, s.id = id → s.key = r.key → p s = false)
    (hrow : ∀ s ∈ db.snapshots, p s = false → (∃ r ∈ db.suites, r.key = s.key) →
      ∃ r ∈ suites, r.key = s.key) :
    Pointers { db with suites := suites, blobs := blobs, snapshots := db.retire p now } where
  current r' hr' id hc := by
    obtain ⟨r, hr, hk, hc', hp⟩ := hcur r' hr' id hc
    obtain ⟨s, hs, hid, hkey, hre, a, ha, hnew⟩ := h.current r hr id hc'
    refine ⟨s, mem_retire_of_not hs (hp s hs hid hkey), hid, hkey.trans hk, hre, a, ha, ?_⟩
    intro t ht htk hne a' ha'
    obtain ⟨t₀, ht₀, hti, htk₀, -, hta, -⟩ := mem_retire ht
    exact hnew t₀ ht₀ (htk₀.trans (htk.trans hk.symm)) (hti ▸ hne) a' (hta.trans ha')
  tracked s' hs' ha hr := by
    obtain ⟨s, hs, -, -, -, -, hlive⟩ := mem_retire hs'
    obtain ⟨rfl, hp⟩ := hlive hr
    exact hrow s hs hp (h.tracked s hs ha hr)
  natural s' hs' t' ht' hr hr' := by
    obtain ⟨s, hs, -, -, -, -, hlive⟩ := mem_retire hs'
    obtain ⟨t, ht, -, -, -, -, hlive'⟩ := mem_retire ht'
    obtain ⟨rfl, -⟩ := hlive hr
    obtain ⟨rfl, -⟩ := hlive' hr'
    exact h.natural s hs t ht hr hr'
  content s' hs' := by
    obtain ⟨s, hs, -, -, hc, -⟩ := mem_retire hs'
    exact hc ▸ h.content s hs

theorem untrack (h : Pointers db) {blobs} :
    Pointers { db with
      blobs := blobs
      snapshots := db.retire (fun s => s.key == r.key) now
      suites := db.suites.deleteAt r.key } := by
  apply h.retire
  · intro r' hr' id hc
    obtain ⟨hr', hne⟩ := mem_deleteAt.mp hr'
    exact ⟨r', hr', rfl, hc, fun s _ _ hk => by simpa [hk] using hne⟩
  · rintro s - hp ⟨r', hr', hk⟩
    exact ⟨r', mem_deleteAt.mpr ⟨hr', by simpa [hk] using hp⟩, hk⟩

theorem quarantine (h : Pointers db) {blobs} :
    Pointers { db with
      suites := db.suites.update (fun r => r.current == some id)
        (Suite.pointed none)
      blobs := blobs
      snapshots := db.retire (fun s => s.id == id) now } := by
  apply h.retire
  · intro r' hr' id' hc
    obtain ⟨r, hr, rfl⟩ := mem_update.mp hr'
    split at hc
    · simp at hc
    · rename_i hne
      refine ⟨r, hr, by simp [hne], hc, fun s _ hid _ => ?_⟩
      simp only [hc, beq_iff_eq, Option.some.injEq] at hne
      simpa [hid] using hne
  · intro s _ _ hrow
    exact exists_mem_update.mpr hrow

theorem purge (h : Pointers db) (hp : ∀ s ∈ db.snapshots, p s = true → db.isCurrent s.id = false) :
    Pointers { db with snapshots := db.snapshots.delete p } where
  current r hr id hc := by
    obtain ⟨s, hs, hid, hkey, hre, a, ha, hnew⟩ := h.current r hr id hc
    have hcur : db.isCurrent s.id = true :=
      any_iff.mpr ⟨r, hr, by simp [hc, hid]⟩
    have hkeep : p s = false := by
      by_contra hn
      simp [hp s hs (by simpa using hn)] at hcur
    exact ⟨s, mem_delete.mpr ⟨hs, hkeep⟩, hid, hkey, hre, a, ha,
      fun t ht => hnew t (mem_delete.mp ht).1⟩
  tracked s hs := h.tracked s (mem_delete.mp hs).1
  natural s hs t ht := h.natural s (mem_delete.mp hs).1 t (mem_delete.mp ht).1
  content s hs := h.content s (mem_delete.mp hs).1

/-- Every change keeps the invariant. -/
theorem change {N : Member → Prop} (h : Pointers db) (hc : Change N db db') : Pointers db' := by
  cases hc with
  | quiet _ _ _ hs hh => exact h.quiet hs hh
  | ease _ => exact h.congr rfl rfl
  | mark _ => exact h.congr rfl rfl
  | add _ _ => exact h.congr rfl rfl
  | grow _ _ _ _ _ => exact h.congr rfl rfl
  | shrink _ => exact h.congr rfl rfl
  | candidate hins ha _ hcon hcol => exact h.candidate hins ha hcon hcol
  | adopt hs hr hk hst => exact h.adopt hs hr hk hst
  | track hins hcur => exact h.track hins hcur
  | untrack _ => exact h.untrack
  | quarantine => exact h.quarantine
  | purge hp => exact h.purge hp

theorem changes {N : Member → Prop} (h : Pointers db) (hc : Changes N db db') : Pointers db' := by
  induction hc with
  | refl => exact h
  | tail _ hstep ih => exact ih.change hstep

end Pointers

theorem pointers_inductive : sys.Inductive Pointers where
  init _ h := h ▸ .empty
  step db op db' h hs := by
    obtain ⟨mid, hc, hsuites, _, hmid, -⟩ := op.commit_forgets db
    cases hs
    exact (h.changes hc).congr hsuites (by rw [hmid])

/-- In every reachable database: a current pointer names an adopted, live snapshot of its own
suite, adopted after every other one that is stored; two suites never share it; the suite of an
adopted, live snapshot has a row; and live snapshots with the same suite, anchor content and form
are one. -/
theorem current_pointer {db : Db} (h : sys.Reach db) :
    (∀ r ∈ db.suites, ∀ id, r.current = some id →
      ∃ s ∈ db.snapshots, s.id = id ∧ s.key = r.key ∧ s.retiredAt = none ∧
        ∃ a, s.adoptedAt = some a ∧ ∀ s' ∈ db.snapshots, s' ≠ s → s'.key = r.key →
          ∀ a', s'.adoptedAt = some a' → a' < a) ∧
    (∀ r ∈ db.suites, ∀ r' ∈ db.suites, ∀ id, r.current = some id → r'.current = some id →
      r = r') ∧
    (∀ s ∈ db.snapshots, s.adoptedAt ≠ none → s.retiredAt = none →
      ∃ r ∈ db.suites, r.key = s.key) ∧
    (∀ s ∈ db.snapshots, ∀ s' ∈ db.snapshots, s.retiredAt = none → s'.retiredAt = none →
      s.key = s'.key → s.content = s'.content → s.form = s'.form → s = s') := by
  have inv := pointers_inductive.reach h
  refine ⟨?_, fun r hr r' hr' id => inv.unique hr hr', inv.tracked, ?_⟩
  · intro r hr id hc
    obtain ⟨s, hs, hid, hk, hre, a, ha, hnew⟩ := inv.current r hr id hc
    refine ⟨s, hs, hid, hk, hre, a, ha, fun s' hs' hne hk' => hnew s' hs' hk' fun he => ?_⟩
    exact hne (eq_of_key hs' hs (he.trans hid.symm))
  · intro s hs s' hs' hr hr' hk hc hf
    exact eq_of_key hs hs' (inv.natural s hs s' hs' hr hr' hk hf hc)

/-! ## A run -/

/-- A suite. -/
def stable : SuiteKey := ⟨.http, "deb".toList, "/debian/dists/stable".toList⟩

/-- A hash of 64 equal digits. -/
def digest (c : Char) : Str := List.replicate 64 c

/-- A suite is created, and an inline snapshot with one index is adopted for it. -/
def adoptionRun : List Op :=
  [.putBlob (digest 'a') 10 1, .putBlob (digest 'b') 20 2,
    .createSuite ⟨stable, 3, 0, []⟩ ⟨0, 0⟩ none 3,
    .insertCandidateSnapshot ⟨stable, some (digest 'a'), none, none, none, false⟩ 4,
    .commitAdoption 1 [⟨1, "main/Packages".toList, digest 'b', digest 'b'⟩] [] [] [] true 5 5]

/-- The database after `adoptionRun`. -/
def adoptedDb : Db := (sys.exec Db.empty adoptionRun).getD Db.empty

theorem adoptedDb_reach : sys.Reach adoptedDb :=
  .exec rfl (eq_some_getD _ (by decide +kernel))

theorem current_pointer_adoptedDb :
    sys.Reach adoptedDb ∧ (adoptedDb.suites.find stable).bind Suite.current = some 1 ∧
    ∃ s ∈ adoptedDb.snapshots, s.id = 1 ∧ s.key = stable ∧ s.retiredAt = none := by
  have hcur : (adoptedDb.suites.find stable).bind Suite.current = some 1 := by decide +kernel
  obtain ⟨r, hr, hc⟩ := Option.bind_eq_some_iff.mp hcur
  obtain ⟨hr, hk⟩ := find_eq_some.mp hr
  obtain ⟨s, hs, hid, hsk, hre, -⟩ := (current_pointer adoptedDb_reach).1 r hr 1 hc
  exact ⟨adoptedDb_reach, hcur, s, hs, hid, hsk.trans hk, hre⟩

end AptCacher.Cache
