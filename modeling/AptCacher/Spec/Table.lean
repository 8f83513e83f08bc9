import Mathlib.Data.List.Nodup
import Mathlib.Data.List.Count
import Mathlib.Tactic.Ring

/-!
# Tables with a primary key

A table is a list of rows no two of which have the same key, with the statements of SQL as its
operations: `INSERT` fails on a key that is there, `UPDATE … WHERE` and `DELETE … WHERE` go over
all rows, `SELECT COUNT(*) WHERE` counts.

* `mem_update`, `mem_delete`, `mem_insert`, `mem_upsert`: the rows after a statement, from the
  rows before it.
* `find_eq_some`, `eq_of_key`: a row is determined by its key.
* `find_insert`, `find_update`, `find_updateAt`, `find_upsert`, `find_deleteAt`: the row of a key
  after a statement.
* `count_congr`, `count_insert`, `count_updateAt`, `count_deleteAt`: how a count changes when
  one row does.
* `updateAt_comm`, `deleteAt_updateAt`, `deleteAt_comm`: statements on different rows commute.
* `SameBy f`: two tables that agree row by row in what `f` reads, such as before and after an
  update of the other columns.
-/

namespace AptCacher.Spec

variable {ρ κ : Type} {key : ρ → κ}

/-- Rows with pairwise different keys. -/
structure Table (ρ κ : Type) (key : ρ → κ) where
  /-- The rows, the newest first. -/
  rows : List ρ
  /-- The primary key. -/
  nodup : (rows.map key).Nodup

/-- An assignment of columns that leaves the key as it is. -/
structure Assign (key : ρ → κ) where
  run : ρ → ρ
  keeps : ∀ r, key (run r) = key r

namespace Table

instance : Membership ρ (Table ρ κ key) where
  mem t r := r ∈ t.rows

/-- The table with no rows. -/
def empty : Table ρ κ key := ⟨[], List.nodup_nil⟩

/-- `EXISTS (SELECT … WHERE p)`. -/
def any (t : Table ρ κ key) (p : ρ → Bool) : Bool := t.rows.any p

/-- `SELECT … WHERE p`. -/
def select (t : Table ρ κ key) (p : ρ → Bool) : List ρ := t.rows.filter p

/-- `SELECT COUNT(*) … WHERE p`. -/
def count (t : Table ρ κ key) (p : ρ → Bool) : Nat := t.rows.countP p

/-- `DELETE … WHERE p`. -/
def delete (t : Table ρ κ key) (p : ρ → Bool) : Table ρ κ key where
  rows := t.rows.filter fun r => !p r
  nodup := t.nodup.sublist (List.filter_sublist.map key)

/-- `UPDATE … SET … WHERE p`. -/
def update (t : Table ρ κ key) (p : ρ → Bool) (f : Assign key) : Table ρ κ key where
  rows := t.rows.map fun r => if p r then f.run r else r
  nodup := by
    have h : (key ∘ fun r => if p r then f.run r else r) = key := by
      funext r
      simp only [Function.comp_apply]
      split
      · exact f.keeps r
      · rfl
    rw [List.map_map, h]
    exact t.nodup

variable [DecidableEq κ]

/-- The row with the key `k`. -/
def find (t : Table ρ κ key) (k : κ) : Option ρ := t.rows.find? fun r => key r = k

/-- `INSERT`; there is no result if the key is there (a constraint error). -/
def insert? (t : Table ρ κ key) (r : ρ) : Option (Table ρ κ key) :=
  if h : key r ∈ t.rows.map key then none else some ⟨r :: t.rows, List.nodup_cons.mpr ⟨h, t.nodup⟩⟩

/-- `UPDATE … SET … WHERE key = k`. -/
def updateAt (t : Table ρ κ key) (k : κ) (f : Assign key) : Table ρ κ key :=
  t.update (fun r => key r = k) f

/-- `DELETE … WHERE key = k`. -/
def deleteAt (t : Table ρ κ key) (k : κ) : Table ρ κ key :=
  t.delete fun r => key r = k

/-- `INSERT … ON CONFLICT(key) DO UPDATE SET …`: `r` is the row inserted, `f` the update of a row
that is there. -/
def upsert (t : Table ρ κ key) (r : ρ) (f : Assign key) : Table ρ κ key :=
  (t.insert? r).getD (t.updateAt (key r) f)

/-! ## Rows -/

section Rows

omit [DecidableEq κ]

variable {t : Table ρ κ key} {r : ρ} {p : ρ → Bool}

theorem mem_def : r ∈ t ↔ r ∈ t.rows := Iff.rfl

@[simp] theorem notMem_empty : r ∉ (empty : Table ρ κ key) := List.not_mem_nil

theorem any_iff : t.any p = true ↔ ∃ r ∈ t, p r = true := List.any_eq_true

theorem any_eq_false : t.any p = false ↔ ∀ r ∈ t, p r = false := by
  simp [any, mem_def]

theorem mem_select : r ∈ t.select p ↔ r ∈ t ∧ p r = true := List.mem_filter

theorem mem_delete : r ∈ t.delete p ↔ r ∈ t ∧ p r = false := by
  simp [delete, mem_def]

theorem delete_delete {q : ρ → Bool} :
    (t.delete p).delete q = t.delete fun r => p r || q r := by
  simp only [delete, List.filter_filter, Bool.not_or, Bool.and_comm]

theorem delete_of_none (h : ∀ r ∈ t, p r = false) : t.delete p = t := by
  have hrows : t.rows.filter (fun r => !p r) = t.rows :=
    List.filter_eq_self.mpr fun r hr => by simp [h r hr]
  simp only [delete, hrows]

theorem delete_congr {q : ρ → Bool} (h : ∀ r ∈ t, p r = q r) : t.delete p = t.delete q := by
  have hrows : t.rows.filter (fun r => !p r) = t.rows.filter fun r => !q r :=
    List.filter_congr fun r hr => by rw [h r hr]
  simp only [delete, hrows]

theorem mem_update {f : Assign key} :
    r ∈ t.update p f ↔ ∃ r₀ ∈ t, r = if p r₀ then f.run r₀ else r₀ := by
  simp only [update, mem_def, List.mem_map, eq_comm]

theorem exists_mem_update {f : Assign key} {k : κ} :
    (∃ r ∈ t.update p f, key r = k) ↔ ∃ r ∈ t, key r = k := by
  have hk : ∀ r, key (if p r then f.run r else r) = key r := fun r => by
    split
    · exact f.keeps r
    · rfl
  constructor
  · rintro ⟨_, hr, rfl⟩
    obtain ⟨r₀, hr₀, rfl⟩ := mem_update.mp hr
    exact ⟨r₀, hr₀, (hk r₀).symm⟩
  · rintro ⟨r, hr, rfl⟩
    exact ⟨_, mem_update.mpr ⟨r, hr, rfl⟩, hk r⟩

theorem eq_of_key {r' : ρ} (h : r ∈ t) (h' : r' ∈ t) (hk : key r = key r') : r = r' :=
  List.inj_on_of_nodup_map t.nodup h h' hk

end Rows

variable {t t' : Table ρ κ key} {r : ρ} {k : κ} {p q : ρ → Bool}

theorem find_eq_some : t.find k = some r ↔ r ∈ t ∧ key r = k := by
  constructor
  · intro h
    have hk := List.find?_some h
    exact ⟨List.mem_of_find?_eq_some h, of_decide_eq_true hk⟩
  · rintro ⟨h, rfl⟩
    -- the row `find?` stops at has the key of `r`, so it is `r`
    cases hf : t.find (key r) with
    | none => simpa using List.find?_eq_none.mp hf r h
    | some r' =>
      have hk : key r' = key r := by simpa using List.find?_some hf
      rw [eq_of_key (List.mem_of_find?_eq_some hf) h hk]

theorem exists_of_find {γ : Type} {f : ρ → γ} {y : γ} (h : (t.find k).map f = some y) :
    ∃ r ∈ t, key r = k ∧ f r = y := by
  obtain ⟨r, hr, rfl⟩ := Option.map_eq_some_iff.mp h
  obtain ⟨hr, hk⟩ := find_eq_some.mp hr
  exact ⟨r, hr, hk, rfl⟩

theorem find_eq_none : t.find k = none ↔ ∀ r ∈ t, key r ≠ k := by
  simp [find, mem_def]

variable {f : Assign key} {k' : κ}

theorem mem_updateAt :
    r ∈ t.updateAt k f ↔ (r ∈ t ∧ key r ≠ k) ∨ ∃ r₀ ∈ t, key r₀ = k ∧ r = f.run r₀ := by
  simp only [updateAt, mem_update, decide_eq_true_eq]
  constructor
  · rintro ⟨r₀, h₀, rfl⟩
    split
    · exact .inr ⟨r₀, h₀, ‹_›, rfl⟩
    · exact .inl ⟨h₀, ‹_›⟩
  · rintro (⟨h, hk⟩ | ⟨r₀, h₀, hk, rfl⟩)
    · exact ⟨r, h, by simp [hk]⟩
    · exact ⟨r₀, h₀, by simp [hk]⟩

theorem mem_deleteAt : r ∈ t.deleteAt k ↔ r ∈ t ∧ key r ≠ k := by
  simp [deleteAt, mem_delete]

theorem insert?_eq_some : t.insert? r = some t' ↔ t.find (key r) = none ∧ t'.rows = r :: t.rows := by
  have hk : key r ∈ t.rows.map key ↔ ¬ t.find (key r) = none := by
    simp [find_eq_none, mem_def]
  unfold insert?
  split <;> rename_i h
  · simp [hk.mp h]
  · constructor
    · rintro ⟨⟩
      exact ⟨by simpa using hk.not.mp h, rfl⟩
    · rintro ⟨-, ht⟩
      cases t'
      simp_all

theorem exists_of_insert_none (h : t.insert? r = none) : ∃ r' ∈ t, key r' = key r := by
  by_contra hn
  have hin : key r ∉ t.rows.map key := fun hin => by
    obtain ⟨r', hr', hk⟩ := List.mem_map.mp hin
    exact hn ⟨r', hr', hk⟩
  simp [insert?, hin] at h

theorem mem_insert {r' : ρ} (h : t.insert? r = some t') : r' ∈ t' ↔ r' = r ∨ r' ∈ t := by
  simp [mem_def, (insert?_eq_some.mp h).2]

theorem mem_upsert {r' : ρ} :
    r' ∈ t.upsert r f →
      r' ∈ t ∨ (r' = r ∧ t.find (key r) = none) ∨ ∃ r₀ ∈ t, key r₀ = key r ∧ r' = f.run r₀ := by
  unfold upsert
  cases h : t.insert? r with
  | none =>
    intro hr
    rcases mem_updateAt.mp hr with ⟨hr, -⟩ | ⟨r₀, h₀, hk, rfl⟩
    · exact .inl hr
    · exact .inr (.inr ⟨r₀, h₀, hk, rfl⟩)
  | some t' =>
    intro hr
    rcases (mem_insert h).mp hr with rfl | hr
    · exact .inr (.inl ⟨rfl, (insert?_eq_some.mp h).1⟩)
    · exact .inl hr

theorem exists_mem_upsert :
    (∃ r' ∈ t.upsert r f, key r' = k) ↔ k = key r ∨ ∃ r' ∈ t, key r' = k := by
  unfold upsert
  cases h : t.insert? r with
  | none =>
    have hin : key r ∈ t.rows.map key := by
      by_contra hn
      simp [insert?, hn] at h
    obtain ⟨r₁, h₁, hk₁⟩ := List.mem_map.mp hin
    constructor
    · rintro ⟨r', hr', rfl⟩
      rcases mem_updateAt.mp hr' with ⟨hr, -⟩ | ⟨r₀, h₀, hk, rfl⟩
      · exact .inr ⟨r', hr, rfl⟩
      · exact .inr ⟨r₀, h₀, (f.keeps r₀).symm⟩
    · rintro (rfl | ⟨r', hr', rfl⟩)
      · exact ⟨f.run r₁, mem_updateAt.mpr (.inr ⟨r₁, h₁, hk₁, rfl⟩), (f.keeps r₁).trans hk₁⟩
      · by_cases hk : key r' = key r
        · exact ⟨f.run r', mem_updateAt.mpr (.inr ⟨r', hr', hk, rfl⟩), f.keeps r'⟩
        · exact ⟨r', mem_updateAt.mpr (.inl ⟨hr', hk⟩), rfl⟩
  | some t' =>
    simp only [Option.getD_some, mem_insert h]
    constructor
    · rintro ⟨r', rfl | hr', rfl⟩
      · exact .inl rfl
      · exact .inr ⟨r', hr', rfl⟩
    · rintro (rfl | ⟨r', hr', rfl⟩)
      · exact ⟨r, .inl rfl, rfl⟩
      · exact ⟨r', .inr hr', rfl⟩

theorem find_insert (h : t.insert? r = some t') :
    t'.find k = if key r = k then some r else t.find k := by
  rw [find, (insert?_eq_some.mp h).2, List.find?_cons]
  by_cases hk : key r = k
  · simp [hk]
  · simp [hk, find]

theorem find_update {p : ρ → Bool} :
    (t.update p f).find k = (t.find k).map fun r => if p r then f.run r else r := by
  have hk : ∀ r, key (if p r then f.run r else r) = key r := fun r => by
    split
    · exact f.keeps r
    · rfl
  rw [find, find, update, List.find?_map]
  congr 2
  funext r
  simp only [Function.comp_apply, hk]

theorem find_updateAt :
    (t.updateAt k' f).find k = if k = k' then (t.find k).map f.run else t.find k := by
  rw [updateAt, find_update]
  cases hf : t.find k with
  | none => simp
  | some r =>
    obtain ⟨-, rfl⟩ := find_eq_some.mp hf
    by_cases hk : key r = k' <;> simp [hk]

theorem find_upsert : (t.upsert r f).find k =
    if k = key r then some ((t.find (key r)).elim r f.run) else t.find k := by
  unfold upsert
  cases h : t.insert? r with
  | none =>
    obtain ⟨r', hr', hk'⟩ := exists_of_insert_none h
    rw [Option.getD_none, find_updateAt]
    by_cases hk : k = key r
    · rw [if_pos hk, if_pos hk, hk, find_eq_some.mpr ⟨hr', hk'⟩]
      rfl
    · rw [if_neg hk, if_neg hk]
  | some t' =>
    rw [Option.getD_some, find_insert h, (insert?_eq_some.mp h).1]
    simp only [eq_comm, Option.elim_none]

theorem find_delete_eq (h : ∀ r, key r = k → p r = false) : (t.delete p).find k = t.find k := by
  cases hk : t.find k with
  | none =>
    rw [find_eq_none] at hk ⊢
    exact fun r hr => hk r (mem_delete.mp hr).1
  | some r =>
    rw [find_eq_some] at hk ⊢
    exact ⟨mem_delete.mpr ⟨hk.1, h r hk.2⟩, hk.2⟩

theorem find_deleteAt :
    (t.deleteAt k').find k = if k = k' then none else t.find k := by
  by_cases hk : k = k'
  · rw [if_pos hk, find_eq_none]
    intro r hr
    rw [hk]
    exact (mem_deleteAt.mp hr).2
  · rw [if_neg hk]
    cases hf : t.find k with
    | none =>
      rw [find_eq_none] at hf ⊢
      exact fun r hr => hf r (mem_deleteAt.mp hr).1
    | some r =>
      obtain ⟨hr, rfl⟩ := find_eq_some.mp hf
      exact find_eq_some.mpr ⟨mem_deleteAt.mpr ⟨hr, hk⟩, rfl⟩

theorem updateAt_eq_self (h : ∀ r, t.find k = some r → f.run r = r) :
    t.updateAt k f = t := by
  have hrows : ∀ x ∈ t.rows, (if decide (key x = k) then f.run x else x) = id x := by
    intro x hx
    by_cases hk : key x = k
    · simpa [hk] using h x (find_eq_some.mpr ⟨hx, hk⟩)
    · simp [hk]
  have hid : t.rows.map (fun x => if decide (key x = k) then f.run x else x) = t.rows := by
    rw [List.map_congr_left hrows, List.map_id]
  simp only [updateAt, update, hid]

/-! ## Counts -/

omit [DecidableEq κ] in
theorem count_congr (h : ∀ r ∈ t, p r = q r) : t.count p = t.count q :=
  List.countP_congr fun r hr => by rw [h r hr]

omit [DecidableEq κ] in
theorem count_mono (h : ∀ r ∈ t, p r = true → q r = true) : t.count p ≤ t.count q :=
  List.countP_mono_left h

omit [DecidableEq κ] in
theorem count_delete : (t.delete q).count p = t.count fun r => p r && !q r := by
  simp only [count, delete, List.countP_filter]

theorem count_insert (h : t.insert? r = some t') :
    t'.count p = t.count p + if p r then 1 else 0 := by
  simp [count, (insert?_eq_some.mp h).2, List.countP_cons]

omit [DecidableEq κ] in
theorem rows_split (h : r ∈ t) : ∃ l₁ l₂, t.rows = l₁ ++ r :: l₂ ∧ ∀ x ∈ l₁ ++ l₂, key x ≠ key r := by
  obtain ⟨l₁, l₂, hl⟩ := List.append_of_mem (mem_def.mp h)
  refine ⟨l₁, l₂, hl, fun x hx hk => ?_⟩
  have hn := t.nodup
  rw [hl, List.map_append, List.map_cons, List.nodup_middle, List.nodup_cons] at hn
  exact hn.1 (by rw [← List.map_append, ← hk]; exact List.mem_map_of_mem hx)

/-- One row changes: the count of `p` loses the old row's share and gains the new one's. -/
theorem count_updateAt (h : r ∈ t) (hk : key r = k) :
    ((t.updateAt k f).count p + if p r then 1 else 0) = t.count p + if p (f.run r) then 1 else 0 := by
  subst hk
  obtain ⟨l₁, l₂, hl, hne⟩ := rows_split h
  have hsame : ∀ l : List ρ, (∀ x ∈ l, key x ≠ key r) →
      l.map (fun x => if decide (key x = key r) then f.run x else x) = l := by
    intro l hl
    rw [List.map_congr_left (g := id) (fun x hx => by simp [hl x hx]), List.map_id]
  have h₁ := hsame l₁ fun x hx => hne x (List.mem_append_left _ hx)
  have h₂ := hsame l₂ fun x hx => hne x (List.mem_append_right _ hx)
  simp only [count, updateAt, update, hl, List.map_append, List.map_cons, h₁, h₂,
    List.countP_append, List.countP_cons, decide_true, if_true]
  ring

/-- An update of rows that hold one key at most is an update of that key. -/
theorem update_eq_updateAt (h : ∀ x ∈ t, p x = true ↔ key x = k) :
    t.update p f = t.updateAt k f := by
  have hrows : ∀ x ∈ t.rows, (if p x then f.run x else x) =
      if decide (key x = k) then f.run x else x := by
    intro x hx
    simp only [decide_eq_true_eq, h x hx]
  simp only [updateAt, update, List.map_congr_left hrows]

omit [DecidableEq κ] in
/-- More rows count, and one that did not. -/
theorem count_lt (h : ∀ x ∈ t, p x = true → q x = true) (hr : r ∈ t) (hp : p r = false)
    (hq : q r = true) : t.count p < t.count q := by
  obtain ⟨l₁, l₂, hl, -⟩ := rows_split hr
  have hmono : ∀ l : List ρ, (∀ x ∈ l, x ∈ t.rows) → l.countP p ≤ l.countP q :=
    fun l hsub => List.countP_mono_left fun x hx => h x (hsub x hx)
  have h₁ := hmono l₁ fun x hx => by simp [hl, hx]
  have h₂ := hmono l₂ fun x hx => by simp [hl, hx]
  simp only [count, hl, List.countP_append, List.countP_cons, hp, hq, if_true,
    Bool.false_eq_true, if_false]
  omega

omit [DecidableEq κ] in
theorem update_of_none (h : ∀ x ∈ t, p x = false) : t.update p f = t := by
  have hrows : ∀ x ∈ t.rows, (if p x then f.run x else x) = id x := fun x hx => by simp [h x hx]
  have hid : t.rows.map (fun x => if p x then f.run x else x) = t.rows := by
    rw [List.map_congr_left hrows, List.map_id]
  simp only [update, hid]

theorem count_deleteAt (h : r ∈ t) (hk : key r = k) :
    ((t.deleteAt k).count p + if p r then 1 else 0) = t.count p := by
  subst hk
  obtain ⟨l₁, l₂, hl, hne⟩ := rows_split h
  have hsame : ∀ l : List ρ, (∀ x ∈ l, key x ≠ key r) →
      l.filter (fun x => !decide (key x = key r)) = l := by
    intro l hl
    exact List.filter_eq_self.mpr fun x hx => by simp [hl x hx]
  have h₁ := hsame l₁ fun x hx => hne x (List.mem_append_left _ hx)
  have h₂ := hsame l₂ fun x hx => hne x (List.mem_append_right _ hx)
  simp only [count, deleteAt, delete, hl, List.filter_append, List.filter_cons, h₁, h₂,
    List.countP_append, List.countP_cons, decide_true, Bool.not_true, Bool.false_eq_true, if_false]
  ring

omit [DecidableEq κ] in
/-- The rows of either kind: those of the first, and those of the second that a delete of the first
leaves. -/
theorem count_or : t.count (fun r => p r || q r) = t.count p + (t.delete p).count q := by
  rw [count_delete]
  have h := List.countP_eq_countP_filter_add t.rows (fun r => p r || q r) p
  rw [List.countP_filter, List.countP_filter] at h
  refine h.trans (congrArg₂ (· + ·) (count_congr fun r _ => ?_) (count_congr fun r _ => ?_))
  · cases p r <;> simp
  · cases p r <;> simp

theorem count_key :
    t.count (fun r => decide (key r = k)) = if (t.find k).isSome then 1 else 0 := by
  cases hk : t.find k with
  | none => exact List.countP_eq_zero.mpr fun r hr => by simpa using find_eq_none.mp hk r hr
  | some r =>
    obtain ⟨hr, hkey⟩ := find_eq_some.mp hk
    have h := count_deleteAt (p := fun r => decide (key r = k)) hr hkey
    have hnone : (t.deleteAt k).count (fun r => decide (key r = k)) = 0 :=
      List.countP_eq_zero.mpr fun x hx => by simpa using (mem_deleteAt.mp hx).2
    rw [hnone, if_pos (decide_eq_true hkey), Nat.zero_add] at h
    exact h.symm

/-! ## Statements on different rows -/

theorem updateAt_comm (f g : Assign key) (h : k ≠ k') :
    (t.updateAt k f).updateAt k' g = (t.updateAt k' g).updateAt k f := by
  have hrow : ∀ r : ρ, (if key (if key r = k then f.run r else r) = k' then
      g.run (if key r = k then f.run r else r) else if key r = k then f.run r else r) =
      if key (if key r = k' then g.run r else r) = k then
        f.run (if key r = k' then g.run r else r) else if key r = k' then g.run r else r := by
    intro r
    by_cases hk : key r = k
    · simp [hk, f.keeps, h]
    · by_cases hk' : key r = k'
      · simp [hk', g.keeps, h.symm]
      · simp [hk, hk']
  simp only [updateAt, update, List.map_map, decide_eq_true_eq, Function.comp_def, hrow]

theorem deleteAt_updateAt (f : Assign key) :
    (t.deleteAt k).updateAt k' f = (t.updateAt k' f).deleteAt k := by
  have hrow : ∀ r : ρ,
      (!decide (key (if key r = k' then f.run r else r) = k)) = !decide (key r = k) := by
    intro r
    by_cases hk' : key r = k'
    · simp [hk', f.keeps]
    · simp [hk']
  simp only [deleteAt, updateAt, delete, update, List.filter_map, decide_eq_true_eq,
    Function.comp_def, hrow]

theorem deleteAt_comm : (t.deleteAt k).deleteAt k' = (t.deleteAt k').deleteAt k := by
  simp only [deleteAt, delete_delete, Bool.or_comm]

/-- A query that does not see the row of the key sees nothing of its update. -/
theorem select_updateAt (h : ∀ r, key r = k → p r = false) :
    (t.updateAt k f).select p = t.select p := by
  have hrow : ∀ r, p (if key r = k then f.run r else r) = p r := by
    intro r
    by_cases hk : key r = k
    · rw [if_pos hk, h r hk, h _ ((f.keeps r).trans hk)]
    · rw [if_neg hk]
  have hmap : ∀ r ∈ t.rows.filter p, (if key r = k then f.run r else r) = id r := by
    intro r hr
    refine if_neg fun hk => ?_
    have hp := (List.mem_filter.mp hr).2
    rw [h r hk] at hp
    cases hp
  simp only [select, updateAt, update, List.filter_map, decide_eq_true_eq, Function.comp_def, hrow]
  rw [List.map_congr_left hmap, List.map_id]

theorem select_deleteAt (h : ∀ r, key r = k → p r = false) :
    (t.deleteAt k).select p = t.select p := by
  simp only [select, deleteAt, delete, List.filter_filter]
  refine List.filter_congr fun r _ => ?_
  by_cases hk : key r = k
  · rw [h r hk, Bool.false_and]
  · simp [hk]

/-! ## Tables that agree in some columns -/

section SameBy

omit [DecidableEq κ]

variable {γ : Type} {f : ρ → γ}

/-- The tables agree, row by row, in what `f` reads. -/
def SameBy (f : ρ → γ) (t t' : Table ρ κ key) : Prop := t.rows.map f = t'.rows.map f

namespace SameBy

theorem refl (t : Table ρ κ key) : SameBy f t t := rfl

theorem symm (h : SameBy f t t') : SameBy f t' t := Eq.symm h

theorem map {g : ρ → ρ} (ht : t'.rows = t.rows.map g) (h : ∀ r, f (g r) = f r) :
    SameBy f t t' := by
  rw [SameBy, ht, List.map_map]
  exact List.map_congr_left fun r _ => (h r).symm

theorem mem (h : SameBy f t t') (hr : r ∈ t') : ∃ r₀ ∈ t, f r₀ = f r := by
  have hm : f r ∈ t.rows.map f := by
    rw [h]
    exact List.mem_map_of_mem hr
  exact List.mem_map.mp hm

theorem count (h : SameBy f t t') (q : γ → Bool) :
    t'.count (fun r => q (f r)) = t.count fun r => q (f r) := by
  have e : ∀ l : List ρ, l.countP (fun r => q (f r)) = (l.map f).countP q := fun l => by
    rw [List.countP_map]
    rfl
  simp only [Table.count, e]
  rw [h]

end SameBy

end SameBy

end Table

end AptCacher.Spec
