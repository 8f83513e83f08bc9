import AptCacher.Spec.Table
import AptCacher.Spec.Tx
import Mathlib.Data.List.Sort

/-!
# Going over a table page by page

A pass over the rows of a table in the order of their keys. Each call reads a page of rows behind a
cursor, acts on them one after the other, and hands on the key of the last one; a page without rows
ends the pass. The actions change the table while the pass goes over it.

* `StrictTotal`, `inOrder`: an order of keys, and rows in that order.
* `batches`: rows cut into batches.
* `Sweep`: the rows that are pending behind a cursor, and the action on a row, which leaves what is
  pending behind it as it was.
* `pages`, `pagesUntil`: the calls of the pass, until one finds no row, or few rows.
* `Sweep.pagesUntil_done`: the pass acts on every pending row once, in order, whatever the page size.
-/

namespace AptCacher.Spec

variable {ε σ κ ρ : Type}

/-! ## Rows in the order of their keys -/

/-- A strict order in which different keys are comparable. -/
structure StrictTotal (before : κ → κ → Bool) : Prop where
  irrefl : ∀ a, before a a = false
  trans : ∀ {a b c}, before a b = true → before b c = true → before a c = true
  total : ∀ {a b}, a ≠ b → before a b = true ∨ before b a = true

/-- `ORDER BY` the key. -/
def inOrder (before : κ → κ → Bool) (key : ρ → κ) (l : List ρ) : List ρ :=
  l.insertionSort fun a b => !before (key b) (key a)

section InOrder

variable {before : κ → κ → Bool} {key : ρ → κ} {l : List ρ}

theorem mem_inOrder {r : ρ} : r ∈ inOrder before key l ↔ r ∈ l := List.mem_insertionSort _

theorem perm_inOrder : (inOrder before key l).Perm l := List.perm_insertionSort _ l

theorem StrictTotal.asymm (h : StrictTotal before) {a b : κ} (hab : before a b = true) :
    before b a = false := by
  by_contra hba
  have := h.trans hab (Bool.eq_true_of_not_eq_false hba)
  rw [h.irrefl] at this
  cases this

theorem pairwise_inOrder (h : StrictTotal before) (hl : (l.map key).Nodup) :
    (inOrder before key l).Pairwise fun a b => before (key a) (key b) = true := by
  have htotal : Std.Total fun a b : ρ => (!before (key b) (key a)) = true := by
    constructor
    intro a b
    cases hba : before (key b) (key a) with
    | false => exact .inl rfl
    | true => exact .inr (by rw [h.asymm hba]; rfl)
  have htrans : IsTrans ρ fun a b => (!before (key b) (key a)) = true := by
    constructor
    intro a b c hab hbc
    simp only [Bool.not_eq_true'] at hab hbc ⊢
    by_contra hca
    have hca := Bool.eq_true_of_not_eq_false hca
    by_cases hbc' : key b = key c
    · rw [hbc', hca] at hab
      cases hab
    · rcases h.total hbc' with hlt | hlt
      · rw [h.trans hlt hca] at hab
        cases hab
      · rw [hlt] at hbc
        cases hbc
  have hsort : (inOrder before key l).Pairwise fun a b => (!before (key b) (key a)) = true :=
    List.pairwise_insertionSort _ l
  have hkeys : (inOrder before key l).Pairwise fun a b => key a ≠ key b :=
    List.pairwise_map.mp ((perm_inOrder.map key).nodup_iff.mpr hl)
  refine hsort.imp₂ (fun a b hab hne => ?_) hkeys
  rcases h.total hne with hlt | hlt
  · exact hlt
  · rw [hlt] at hab
    cases hab

theorem eq_of_inOrder (h : StrictTotal before) {l₁ l₂ : List ρ}
    (h₁ : l₁.Pairwise fun a b => before (key a) (key b) = true)
    (h₂ : l₂.Pairwise fun a b => before (key a) (key b) = true) (hp : l₁.Perm l₂) : l₁ = l₂ := by
  refine hp.eq_of_pairwise (fun a b _ _ hab hba => ?_) h₁ h₂
  rw [h.asymm hab] at hba
  cases hba

theorem inOrder_tail (h : StrictTotal before) (hl : (l.map key).Nodup) {r : ρ} {rest : List ρ}
    (hr : inOrder before key l = r :: rest) :
    inOrder before key (l.filter fun x => before (key r) (key x)) = rest := by
  have hsorted := pairwise_inOrder h hl
  rw [hr, List.pairwise_cons] at hsorted
  have hrest : (r :: rest).filter (fun x => before (key r) (key x)) = rest := by
    rw [List.filter_cons, h.irrefl, if_neg (by simp)]
    exact List.filter_eq_self.mpr hsorted.1
  refine eq_of_inOrder h (pairwise_inOrder h (hl.sublist (List.filter_sublist.map key))) hsorted.2 ?_
  refine perm_inOrder.trans ?_
  rw [← hrest, ← hr]
  exact (perm_inOrder.filter _).symm

/-- The cursor behind rows in order is not before a key that was not behind the first cursor, nor
before the key of one of the rows. -/
theorem StrictTotal.cursor (h : StrictTotal before) {c : Option κ} {k : κ}
    (hl : l.Pairwise fun a b => before (key a) (key b) = true)
    (hc : ∀ a, c = some a → ∀ r ∈ l, before a (key r) = true)
    (hk : (∃ a, c = some a ∧ before a k = false) ∨ ∃ r ∈ l, key r = k) :
    ∃ a, l.foldl (fun _ r => some (key r)) c = some a ∧ before a k = false := by
  induction l generalizing c with
  | nil =>
    rcases hk with hk | ⟨_, hr, -⟩
    · exact hk
    · exact absurd hr List.not_mem_nil
  | cons x rest ih =>
    rw [List.pairwise_cons] at hl
    refine ih hl.2 (fun a ha r hr => by cases ha; exact hl.1 r hr) ?_
    rcases hk with ⟨a, ha, hk⟩ | ⟨r, hr, rfl⟩
    · refine .inl ⟨key x, rfl, ?_⟩
      by_contra hx
      rw [h.trans (hc a ha x List.mem_cons_self) (Bool.eq_true_of_not_eq_false hx)] at hk
      cases hk
    · rcases List.mem_cons.mp hr with rfl | hr
      · exact .inl ⟨key r, rfl, h.irrefl _⟩
      · exact .inr ⟨r, hr, rfl⟩

end InOrder

/-! ## Batches -/

/-- The rows cut into batches of up to `n`, with fuel for as many batches. -/
def batchesUpTo (n : ℕ) : ℕ → List ρ → List (List ρ)
  | 0, _ => []
  | fuel + 1, rows =>
    if rows.isEmpty then [] else rows.take n :: batchesUpTo n fuel (rows.drop n)

/-- The rows cut into batches of up to `n`. -/
def batches (n : ℕ) (rows : List ρ) : List (List ρ) := batchesUpTo n rows.length rows

theorem flatten_batches {n : ℕ} (hn : 1 ≤ n) (rows : List ρ) : (batches n rows).flatten = rows := by
  suffices h : ∀ fuel (rows : List ρ), rows.length ≤ fuel →
      (batchesUpTo n fuel rows).flatten = rows from h _ rows le_rfl
  intro fuel
  induction fuel with
  | zero =>
    intro rows hlen
    exact (List.length_eq_zero_iff.mp (Nat.le_zero.mp hlen)).symm
  | succ fuel ih =>
    intro rows hlen
    rw [batchesUpTo]
    cases hrows : rows with
    | nil => rfl
    | cons r rest =>
      rw [hrows, List.length_cons] at hlen
      rw [if_neg (by simp), List.flatten_cons, ih, List.take_append_drop]
      rw [List.length_drop, List.length_cons]
      omega

/-! ## Sweeps -/

/-- The rows pending behind a cursor and the action on a row. -/
structure Sweep (σ κ ρ : Type) where
  key : ρ → κ
  pending : σ → Option κ → List ρ
  act : ρ → σ → σ
  /-- The action on the first row leaves the others pending behind its key. -/
  step : ∀ {s c r rest}, pending s c = r :: rest → pending (act r s) (some (key r)) = rest

namespace Sweep

variable (S : Sweep σ κ ρ)

/-- The actions on some rows, one after the other. -/
def actAll (rows : List ρ) (s : σ) : σ := rows.foldl (fun s r => S.act r s) s

/-- The cursor behind some rows. -/
def cursor (c : Option κ) (rows : List ρ) : Option κ := rows.foldl (fun _ r => some (S.key r)) c

/-- A call that acts on the next `n` rows; it returns how many there were, the rows and the
cursor behind them. -/
def Page (n : ℕ) (call : Option κ → Tx ε σ (ℕ × List ρ × Option κ)) : Prop :=
  ∀ c s, call c s = .ok ((((S.pending s c).take n).length, (S.pending s c).take n,
    S.cursor c ((S.pending s c).take n)), S.actAll ((S.pending s c).take n) s)

end Sweep

/-- Up to `fuel` calls from a cursor on, until one finds no row: whether one did, and the rows of
all calls. -/
def pages (call : Option κ → Tx ε σ (ℕ × List ρ × Option κ)) :
    ℕ → Option κ → Tx ε σ (Bool × List ρ)
  | 0, _ => pure (false, [])
  | fuel + 1, c => do
    let (scanned, rows, c) ← call c
    if scanned = 0 then pure (true, rows)
    else do
      let (done, rest) ← pages call fuel c
      pure (done, rows ++ rest)

/-- The same, until a call finds as few rows as `stop` says. -/
def pagesUntil (stop : ℕ → Bool) (call : Option κ → Tx ε σ (ℕ × List ρ × Option κ)) :
    ℕ → Option κ → Tx ε σ (Bool × List ρ)
  | 0, _ => pure (false, [])
  | fuel + 1, c => do
    let (scanned, rows, c) ← call c
    if stop scanned then pure (true, rows)
    else do
      let (done, rest) ← pagesUntil stop call fuel c
      pure (done, rows ++ rest)

theorem pages_eq (call : Option κ → Tx ε σ (ℕ × List ρ × Option κ)) (fuel : ℕ) (c : Option κ) :
    pages call fuel c = pagesUntil (· == 0) call fuel c := by
  induction fuel generalizing c with
  | zero => rfl
  | succ fuel ih =>
    rw [pages, pagesUntil]
    refine congrArg (call c >>= ·) (funext fun page => ?_)
    simp only [beq_iff_eq, ih]

namespace Sweep

variable {S : Sweep σ κ ρ} {s : σ} {c : Option κ}

theorem pending_actAll {page rest : List ρ} (h : S.pending s c = page ++ rest) :
    S.pending (S.actAll page s) (S.cursor c page) = rest := by
  induction page generalizing s c with
  | nil => exact h
  | cons r page ih => exact ih (S.step h)

theorem actAll_append (rows rows' : List ρ) (s : σ) :
    S.actAll (rows ++ rows') s = S.actAll rows' (S.actAll rows s) := List.foldl_append

/-- More calls than there are rows end the pass, if a page that is not full ends it: it has acted on
every pending row once. -/
theorem pagesUntil_done {n : ℕ} {stop : ℕ → Bool}
    {call : Option κ → Tx ε σ (ℕ × List ρ × Option κ)} (h : S.Page n call) (hzero : stop 0 = true)
    (hstop : ∀ m, stop m = true → m < n) {fuel : ℕ} (hf : (S.pending s c).length < fuel) :
    pagesUntil stop call fuel c s = .ok ((true, S.pending s c), S.actAll (S.pending s c) s) := by
  induction fuel generalizing s c with
  | zero => omega
  | succ fuel ih =>
    rw [pagesUntil]
    simp only [bind, StateT.bind, h c s, Except.bind]
    generalize hp : S.pending s c = rows at hf ⊢
    by_cases hend : stop (rows.take n).length = true
    · -- a page that is not full has all the rows
      have hlen := hstop _ hend
      have hall : rows.take n = rows := by
        rw [List.length_take] at hlen
        exact List.take_of_length_le (by omega)
      rw [if_pos hend, hall]
      rfl
    · have hlen : (rows.take n).length ≠ 0 := fun h0 => hend (by rw [h0]; exact hzero)
      have hrest : S.pending (S.actAll (rows.take n) s) (S.cursor c (rows.take n)) = rows.drop n :=
        pending_actAll (by rw [hp, List.take_append_drop])
      have hnext := ih (s := S.actAll (rows.take n) s) (c := S.cursor c (rows.take n)) (by
        rw [hrest, List.length_drop]
        rw [List.length_take] at hlen
        omega)
      rw [hrest] at hnext
      rw [if_neg hend]
      simp only [bind, StateT.bind, hnext]
      rw [← actAll_append, List.take_append_drop]
      show Except.ok ((true, rows.take n ++ rows.drop n), S.actAll rows s) = _
      rw [List.take_append_drop]

/-- More calls than there are rows end the pass: it has acted on every pending row once. -/
theorem pages_done {n : ℕ} {call : Option κ → Tx ε σ (ℕ × List ρ × Option κ)} (h : S.Page n call)
    (hn : 1 ≤ n) {fuel : ℕ} (hf : (S.pending s c).length < fuel) :
    pages call fuel c s = .ok ((true, S.pending s c), S.actAll (S.pending s c) s) := by
  rw [pages_eq]
  refine pagesUntil_done h rfl (fun m hm => ?_) hf
  rw [beq_iff_eq] at hm
  omega

end Sweep

end AptCacher.Spec
