import AptCacher.Spec.Count
import AptCacher.Spec.Sys

/-!
# Waiting for a host's adoptions

`freshness/inflight.go`: the signed adoptions in flight are counted per host, and requests wait
until a host has none. The channel of a host is made by its first waiter and closed, and taken out
of the map, by the end of its last adoption, so that the next adoptions have another one.

* `Adoptions`: the three maps, the channels ever made, and the calls of `wait`.
* `sys`: every interleaving of `begin`, `end` and `wait`, an `end` for each `begin` at most.
* `Inv`: the maps hold the counts; an open channel is the one of the map, and its host has an
  adoption in flight.
* `waits_safe`: what holds at every moment.
-/

namespace AptCacher.Freshness.Inflight

open Spec

/-! ## The model -/

/-- `strictWaitersPerHost` and `strictMinWait` (in nanoseconds). -/
def strictWaitersPerHost : Int := 64

def strictMinWait : Int := 1000000000

/-- Why a `wait` ends. -/
inductive End
  /-- Nothing was in flight. -/
  | nothing
  | full
  | short
  | closed
  | timer
  | ctxDone
  deriving DecidableEq

/-- What `wait` returns. -/
def End.result : End → Bool
  | .nothing | .closed | .timer => true
  | .full | .short | .ctxDone => false

/-- Where a call of `wait` is. -/
inductive Pc
  | waits (ch : Nat)
  /-- The `select` is over; the deferred function has not run. -/
  | leaves (e : End)
  | returned (e : End)
  deriving DecidableEq

/-- The call counts as a waiter. -/
def Pc.counted : Pc → Bool
  | .returned _ => false
  | _ => true

structure Wait (H : Type) where
  host : H
  pc : Pc
  /-- At some moment during the call the host's count was zero: nothing reads this. -/
  zero : Bool
  deriving DecidableEq

structure Chan (H : Type) where
  host : H
  closed : Bool
  deriving DecidableEq

/-- `hostAdoptions`, with the channels ever made and the calls of `wait`. -/
structure Adoptions (H : Type) where
  n : H → Option Int
  waiters : H → Option Int
  idle : H → Option Nat
  chans : List (Chan H)
  calls : List (Wait H)
  /-- The adoptions that have begun and not ended. -/
  open_ : H → Nat

/-- What happens; a number is that of a call of `wait`. -/
inductive Act (H : Type)
  | begin (host : H)
  | ends (host : H)
  | wait (host : H) (maxWait : Int)
  | wake (i : Nat)
  | timer (i : Nat)
  | ctxDone (i : Nat)
  | unwind (i : Nat)

variable {H : Type} [DecidableEq H]

namespace Adoptions

variable (s : Adoptions H)

/-- `h.n[host]`. -/
def count (host : H) : Int := (s.n host).getD 0

def begin (host : H) : Adoptions H :=
  { s with
    n := Function.update s.n host (some (s.count host + 1))
    open_ := Function.update s.open_ host (s.open_ host + 1) }

/-- The calls in progress for the host see its count at zero. -/
def see (host : H) (w : Wait H) : Wait H :=
  if w.host = host && w.pc.counted then { w with zero := true } else w

/-- `close(ch)`, if the host has a channel. -/
def closeIdle (chans : List (Chan H)) : Option Nat → List (Chan H)
  | some ch => chans.modify ch fun c => { c with closed := true }
  | none => chans

/-- `end`. -/
def ends (host : H) : Adoptions H :=
  let s := { s with open_ := Function.update s.open_ host (s.open_ host - 1) }
  if 0 < s.count host - 1 then
    { s with n := Function.update s.n host (some (s.count host - 1)) }
  else
    { s with
      n := Function.update s.n host none
      idle := Function.update s.idle host none
      chans := closeIdle s.chans (s.idle host)
      calls := s.calls.map (see host) }

/-- The first critical section of `wait`. -/
def wait (host : H) (maxWait : Int) : Adoptions H :=
  if s.count host = 0 then { s with calls := s.calls ++ [⟨host, .returned .nothing, true⟩] }
  else if strictWaitersPerHost ≤ (s.waiters host).getD 0 then
    { s with calls := s.calls ++ [⟨host, .returned .full, false⟩] }
  else if maxWait < strictMinWait then
    { s with calls := s.calls ++ [⟨host, .returned .short, false⟩] }
  else
    let s := { s with
      waiters := Function.update s.waiters host (some ((s.waiters host).getD 0 + 1)) }
    match s.idle host with
    | some ch => { s with calls := s.calls ++ [⟨host, .waits ch, false⟩] }
    | none =>
      { s with
        idle := Function.update s.idle host (some s.chans.length)
        chans := s.chans ++ [⟨host, false⟩]
        calls := s.calls ++ [⟨host, .waits s.chans.length, false⟩] }

/-- The `select` of the call `i` ends. -/
def leave (i : Nat) (ready : Nat → Bool) (e : End) : Option (Adoptions H) :=
  s.calls[i]?.bind fun w =>
    match w.pc with
    | .waits ch =>
      if ready ch then some { s with calls := s.calls.set i { w with pc := .leaves e } } else none
    | _ => none

/-- The deferred function. -/
def unwind (i : Nat) : Option (Adoptions H) :=
  s.calls[i]?.bind fun w =>
    match w.pc with
    | .leaves e =>
      let v := (s.waiters w.host).getD 0 - 1
      some { s with
        waiters := Function.update s.waiters w.host (if v = 0 then none else some v)
        calls := s.calls.set i { w with pc := .returned e } }
    | _ => none

/-- The channel is closed. -/
def isClosed (ch : Nat) : Bool := s.chans[ch]?.any fun c => c.closed

end Adoptions

/-- One step. -/
def step (s : Adoptions H) : Act H → Option (Adoptions H)
  | .begin host => some (s.begin host)
  -- Each `end` has its `begin`.
  | .ends host => if 0 < s.open_ host then some (s.ends host) else none
  | .wait host maxWait => some (s.wait host maxWait)
  | .wake i => s.leave i s.isClosed .closed
  | .timer i => s.leave i (fun _ => true) .timer
  | .ctxDone i => s.leave i (fun _ => true) .ctxDone
  | .unwind i => s.unwind i

/-- Every interleaving. -/
def sys (H : Type) [DecidableEq H] : Sys (Adoptions H) (Act H) where
  init s := s = ⟨fun _ => none, fun _ => none, fun _ => none, [], [], fun _ => 0⟩
  step := step

/-! ## The invariant -/

/-- An entry of a map of counts: none for zero. -/
def tally (k : Nat) : Option Int := if k = 0 then none else some k

omit [DecidableEq H] in
theorem tally_getD (k : Nat) : (tally k).getD 0 = k := by
  unfold tally
  split <;> simp_all

def Wait.waitsFor (host : H) (w : Wait H) : Bool := w.host = host && w.pc.counted

/-- The waiters of the host. -/
def Adoptions.waiting (s : Adoptions H) (host : H) : Nat := s.calls.countP (Wait.waitsFor host)

/-- What is known of a call of `wait`. -/
structure Sound (s : Adoptions H) (w : Wait H) : Prop where
  chan : ∀ ch, w.pc = .waits ch → ∃ c, s.chans[ch]? = some c ∧ c.host = w.host ∧
    if c.closed then w.zero = true else s.idle w.host = some ch
  ended : ∀ e, w.pc = .leaves e ∨ w.pc = .returned e → e.result = true → w.zero = true ∨ e = .timer

/-- The invariant. -/
structure Inv (s : Adoptions H) : Prop where
  n : ∀ host, s.n host = tally (s.open_ host)
  waiters : ∀ host, s.waiters host = tally (s.waiting host)
  bound : ∀ host, s.waiting host ≤ 64
  idle : ∀ host ch, s.idle host = some ch → s.chans[ch]? = some ⟨host, false⟩ ∧ 0 < s.open_ host
  calls : ∀ w ∈ s.calls, Sound s w

section Steps

variable {s s' : Adoptions H} {host : H}

theorem Inv.count_eq (h : Inv s) (host : H) : s.count host = s.open_ host := by
  rw [Adoptions.count, h.n, tally_getD]

theorem Inv.begin (h : Inv s) (host : H) : Inv (s.begin host) where
  n g := by
    by_cases hg : g = host
    · subst hg
      simp [Adoptions.begin, h.count_eq, tally]
    · simp [Adoptions.begin, Function.update_of_ne hg, h.n]
  waiters := h.waiters
  bound := h.bound
  idle g ch hg := by
    obtain ⟨hch, hpos⟩ := h.idle g ch hg
    refine ⟨hch, ?_⟩
    by_cases heq : g = host
    · subst heq
      simp [Adoptions.begin]
    · simpa [Adoptions.begin, Function.update_of_ne heq] using hpos
  calls w hw := ⟨(h.calls w hw).chan, (h.calls w hw).ended⟩

/-- A call that sees the count at zero is otherwise unchanged. -/
theorem see_host (w : Wait H) : (Adoptions.see host w).host = w.host := by
  unfold Adoptions.see
  split <;> rfl

theorem see_pc (w : Wait H) : (Adoptions.see host w).pc = w.pc := by
  unfold Adoptions.see
  split <;> rfl

theorem see_zero (w : Wait H) (h : w.zero = true ∨ w.host = host ∧ w.pc.counted = true) :
    (Adoptions.see host w).zero = true := by
  unfold Adoptions.see
  split
  · rfl
  · rename_i hnot
    rcases h with h | ⟨hhost, hpc⟩
    · exact h
    · simp [hhost, hpc] at hnot

theorem waiting_map_see (host g : H) :
    (s.calls.map (Adoptions.see host)).countP (Wait.waitsFor g) = s.waiting g := by
  rw [List.countP_map]
  exact List.countP_congr fun w _ => by simp [Wait.waitsFor, see_host, see_pc]

/-- The last adoption of the host ends: its channel, if it has one, is closed. -/
theorem Inv.ends_last (h : Inv s) (host : H) :
    Inv { s with
      open_ := Function.update s.open_ host 0
      n := Function.update s.n host none
      idle := Function.update s.idle host none
      chans := Adoptions.closeIdle s.chans (s.idle host)
      calls := s.calls.map (Adoptions.see host) } := by
  -- The channels of other hosts, and those that are closed, stay.
  have hkeep : ∀ {ch : Nat} {c : Chan H}, s.chans[ch]? = some c →
      (c.host ≠ host ∨ c.closed = true) →
      (Adoptions.closeIdle s.chans (s.idle host))[ch]? = some c := by
    intro ch c hc hor
    cases hown : s.idle host with
    | none => exact hc
    | some own =>
      have hopen := (h.idle host own hown).1
      have hne : own ≠ ch := by
        rintro rfl
        cases hopen.symm.trans hc
        rcases hor with hne | hclosed
        · exact hne rfl
        · cases hclosed
      exact (getElem?_modify_some hc).trans (by rw [if_neg hne])
  refine ⟨fun g => ?_, fun g => ?_, fun g => ?_, fun g ch hg => ?_, fun w' hw' => ?_⟩
  · by_cases hg : g = host
    · subst hg
      simp [tally]
    · simp [Function.update_of_ne hg, h.n]
  · exact (h.waiters g).trans (congrArg tally (waiting_map_see host g)).symm
  · exact (waiting_map_see host g).trans_le (h.bound g)
  · have hne : g ≠ host := by
      rintro rfl
      cases (Function.update_self ..).symm.trans hg
    obtain ⟨hch, hpos⟩ := h.idle g ch ((Function.update_of_ne hne ..).symm.trans hg)
    exact ⟨hkeep hch (.inl hne), hpos.trans_eq (Function.update_of_ne hne ..).symm⟩
  · obtain ⟨w, hw, rfl⟩ := List.mem_map.mp hw'
    have hsound := h.calls w hw
    refine ⟨fun ch hpc => ?_, fun e he hres => ?_⟩
    · rw [see_pc] at hpc
      obtain ⟨c, hc, hchost, hstate⟩ := hsound.chan ch hpc
      rw [see_host]
      cases hclosed : c.closed with
      | true =>
        rw [hclosed, if_pos rfl] at hstate
        refine ⟨c, hkeep hc (.inr hclosed), hchost, ?_⟩
        rw [hclosed, if_pos rfl]
        exact see_zero w (.inl hstate)
      | false =>
        rw [hclosed, if_neg Bool.false_ne_true] at hstate
        by_cases hw : w.host = host
        · refine ⟨{ c with closed := true }, ?_, hchost, ?_⟩
          · show (Adoptions.closeIdle s.chans (s.idle host))[ch]? = _
            rw [← hw, hstate]
            exact (getElem?_modify_some hc).trans (by rw [if_pos rfl])
          · exact (if_pos rfl).mpr (see_zero w (.inr ⟨hw, by rw [hpc]; rfl⟩))
        · refine ⟨c, hkeep hc (.inl (hchost ▸ hw)), hchost, ?_⟩
          rw [hclosed, if_neg Bool.false_ne_true]
          exact (Function.update_of_ne hw ..).trans hstate
    · rw [see_pc] at he
      exact (hsound.ended e he hres).imp (fun hz => see_zero w (.inl hz)) id

theorem Inv.ends (h : Inv s) (hpos : 0 < s.open_ host) : Inv (s.ends host) := by
  have hcount := h.count_eq host
  by_cases hlast : 0 < s.count host - 1
  · have hends : s.ends host = { s with
        open_ := Function.update s.open_ host (s.open_ host - 1)
        n := Function.update s.n host (some (s.count host - 1)) } := if_pos hlast
    rw [hends]
    refine ⟨fun g => ?_, h.waiters, h.bound, fun g ch hg => ?_, fun w hw =>
      ⟨(h.calls w hw).chan, (h.calls w hw).ended⟩⟩
    · by_cases hg : g = host
      · subst hg
        have hne : s.open_ g - 1 ≠ 0 := by omega
        simp only [Function.update_self, tally, if_neg hne, hcount, Option.some.injEq]
        omega
      · simp [Function.update_of_ne hg, h.n]
    · obtain ⟨hch, hopen⟩ := h.idle g ch hg
      refine ⟨hch, ?_⟩
      by_cases heq : g = host
      · subst heq
        simp only [Function.update_self]
        omega
      · exact hopen.trans_eq (Function.update_of_ne heq ..).symm
  · have hends : s.ends host = { s with
        open_ := Function.update s.open_ host (s.open_ host - 1)
        n := Function.update s.n host none
        idle := Function.update s.idle host none
        chans := Adoptions.closeIdle s.chans (s.idle host)
        calls := s.calls.map (Adoptions.see host) } := if_neg hlast
    rw [hends, show s.open_ host - 1 = 0 by omega]
    exact h.ends_last host

omit [DecidableEq H] in
theorem Sound.of_returned {w : Wait H} {e : End} (hpc : w.pc = .returned e)
    (h : e.result = true → w.zero = true ∨ e = .timer) : Sound s w where
  chan ch hch := by
    rw [hpc] at hch
    cases hch
  ended e' he hres := by
    rw [hpc] at he
    rcases he with he | he
    · cases he
    · cases he
      exact h hres

theorem Inv.append_returned (h : Inv s) {w : Wait H} {e : End} (hpc : w.pc = .returned e)
    (hz : e.result = true → w.zero = true) : Inv { s with calls := s.calls ++ [w] } := by
  have hwaiting : ∀ g, ({ s with calls := s.calls ++ [w] } : Adoptions H).waiting g =
      s.waiting g := by
    intro g
    simp [Adoptions.waiting, List.countP_append, Wait.waitsFor, hpc, Pc.counted]
  refine ⟨h.n, fun g => ?_, fun g => ?_, h.idle, fun u hu => ?_⟩
  · rw [hwaiting]
    exact h.waiters g
  · rw [hwaiting]
    exact h.bound g
  · rcases List.mem_append.mp hu with hu | hu
    · exact ⟨(h.calls u hu).chan, (h.calls u hu).ended⟩
    · rw [List.mem_singleton.mp hu]
      exact .of_returned hpc fun hres => .inl (hz hres)

/-- The first waiter makes the channel. -/
theorem Inv.make (h : Inv s) (hnone : s.idle host = none) (hpos : 0 < s.open_ host) :
    Inv { s with
      idle := Function.update s.idle host (some s.chans.length)
      chans := s.chans ++ [⟨host, false⟩] } := by
  refine ⟨h.n, h.waiters, h.bound, fun g ch hg => ?_,
    fun w hw => ⟨fun ch hpc => ?_, (h.calls w hw).ended⟩⟩
  · by_cases heq : g = host
    · subst heq
      cases (Function.update_self ..).symm.trans hg
      exact ⟨List.getElem?_concat_length .., hpos⟩
    · obtain ⟨hch, hopen⟩ := h.idle g ch ((Function.update_of_ne heq ..).symm.trans hg)
      exact ⟨getElem?_concat_of hch, hopen⟩
  · obtain ⟨c, hc, hchost, hstate⟩ := (h.calls w hw).chan ch hpc
    refine ⟨c, getElem?_concat_of hc, hchost, ?_⟩
    split
    · rename_i hclosed
      rwa [if_pos hclosed] at hstate
    · rename_i hclosed
      rw [if_neg hclosed] at hstate
      have hne : w.host ≠ host := by
        intro heq
        rw [heq, hnone] at hstate
        cases hstate
      exact (Function.update_of_ne hne ..).trans hstate

/-- A waiter enters. -/
theorem Inv.enter (h : Inv s) {ch : Nat} (hidle : s.idle host = some ch)
    (hroom : s.waiting host < 64) :
    Inv { s with
      waiters := Function.update s.waiters host (some ((s.waiters host).getD 0 + 1))
      calls := s.calls ++ [⟨host, .waits ch, false⟩] } := by
  have hwaiting : ∀ g,
      (s.calls ++ [(⟨host, .waits ch, false⟩ : Wait H)]).countP (Wait.waitsFor g) =
      s.waiting g + if host = g then 1 else 0 := by
    intro g
    simp [Adoptions.waiting, List.countP_append, List.countP_singleton, Wait.waitsFor, Pc.counted]
  refine ⟨h.n, fun g => ?_, fun g => ?_, h.idle, fun u hu => ?_⟩
  · refine Eq.trans ?_ (congrArg tally (hwaiting g)).symm
    by_cases hg : g = host
    · subst hg
      simp only [Function.update_self, h.waiters, tally_getD]
      simp [tally]
    · simp [Function.update_of_ne hg, h.waiters, Ne.symm hg]
  · refine (hwaiting g).trans_le ?_
    have := h.bound g
    split
    · rename_i heq
      subst heq
      omega
    · omega
  · rcases List.mem_append.mp hu with hu | hu
    · exact ⟨(h.calls u hu).chan, (h.calls u hu).ended⟩
    · rw [List.mem_singleton.mp hu]
      refine ⟨fun d hd => ?_, fun e he => ?_⟩
      · cases hd
        exact ⟨⟨host, false⟩, (h.idle host ch hidle).1, rfl, hidle⟩
      · rcases he with he | he <;> cases he

theorem Inv.wait (h : Inv s) (host : H) (maxWait : Int) : Inv (s.wait host maxWait) := by
  unfold Adoptions.wait
  split
  · exact h.append_returned rfl fun _ => rfl
  rename_i hcount
  split
  · exact h.append_returned rfl fun hres => by cases hres
  rename_i hfull
  split
  · exact h.append_returned rfl fun hres => by cases hres
  have hpos : 0 < s.open_ host := by
    have := h.count_eq host
    omega
  have hroom : s.waiting host < 64 := by
    rw [h.waiters, tally_getD, strictWaitersPerHost] at hfull
    omega
  dsimp only
  split
  · rename_i ch hch
    exact h.enter hch hroom
  · rename_i hnone
    exact (h.make hnone hpos).enter (Function.update_self ..) hroom

/-- The `select` of a call ends. -/
theorem Inv.leave (h : Inv s) {i : Nat} {ready : Nat → Bool} {e : End}
    (hs : s.leave i ready e = some s')
    (he : ∀ ch, ready ch = true → e = .timer ∨ e.result = false ∨ s.isClosed ch = true) :
    Inv s' := by
  obtain ⟨w, hi, hs⟩ := Option.bind_eq_some_iff.mp hs
  cases hpc : w.pc with
  | leaves | returned => rw [hpc] at hs; cases hs
  | waits ch =>
    rw [hpc] at hs
    obtain ⟨hready, hs⟩ := Option.ite_none_right_eq_some.mp hs
    cases hs
    have hwaiting : ∀ g, (s.calls.set i { w with pc := .leaves e }).countP (Wait.waitsFor g) =
        s.waiting g := fun g =>
      countP_set_of_eq hi (by simp [Wait.waitsFor, hpc, Pc.counted])
    refine ⟨h.n, fun g => (h.waiters g).trans (congrArg tally (hwaiting g)).symm,
      fun g => (hwaiting g).trans_le (h.bound g), h.idle, fun u hu => ?_⟩
    rcases List.mem_or_eq_of_mem_set hu with hu | rfl
    · exact ⟨(h.calls u hu).chan, (h.calls u hu).ended⟩
    · refine ⟨fun d hd => (by cases hd), fun e' he' hres => ?_⟩
      have heq : e = e' := by
        rcases he' with he' | he' <;> cases he'
        rfl
      subst heq
      rcases he ch hready with rfl | hfalse | hclosed
      · exact .inr rfl
      · exact absurd (hres.symm.trans hfalse) (by decide)
      · obtain ⟨c, hc, -, hstate⟩ := (h.calls w (List.mem_of_getElem? hi)).chan ch hpc
        have hc' : c.closed = true := by simpa [Adoptions.isClosed, hc] using hclosed
        rw [if_pos hc'] at hstate
        exact .inl hstate

theorem Inv.unwind (h : Inv s) {i : Nat} (hs : s.unwind i = some s') : Inv s' := by
  obtain ⟨w, hi, hs⟩ := Option.bind_eq_some_iff.mp hs
  cases hpc : w.pc with
  | waits | returned => rw [hpc] at hs; cases hs
  | leaves e =>
    rw [hpc] at hs
    cases hs
    have hwaiting : ∀ g, (s.calls.set i { w with pc := .returned e }).countP (Wait.waitsFor g) +
        (if w.host = g then 1 else 0) = s.waiting g := by
      intro g
      have hset := countP_set_add (f := Wait.waitsFor g) (n := { w with pc := .returned e }) hi
      have hnew : Wait.waitsFor g { w with pc := .returned e } = false := by
        simp [Wait.waitsFor, Pc.counted]
      have hold : w.waitsFor g = decide (w.host = g) := by simp [Wait.waitsFor, hpc, Pc.counted]
      simpa [Adoptions.waiting, hnew, hold] using hset
    refine ⟨h.n, fun g => ?_, fun g => ?_, h.idle, fun u hu => ?_⟩
    · have hg' := hwaiting g
      by_cases hg : g = w.host
      · subst hg
        rw [if_pos rfl] at hg'
        simp only [Function.update_self, h.waiters, tally_getD, ← hg']
        unfold tally Adoptions.waiting
        simp
      · rw [if_neg (Ne.symm hg), Nat.add_zero] at hg'
        exact (Function.update_of_ne hg ..).trans ((h.waiters g).trans (congrArg tally hg'.symm))
    · have := hwaiting g
      have := h.bound g
      show (s.calls.set i { w with pc := .returned e }).countP _ ≤ 64
      omega
    · rcases List.mem_or_eq_of_mem_set hu with hu | rfl
      · exact ⟨(h.calls u hu).chan, (h.calls u hu).ended⟩
      · exact .of_returned rfl ((h.calls w (List.mem_of_getElem? hi)).ended e (.inl hpc))

theorem Inv.step (h : Inv s) {a : Act H} (hs : step s a = some s') : Inv s' := by
  cases a with
  | begin host =>
    cases hs
    exact h.begin host
  | ends host =>
    obtain ⟨hpos, hs⟩ := Option.ite_none_right_eq_some.mp hs
    cases hs
    exact h.ends hpos
  | wait host maxWait =>
    cases hs
    exact h.wait host maxWait
  | wake i => exact h.leave hs fun ch hch => .inr (.inr hch)
  | timer i => exact h.leave hs fun _ _ => .inl rfl
  | ctxDone i => exact h.leave hs fun _ _ => .inr (.inl rfl)
  | unwind i => exact h.unwind hs

end Steps

theorem inv_inductive : (sys H).Inductive Inv where
  init s hs := by
    subst hs
    constructor <;> simp [tally, Adoptions.waiting]
  step s a s' h hs := h.step hs

/-! ## Every run -/

/-- What holds at every moment. -/
structure Safe (s : Adoptions H) : Prop where
  /-- The count of a host is the number of its adoptions that have begun and not ended. -/
  count : ∀ host, s.count host = s.open_ host
  /-- With the count at zero no waiter is blocked, and no channel that is in the map is closed. -/
  woken : ∀ host, s.count host = 0 → ∀ w ∈ s.calls, w.host = host → ∀ ch, w.pc = .waits ch →
    s.isClosed ch = true
  once : ∀ host ch, s.idle host = some ch → s.isClosed ch = false
  /-- At most 64 wait at once. -/
  bound : ∀ host, s.waiting host ≤ 64
  /-- `wait` returns true only if the count was zero during it or its time limit was reached. -/
  returned : ∀ w ∈ s.calls, ∀ e, w.pc = .returned e → e.result = true →
    (w.zero = true ∨ e = .timer) ∧ e ≠ .ctxDone
  /-- With nothing counted and nobody waiting, the maps do not have the host. -/
  empty : ∀ host, s.count host = 0 → s.waiting host = 0 →
    s.n host = none ∧ s.waiters host = none ∧ s.idle host = none

theorem waits_safe {s : Adoptions H} (h : (sys H).Reach s) : Safe s := by
  have hinv := inv_inductive.reach h
  have hzero : ∀ {host}, s.count host = 0 → s.open_ host = 0 ∧ s.idle host = none := by
    intro host hcount
    have hopen : s.open_ host = 0 := by
      have := hinv.count_eq host
      omega
    refine ⟨hopen, ?_⟩
    cases hidle : s.idle host with
    | none => rfl
    | some ch =>
      have := (hinv.idle host ch hidle).2
      omega
  refine ⟨hinv.count_eq, ?_, ?_, hinv.bound, ?_, ?_⟩
  · rintro host hcount w hw rfl ch hpc
    obtain ⟨c, hc, -, hstate⟩ := (hinv.calls w hw).chan ch hpc
    cases hclosed : c.closed with
    | true => simp [Adoptions.isClosed, hc, hclosed]
    | false =>
      rw [hclosed, if_neg Bool.false_ne_true, (hzero hcount).2] at hstate
      cases hstate
  · intro host ch hidle
    simp [Adoptions.isClosed, (hinv.idle host ch hidle).1]
  · intro w hw e hpc hres
    refine ⟨(hinv.calls w hw).ended e (.inr hpc) hres, ?_⟩
    rintro rfl
    cases hres
  · intro host hcount hwaiting
    refine ⟨?_, ?_, (hzero hcount).2⟩
    · rw [hinv.n, (hzero hcount).1]
      rfl
    · rw [hinv.waiters, hwaiting]
      rfl

/-- Two waits for an adoption, one of which is cancelled, and one for the next adoption. -/
def twoAdoptions : List (Act Nat) :=
  [.begin 3, .wait 3 strictMinWait, .wait 3 strictMinWait, .ctxDone 1, .ends 3, .begin 3,
    .wait 3 strictMinWait, .wake 0, .unwind 0, .unwind 1, .timer 2, .ends 3, .unwind 2]

/-- Where the calls are after it, and whether the count was zero during them. -/
def twoEnds : List (Pc × Bool) :=
  [(.returned .closed, true), (.returned .ctxDone, true), (.returned .timer, true)]

theorem waits_safe_two_adoptions : ∃ s : Adoptions Nat, (sys Nat).Reach s ∧
    s.calls.map (fun w => (w.pc, w.zero)) = twoEnds ∧ Safe s := by
  have hrun : ((sys Nat).exec ⟨fun _ => none, fun _ => none, fun _ => none, [], [], fun _ => 0⟩
      twoAdoptions).map (fun s => s.calls.map fun w => (w.pc, w.zero)) = some twoEnds := by
    decide +kernel
  obtain ⟨s, hs, hends⟩ := Option.map_eq_some_iff.mp hrun
  have hreach : (sys Nat).Reach s := .exec rfl hs
  exact ⟨s, hreach, hends, waits_safe hreach⟩

end AptCacher.Freshness.Inflight
