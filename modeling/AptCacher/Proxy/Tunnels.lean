import AptCacher.Spec.Count
import AptCacher.Spec.Sys

/-!
# Draining the tunnels

`proxy/tunnel_manager.go` with the calls of `ServeCONNECT`: goroutines are counted from `Begin` to
`End`, and their hijacked connections stand in a registry. `Drain` waits for the count, copies the
registry once when its budget expires, closes the connections of the copy and waits again.

* `Manager`: the count, the registry, the goroutines and where `Drain` is; a connection is named
  by its goroutine.
* `sys`: every interleaving of the goroutines and one `Drain`.
* `inTime`: the steps after which `Drain` keeps what it promises; `drain_closes`: it does then.
* `late_registration`: a goroutine that registers after the copy is not closed.
-/

namespace AptCacher.Proxy.Tunnels

open Spec

/-! ## The model -/

/-- Where a goroutine in `ServeCONNECT` is. -/
inductive Pc
  | begun
  | hijacked
  /-- Its connection is registered; it works until that is closed. -/
  | works
  /-- The deferred calls: `UnregisterConn`, `conn.Close` and `End` come next. -/
  | unregisters
  | closes
  | ends
  | ended
  deriving DecidableEq

structure Tunnel where
  pc : Pc
  /-- `Drain` has closed its connection. -/
  closed : Bool
  /-- Its connection has come to its end in another way. -/
  ended : Bool
  /-- It called `Begin` before the budget of `Drain` expired. -/
  early : Bool
  deriving DecidableEq

/-- Where `Drain` is. -/
inductive Drain
  | idle
  /-- The first `waitWG`. -/
  | budget
  | expired
  /-- It closes the connections of its copy; `rest` are left. -/
  | closing (rest : List Nat)
  /-- The second `waitWG`. -/
  | grace
  /-- A `Wait` has seen the count at zero: `nil` is returned next. -/
  | drained
  /-- The grace has expired: `ErrDrainDeadline` is returned next. -/
  | deadline
  | returned
  deriving DecidableEq

/-- `TunnelManager`, with the goroutines and the call of `Drain`. -/
structure Manager where
  wg : Int
  conns : List Nat
  tunnels : List Tunnel
  drain : Drain
  deriving DecidableEq

/-- What happens; a number is that of a goroutine. -/
inductive Act
  | begin
  /-- A gate refuses the target, or it cannot be hijacked. -/
  | refuse (i : Nat)
  | go (i : Nat)
  /-- The peer hangs up, a deadline passes, or the inner request has been answered. -/
  | hangUp (i : Nat)
  | drain
  /-- The `Wait` of a `waitWG` returns. -/
  | zero
  /-- The timer of a `waitWG` fires. -/
  | expire
  /-- `Drain` closes a connection of its copy. -/
  | close (i : Nat)
  deriving DecidableEq

namespace Manager

variable (m : Manager)

def begin : Manager :=
  { m with
    wg := m.wg + 1
    tunnels := m.tunnels ++ [⟨.begun, false, false, m.drain == .idle || m.drain == .budget⟩] }

def put (i : Nat) (t : Tunnel) : Manager := { m with tunnels := m.tunnels.set i t }

/-- The next step of a goroutine. -/
def go (i : Nat) (t : Tunnel) : Option Manager :=
  match t.pc with
  | .begun => some (m.put i { t with pc := .hijacked })
  | .hijacked => some { m.put i { t with pc := .works } with conns := i :: m.conns }
  | .works => if t.closed || t.ended then some (m.put i { t with pc := .unregisters }) else none
  | .unregisters =>
    some { m.put i { t with pc := .closes } with conns := m.conns.filter fun j => j != i }
  | .closes => some (m.put i { t with pc := .ends })
  | .ends => some { m.put i { t with pc := .ended } with wg := m.wg - 1 }
  | .ended => none

/-- The next step of `Drain` that waits for nothing. -/
def next : Option Manager :=
  match m.drain with
  | .idle => some { m with drain := .budget }
  | .expired => some { m with drain := .closing m.conns }
  | .closing [] => some { m with drain := .grace }
  | .drained | .deadline => some { m with drain := .returned }
  | _ => none

/-- The next connection of the copy is closed; the copy is in no order. -/
def close (i : Nat) : Option Manager :=
  match m.drain with
  | .closing rest =>
    if rest.contains i then
      m.tunnels[i]?.map fun t =>
        { m.put i { t with closed := true } with drain := .closing (rest.filter fun j => j != i) }
    else none
  | _ => none

end Manager

/-- One step. -/
def step (m : Manager) : Act → Option Manager
  | .begin => some m.begin
  | .refuse i =>
    (m.tunnels[i]?.filter fun t => t.pc == .begun).map fun t => m.put i { t with pc := .ends }
  | .go i => m.tunnels[i]?.bind (m.go i)
  | .hangUp i => m.tunnels[i]?.map fun t => m.put i { t with ended := true }
  | .drain => m.next
  | .zero =>
    if (m.drain == .budget || m.drain == .grace) && m.wg == 0 then some { m with drain := .drained }
    else none
  | .expire =>
    if m.drain == .budget then some { m with drain := .expired }
    else if m.drain == .grace then some { m with drain := .deadline }
    else none
  | .close i => m.close i

/-- Every interleaving. -/
def sys : Sys Manager Act where
  init m := m = ⟨0, [], [], .idle⟩
  step := step

/-! ## What `Drain` promises -/

/-- The goroutine has registered its connection and has not closed it itself. -/
def Pc.connected : Pc → Bool
  | .works | .unregisters | .closes => true
  | _ => false

/-- When `Drain` returns: with `ErrDrainDeadline`, it has closed every connection, still open
otherwise, of a goroutine that began before the budget expired; with `nil`, every goroutine has
ended. -/
structure Kept (m : Manager) : Prop where
  closes : m.drain = .deadline → ∀ t ∈ m.tunnels, t.early = true → t.pc.connected = true →
    t.ended = false → t.closed = true
  drains : m.drain = .drained → ∀ t ∈ m.tunnels, t.pc = .ended

/-- The copy is made and `Drain` has not returned: what of it is left to close. -/
def Drain.copy : Drain → Option (List Nat)
  | .closing rest => some rest
  | .grace | .deadline => some []
  | _ => none

/-- No goroutine that began before the budget expired registers its connection after the copy is
made, and none begins when a `Wait` has seen the count at zero, until `Drain` returns. -/
def inTime (m : Manager) : Act → Bool
  | .begin => m.drain != .drained
  | .go i =>
    !(m.tunnels[i]?.any fun t => t.pc == .hijacked && t.early) || m.drain.copy.isNone
  | _ => true

/-- A goroutine that is hijacked in time and registers after the copy: `Drain` returns
`ErrDrainDeadline` and has not closed its connection. -/
def lateRun : List Act := [.begin, .go 0, .drain, .expire, .drain, .go 0, .drain, .expire]

theorem late_registration : ∃ m, sys.Reach m ∧ m.drain = .deadline ∧
    m.tunnels = [⟨.works, false, false, true⟩] ∧ ¬ Kept m := by
  have hrun : sys.exec ⟨0, [], [], .idle⟩ lateRun =
      some ⟨1, [0], [⟨.works, false, false, true⟩], .deadline⟩ := by decide +kernel
  refine ⟨_, .exec rfl hrun, rfl, rfl, fun h => ?_⟩
  exact absurd (h.closes rfl _ List.mem_cons_self rfl rfl rfl) (by decide)

/-! ## The invariant -/

/-- The goroutine is counted. -/
def Tunnel.counted (t : Tunnel) : Bool := t.pc != .ended

/-- What is known of the goroutine `i`. -/
structure Sound (m : Manager) (i : Nat) (t : Tunnel) : Prop where
  listed : t.pc = .works ∨ t.pc = .unregisters → i ∈ m.conns
  worked : t.pc = .unregisters ∨ t.pc = .closes → t.closed = true ∨ t.ended = true
  copied : ∀ rest, m.drain.copy = some rest → t.early = true → t.pc = .works →
    t.closed = true ∨ t.ended = true ∨ i ∈ rest
  drained : m.drain = .drained → t.pc = .ended

/-- The invariant. -/
structure Inv (m : Manager) : Prop where
  wg : m.wg = m.tunnels.countP Tunnel.counted
  tunnels : ∀ i t, m.tunnels[i]? = some t → Sound m i t

section Steps

variable {m m' : Manager} {i : Nat} {t t' : Tunnel}

/-- One goroutine changes, and with it what the manager has for it. -/
theorem Inv.put (h : Inv m) {wg : Int} {conns : List Nat} {drain : Drain}
    (hi : m.tunnels[i]? = some t)
    (hwg : wg + (if t.counted then 1 else 0 : Nat) = m.wg + (if t'.counted then 1 else 0 : Nat))
    (hown : Sound ⟨wg, conns, m.tunnels.set i t', drain⟩ i t')
    (hother : ∀ j u, j ≠ i → Sound m j u → Sound ⟨wg, conns, m.tunnels.set i t', drain⟩ j u) :
    Inv ⟨wg, conns, m.tunnels.set i t', drain⟩ where
  wg := by
    have hset := countP_set_add (f := Tunnel.counted) (n := t') hi
    have := h.wg
    show wg = ((m.tunnels.set i t').countP Tunnel.counted : Nat)
    omega
  tunnels j u hj := by
    by_cases hij : j = i
    · subst hij
      cases (List.getElem?_set_self (List.getElem?_eq_some_iff.mp hi).1).symm.trans hj
      exact hown
    · exact hother j u hij (h.tunnels j u ((List.getElem?_set_ne (Ne.symm hij)).symm.trans hj))

/-- The count of a goroutine stays. -/
theorem Inv.put_same (h : Inv m) (hi : m.tunnels[i]? = some t) (hcounted : t'.counted = t.counted)
    (hown : Sound (m.put i t') i t') : Inv (m.put i t') :=
  h.put hi (by rw [hcounted]) hown
    fun _ _ _ hu => ⟨hu.listed, hu.worked, hu.copied, hu.drained⟩

theorem Inv.not_drained (h : Inv m) (hi : m.tunnels[i]? = some t) (hpc : t.pc ≠ .ended) :
    m.drain ≠ .drained := fun hd => hpc ((h.tunnels i t hi).drained hd)

theorem Inv.begin (h : Inv m) (hd : m.drain ≠ .drained) : Inv m.begin where
  wg := by
    simp [Manager.begin, h.wg, List.countP_append, Tunnel.counted]
  tunnels j u hj := by
    rcases getElem?_concat_cases hj with hj | ⟨rfl, rfl⟩
    · have hu := h.tunnels j u hj
      exact ⟨hu.listed, hu.worked, hu.copied, hu.drained⟩
    · exact ⟨by simp, by simp, by simp, fun hdr => absurd hdr hd⟩

theorem Inv.go (h : Inv m) (hi : m.tunnels[i]? = some t)
    (hC : (t.pc == .hijacked && t.early) = false ∨ m.drain.copy = none)
    (hs : m.go i t = some m') : Inv m' := by
  have hsound := h.tunnels i t hi
  have hnot : t.pc ≠ .ended → m.drain ≠ .drained := h.not_drained hi
  unfold Manager.go at hs
  cases hpc : t.pc <;> rw [hpc] at hs hnot
  case begun =>
    cases hs
    refine h.put_same hi ?_ ⟨by simp, by simp, by simp, fun hd => absurd hd (hnot (by decide))⟩
    rw [Tunnel.counted, Tunnel.counted, hpc]
    rfl
  case hijacked =>
    cases hs
    refine h.put hi ?_ ⟨by simp, by simp, fun rest hrest hearly => ?_, fun hd => ?_⟩
      fun j u _ hu => ⟨fun hp => List.mem_cons_of_mem _ (hu.listed hp), hu.worked, hu.copied,
        hu.drained⟩
    · simp [Tunnel.counted, hpc, Manager.put]
    · -- It registers in time, so there is no copy that could lack it.
      rcases hC with hfalse | hnone
      · rw [hpc, show t.early = true from hearly] at hfalse
        cases hfalse
      · cases hnone.symm.trans hrest
    · exact absurd hd (hnot (by decide))
  case works =>
    obtain ⟨hor, hs⟩ := Option.ite_none_right_eq_some.mp hs
    cases hs
    refine h.put_same hi ?_
      ⟨fun _ => hsound.listed (.inl hpc), fun _ => by simpa using hor, by simp,
        fun hd => absurd hd (hnot (by decide))⟩
    rw [Tunnel.counted, Tunnel.counted, hpc]
    rfl
  case unregisters =>
    cases hs
    refine h.put hi ?_
      ⟨by simp, fun _ => hsound.worked (.inl hpc), by simp, fun hd => absurd hd (hnot (by decide))⟩
      fun j u hj hu => ⟨fun hp => List.mem_filter.mpr ⟨hu.listed hp, by simpa using hj⟩, hu.worked,
        hu.copied, hu.drained⟩
    simp [Tunnel.counted, hpc, Manager.put]
  case closes =>
    cases hs
    refine h.put_same hi ?_ ⟨by simp, by simp, by simp, fun hd => absurd hd (hnot (by decide))⟩
    rw [Tunnel.counted, Tunnel.counted, hpc]
    rfl
  case ends =>
    cases hs
    refine h.put hi ?_ ⟨by simp, by simp, by simp, fun _ => rfl⟩
      fun _ _ _ hu => ⟨hu.listed, hu.worked, hu.copied, hu.drained⟩
    simp [Tunnel.counted, hpc]
  case ended => cases hs

theorem Inv.drain (h : Inv m) {d : Drain}
    (hcopy : ∀ rest, d.copy = some rest → m.drain.copy = some rest ∨ rest = m.conns)
    (hdrained : d = .drained → m.wg = 0) : Inv { m with drain := d } where
  wg := h.wg
  tunnels i t hi := by
    have hsound := h.tunnels i t hi
    refine ⟨hsound.listed, hsound.worked, fun rest hrest hearly hpc => ?_, fun hd => ?_⟩
    · rcases hcopy rest hrest with hold | rfl
      · exact hsound.copied rest hold hearly hpc
      · exact .inr (.inr (hsound.listed (.inl hpc)))
    · have hzero : m.tunnels.countP Tunnel.counted = 0 := by
        have := h.wg
        have := hdrained hd
        omega
      have := List.countP_eq_zero.mp hzero t (List.mem_of_getElem? hi)
      simpa [Tunnel.counted] using this

theorem Inv.next (h : Inv m) (hs : m.next = some m') : Inv m' := by
  unfold Manager.next at hs
  split at hs
  · cases hs
    exact h.drain (fun rest hrest => by cases hrest) fun hd => by cases hd
  · cases hs
    exact h.drain (fun rest hrest => .inr (Option.some.inj hrest).symm) fun hd => by cases hd
  · rename_i hd
    cases hs
    exact h.drain (fun rest hrest => .inl (by rw [hd]; exact hrest)) fun hd => by cases hd
  · cases hs
    exact h.drain (fun rest hrest => by cases hrest) fun hd => by cases hd
  · cases hs
    exact h.drain (fun rest hrest => by cases hrest) fun hd => by cases hd
  · cases hs

theorem Inv.close (h : Inv m) (hs : m.close i = some m') : Inv m' := by
  unfold Manager.close at hs
  split at hs
  swap
  · cases hs
  rename_i rest hd
  obtain ⟨-, hs⟩ := Option.ite_none_right_eq_some.mp hs
  obtain ⟨t, hi, rfl⟩ := Option.map_eq_some_iff.mp hs
  have hsound := h.tunnels i t hi
  refine h.put hi rfl ⟨hsound.listed, fun _ => .inl rfl, fun _ _ _ _ => .inl rfl, by simp⟩
    fun j u hj hu => ⟨hu.listed, hu.worked, fun rest' hrest hearly hpc => ?_, by simp⟩
  cases hrest
  refine (hu.copied rest (by rw [hd]; rfl) hearly hpc).imp_right (Or.imp_right fun hmem => ?_)
  exact List.mem_filter.mpr ⟨hmem, by simpa using hj⟩

/-- Every step that is in time. -/
theorem Inv.step (h : Inv m) {a : Act} (hC : inTime m a = true) (hs : step m a = some m') :
    Inv m' := by
  cases a with
  | begin =>
    cases hs
    exact h.begin (by simpa [inTime] using hC)
  | refuse i =>
    obtain ⟨t, ht, rfl⟩ := Option.map_eq_some_iff.mp hs
    obtain ⟨hi, hpc⟩ := Option.filter_eq_some_iff.mp ht
    have hpc : t.pc = .begun := by simpa using hpc
    refine h.put_same hi ?_ ⟨by simp, by simp, by simp, fun hd => ?_⟩
    · rw [Tunnel.counted, Tunnel.counted, hpc]
      rfl
    · exact absurd hd (h.not_drained hi (by rw [hpc]; decide))
  | go i =>
    obtain ⟨t, hi, hs⟩ := Option.bind_eq_some_iff.mp hs
    refine h.go hi ?_ hs
    cases hlate : t.pc == .hijacked && t.early with
    | false => exact .inl rfl
    | true => exact .inr (by simpa [inTime, hi, hlate] using hC)
  | hangUp i =>
    obtain ⟨t, hi, rfl⟩ := Option.map_eq_some_iff.mp hs
    have hsound := h.tunnels i t hi
    exact h.put_same hi rfl
      ⟨hsound.listed, fun _ => .inr rfl, fun _ _ _ _ => .inr (.inl rfl), hsound.drained⟩
  | drain => exact h.next hs
  | zero =>
    obtain ⟨hzero, hs⟩ := Option.ite_none_right_eq_some.mp hs
    cases hs
    refine h.drain (fun rest hrest => by cases hrest) fun _ => ?_
    simp only [Bool.and_eq_true, beq_iff_eq] at hzero
    exact hzero.2
  | expire =>
    rw [Tunnels.step] at hs
    split at hs
    · cases hs
      exact h.drain (fun rest hrest => by cases hrest) fun hd => by cases hd
    · obtain ⟨hgrace, hs⟩ := Option.ite_none_right_eq_some.mp hs
      cases hs
      refine h.drain (fun rest hrest => .inl ?_) fun hd => by cases hd
      rw [beq_iff_eq.mp hgrace]
      exact hrest
  | close i => exact h.close hs

end Steps

theorem inv_inductive : (sys.guard fun m a => inTime m a = true).Inductive Inv :=
  .of_guard (fun m hm => by rw [show m = _ from hm]; exact ⟨rfl, by simp⟩)
    fun _ _ _ h hC hs => h.step hC hs

/-- In every run whose registrations and beginnings are in time, `Drain` keeps what it promises. -/
theorem drain_closes {m : Manager} (h : (sys.guard fun m a => inTime m a = true).Reach m) :
    Kept m := by
  have hinv := inv_inductive.reach h
  refine ⟨fun hd t ht hearly hconn hover => ?_, fun hd t ht => ?_⟩
  · obtain ⟨i, hi⟩ := List.getElem?_of_mem ht
    have hsound := hinv.tunnels i t hi
    have hor : t.closed = true ∨ t.ended = true := by
      cases hpc : t.pc <;> rw [hpc] at hconn
      case works =>
        rcases hsound.copied [] (by rw [hd]; rfl) hearly hpc with hc | ho | hmem
        · exact .inl hc
        · exact .inr ho
        · cases hmem
      case unregisters => exact hsound.worked (.inl hpc)
      case closes => exact hsound.worked (.inr hpc)
      all_goals cases hconn
    exact hor.resolve_right (by rw [hover]; exact Bool.false_ne_true)
  · obtain ⟨i, hi⟩ := List.getElem?_of_mem ht
    exact (hinv.tunnels i t hi).drained hd

/-- A tunnel that is stuck although its connection is closed, and one that registers and ends in
time. -/
def stuckRun : List Act :=
  [.begin, .begin, .go 0, .go 1, .go 0, .go 1, .hangUp 1, .drain, .go 1, .go 1, .go 1, .go 1,
    .expire, .drain, .close 0, .drain, .expire]

theorem drain_closes_stuck : Kept
    ⟨1, [0], [⟨.works, true, false, true⟩, ⟨.ended, false, true, true⟩], .deadline⟩ := by
  have hrun : (sys.guard fun m a => inTime m a = true).exec ⟨0, [], [], .idle⟩ stuckRun =
      some ⟨1, [0], [⟨.works, true, false, true⟩, ⟨.ended, false, true, true⟩], .deadline⟩ := by
    decide +kernel
  exact drain_closes (.exec rfl hrun)

end AptCacher.Proxy.Tunnels
