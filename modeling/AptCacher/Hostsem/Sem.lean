import AptCacher.Spec.Count
import AptCacher.Spec.Sys

/-!
# The semaphore of the hosts

`hostsem/sem.go`: one counting semaphore per host, in a map of slots with reference counts. A call
of `Acquire` takes a reference under the mutex and then waits for a token or for the end of its
context; its release gives the token back and drops the reference under the mutex.

* `Sem`: the slots ever made (a pointer is a position), the map, and the calls.
* `sys limit`: every interleaving of the calls, one critical section or channel operation a step.
* `Counted`: the references and tokens of a slot are those of its calls; `Inv` adds the map.
* `sem_safe`: at most `limit` tokens per host, and no slot in use leaves the map.
-/

namespace AptCacher.Hostsem

open Spec

/-! ## The model -/

/-- Where a call of `Acquire` and its release are. -/
inductive Pc
  /-- It has its reference and waits in the `select`. -/
  | select
  /-- It has returned a release that nobody has called. -/
  | holds
  /-- The release is about to receive from the channel. -/
  | receives
  /-- The release is about to drop the reference. -/
  | drops
  /-- The context has ended; the reference is about to be dropped. -/
  | cancelled
  | released
  /-- It has returned the context's error and a release that does nothing. -/
  | failed
  deriving DecidableEq

/-- The call has a reference. -/
def Pc.uses : Pc → Bool
  | .released | .failed => false
  | _ => true

/-- The call has put a token into the channel and not taken one out. -/
def Pc.token : Pc → Bool
  | .holds | .receives => true
  | _ => false

/-- The release has been called, or it does nothing. -/
def Pc.called : Pc → Bool
  | .receives | .drops | .released | .failed => true
  | _ => false

/-- The context ended before the call had a token. -/
def Pc.cancels : Pc → Bool
  | .cancelled | .failed => true
  | _ => false

/-- `hostSlot`: the number of tokens in the channel, and the references. -/
structure Slot (H : Type) where
  host : H
  ch : Nat
  refs : Int
  deriving DecidableEq

structure Call (H : Type) where
  host : H
  slot : Nat
  pc : Pc
  deriving DecidableEq

/-- `Sem`, with the slots ever made and the calls. -/
structure Sem (H : Type) where
  limit : Nat
  slots : H → Option Nat
  heap : List (Slot H)
  calls : List (Call H)

/-- What happens; a number is that of a call. -/
inductive Act (H : Type)
  | acquire (host : H)
  | send (i : Nat)
  /-- A send to a channel without a buffer: it needs a receiver. -/
  | handoff (i j : Nat)
  | ctxDone (i : Nat)
  /-- The release that the call returned is called for the first time. -/
  | release (i : Nat)
  /-- It is called again, or it is one that does nothing. -/
  | again (i : Nat)
  | receive (i : Nat)
  | dropRef (i : Nat)

variable {H : Type}

def new (limit : Int) : Sem H := ⟨limit.toNat, fun _ => none, [], []⟩

namespace Sem

variable (s : Sem H)

/-- The call `i`, if it is at `pc`. -/
def callAt (i : Nat) (pc : Pc) : Option (Call H) := s.calls[i]?.filter fun c => c.pc == pc

/-- The call `i` goes on to `pc`; `f` is what happens to its slot. -/
def move (i : Nat) (c : Call H) (pc : Pc) (f : Slot H → Slot H) : Sem H :=
  { s with heap := s.heap.modify c.slot f, calls := s.calls.set i { c with pc := pc } }

/-- The call `i` goes on from `old` to `new` if its slot is ready for that. -/
def turn (i : Nat) (old new : Pc) (ready : Slot H → Bool) (f : Slot H → Slot H) : Option (Sem H) :=
  (s.callAt i old).bind fun c =>
    if s.heap[c.slot]?.any ready then some (s.move i c new f) else none

/-- The slot of the host, made if it is missing. -/
def slotFor [DecidableEq H] (host : H) : Nat × Sem H :=
  match s.slots host with
  | some k => (k, s)
  | none =>
    (s.heap.length,
      { s with
        slots := Function.update s.slots host (some s.heap.length)
        heap := s.heap ++ [⟨host, 0, 0⟩] })

/-- A new call takes a reference to the slot `k`. -/
def enter (host : H) (k : Nat) : Sem H :=
  { s with
    heap := s.heap.modify k fun sl => { sl with refs := sl.refs + 1 }
    calls := s.calls ++ [⟨host, k, .select⟩] }

/-- The first critical section of `Acquire`. -/
def acquire [DecidableEq H] (host : H) : Sem H := (s.slotFor host).2.enter host (s.slotFor host).1

/-- `dropRef`: the slot leaves the map with its last reference. -/
def dropRef [DecidableEq H] (i : Nat) (c : Call H) (pc : Pc) : Sem H :=
  let s' := s.move i c pc fun sl => { sl with refs := sl.refs - 1 }
  if s'.heap[c.slot]?.any (fun sl => sl.refs == 0) && s.slots c.host == some c.slot then
    { s' with slots := Function.update s.slots c.host none }
  else s'

end Sem

/-- One step. -/
def step [DecidableEq H] (s : Sem H) : Act H → Option (Sem H)
  | .acquire host => some (s.acquire host)
  | .send i =>
    s.turn i .select .holds (fun sl => sl.ch < s.limit) fun sl => { sl with ch := sl.ch + 1 }
  | .handoff i j =>
    (s.callAt i .select).bind fun c => (s.callAt j .receives).bind fun d =>
      if s.limit = 0 ∧ c.slot = d.slot then some ((s.move i c .holds id).move j d .drops id)
      else none
  | .ctxDone i => s.turn i .select .cancelled (fun _ => true) id
  | .release i => s.turn i .holds .receives (fun _ => true) id
  -- `once`: it does nothing; it waits for the first call if that is still running.
  | .again i => if s.calls[i]?.any fun c => c.pc.called then some s else none
  | .receive i =>
    s.turn i .receives .drops (fun sl => 0 < sl.ch) fun sl => { sl with ch := sl.ch - 1 }
  | .dropRef i =>
    s.calls[i]?.bind fun c =>
      match c.pc with
      | .drops => some (s.dropRef i c .released)
      | .cancelled => some (s.dropRef i c .failed)
      | _ => none

/-- Every interleaving. -/
def sys (H : Type) [DecidableEq H] (limit : Int) : Sys (Sem H) (Act H) where
  init s := s = new limit
  step := step

/-! ## What is counted -/

def Call.usesSlot (k : Nat) (c : Call H) : Bool := c.slot == k && c.pc.uses

def Call.tokenIn (k : Nat) (c : Call H) : Bool := c.slot == k && c.pc.token

theorem Call.usesSlot_self (c : Call H) : c.usesSlot c.slot = c.pc.uses := by simp [Call.usesSlot]

theorem Call.tokenIn_self (c : Call H) : c.tokenIn c.slot = c.pc.token := by simp [Call.tokenIn]

theorem Call.usesSlot_pc (c : Call H) (pc : Pc) :
    Call.usesSlot c.slot { c with pc := pc } = pc.uses :=
  Call.usesSlot_self { c with pc := pc }

theorem Call.tokenIn_pc (c : Call H) (pc : Pc) :
    Call.tokenIn c.slot { c with pc := pc } = pc.token :=
  Call.tokenIn_self { c with pc := pc }

/-- The tokens of the host that are held. -/
def Sem.held [DecidableEq H] (s : Sem H) (h : H) : Nat :=
  s.calls.countP fun c => c.host == h && c.pc.token

/-- The references and tokens of the slot `k` are those of its calls. -/
structure Counted (limit : Nat) (calls : List (Call H)) (k : Nat) (sl : Slot H) : Prop where
  refs : sl.refs = calls.countP (Call.usesSlot k)
  ch : sl.ch = calls.countP (Call.tokenIn k)
  le : sl.ch ≤ limit

/-- The invariant. -/
structure Inv (limit : Nat) (s : Sem H) : Prop where
  cap : s.limit = limit
  counted : ∀ k sl, s.heap[k]? = some sl → Counted s.limit s.calls k sl
  slotOf : ∀ c ∈ s.calls, ∃ sl, s.heap[c.slot]? = some sl ∧ sl.host = c.host
  mapped : ∀ k sl, s.heap[k]? = some sl → 0 < sl.refs → s.slots sl.host = some k
  used : ∀ h k, s.slots h = some k → ∃ sl, s.heap[k]? = some sl ∧ sl.host = h ∧ 0 < sl.refs

/-- The slot of a call that goes from `old` to `pc` gains or loses what the call does. -/
structure Tallies (limit : Nat) (old pc : Pc) (sl sl' : Slot H) : Prop where
  host : sl'.host = sl.host
  refs : sl'.refs + (if old.uses then 1 else 0 : Nat) = sl.refs + (if pc.uses then 1 else 0 : Nat)
  ch : sl'.ch + (if old.token then 1 else 0) = sl.ch + (if pc.token then 1 else 0)
  le : sl'.ch ≤ limit

section Move

variable {limit : Nat} {s : Sem H} {i : Nat} {c : Call H} {pc : Pc} {f : Slot H → Slot H}

theorem getElem?_move {k : Nat} {sl' : Slot H} (h : (s.move i c pc f).heap[k]? = some sl') :
    (k ≠ c.slot ∧ s.heap[k]? = some sl') ∨
      (k = c.slot ∧ ∃ sl, s.heap[k]? = some sl ∧ sl' = f sl) := by
  simp only [Sem.move, List.getElem?_modify] at h
  obtain ⟨sl, hsl, rfl⟩ := Option.map_eq_some_iff.mp h
  by_cases hk : c.slot = k
  · exact .inr ⟨hk.symm, sl, hsl, if_pos hk⟩
  · refine .inl ⟨fun e => hk e.symm, ?_⟩
    rw [hsl, if_neg hk]

theorem Counted.set_other {k : Nat} {sl : Slot H} (h : Counted limit s.calls k sl)
    (hi : s.calls[i]? = some c) (hk : k ≠ c.slot) :
    Counted limit (s.calls.set i { c with pc := pc }) k sl := by
  have hslot : (c.slot == k) = false := beq_eq_false_iff_ne.mpr fun e => hk e.symm
  refine ⟨?_, ?_, h.le⟩
  · rw [h.refs, countP_set_of_eq hi (by simp [Call.usesSlot, hslot])]
  · rw [h.ch, countP_set_of_eq hi (by simp [Call.tokenIn, hslot])]

theorem Counted.set_own {sl sl' : Slot H} (h : Counted limit s.calls c.slot sl)
    (hi : s.calls[i]? = some c) (ht : Tallies limit c.pc pc sl sl') :
    Counted limit (s.calls.set i { c with pc := pc }) c.slot sl' := by
  have huses := countP_set_add (f := Call.usesSlot c.slot) (n := { c with pc := pc }) hi
  have htoken := countP_set_add (f := Call.tokenIn c.slot) (n := { c with pc := pc }) hi
  rw [Call.usesSlot_self, Call.usesSlot_pc] at huses
  rw [Call.tokenIn_self, Call.tokenIn_pc] at htoken
  have hrefs := h.refs
  have hch := h.ch
  have hr := ht.refs
  have hc := ht.ch
  refine ⟨?_, ?_, ht.le⟩ <;> omega

theorem Inv.counted_move (h : Inv limit s) (hi : s.calls[i]? = some c)
    (hf : ∀ sl, s.heap[c.slot]? = some sl → Tallies s.limit c.pc pc sl (f sl)) {k : Nat}
    {sl' : Slot H} (hk : (s.move i c pc f).heap[k]? = some sl') :
    Counted s.limit (s.move i c pc f).calls k sl' := by
  rcases getElem?_move hk with ⟨hne, hsl⟩ | ⟨rfl, sl, hsl, rfl⟩
  · exact (h.counted k sl' hsl).set_other hi hne
  · exact (h.counted _ sl hsl).set_own hi (hf sl hsl)

theorem Inv.slotOf_move (h : Inv limit s) (hi : s.calls[i]? = some c)
    (hf : ∀ sl, (f sl).host = sl.host) : ∀ d ∈ (s.move i c pc f).calls,
      ∃ sl, (s.move i c pc f).heap[d.slot]? = some sl ∧ sl.host = d.host := by
  intro d hd
  have hold : ∃ sl, s.heap[d.slot]? = some sl ∧ sl.host = d.host := by
    rcases List.mem_or_eq_of_mem_set hd with hd | rfl
    · exact h.slotOf d hd
    · exact h.slotOf c (List.mem_of_getElem? hi)
  obtain ⟨sl, hsl, hhost⟩ := hold
  refine ⟨_, getElem?_modify_some hsl, ?_⟩
  split
  · rw [hf, hhost]
  · exact hhost

/-- A call moves on and keeps its reference: the map stays right. -/
theorem Inv.move (h : Inv limit s) (hi : s.calls[i]? = some c)
    (hf : ∀ sl, s.heap[c.slot]? = some sl → Tallies s.limit c.pc pc sl (f sl))
    (hhost : ∀ sl, (f sl).host = sl.host) (hrefs : ∀ sl, (f sl).refs = sl.refs) :
    Inv limit (s.move i c pc f) where
  cap := h.cap
  counted k sl' hk := h.counted_move hi hf hk
  slotOf := h.slotOf_move hi hhost
  mapped k sl' hk hpos := by
    rcases getElem?_move hk with ⟨-, hsl⟩ | ⟨rfl, sl, hsl, rfl⟩
    · exact h.mapped k sl' hsl hpos
    · rw [hhost]
      exact h.mapped _ sl hsl (by rwa [hrefs] at hpos)
  used g k hk := by
    obtain ⟨sl, hsl, hg, hpos⟩ := h.used g k hk
    refine ⟨_, getElem?_modify_some hsl, ?_, ?_⟩
    · split
      · rw [hhost, hg]
      · exact hg
    · split
      · rwa [hrefs]
      · exact hpos

end Move

/-! ## The steps -/

section Steps

variable {limit : Nat} {s s' : Sem H} {i : Nat} {c : Call H}

theorem callAt_eq_some {pc : Pc} :
    s.callAt i pc = some c ↔ s.calls[i]? = some c ∧ c.pc = pc := by
  simp [Sem.callAt, Option.filter_eq_some_iff]

theorem turn_cases {old new : Pc} {ready : Slot H → Bool} {f : Slot H → Slot H}
    (hs : s.turn i old new ready f = some s') :
    ∃ c, s.calls[i]? = some c ∧ (∀ sl, s.heap[c.slot]? = some sl → ready sl = true) ∧
      c.pc = old ∧ s.move i c new f = s' := by
  obtain ⟨c, hc, hs⟩ := Option.bind_eq_some_iff.mp hs
  obtain ⟨hi, hpc⟩ := callAt_eq_some.mp hc
  obtain ⟨hready, hs⟩ := Option.ite_none_right_eq_some.mp hs
  exact ⟨c, hi, fun sl hsl => by simpa [hsl] using hready, hpc, Option.some.inj hs⟩

theorem Inv.counted_enter {host : H} {k : Nat}
    (h : ∀ j sl, s.heap[j]? = some sl → Counted s.limit s.calls j sl) {j : Nat} {sl' : Slot H}
    (hj : (s.enter host k).heap[j]? = some sl') :
    Counted s.limit (s.enter host k).calls j sl' := by
  simp only [Sem.enter, List.getElem?_modify] at hj
  obtain ⟨sl, hsl, rfl⟩ := Option.map_eq_some_iff.mp hj
  have hold := h j sl hsl
  by_cases hk : k = j
  · refine ⟨?_, ?_, ?_⟩
    · simp [hk, hold.refs, Sem.enter, Call.usesSlot, Pc.uses, List.countP_append]
    · simp [hk, hold.ch, Sem.enter, Call.tokenIn, Pc.token, List.countP_append]
    · simpa [hk] using hold.le
  · refine ⟨?_, ?_, ?_⟩
    · simp [hk, hold.refs, Sem.enter, Call.usesSlot, List.countP_append]
    · simp [hk, hold.ch, Sem.enter, Call.tokenIn, List.countP_append]
    · simpa [hk] using hold.le

/-- The map has the slot `k` for the host; it may still have no reference. -/
structure Ready (limit : Nat) (s : Sem H) (host : H) (k : Nat) : Prop where
  cap : s.limit = limit
  counted : ∀ j sl, s.heap[j]? = some sl → Counted s.limit s.calls j sl
  slotOf : ∀ c ∈ s.calls, ∃ sl, s.heap[c.slot]? = some sl ∧ sl.host = c.host
  mapped : ∀ j sl, s.heap[j]? = some sl → 0 < sl.refs → s.slots sl.host = some j
  listed : s.slots host = some k
  own : ∃ sl, s.heap[k]? = some sl ∧ sl.host = host
  used : ∀ g j, s.slots g = some j → g ≠ host →
    ∃ sl, s.heap[j]? = some sl ∧ sl.host = g ∧ 0 < sl.refs

theorem Ready.enter {host : H} {k : Nat} (h : Ready limit s host k) :
    Inv limit (s.enter host k) where
  cap := h.cap
  counted j sl' hj := Inv.counted_enter h.counted hj
  slotOf c hc := by
    have hold : ∃ sl, s.heap[c.slot]? = some sl ∧ sl.host = c.host := by
      rcases List.mem_append.mp hc with hc | hc
      · exact h.slotOf c hc
      · rw [List.mem_singleton.mp hc]
        exact h.own
    obtain ⟨sl, hsl, hhost⟩ := hold
    refine ⟨_, getElem?_modify_some hsl, ?_⟩
    split <;> exact hhost
  mapped j sl' hj hpos := by
    simp only [Sem.enter, List.getElem?_modify] at hj
    obtain ⟨sl, hsl, rfl⟩ := Option.map_eq_some_iff.mp hj
    by_cases hk : k = j
    · obtain ⟨own, hown, rfl⟩ := h.own
      rw [hk, hsl] at hown
      cases hown
      simp only [if_pos hk]
      exact hk ▸ h.listed
    · simp only [if_neg hk] at hpos ⊢
      exact h.mapped j sl hsl hpos
  used g j hj := by
    by_cases hg : g = host
    · subst hg
      obtain ⟨sl, hsl, hhost⟩ := h.own
      cases h.listed.symm.trans hj
      refine ⟨{ sl with refs := sl.refs + 1 }, ?_, hhost, ?_⟩
      · exact (getElem?_modify_some hsl).trans (by rw [if_pos rfl])
      · have := (h.counted _ sl hsl).refs
        show 0 < sl.refs + 1
        omega
    · obtain ⟨sl, hsl, hhost, hpos⟩ := h.used g j hj hg
      refine ⟨_, getElem?_modify_some hsl, ?_, ?_⟩
      · split <;> exact hhost
      · split
        · show 0 < sl.refs + 1
          omega
        · exact hpos

/-- A call that has a reference keeps the count of its slot positive. -/
theorem Counted.pos {sl : Slot H} {calls : List (Call H)} {c : Call H}
    (h : Counted limit calls c.slot sl) (hc : c ∈ calls) (huses : c.pc.uses = true) :
    0 < sl.refs := by
  have hpos : 0 < calls.countP (Call.usesSlot c.slot) :=
    List.countP_pos_iff.mpr ⟨c, hc, c.usesSlot_self.trans huses⟩
  have := h.refs
  omega

theorem Inv.turn (h : Inv limit s) {i : Nat} {old new : Pc} {ready : Slot H → Bool}
    {f : Slot H → Slot H} (hs : s.turn i old new ready f = some s')
    (hf : ∀ sl, ready sl = true → sl.ch ≤ s.limit → Tallies s.limit old new sl (f sl))
    (hhost : ∀ sl, (f sl).host = sl.host) (hrefs : ∀ sl, (f sl).refs = sl.refs) :
    Inv limit s' := by
  obtain ⟨c, hi, hready, rfl, rfl⟩ := turn_cases hs
  exact h.move hi (fun sl hsl => hf sl (hready sl hsl) (h.counted _ sl hsl).le) hhost hrefs

/-- Calls that refer to slots of one host refer to one slot. -/
theorem Inv.slot_eq (h : Inv limit s) {c d : Call H} (hc : c ∈ s.calls) (hd : d ∈ s.calls)
    (hcu : c.pc.uses = true) (hdu : d.pc.uses = true) (hhost : c.host = d.host) :
    c.slot = d.slot := by
  have hmap : ∀ e ∈ s.calls, e.pc.uses = true → s.slots e.host = some e.slot := by
    intro e he heu
    obtain ⟨sl, hsl, heq⟩ := h.slotOf e he
    exact heq ▸ h.mapped _ sl hsl ((h.counted _ sl hsl).pos he heu)
  have hc' := hmap c hc hcu
  rw [hhost, hmap d hd hdu] at hc'
  exact (Option.some.inj hc').symm

theorem Pc.uses_of_token {pc : Pc} (h : pc.token = true) : pc.uses = true := by
  cases pc <;> first | rfl | cases h

theorem cancels_set {calls : List (Call H)} {i j : Nat} {d : Call H} {pc : Pc}
    (hj : calls[j]? = some d) (hkeep : d.pc.cancels = true → pc.cancels = true)
    (h : ∃ c, calls[i]? = some c ∧ c.pc.cancels = true) :
    ∃ c, (calls.set j { d with pc := pc })[i]? = some c ∧ c.pc.cancels = true := by
  obtain ⟨c, hi, hc⟩ := h
  by_cases hij : j = i
  · subst hij
    cases hi.symm.trans hj
    exact ⟨_, List.getElem?_set_self (List.getElem?_eq_some_iff.mp hj).1, hkeep hc⟩
  · exact ⟨c, (List.getElem?_set_ne hij).trans hi, hc⟩

section Map

variable [DecidableEq H]

theorem Inv.slotFor (h : Inv limit s) (host : H) :
    Ready limit (s.slotFor host).2 host (s.slotFor host).1 := by
  cases hslot : s.slots host with
  | some k =>
    simp only [Sem.slotFor, hslot]
    obtain ⟨sl, hsl, hhost, -⟩ := h.used host k hslot
    exact ⟨h.cap, h.counted, h.slotOf, h.mapped, hslot, ⟨sl, hsl, hhost⟩,
      fun g j hj _ => h.used g j hj⟩
  | none =>
    simp only [Sem.slotFor, hslot]
    -- No call refers to the position of the new slot.
    have hfresh : ∀ c ∈ s.calls, c.slot ≠ s.heap.length := by
      intro c hc heq
      obtain ⟨sl, hsl, -⟩ := h.slotOf c hc
      rw [heq, List.getElem?_eq_none (Nat.le_refl _)] at hsl
      cases hsl
    refine ⟨h.cap, ?_, ?_, ?_, Function.update_self ..,
      ⟨⟨host, 0, 0⟩, List.getElem?_concat_length .., rfl⟩, ?_⟩
    · intro j sl hj
      rcases getElem?_concat_cases hj with hj | ⟨rfl, rfl⟩
      · exact h.counted j sl hj
      · have hno : ∀ f : Pc → Bool,
            s.calls.countP (fun c => c.slot == s.heap.length && f c.pc) = 0 := fun f =>
          List.countP_eq_zero.mpr fun c hc => by simp [hfresh c hc]
        exact ⟨(congrArg Nat.cast (hno Pc.uses)).symm, (hno Pc.token).symm, Nat.zero_le _⟩
    · intro c hc
      obtain ⟨sl, hsl, hhost⟩ := h.slotOf c hc
      exact ⟨sl, getElem?_concat_of hsl, hhost⟩
    · intro j sl hj hpos
      rcases getElem?_concat_cases hj with hj | ⟨rfl, rfl⟩
      · have hmap := h.mapped j sl hj hpos
        have hne : sl.host ≠ host := by
          rintro rfl
          rw [hslot] at hmap
          cases hmap
        exact (Function.update_of_ne hne ..).trans hmap
      · cases hpos
    · intro g j hj hne
      obtain ⟨sl, hsl, hrest⟩ := h.used g j ((Function.update_of_ne hne ..).symm.trans hj)
      exact ⟨sl, getElem?_concat_of hsl, hrest⟩

theorem Inv.acquire (h : Inv limit s) (host : H) : Inv limit (s.acquire host) :=
  (h.slotFor host).enter

theorem Inv.not_handoff (h : Inv limit s) (i j : Nat) : step s (.handoff i j) ≠ some s' := by
  intro hs
  obtain ⟨c, -, hs⟩ := Option.bind_eq_some_iff.mp hs
  obtain ⟨d, hd, hs⟩ := Option.bind_eq_some_iff.mp hs
  obtain ⟨hj, hpc⟩ := callAt_eq_some.mp hd
  obtain ⟨⟨hzero, -⟩, -⟩ := Option.ite_none_right_eq_some.mp hs
  obtain ⟨sl, hsl, -⟩ := h.slotOf d (List.mem_of_getElem? hj)
  have hpos : 0 < s.calls.countP (Call.tokenIn d.slot) :=
    List.countP_pos_iff.mpr ⟨d, List.mem_of_getElem? hj, d.tokenIn_self.trans (by rw [hpc]; rfl)⟩
  have hcount := h.counted _ sl hsl
  have := hcount.ch
  have := hcount.le
  omega

/-- What dropping the reference does, up to the map. -/
abbrev Sem.dropped (s : Sem H) (i : Nat) (c : Call H) (pc : Pc) : Sem H :=
  s.move i c pc fun sl => { sl with refs := sl.refs - 1 }

/-- The last reference takes the slot out of the map; no other call refers to it then. -/
theorem Inv.dropRef (h : Inv limit s) {pc : Pc} (hi : s.calls[i]? = some c)
    (hold : c.pc.uses = true ∧ c.pc.token = false) (hnew : pc.uses = false ∧ pc.token = false) :
    Inv limit (s.dropRef i c pc) := by
  have hf : ∀ sl, s.heap[c.slot]? = some sl →
      Tallies s.limit c.pc pc sl { sl with refs := sl.refs - 1 } := by
    intro sl hsl
    refine ⟨rfl, ?_, ?_, (h.counted _ sl hsl).le⟩ <;> simp [hold, hnew]
  have hcounted : ∀ k sl, (s.dropped i c pc).heap[k]? = some sl →
      Counted s.limit (s.dropped i c pc).calls k sl := fun k sl hk => h.counted_move hi hf hk
  have hslotOf : ∀ d ∈ (s.dropped i c pc).calls,
      ∃ sl, (s.dropped i c pc).heap[d.slot]? = some sl ∧ sl.host = d.host :=
    h.slotOf_move hi fun _ => rfl
  obtain ⟨sl, hsl, hhost⟩ := h.slotOf c (List.mem_of_getElem? hi)
  have hpos : 0 < sl.refs := (h.counted _ sl hsl).pos (List.mem_of_getElem? hi) hold.1
  have hlisted : s.slots c.host = some c.slot := hhost ▸ h.mapped _ sl hsl hpos
  have hown : (s.dropped i c pc).heap[c.slot]? = some { sl with refs := sl.refs - 1 } :=
    (getElem?_modify_some hsl).trans (by rw [if_pos rfl])
  have hdrop : s.dropRef i c pc =
      if sl.refs - 1 = 0 then
        { s.dropped i c pc with slots := Function.update s.slots c.host none }
      else s.dropped i c pc := by
    simp [Sem.dropRef, hown, hlisted]
  rw [hdrop]
  split
  · rename_i hlast
    refine ⟨h.cap, hcounted, hslotOf, ?_, ?_⟩
    · intro k sl' (hk : (s.dropped i c pc).heap[k]? = some sl') hpos'
      rcases getElem?_move hk with ⟨hne, hk'⟩ | ⟨rfl, own, hk', rfl⟩
      · have hmap := h.mapped k sl' hk' hpos'
        have hother : sl'.host ≠ c.host := by
          intro heq
          rw [heq, hlisted] at hmap
          exact hne (Option.some.inj hmap).symm
        exact (Function.update_of_ne hother ..).trans hmap
      · cases hsl.symm.trans hk'
        exact absurd hpos' (by show ¬ 0 < sl.refs - 1; omega)
    · intro g k hk
      have hg : g ≠ c.host := by
        rintro rfl
        cases (Function.update_self ..).symm.trans hk
      obtain ⟨own, hown', hgo, hposo⟩ := h.used g k ((Function.update_of_ne hg ..).symm.trans hk)
      have hne : c.slot ≠ k := by
        rintro rfl
        cases hsl.symm.trans hown'
        exact hg (hgo.symm.trans hhost)
      exact ⟨own, (getElem?_modify_some hown').trans (by rw [if_neg hne]), hgo, hposo⟩
  · rename_i hlast
    refine ⟨h.cap, hcounted, hslotOf, ?_, ?_⟩
    · intro k sl' (hk : (s.dropped i c pc).heap[k]? = some sl') hpos'
      rcases getElem?_move hk with ⟨-, hk'⟩ | ⟨rfl, own, hk', rfl⟩
      · exact h.mapped k sl' hk' hpos'
      · cases hsl.symm.trans hk'
        exact h.mapped _ sl hsl hpos
    · intro g k hk
      obtain ⟨own, hown', hgo, hposo⟩ := h.used g k hk
      refine ⟨_, getElem?_modify_some hown', ?_, ?_⟩
      · split <;> exact hgo
      · split
        · rename_i heq
          subst heq
          cases hsl.symm.trans hown'
          show 0 < sl.refs - 1
          omega
        · exact hposo

end Map

end Steps

/-! ## Every run -/

section Runs

variable [DecidableEq H] {limit : Nat} {s s' : Sem H}

theorem Inv.step (h : Inv limit s) {a : Act H} (hs : step s a = some s') : Inv limit s' := by
  cases a with
  | acquire host =>
    cases hs
    exact h.acquire host
  | send i =>
    refine h.turn hs (fun sl hroom _ => ⟨rfl, rfl, rfl, ?_⟩) (fun _ => rfl) fun _ => rfl
    exact Nat.succ_le_of_lt (of_decide_eq_true hroom)
  | handoff i j => exact absurd hs (h.not_handoff i j)
  | ctxDone i | release i =>
    exact h.turn hs (fun sl _ hle => ⟨rfl, rfl, rfl, hle⟩) (fun _ => rfl) fun _ => rfl
  | again i =>
    obtain ⟨-, hs⟩ := Option.ite_none_right_eq_some.mp hs
    exact Option.some.inj hs ▸ h
  | receive i =>
    refine h.turn hs (fun sl hpos hle => ⟨rfl, rfl, ?_, ?_⟩) (fun _ => rfl) fun _ => rfl
    · exact Nat.sub_add_cancel (of_decide_eq_true hpos)
    · exact (Nat.sub_le _ _).trans hle
  | dropRef i =>
    obtain ⟨c, hi, hs⟩ := Option.bind_eq_some_iff.mp hs
    cases hpc : c.pc with
    | drops | cancelled =>
      rw [hpc] at hs
      cases hs
      exact h.dropRef hi (by rw [hpc]; exact ⟨rfl, rfl⟩) ⟨rfl, rfl⟩
    | select | holds | receives | released | failed => rw [hpc] at hs; cases hs

theorem inv_inductive (limit : Int) : (sys H limit).Inductive (Inv limit.toNat) where
  init s hs := by
    subst hs
    constructor <;> simp [new]
  step s a s' h hs := h.step hs

/-- The tokens of a host are in one slot. -/
theorem Inv.held_le (h : Inv limit s) (host : H) : s.held host ≤ s.limit := by
  rcases Nat.eq_zero_or_pos (s.held host) with hzero | hpos
  · omega
  obtain ⟨c, hc, hc'⟩ := List.countP_pos_iff.mp hpos
  obtain ⟨hchost, hctoken⟩ : c.host = host ∧ c.pc.token = true := by simpa using hc'
  obtain ⟨sl, hsl, -⟩ := h.slotOf c hc
  have hcount := h.counted _ sl hsl
  have hle : s.held host ≤ s.calls.countP (Call.tokenIn c.slot) := by
    refine List.countP_mono_left fun d hd hd' => ?_
    obtain ⟨hdhost, hdtoken⟩ : d.host = host ∧ d.pc.token = true := by simpa using hd'
    have hslot := h.slot_eq hd hc (Pc.uses_of_token hdtoken) (Pc.uses_of_token hctoken)
      (hdhost.trans hchost.symm)
    rw [← hslot, d.tokenIn_self, hdtoken]
  have := hcount.ch
  have := hcount.le
  omega

theorem Sem.calls_dropRef (s : Sem H) (i : Nat) (c : Call H) (pc : Pc) :
    (s.dropRef i c pc).calls = s.calls.set i { c with pc := pc } := by
  simp only [Sem.dropRef]
  split <;> rfl

theorem Sem.heap_dropRef (s : Sem H) (i : Nat) (c : Call H) (pc : Pc) :
    (s.dropRef i c pc).heap = s.heap.modify c.slot fun sl => { sl with refs := sl.refs - 1 } := by
  simp only [Sem.dropRef]
  split <;> rfl

theorem cancels_step (hinv : Inv limit s) {a : Act H} (hs : step s a = some s') {i : Nat}
    (h : ∃ c, s.calls[i]? = some c ∧ c.pc.cancels = true) :
    ∃ c, s'.calls[i]? = some c ∧ c.pc.cancels = true := by
  cases a with
  | acquire host =>
    cases hs
    obtain ⟨c, hi, hc⟩ := h
    refine ⟨c, getElem?_concat_of ?_, hc⟩
    unfold Sem.slotFor
    split <;> exact hi
  | send j | ctxDone j | release j | receive j =>
    obtain ⟨d, hj, -, hpc, rfl⟩ := turn_cases hs
    exact cancels_set hj (by rw [hpc]; decide) h
  | handoff j k => exact absurd hs (hinv.not_handoff j k)
  | again j =>
    obtain ⟨-, hs⟩ := Option.ite_none_right_eq_some.mp hs
    exact Option.some.inj hs ▸ h
  | dropRef j =>
    obtain ⟨d, hj, hs⟩ := Option.bind_eq_some_iff.mp hs
    cases hpc : d.pc with
    | drops | cancelled =>
      rw [hpc] at hs
      cases hs
      rw [Sem.calls_dropRef]
      exact cancels_set hj (by rw [hpc]; decide) h
    | select | holds | receives | released | failed => rw [hpc] at hs; cases hs

/-- What holds at every moment. -/
structure Safe (limit : Int) (s : Sem H) : Prop where
  /-- The tokens held per host. -/
  bounded : ∀ host, (s.held host : Int) ≤ limit
  /-- The references of a slot are the calls that have not dropped theirs. -/
  counted : ∀ k (sl : Slot H), s.heap[k]? = some sl → sl.refs = s.calls.countP (Call.usesSlot k)
  /-- A slot with a reference is the one of the map. -/
  mapped : ∀ k sl, s.heap[k]? = some sl → 0 < sl.refs → s.slots sl.host = some k
  /-- Two calls for one host that have not dropped their references use one slot. -/
  shared : ∀ c ∈ s.calls, ∀ d ∈ s.calls, c.pc.uses = true → d.pc.uses = true → c.host = d.host →
    c.slot = d.slot
  /-- A call whose context ended has no token, now or later, and its release does nothing. -/
  cancelled : ∀ i c, s.calls[i]? = some c → c.pc.cancels = true →
    (∀ s', (sys H limit).Steps s s' →
      ∃ c', s'.calls[i]? = some c' ∧ c'.pc.cancels = true ∧ c'.pc.token = false) ∧
    (c.pc = .failed → step s (.again i) = some s)
  /-- It drops one reference, and that step is possible. -/
  dropped : ∀ i c, s.calls[i]? = some c → c.pc = .cancelled →
    ∃ s', step s (.dropRef i) = some s' ∧ s'.calls = s.calls.set i { c with pc := .failed } ∧
      s'.heap = s.heap.modify c.slot fun sl => { sl with refs := sl.refs - 1 }
  /-- With no call under way and no token held, the map is empty. -/
  idle : (∀ c ∈ s.calls, c.pc.uses = false) → ∀ host, s.slots host = none

/-- In every interleaving, with any limit that is not negative. -/
theorem sem_safe {limit : Int} (hlimit : 0 ≤ limit) (h : (sys H limit).Reach s) : Safe limit s := by
  have hinv := (inv_inductive limit).reach h
  refine ⟨fun host => ?_, fun k sl hsl => (hinv.counted k sl hsl).refs, hinv.mapped, ?_, ?_, ?_, ?_⟩
  · have hle := hinv.held_le host
    have hcap := hinv.cap
    omega
  · intro c hc d hd hcu hdu hhost
    exact hinv.slot_eq hc hd hcu hdu hhost
  · intro i c hi hc
    refine ⟨fun s' hs => ?_, fun hpc => ?_⟩
    · obtain ⟨c', hi', hc'⟩ := hs.keeps_of_reach
        (P := fun t => ∃ c, t.calls[i]? = some c ∧ c.pc.cancels = true)
        (fun _ _ _ hr ht hst => cancels_step ((inv_inductive limit).reach hr) hst ht) h ⟨c, hi, hc⟩
      refine ⟨c', hi', hc', ?_⟩
      cases hpc : c'.pc <;> rw [hpc] at hc' <;> first | rfl | cases hc'
    · simp [step, hi, hpc, Pc.called]
  · intro i c hi hpc
    refine ⟨_, ?_, Sem.calls_dropRef .., Sem.heap_dropRef ..⟩
    simp only [step, hi, Option.bind_some, hpc]
  · intro hidle host
    cases hslot : s.slots host with
    | none => rfl
    | some k =>
      obtain ⟨sl, hsl, -, hpos⟩ := hinv.used host k hslot
      have hcount := (hinv.counted k sl hsl).refs
      have hnone : s.calls.countP (Call.usesSlot k) = 0 :=
        List.countP_eq_zero.mpr fun c hc => by simp [Call.usesSlot, hidle c hc]
      omega

end Runs

/-- Two calls for one host under the limit 1: one is cancelled, the other releases twice. -/
def twoCalls : List (Act Nat) :=
  [.acquire 7, .acquire 7, .send 0, .ctxDone 1, .release 0, .dropRef 1, .again 0, .receive 0,
    .dropRef 0, .again 0, .again 1]

theorem sem_safe_two_calls : Safe 1 (((sys Nat 1).exec (new 1) twoCalls).getD (new 1)) :=
  sem_safe (by decide) (Sys.Reach.exec rfl (eq_some_getD (new 1) (by decide +kernel)))

end AptCacher.Hostsem
