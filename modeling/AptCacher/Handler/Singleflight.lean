import AptCacher.Spec.Count
import AptCacher.Spec.Fair

/-!
# The request singleflight

`handler/singleflight.go`: calls of `Do` for one key share one execution of the function. The first
call leads: it runs its function, signals the end, and then deletes the key. The others join the
call they find under the key, also one that has already ended, and take over its result. When the
leader's function panics, a deferred function ends the call in the same way with an error.

* `Group`: the map, the calls ever made (a pointer is a position) and the threads in `Do`.
* `Lead`: what the place of its leader says about a call; `Inv`: the invariant.
* `do_shares`: what every interleaving keeps, and that every `Do` returns or panics.
-/

namespace AptCacher.Handler.Singleflight

open Spec

/-! ## The model -/

/-- Where a call of `Do` is; `c` is the `sfCall` that it leads or has joined. -/
inductive Pc (R : Type)
  /-- Its function runs. -/
  | runs (c : Nat)
  /-- The result is stored; `ok`: the function returned. -/
  | signals (c : Nat) (ok : Bool)
  /-- The end is signalled. -/
  | deletes (c : Nat) (ok : Bool)
  /-- The key is deleted. -/
  | returns (c waiters : Nat)
  /-- The panic of its function has gone on to the caller. -/
  | panicked (c : Nat)
  | waits (c : Nat)
  | returned (c : Nat) (res : R) (shared : Bool) (waiters : Nat)
  deriving DecidableEq

/-- The place is one of a leader. -/
def Pc.leads {R : Type} : Pc R → Bool
  | .waits _ | .returned _ _ true _ => false
  | _ => true

/-- The `sfCall`. -/
def Pc.call {R : Type} : Pc R → Nat
  | .runs c | .signals c _ | .deletes c _ | .returns c _ | .panicked c | .waits c
  | .returned c _ _ _ => c

/-- `Do` is over. -/
def Pc.over {R : Type} : Pc R → Bool
  | .panicked _ | .returned _ _ _ _ => true
  | _ => false

/-- `sfCall`; `done` is the state of its wait group. -/
structure Call (K R : Type) where
  res : R
  done : Bool
  waiters : Nat
  /-- Which call it is, who leads it and how its function ended: nothing reads these. -/
  key : K
  leader : Nat
  outcome : Option (Option R)
  deriving DecidableEq

structure Thread (K R : Type) where
  key : K
  pc : Pc R
  deriving DecidableEq

/-- `sfGroup`, with the calls ever made and the threads. -/
structure Group (K R : Type) where
  calls : K → Option Nat
  heap : List (Call K R)
  threads : List (Thread K R)

/-- What happens; a number is that of a thread. -/
inductive Act (K R : Type)
  | enter (key : K)
  /-- The function returns a result, or panics. -/
  | fn (i : Nat) (out : Option R)
  | go (i : Nat)

/-- The results: `sfResult`'s zero value, and the one of `errSFLeaderPanicked`. -/
structure Results (R : Type) where
  zero : R
  panicked : R

variable {K R : Type}

namespace Group

variable (g : Group K R)

/-- The thread `i` goes on to `pc`; `f` is what happens to the call `c`. -/
def move (i : Nat) (t : Thread K R) (pc : Pc R) (c : Nat) (f : Call K R → Call K R) : Group K R :=
  { g with heap := g.heap.modify c f, threads := g.threads.set i { t with pc := pc } }

/-- The first critical section of `Do`. -/
def enter [DecidableEq K] (E : Results R) (key : K) : Group K R :=
  match g.calls key with
  | some c =>
    { g with
      heap := g.heap.modify c fun call => { call with waiters := call.waiters + 1 }
      threads := g.threads ++ [⟨key, .waits c⟩] }
  | none =>
    { calls := Function.update g.calls key (some g.heap.length)
      heap := g.heap ++ [⟨E.zero, false, 0, key, g.threads.length, none⟩]
      threads := g.threads ++ [⟨key, .runs g.heap.length⟩] }

end Group

/-- The next step of a thread whose function is not running. -/
def go [DecidableEq K] (g : Group K R) (i : Nat) (t : Thread K R) : Option (Group K R) :=
  match t.pc with
  | .signals c ok => some (g.move i t (.deletes c ok) c fun call => { call with done := true })
  | .deletes c ok =>
    g.heap[c]?.map fun call =>
      { g.move i t (if ok then .returns c call.waiters else .panicked c) c id with
        calls := Function.update g.calls t.key none }
  | .returns c w => g.heap[c]?.map fun call => g.move i t (.returned c call.res false w) c id
  | .waits c =>
    g.heap[c]?.bind fun call =>
      if call.done then some (g.move i t (.returned c call.res true 0) c id) else none
  | _ => none

/-- One step. -/
def step [DecidableEq K] (E : Results R) (g : Group K R) : Act K R → Option (Group K R)
  | .enter key => some (g.enter E key)
  | .fn i out =>
    g.threads[i]?.bind fun t =>
      match t.pc with
      | .runs c =>
        some (g.move i t (.signals c out.isSome) c fun call =>
          { call with res := out.getD E.panicked, outcome := some out })
      | _ => none
  | .go i => g.threads[i]?.bind (go g i)

/-- Every interleaving. -/
def sys [DecidableEq K] (E : Results R) : Sys (Group K R) (Act K R) where
  init g := g = ⟨fun _ => none, [], []⟩
  step := step E

/-- Whose step it is. -/
def mover : Act K R → Option Nat
  | .enter _ => none
  | .fn i _ => some i
  | .go i => some i

/-! ## The invariant -/

/-- The function of the call has ended with `out`, and the call has the result for that. -/
def Call.Ended (E : Results R) (call : Call K R) (out : Option R) : Prop :=
  call.outcome = some out ∧ call.res = out.getD E.panicked

/-- What the place of its leader says about a call. -/
def Lead (E : Results R) (listed : Prop) (call : Call K R) : Pc R → Prop
  | .runs _ => listed ∧ call.done = false
  | .signals _ ok => listed ∧ call.done = false ∧ ∃ out, call.Ended E out ∧ ok = out.isSome
  | .deletes _ ok => listed ∧ call.done = true ∧ ∃ out, call.Ended E out ∧ ok = out.isSome
  | .returns _ w => ¬ listed ∧ call.done = true ∧ (∃ r, call.Ended E (some r)) ∧ w = call.waiters
  | .panicked _ => ¬ listed ∧ call.done = true ∧ call.Ended E none
  | .returned _ r shared w =>
    ¬ listed ∧ call.done = true ∧ shared = false ∧ call.Ended E (some r) ∧ w = call.waiters
  | .waits _ => False

/-- The thread has joined the call `c`. -/
def Thread.joins (c : Nat) (t : Thread K R) : Bool := !t.pc.leads && t.pc.call == c

/-- What is known of a thread: its call, and the result that it took over. -/
structure Knows (E : Results R) (i : Nat) (t : Thread K R) (call : Call K R) : Prop where
  key : call.key = t.key
  leader : t.pc.leads = true → call.leader = i
  shared : ∀ c r w, t.pc = .returned c r true w →
    call.done = true ∧ ∃ out, call.Ended E out ∧ r = out.getD E.panicked

/-- The invariant. -/
structure Inv (E : Results R) (g : Group K R) : Prop where
  leads : ∀ c call, g.heap[c]? = some call → ∃ t, g.threads[call.leader]? = some t ∧
    t.key = call.key ∧ t.pc.call = c ∧ Lead E (g.calls call.key = some c) call t.pc
  listed : ∀ k c, g.calls k = some c → ∃ call, g.heap[c]? = some call ∧ call.key = k
  thread : ∀ i t, g.threads[i]? = some t → ∃ call, g.heap[t.pc.call]? = some call ∧ Knows E i t call
  waiters : ∀ c call, g.heap[c]? = some call → call.waiters = g.threads.countP (Thread.joins c)

section Inv

variable {E : Results R} {g : Group K R} {i : Nat} {t : Thread K R} {pc : Pc R}
  {f : Call K R → Call K R} {calls : K → Option Nat}

/-- The call keeps who leads it, who has joined it and, once it is done, its result. -/
structure Keeps (call call' : Call K R) : Prop where
  key : call'.key = call.key
  leader : call'.leader = call.leader
  ended : call.done = true →
    call'.done = true ∧ call'.outcome = call.outcome ∧ call'.res = call.res

variable {call : Call K R} {c : Nat}

theorem Knows.keeps {call' : Call K R} (h : Knows E i t call) (hk : Keeps call call') :
    Knows E i t call' where
  key := hk.key.trans h.key
  leader hl := hk.leader.trans (h.leader hl)
  shared c r w hpc := by
    obtain ⟨hdone, out, hout, hr⟩ := h.shared c r w hpc
    obtain ⟨hdone', hout', hres⟩ := hk.ended hdone
    exact ⟨hdone', out, ⟨hout'.trans hout.1, hres.trans hout.2⟩, hr⟩

/-- Every thread still knows its call when the calls keep what they must. -/
theorem Inv.thread_modify (h : Inv E g) (hf : ∀ call, g.heap[c]? = some call → Keeps call (f call))
    {j : Nat} {u : Thread K R} (hj : g.threads[j]? = some u) :
    ∃ call, (g.heap.modify c f)[u.pc.call]? = some call ∧ Knows E j u call := by
  obtain ⟨call, hcall, hknows⟩ := h.thread j u hj
  refine ⟨_, getElem?_modify_some hcall, ?_⟩
  split
  · rename_i heq
    exact hknows.keeps (hf call (heq ▸ hcall))
  · exact hknows

theorem Inv.listed_modify (h : Inv E g) (hf : ∀ call, g.heap[c]? = some call → Keeps call (f call))
    {k : K} {d : Nat} (hd : g.calls k = some d) :
    ∃ call, (g.heap.modify c f)[d]? = some call ∧ call.key = k := by
  obtain ⟨call, hcall, hkey⟩ := h.listed k d hd
  refine ⟨_, getElem?_modify_some hcall, ?_⟩
  split
  · rename_i heq
    exact (hf call (heq ▸ hcall)).key.trans hkey
  · exact hkey

/-- The leader of a call makes a step. The key may leave the map if it has this call. -/
theorem Inv.lead (h : Inv E g) {old : Pc R} (hi : g.threads[i]? = some t) (hold : t.pc = old)
    (hc : old.call = c) (hlead : old.leads = true) (hpc : pc.leads = true ∧ pc.call = c)
    (hf : ∀ call, g.heap[c]? = some call → Keeps call (f call) ∧ (f call).waiters = call.waiters)
    (hother : ∀ k, k ≠ t.key → calls k = g.calls k)
    (hkey : calls t.key = g.calls t.key ∨ g.calls t.key = some c ∧ calls t.key = none)
    (hnew : ∀ call, g.heap[c]? = some call → Lead E (g.calls t.key = some c) call old →
      Lead E (calls t.key = some c) (f call) pc) :
    Inv E { g.move i t pc c f with calls := calls } := by
  subst hold hc
  refine ⟨fun c call' hc => ?_, fun k c hc => ?_, fun j u hj => ?_, fun c call' hc => ?_⟩
  · simp only [Group.move, List.getElem?_modify] at hc
    obtain ⟨call, hcall, rfl⟩ := Option.map_eq_some_iff.mp hc
    obtain ⟨u, hu, hukey, hucall, hulead⟩ := h.leads c call hcall
    by_cases hcc : t.pc.call = c
    · subst hcc
      obtain ⟨own, hown, hknows⟩ := h.thread i t hi
      cases hown.symm.trans hcall
      have hleader := hknows.leader hlead
      rw [hleader] at hu
      cases hu.symm.trans hi
      refine ⟨{ t with pc := pc }, ?_, ?_, hpc.2, ?_⟩
      · rw [if_pos rfl]
        show (g.threads.set i _)[(f call).leader]? = _
        rw [(hf call hcall).1.leader, hleader,
          List.getElem?_set_self (List.getElem?_eq_some_iff.mp hi).1]
      · rw [if_pos rfl, (hf call hcall).1.key]
        exact hukey
      · rw [if_pos rfl, (hf call hcall).1.key, ← hukey]
        rw [← hukey] at hulead
        exact hnew call hcall hulead
    · simp only [if_neg hcc]
      have hne : i ≠ call.leader := by
        intro heq
        rw [← heq, hi] at hu
        cases hu
        exact hcc hucall
      refine ⟨u, (List.getElem?_set_ne hne).trans hu, hukey, hucall, ?_⟩
      have hiff : (calls call.key = some c) = (g.calls call.key = some c) := by
        by_cases hk : call.key = t.key
        · rcases hkey with heq | ⟨hg, hnone⟩
          · rw [hk, heq]
          · rw [hk, hg, hnone]
            simp [hcc]
        · rw [hother _ hk]
      exact hiff ▸ hulead
  · have hold : g.calls k = some c := by
      by_cases hk : k = t.key
      · subst hk
        rcases hkey with heq | ⟨-, hnone⟩
        · exact heq ▸ hc
        · cases hnone.symm.trans hc
      · exact hother k hk ▸ hc
    exact h.listed_modify (fun call hcall => (hf call hcall).1) hold
  · by_cases hij : i = j
    · subst hij
      cases (List.getElem?_set_self (List.getElem?_eq_some_iff.mp hi).1).symm.trans hj
      obtain ⟨call, hcall, hknows⟩ := h.thread_modify (fun call hcall => (hf call hcall).1) hi
      refine ⟨call, by rw [← hcall, hpc.2]; rfl, hknows.key, fun _ => hknows.leader hlead, ?_⟩
      rintro c r w rfl
      cases hpc.1
    · exact h.thread_modify (fun call hcall => (hf call hcall).1)
        ((List.getElem?_set_ne hij).symm.trans hj)
  · simp only [Group.move, List.getElem?_modify] at hc
    obtain ⟨call, hcall, rfl⟩ := Option.map_eq_some_iff.mp hc
    have hcount : (g.threads.set i { t with pc := pc }).countP (Thread.joins c) =
        g.threads.countP (Thread.joins c) :=
      countP_set_of_eq hi (by simp [Thread.joins, hlead, hpc.1])
    show _ = (g.threads.set i { t with pc := pc }).countP (Thread.joins c)
    rw [hcount, ← h.waiters c call hcall]
    split
    · rename_i heq
      exact (hf call (heq ▸ hcall)).2
    · rfl

/-- What its own place says about the call that a thread leads. -/
theorem Inv.own_lead (h : Inv E g) {old : Pc R} (hi : g.threads[i]? = some t) (hold : t.pc = old)
    (hc : old.call = c) (hlead : old.leads = true) (hcall : g.heap[c]? = some call) :
    Lead E (g.calls t.key = some c) call old := by
  subst hold hc
  obtain ⟨own, hown, hknows⟩ := h.thread i t hi
  cases hown.symm.trans hcall
  obtain ⟨u, hu, hukey, -, hulead⟩ := h.leads _ call hcall
  rw [hknows.leader hlead, hi] at hu
  cases hu
  exact hukey ▸ hulead

theorem Inv.ended_of_done (h : Inv E g) (hc : g.heap[c]? = some call) (hdone : call.done = true) :
    ∃ out, call.Ended E out := by
  obtain ⟨u, -, -, -, hlead⟩ := h.leads c call hc
  cases hpc : u.pc <;> rw [hpc] at hlead
  case runs => exact absurd (hdone.symm.trans hlead.2) (by decide)
  case signals => exact absurd (hdone.symm.trans hlead.2.1) (by decide)
  case deletes => obtain ⟨-, -, out, hout, -⟩ := hlead; exact ⟨out, hout⟩
  case returns => obtain ⟨-, -, ⟨r, hr⟩, -⟩ := hlead; exact ⟨some r, hr⟩
  case panicked => exact ⟨none, hlead.2.2⟩
  case waits => exact hlead.elim
  case returned => exact ⟨_, hlead.2.2.2.1⟩

/-- A thread that waited takes over the result of a call that is done. -/
theorem Inv.wake (h : Inv E g) (hi : g.threads[i]? = some t) (hpc : t.pc = .waits c)
    (hcall : g.heap[c]? = some call) (hdone : call.done = true) :
    Inv E (g.move i t (.returned c call.res true 0) c id) := by
  have hheap : g.heap.modify c id = g.heap := List.modify_id ..
  refine ⟨fun d other hd => ?_, fun k d hk => ?_, fun j u hj => ?_, fun d other hd => ?_⟩
  · obtain ⟨u, hu, hukey, hucall, hulead⟩ := h.leads d other (hheap ▸ hd)
    have hne : i ≠ other.leader := by
      intro heq
      rw [← heq, hi] at hu
      cases hu
      rw [hpc] at hulead
      exact hulead
    exact ⟨u, (List.getElem?_set_ne hne).trans hu, hukey, hucall, hulead⟩
  · show ∃ call, (g.heap.modify c id)[d]? = some call ∧ call.key = k
    rw [hheap]
    exact h.listed k d hk
  · show ∃ call, (g.heap.modify c id)[u.pc.call]? = some call ∧ Knows E j u call
    rw [hheap]
    by_cases hij : i = j
    · subst hij
      cases (List.getElem?_set_self (List.getElem?_eq_some_iff.mp hi).1).symm.trans hj
      obtain ⟨own, hown, hknows⟩ := h.thread i t hi
      rw [hpc] at hown
      cases hown.symm.trans hcall
      refine ⟨call, hcall, hknows.key, fun hl => (Bool.false_ne_true hl).elim, ?_⟩
      intro d r w heq
      cases heq
      obtain ⟨out, hout⟩ := h.ended_of_done hcall hdone
      exact ⟨hdone, out, hout, hout.2⟩
    · exact h.thread j u ((List.getElem?_set_ne hij).symm.trans hj)
  · rw [h.waiters d other (hheap ▸ hd)]
    exact (countP_set_of_eq hi (by simp [Thread.joins, hpc, Pc.leads, Pc.call])).symm

/-- A call joins another one. -/
theorem Inv.join (h : Inv E g) {key : K} (hc : g.calls key = some c) :
    Inv E { g with
      heap := g.heap.modify c fun call => { call with waiters := call.waiters + 1 }
      threads := g.threads ++ [⟨key, .waits c⟩] } := by
  have hf : ∀ call : Call K R, Keeps call { call with waiters := call.waiters + 1 } :=
    fun call => ⟨rfl, rfl, fun hd => ⟨hd, rfl, rfl⟩⟩
  obtain ⟨own, hown, hkey⟩ := h.listed key c hc
  refine ⟨fun d call' hd => ?_, fun k d hk => h.listed_modify (fun call _ => hf call) hk,
    fun j u hj => ?_, fun d call' hd => ?_⟩
  · rw [List.getElem?_modify] at hd
    obtain ⟨call, hcall, rfl⟩ := Option.map_eq_some_iff.mp hd
    obtain ⟨u, hu, hukey, hucall, hulead⟩ := h.leads d call hcall
    by_cases hcd : c = d
    · subst hcd
      cases hown.symm.trans hcall
      rw [if_pos rfl]
      refine ⟨u, getElem?_concat_of hu, hukey, hucall, ?_⟩
      -- The call is in the map, so its leader has not read the number of waiters.
      rw [hkey] at hulead
      show Lead E (g.calls own.key = some c) _ u.pc
      rw [hkey]
      cases hpc : u.pc <;> rw [hpc] at hulead
      case returns | returned | panicked => exact absurd hc hulead.1
      all_goals exact hulead
    · rw [if_neg hcd]
      exact ⟨u, getElem?_concat_of hu, hukey, hucall, hulead⟩
  · rcases getElem?_concat_cases hj with hj | ⟨rfl, rfl⟩
    · exact h.thread_modify (fun call _ => hf call) hj
    · have hknows : Knows E g.threads.length ⟨key, .waits c⟩ own :=
        ⟨hkey, fun hl => (Bool.false_ne_true hl).elim, fun d r w heq => by cases heq⟩
      refine ⟨_, getElem?_modify_some hown, ?_⟩
      split
      · exact hknows.keeps (hf own)
      · exact hknows
  · rw [List.getElem?_modify] at hd
    obtain ⟨call, hcall, rfl⟩ := Option.map_eq_some_iff.mp hd
    have hold := h.waiters d call hcall
    by_cases hcd : c = d
    · subst hcd
      simp [List.countP_append, Thread.joins, Pc.leads, Pc.call, hold]
    · simp [List.countP_append, Thread.joins, Pc.leads, Pc.call, hold, hcd]

/-- A call leads. -/
theorem Inv.launch [DecidableEq K] (h : Inv E g) {key : K} (hc : g.calls key = none) :
    Inv E
      ⟨Function.update g.calls key (some g.heap.length),
        g.heap ++ [⟨E.zero, false, 0, key, g.threads.length, none⟩],
        g.threads ++ [⟨key, .runs g.heap.length⟩]⟩ := by
  have hfresh : ∀ {d call}, g.heap[d]? = some call → d ≠ g.heap.length := by
    rintro d call hd rfl
    rw [List.getElem?_eq_none (Nat.le_refl _)] at hd
    cases hd
  refine ⟨fun d call hd => ?_, fun k d hk => ?_, fun j u hj => ?_, fun d call hd => ?_⟩
  · rcases getElem?_concat_cases hd with hd | ⟨rfl, rfl⟩
    · obtain ⟨u, hu, hukey, hucall, hulead⟩ := h.leads d call hd
      refine ⟨u, getElem?_concat_of hu, hukey, hucall, ?_⟩
      have hiff : (Function.update g.calls key (some g.heap.length) call.key = some d) =
          (g.calls call.key = some d) := by
        by_cases hk : call.key = key
        · rw [hk, Function.update_self, hc]
          simp [(hfresh hd).symm]
        · rw [Function.update_of_ne hk]
      exact hiff ▸ hulead
    · exact ⟨_, List.getElem?_concat_length .., rfl, rfl, Function.update_self .., rfl⟩
  · by_cases hkk : k = key
    · subst hkk
      cases (Function.update_self ..).symm.trans hk
      exact ⟨_, List.getElem?_concat_length .., rfl⟩
    · obtain ⟨call, hcall, hckey⟩ := h.listed k d ((Function.update_of_ne hkk ..).symm.trans hk)
      exact ⟨call, getElem?_concat_of hcall, hckey⟩
  · rcases getElem?_concat_cases hj with hj | ⟨rfl, rfl⟩
    · obtain ⟨call, hcall, hknows⟩ := h.thread j u hj
      exact ⟨call, getElem?_concat_of hcall, hknows⟩
    · exact ⟨_, List.getElem?_concat_length .., rfl, fun _ => rfl, fun d r w heq => by cases heq⟩
  · have hnew : ∀ d, Thread.joins d (⟨key, .runs g.heap.length⟩ : Thread K R) = false :=
      fun _ => rfl
    rw [List.countP_append, List.countP_singleton, if_neg (by simp [hnew]), Nat.add_zero]
    rcases getElem?_concat_cases hd with hd | ⟨rfl, rfl⟩
    · exact h.waiters d call hd
    · refine (List.countP_eq_zero.mpr fun u hu => ?_).symm
      obtain ⟨j, hj⟩ := List.getElem?_of_mem hu
      obtain ⟨call, hcall, -⟩ := h.thread j u hj
      simp [Thread.joins, hfresh hcall]

end Inv

/-! ## Every run -/

section Runs

variable [DecidableEq K] {E : Results R} {g g' : Group K R} {i : Nat} {t : Thread K R}

/-- What a thread does whose function is not running. -/
theorem go_cases (h : go g i t = some g') :
    (∃ c ok, t.pc = .signals c ok ∧
      g' = g.move i t (.deletes c ok) c fun call => { call with done := true }) ∨
    (∃ c ok call, t.pc = .deletes c ok ∧ g.heap[c]? = some call ∧
      g' = { g.move i t (if ok then .returns c call.waiters else .panicked c) c id with
        calls := Function.update g.calls t.key none }) ∨
    (∃ c w call, t.pc = .returns c w ∧ g.heap[c]? = some call ∧
      g' = g.move i t (.returned c call.res false w) c id) ∨
    (∃ c call, t.pc = .waits c ∧ g.heap[c]? = some call ∧ call.done = true ∧
      g' = g.move i t (.returned c call.res true 0) c id) := by
  unfold go at h
  cases hpc : t.pc <;> rw [hpc] at h
  case signals c ok => exact .inl ⟨c, ok, rfl, (Option.some.inj h).symm⟩
  case deletes c ok =>
    obtain ⟨call, hcall, rfl⟩ := Option.map_eq_some_iff.mp h
    exact .inr (.inl ⟨c, ok, call, rfl, hcall, rfl⟩)
  case returns c w =>
    obtain ⟨call, hcall, rfl⟩ := Option.map_eq_some_iff.mp h
    exact .inr (.inr (.inl ⟨c, w, call, rfl, hcall, rfl⟩))
  case waits c =>
    obtain ⟨call, hcall, h⟩ := Option.bind_eq_some_iff.mp h
    obtain ⟨hdone, h⟩ := Option.ite_none_right_eq_some.mp h
    exact .inr (.inr (.inr ⟨c, call, rfl, hcall, hdone, (Option.some.inj h).symm⟩))
  all_goals cases h

omit [DecidableEq K] in
theorem keeps_id (call : Call K R) (_ : g.heap[i]? = some call) :
    Keeps call (id call) ∧ (id call).waiters = call.waiters :=
  ⟨⟨rfl, rfl, fun hd => ⟨hd, rfl, rfl⟩⟩, rfl⟩

theorem Inv.go (h : Inv E g) (hi : g.threads[i]? = some t) (hs : go g i t = some g') :
    Inv E g' := by
  rcases go_cases hs with ⟨c, ok, hpc, rfl⟩ | ⟨c, ok, call, hpc, hcall, rfl⟩ |
    ⟨c, w, call, hpc, hcall, rfl⟩ | ⟨c, call, hpc, hcall, hdone, rfl⟩
  · have hf : ∀ call : Call K R, Keeps call { call with done := true } :=
      fun call => ⟨rfl, rfl, fun _ => ⟨rfl, rfl, rfl⟩⟩
    refine h.lead hi hpc rfl rfl ⟨rfl, rfl⟩ (fun call _ => ⟨hf call, rfl⟩) (fun _ _ => rfl)
      (.inl rfl) fun call _ hlead => ?_
    obtain ⟨hlisted, -, hout⟩ := hlead
    exact ⟨hlisted, rfl, hout⟩
  · have hlead := h.own_lead hi hpc rfl rfl hcall
    refine h.lead hi hpc rfl rfl ?_ keeps_id (fun k hk => Function.update_of_ne hk ..)
      (.inr ⟨hlead.1, Function.update_self ..⟩) fun call' hcall' _ => ?_
    · cases ok <;> exact ⟨rfl, rfl⟩
    · cases hcall'.symm.trans hcall
      obtain ⟨-, hdone, out, hout, hok⟩ := hlead
      have hnone : ¬ Function.update g.calls t.key none t.key = some c := by
        rw [Function.update_self]
        simp
      subst hok
      cases out with
      | none => exact ⟨hnone, hdone, hout⟩
      | some r => exact ⟨hnone, hdone, ⟨r, hout⟩, rfl⟩
  · refine h.lead hi hpc rfl rfl ⟨rfl, rfl⟩ keeps_id (fun _ _ => rfl) (.inl rfl)
      fun call' hcall' hlead => ?_
    cases hcall'.symm.trans hcall
    obtain ⟨hnot, hdone, ⟨r, hr⟩, hw⟩ := hlead
    have hres : call.res = r := hr.2
    exact ⟨hnot, hdone, rfl, hres.symm ▸ hr, hw⟩
  · exact h.wake hi hpc hcall hdone

omit [DecidableEq K] in
theorem Inv.fn (h : Inv E g) {c : Nat} {out : Option R} (hi : g.threads[i]? = some t)
    (hpc : t.pc = .runs c) :
    Inv E (g.move i t (.signals c out.isSome) c fun call =>
      { call with res := out.getD E.panicked, outcome := some out }) := by
  refine h.lead hi hpc rfl rfl ⟨rfl, rfl⟩ (fun call hcall => ⟨⟨rfl, rfl, fun hdone => ?_⟩, rfl⟩)
    (fun _ _ => rfl) (.inl rfl) fun call _ hlead => ?_
  · have hlead := h.own_lead hi hpc rfl rfl hcall
    exact absurd (hdone.symm.trans hlead.2) (by decide)
  · exact ⟨hlead.1, hlead.2, out, ⟨rfl, rfl⟩, rfl⟩

variable {a : Act K R}

theorem Inv.step (h : Inv E g) (hs : step E g a = some g') : Inv E g' := by
  cases a with
  | enter key =>
    cases hs
    unfold Group.enter
    split
    · rename_i c hc
      exact h.join hc
    · rename_i hc
      exact h.launch hc
  | fn i out =>
    obtain ⟨t, hi, hs⟩ := Option.bind_eq_some_iff.mp hs
    cases hpc : t.pc <;> rw [hpc] at hs
    case runs c =>
      cases hs
      exact h.fn hi hpc
    all_goals cases hs
  | go i =>
    obtain ⟨t, hi, hs⟩ := Option.bind_eq_some_iff.mp hs
    exact h.go hi hs

theorem inv_inductive : (sys E).Inductive (Inv (K := K) E) where
  init g hg := by
    subst hg
    constructor <;> simp
  step g a g' h hs := h.step hs

/-! ## Progress -/

/-- How far `Do` is from its end. -/
def Pc.rank : Pc R → Nat
  | .runs _ => 4
  | .signals _ _ => 3
  | .deletes _ _ => 2
  | .returns _ _ | .waits _ => 1
  | .panicked _ | .returned _ _ _ _ => 0

/-- The thread `i` leads the call `c`, or has joined it. -/
def Group.At (g : Group K R) (i c : Nat) (leads : Bool) : Prop :=
  ∃ t, g.threads[i]? = some t ∧ t.pc.call = c ∧ t.pc.leads = leads

def Group.rank (g : Group K R) (i : Nat) : Nat := (g.threads[i]?.map fun t => t.pc.rank).getD 0

theorem step_moves (hs : step E g a = some g') :
    (∃ u, g'.threads = g.threads ++ [u] ∧ mover a = none) ∨
    ∃ i t pc, mover a = some i ∧ g.threads[i]? = some t ∧
      g'.threads = g.threads.set i { t with pc := pc } ∧ pc.call = t.pc.call ∧
      pc.leads = t.pc.leads ∧ pc.rank < t.pc.rank := by
  cases a with
  | enter key =>
    cases hs
    unfold Group.enter
    split <;> exact .inl ⟨_, rfl, rfl⟩
  | fn i out =>
    obtain ⟨t, hi, hs⟩ := Option.bind_eq_some_iff.mp hs
    cases hpc : t.pc <;> rw [hpc] at hs
    case runs c =>
      cases hs
      exact .inr ⟨i, t, _, rfl, hi, rfl, by rw [hpc]; rfl, by rw [hpc]; rfl,
        by rw [hpc]; exact Nat.lt_succ_self 3⟩
    all_goals cases hs
  | go i =>
    obtain ⟨t, hi, hs⟩ := Option.bind_eq_some_iff.mp hs
    refine .inr ⟨i, t, ?_⟩
    rcases go_cases hs with ⟨c, ok, hpc, rfl⟩ | ⟨c, ok, call, hpc, hcall, rfl⟩ |
      ⟨c, w, call, hpc, hcall, rfl⟩ | ⟨c, call, hpc, hcall, hdone, rfl⟩
    · refine ⟨_, rfl, hi, rfl, ?_, ?_, ?_⟩ <;> rw [hpc] <;> simp [Pc.call, Pc.leads, Pc.rank]
    · refine ⟨_, rfl, hi, rfl, ?_, ?_, ?_⟩ <;> rw [hpc] <;> cases ok <;>
        simp [Pc.call, Pc.leads, Pc.rank]
    · refine ⟨_, rfl, hi, rfl, ?_, ?_, ?_⟩ <;> rw [hpc] <;> simp [Pc.call, Pc.leads, Pc.rank]
    · refine ⟨_, rfl, hi, rfl, ?_, ?_, ?_⟩ <;> rw [hpc] <;> simp [Pc.call, Pc.leads, Pc.rank]

theorem at_step {c : Nat} {leads : Bool} (hs : step E g a = some g') (h : g.At i c leads) :
    g'.At i c leads ∧ g'.rank i ≤ g.rank i ∧ (mover a = some i → g'.rank i < g.rank i) := by
  obtain ⟨t, hi, hc, hl⟩ := h
  rcases step_moves hs with
    ⟨u, hthreads, hnone⟩ | ⟨j, u, pc, hmover, hj, hthreads, hpc, hleads, hlt⟩
  · have hi' : g'.threads[i]? = some t := hthreads ▸ getElem?_concat_of hi
    refine ⟨⟨t, hi', hc, hl⟩, ?_, fun hsome => ?_⟩
    · simp [Group.rank, hi, hi']
    · rw [hnone] at hsome
      cases hsome
  · by_cases hij : j = i
    · subst hij
      cases hi.symm.trans hj
      have hi' : g'.threads[j]? = some { t with pc := pc } :=
        hthreads ▸ List.getElem?_set_self (List.getElem?_eq_some_iff.mp hj).1
      have hrank : g'.rank j < g.rank j := by simpa [Group.rank, hi, hi'] using hlt
      exact ⟨⟨_, hi', hpc.trans hc, hleads.trans hl⟩, hrank.le, fun _ => hrank⟩
    · have hi' : g'.threads[i]? = some t := hthreads ▸ (List.getElem?_set_ne hij).trans hi
      refine ⟨⟨t, hi', hc, hl⟩, ?_, fun hsome => ?_⟩
      · simp [Group.rank, hi, hi']
      · exact absurd (Option.some.inj (hmover.symm.trans hsome)) hij

omit [DecidableEq K] in
theorem Pc.over_of_rank {pc : Pc R} (h : pc.rank = 0) : pc.over = true := by
  cases pc <;> first | rfl | cases h

theorem leader_progress (i c : Nat) :
    Progress (sys (K := K) E) mover i (fun g => g.At i c true) (fun g => g.rank i = 0)
      fun g => g.rank i where
  enabled g hr hat hgoal := by
    obtain ⟨t, hi, hc, hl⟩ := hat
    obtain ⟨call, hcall, -⟩ := (inv_inductive.reach hr).thread i t hi
    have hrank : t.pc.rank ≠ 0 := by simpa [Group.rank, hi] using hgoal
    cases hpc : t.pc <;> rw [hpc] at hrank hl hcall
    case runs d => exact ⟨.fn i none, rfl, by simp [sys, step, hi, hpc]⟩
    case signals d ok => exact ⟨.go i, rfl, by simp [sys, step, hi, go, hpc]⟩
    case deletes d ok =>
      replace hcall : g.heap[d]? = some call := hcall
      exact ⟨.go i, rfl, by simp [sys, step, hi, go, hpc, hcall]⟩
    case returns d w =>
      replace hcall : g.heap[d]? = some call := hcall
      exact ⟨.go i, rfl, by simp [sys, step, hi, go, hpc, hcall]⟩
    case waits => cases hl
    all_goals exact absurd rfl hrank
  keeps g a g' _ hat _ hs := .inr (at_step hs hat)

/-- A thread that has joined a call comes to its end once the leader has. -/
theorem joiner_progress (i l c : Nat) :
    Progress (sys (K := K) E) mover i (fun g => g.At i c false ∧ g.At l c true ∧ g.rank l = 0)
      (fun g => g.rank i = 0) fun g => g.rank i where
  enabled g hr hat hgoal := by
    have hinv := inv_inductive.reach hr
    obtain ⟨⟨t, hi, hc, hl⟩, ⟨u, hul, huc, hlead⟩, hover⟩ := hat
    obtain ⟨call, hcall, -⟩ := hinv.thread l u hul
    have hrank : t.pc.rank ≠ 0 := by simpa [Group.rank, hi] using hgoal
    have hdone : call.done = true := by
      have hown := hinv.own_lead hul rfl rfl hlead hcall
      have hover : u.pc.rank = 0 := by simpa [Group.rank, hul] using hover
      cases hpc : u.pc <;> rw [hpc] at hover hown
      case panicked | returned => exact hown.2.1
      all_goals cases hover
    rw [huc] at hcall
    cases hpc : t.pc <;> rw [hpc] at hrank hl hc
    case waits d =>
      cases show d = c from hc
      exact ⟨.go i, rfl, by simp [sys, step, hi, go, hpc, hcall, hdone]⟩
    case returned => exact absurd rfl hrank
    all_goals cases hl
  keeps g a g' _ hat _ hs := by
    obtain ⟨hi, hle, hlt⟩ := at_step hs hat.1
    obtain ⟨hl, hlle, -⟩ := at_step hs hat.2.1
    exact .inr ⟨⟨hi, hl, Nat.le_zero.mp (hat.2.2 ▸ hlle)⟩, hle, hlt⟩

theorem comes_to_end (run : FairRun (sys (K := K) E) mover) {n : Nat}
    (hi : (run.state n).threads[i]? = some t) :
    ∃ m, n ≤ m ∧ ∃ u, (run.state m).threads[i]? = some u ∧ u.pc.over = true := by
  have hstay : ∀ {j c leads m}, n ≤ m → (run.state n).At j c leads → (run.state m).At j c leads :=
    fun hm => run.keeps (fun _ _ _ h hs => (at_step hs h).1) hm
  suffices H : ∃ m, n ≤ m ∧ (run.state m).rank i = 0 by
    obtain ⟨m, hm, hrank⟩ := H
    obtain ⟨u, hu, -, -⟩ := hstay hm ⟨t, hi, rfl, rfl⟩
    exact ⟨m, hm, u, hu, Pc.over_of_rank (by simpa [Group.rank, hu] using hrank)⟩
  cases hl : t.pc.leads with
  | true => exact run.leads (leader_progress i t.pc.call) ⟨t, hi, rfl, hl⟩
  | false =>
    have hinv := inv_inductive.reach (run.reach n)
    obtain ⟨call, hcall, -⟩ := hinv.thread i t hi
    obtain ⟨u, hu, -, huc, hulead⟩ := hinv.leads _ call hcall
    have hleads : u.pc.leads = true := by
      cases hpc : u.pc <;> rw [hpc] at hulead
      case waits => exact hulead.elim
      case returned => rw [hulead.2.2.1]; rfl
      all_goals rfl
    have hat : (run.state n).At call.leader t.pc.call true := ⟨u, hu, huc, hleads⟩
    obtain ⟨m, hm, hover⟩ := run.leads (leader_progress call.leader t.pc.call) hat
    obtain ⟨k, hk, hrank⟩ := run.leads (joiner_progress i call.leader t.pc.call)
      ⟨hstay hm ⟨t, hi, rfl, hl⟩, hstay hm hat, hover⟩
    exact ⟨k, hm.trans hk, hrank⟩

/-! ## The whole of it -/

/-- What holds at every moment. -/
structure Safe (E : Results R) (g : Group K R) : Prop where
  /-- At most one function runs per key. -/
  single : ∀ (i j : Nat) t u c d, g.threads[i]? = some t → g.threads[j]? = some u →
    t.pc = .runs c → u.pc = .runs d → t.key = u.key → i = j
  /-- A call that returns `shared` has the result of the execution that it joined. -/
  shared : ∀ t ∈ g.threads, ∀ c r w, t.pc = .returned c r true w →
    ∃ call out, g.heap[c]? = some call ∧ call.key = t.key ∧ call.outcome = some out ∧
      r = out.getD E.panicked
  /-- A leader returns the result of its function and the number of those that joined it. -/
  counts : ∀ i t, g.threads[i]? = some t → ∀ c r w, t.pc = .returned c r false w →
    w = g.threads.countP (Thread.joins c) ∧
    ∃ call, g.heap[c]? = some call ∧ call.leader = i ∧ call.outcome = some (some r)
  /-- Only the leader of a function that panicked panics. -/
  panicked : ∀ i (t : Thread K R), g.threads[i]? = some t → ∀ c, t.pc = .panicked c →
    ∃ call, g.heap[c]? = some call ∧ call.leader = i ∧ call.outcome = some none
  /-- With no `Do` in progress the map is empty. -/
  idle : (∀ t ∈ g.threads, t.pc.over = true) → ∀ k, g.calls k = none

/-- In every interleaving; and in every fair one every `Do` returns or panics. -/
theorem do_shares (E : Results R) :
    (∀ g : Group K R, (sys E).Reach g → Safe E g) ∧
    ∀ (run : FairRun (sys (K := K) E) mover) (n i : Nat) t, (run.state n).threads[i]? = some t →
      ∃ m, n ≤ m ∧ ∃ u, (run.state m).threads[i]? = some u ∧ u.pc.over = true := by
  refine ⟨fun g hg => ?_, fun run n i t hi => comes_to_end run hi⟩
  have h := inv_inductive.reach hg
  refine ⟨?_, ?_, ?_, ?_, ?_⟩
  · intro i j t u c d hi hj hc hd hkey
    obtain ⟨call, hcall, hknows⟩ := h.thread i t hi
    obtain ⟨call', hcall', hknows'⟩ := h.thread j u hj
    have hleader := hknows.leader (by rw [hc]; rfl)
    have hleader' := hknows'.leader (by rw [hd]; rfl)
    rw [hc] at hcall
    rw [hd] at hcall'
    have hlead := h.own_lead hi hc rfl rfl hcall
    have hlead' := h.own_lead hj hd rfl rfl hcall'
    -- Both calls are the one that the map has for the key.
    have hcd : (Pc.runs c : Pc R).call = (Pc.runs d : Pc R).call :=
      Option.some.inj (hlead.1.symm.trans (hkey ▸ hlead'.1))
    rw [← hcd, hcall] at hcall'
    cases hcall'
    exact hleader.symm.trans hleader'
  · intro t ht c r w hpc
    obtain ⟨i, hi⟩ := List.getElem?_of_mem ht
    obtain ⟨call, hcall, hknows⟩ := h.thread i t hi
    obtain ⟨-, out, hout, hr⟩ := hknows.shared c r w hpc
    rw [hpc] at hcall
    exact ⟨call, out, hcall, hknows.key, hout.1, hr⟩
  · intro i t hi c r w hpc
    obtain ⟨call, hcall, hknows⟩ := h.thread i t hi
    have hleader := hknows.leader (by rw [hpc]; rfl)
    rw [hpc] at hcall
    obtain ⟨-, -, -, hout, hw⟩ := h.own_lead hi hpc rfl rfl hcall
    exact ⟨hw.trans (h.waiters c call hcall), call, hcall, hleader, hout.1⟩
  · intro i t hi c hpc
    obtain ⟨call, hcall, hknows⟩ := h.thread i t hi
    have hleader := hknows.leader (by rw [hpc]; rfl)
    rw [hpc] at hcall
    obtain ⟨-, -, hout⟩ := h.own_lead hi hpc rfl rfl hcall
    exact ⟨call, hcall, hleader, hout.1⟩
  · intro hidle k
    cases hk : g.calls k with
    | none => rfl
    | some c =>
      obtain ⟨call, hcall, rfl⟩ := h.listed k c hk
      obtain ⟨u, hu, -, -, hulead⟩ := h.leads c call hcall
      have hover := hidle u (List.mem_of_getElem? hu)
      cases hpc : u.pc <;> rw [hpc] at hulead hover
      case panicked | returned => exact absurd hk hulead.1
      all_goals cases hover

/-- Two calls for one key share an execution that panics; a third one, after them, leads again. -/
def threeCalls : List (Act Nat Nat) :=
  [.enter 5, .enter 5, .fn 0 none, .go 0, .go 1, .go 0, .enter 5, .fn 2 (some 8), .go 2, .go 2,
    .go 2]

/-- Where the threads are after it. -/
def threePcs : List (Pc Nat) := [.panicked 0, .returned 0 9 true 0, .returned 1 8 false 0]

/-- With no `Do` in progress no thread can move. -/
theorem rests {E : Results R} {g : Group K R} (h : ∀ t ∈ g.threads, t.pc.over = true) (i : Nat) :
    ¬ (sys E).Enabled mover i g := by
  rintro ⟨a, hmover, hstep⟩
  obtain ⟨g', hg'⟩ := Option.isSome_iff_exists.mp hstep
  rcases step_moves hg' with ⟨u, -, hnone⟩ | ⟨j, t, pc, -, hj, -, -, -, hlt⟩
  · rw [hnone] at hmover
    cases hmover
  · have hover := h t (List.mem_of_getElem? hj)
    cases hpc : t.pc <;> rw [hpc] at hover hlt
    case panicked | returned => exact Nat.not_lt_zero _ hlt
    all_goals cases hover

/-- The run of the three calls is a fair one; after its second action one call runs its function
and one waits, and both get to their end. -/
theorem do_shares_three_calls : ∃ g : Group Nat Nat, (sys ⟨0, 9⟩).Reach g ∧
    g.threads.map Thread.pc = threePcs ∧ Safe ⟨0, 9⟩ g ∧
    ∃ run : FairRun (sys (K := Nat) ⟨0, 9⟩) mover,
      (run.state 2).threads.map Thread.pc = [.runs 0, .waits 0] ∧
      ∀ i, i < 2 → ∃ m, 2 ≤ m ∧ ∃ u, (run.state m).threads[i]? = some u ∧ u.pc.over = true := by
  have hrun : ((sys (K := Nat) ⟨0, 9⟩).exec ⟨fun _ => none, [], []⟩ threeCalls).map
      (fun g => g.threads.map Thread.pc) = some threePcs := by decide +kernel
  obtain ⟨g, hg, hpcs⟩ := Option.map_eq_some_iff.mp hrun
  have hreach : (sys (K := Nat) ⟨0, 9⟩).Reach g := .exec rfl hg
  have hover : ∀ t ∈ g.threads, t.pc.over = true := by
    have hall : ∀ pc ∈ threePcs, pc.over = true := by decide
    exact fun t ht => hall t.pc (hpcs ▸ List.mem_map_of_mem ht)
  let run : FairRun (sys (K := Nat) ⟨0, 9⟩) mover := .ofExec rfl hg (rests hover)
  have htwo : (run.state 2).threads.map Thread.pc = [.runs 0, .waits 0] := rfl
  refine ⟨g, hreach, hpcs, (do_shares ⟨0, 9⟩).1 g hreach, run, htwo, fun i hi => ?_⟩
  obtain ⟨t, ht⟩ : ∃ t, (run.state 2).threads[i]? = some t := by
    refine ⟨_, List.getElem?_eq_getElem ?_⟩
    rw [← List.length_map Thread.pc, htwo]
    exact hi
  exact (do_shares ⟨0, 9⟩).2 run 2 i t ht

end Runs

end AptCacher.Handler.Singleflight
