import AptCacher.Spec.Prog
import AptCacher.Spec.Sys

/-!
# Servers that share calls

A server answers requests. Each request runs a program in its own thread, over a store that the
threads and an environment change. Threads that need the same piece of work share one call: the
first one leads it and runs its body, the others wait and take over its result. A finished call
stays listed until its leader delists it, so that it can be joined even then.

* `Sem`: what an effect does to the store; what the outcome depends on is a choice of the action.
* `World`, `stepThread`, `server`: the system.
* A thread records what it read (`log`, with what the calls it shared read) and the stores from
  its arrival to its answer (`seen`); nothing in a program depends on them.
* `Rules`: a condition on runs: which effects may be performed in which store, and which calls may
  still be joined in which store.
* `answered`, `answered_free`: what a thread's answer satisfies, from a specification of its program
  in which the stores are those the request lived through, and of the bodies of the calls.
-/

namespace AptCacher.Spec.Flight

/-- The effects of a request: those of a call's body, and sharing a call. -/
inductive Shared (E : Type → Type 1) (K R : Type) : Type → Type 1
  | eff {β : Type} (e : E β) : Shared E K R β
  /-- The result of the call of the key, and whether another thread led it. -/
  | flight (key : K) (body : Prog E R) : Shared E K R (R × Bool)

/-- The effects on stores `σ`, by choices `χ`; `note` is what a thread's log records. -/
structure Sem (E : Type → Type 1) (σ χ ε : Type) where
  run {β : Type} : E β → σ → χ → Option (β × σ)
  note {β : Type} : E β → β → List ε

/-- A call. -/
structure Call (σ K R ε : Type) where
  key : K
  result : Option R
  /-- What its body read, and in which store. -/
  log : List (σ × ε)
  /-- It can be joined. -/
  listed : Bool

/-- Where a thread is; `k` is what it does with the result of a call. -/
inductive Phase (E : Type → Type 1) (K R α : Type) : Type 1
  | run (p : Prog (Shared E K R) α)
  /-- It leads the call `c`, whose body has come to `b`. -/
  | lead (c : Nat) (b : Prog E R) (k : R × Bool → Prog (Shared E K R) α)
  /-- It has published the result of the call it led and not delisted it yet. -/
  | finish (c : Nat) (r : R) (k : R × Bool → Prog (Shared E K R) α)
  | wait (c : Nat) (k : R × Bool → Prog (Shared E K R) α)

/-- The thread of a request. -/
structure Thread (E : Type → Type 1) (σ ε K R ρ α : Type) : Type 1 where
  req : ρ
  phase : Phase E K R α
  log : List (σ × ε)
  /-- The stores since the request arrived, until it is answered. -/
  seen : List σ

/-- The store, the calls and the threads, in the order in which they came. -/
structure World (E : Type → Type 1) (σ ε K R ρ α : Type) : Type 1 where
  store : σ
  calls : List (Call σ K R ε)
  threads : List (Thread E σ ε K R ρ α)

/-- What happens: a request arrives, a thread makes a step, the environment changes the store. -/
inductive Act (ρ χ η : Type)
  | arrive (r : ρ)
  | step (i : Nat) (x : χ)
  | env (a : η)

variable {E : Type → Type 1} {σ χ ε K R ρ α η : Type}

/-- The answer of a thread that is done. -/
def Phase.answer : Phase E K R α → Option α
  | .run (.ret a) => some a
  | _ => none

/-- The call that the thread leads. -/
def Phase.leads : Phase E K R α → Option Nat
  | .lead c _ _ => some c
  | .finish c _ _ => some c
  | _ => none

/-- A thread that is not done sees the store change. -/
def Thread.observe (s : σ) (t : Thread E σ ε K R ρ α) : Thread E σ ε K R ρ α :=
  if t.phase.answer.isSome then t else { t with seen := s :: t.seen }

namespace World

variable [DecidableEq K]

/-- The store changes to `s`. -/
def put (w : World E σ ε K R ρ α) (s : σ) : World E σ ε K R ρ α :=
  { w with store := s, threads := w.threads.map (Thread.observe s) }

/-- The store changes to `s`; the thread `i` goes on in `phase` and records `l`. -/
def advance (w : World E σ ε K R ρ α) (s : σ) (i : Nat) (phase : Phase E K R α)
    (l : List (σ × ε)) : World E σ ε K R ρ α :=
  { w with
    store := s
    threads := (w.threads.map (Thread.observe s)).modify i fun t =>
      { t with phase := phase, log := t.log ++ l } }

/-- The call `c` changes. -/
def onCall (w : World E σ ε K R ρ α) (c : Nat) (f : Call σ K R ε → Call σ K R ε) :
    World E σ ε K R ρ α :=
  { w with calls := w.calls.modify c f }

/-- A new call of `key`. -/
def launch (w : World E σ ε K R ρ α) (key : K) : World E σ ε K R ρ α :=
  { w with calls := w.calls ++ [⟨key, none, [], true⟩] }

/-- The listed call of a key. -/
def listed (w : World E σ ε K R ρ α) (key : K) : Option Nat :=
  w.calls.findIdx? fun c => c.listed && decide (c.key = key)

/-- What the call `c` has read. -/
def logOf (w : World E σ ε K R ρ α) (c : Nat) : List (σ × ε) := (w.calls[c]?.map Call.log).getD []

end World

section System

variable [DecidableEq K] (sem : Sem E σ χ ε) (serve : ρ → Prog (Shared E K R) α)
  (env : σ → η → Option σ)

/-- One step of the thread `i`. -/
def stepThread (w : World E σ ε K R ρ α) (i : Nat) (x : χ) : Option (World E σ ε K R ρ α) :=
  match w.threads[i]?.map Thread.phase with
  | none => none
  | some (.run (.ret _)) => none
  | some (.run (.op (.eff e) k)) =>
    (sem.run e w.store x).map fun y =>
      w.advance y.2 i (.run (k y.1)) ((sem.note e y.1).map fun ev => (w.store, ev))
  | some (.run (.op (.flight key body) k)) =>
    match w.listed key with
    | some c => some (w.advance w.store i (.wait c k) [])
    | none => some ((w.launch key).advance w.store i (.lead w.calls.length body k) [])
  | some (.lead c (.op e k') k) =>
    (sem.run e w.store x).map fun y =>
      (w.onCall c fun call =>
        { call with log := call.log ++ (sem.note e y.1).map fun ev => (w.store, ev) }).advance y.2
          i (.lead c (k' y.1) k) []
  | some (.lead c (.ret r) k) =>
    some ((w.onCall c fun call => { call with result := some r }).advance w.store i
      (.finish c r k) [])
  | some (.finish c r k) =>
    some ((w.onCall c fun call => { call with listed := false }).advance w.store i
      (.run (k (r, false))) (w.logOf c))
  | some (.wait c k) =>
    (w.calls[c]?.bind Call.result).map fun r =>
      w.advance w.store i (.run (k (r, true))) (w.logOf c)

/-- The server: any requests, any schedule, any environment. -/
def server : Sys (World E σ ε K R ρ α) (Act ρ χ η) where
  init w := w.calls = [] ∧ w.threads = []
  step w
    | .arrive r => some { w with threads := w.threads ++ [⟨r, .run (serve r), [], [w.store]⟩] }
    | .step i x => stepThread sem w i x
    | .env a => (env w.store a).map w.put

/-- A condition on runs. -/
structure Rules (E : Type → Type 1) (σ ε K : Type) where
  /-- The effect may be performed in the store, after what the call or thread has read. -/
  ok {β : Type} : List (σ × ε) → E β → σ → Bool
  /-- A call of the key that has read this much may be joined in the store. -/
  join : K → List (σ × ε) → σ → Bool

/-- The step meets the rules. -/
def Rules.allows (rules : Rules E σ ε K) (w : World E σ ε K R ρ α) : Act ρ χ η → Bool
  | .step i _ =>
    match w.threads[i]? with
    | none => true
    | some t =>
      match t.phase with
      | .run (.op (.eff e) _) => rules.ok t.log e w.store
      | .run (.op (.flight key _) _) =>
        match w.listed key with
        | some c => rules.join key (w.logOf c) w.store
        | none => true
      | .lead c (.op e _) _ => rules.ok (w.logOf c) e w.store
      | _ => true
  | _ => true

/-- Any effect in any store, any call at any time. -/
def Rules.free : Rules E σ ε K := ⟨fun _ _ _ => true, fun _ _ _ => true⟩

omit sem serve env in
theorem Rules.allows_free (w : World E σ ε K R ρ α) (a : Act ρ χ η) :
    (Rules.free : Rules E σ ε K).allows w a = true := by
  cases a with
  | step i x =>
    unfold Rules.allows
    dsimp only
    split
    · rfl
    · split
      · rfl
      · split <;> rfl
      · rfl
      · rfl
  | _ => rfl

end System

/-! ## Specifications -/

section Rules

variable (sem : Sem E σ χ ε) (rules : Rules E σ ε K)

/-- An effect of a body, in any store. -/
def wpBody : Prog.Wp E (List (σ × ε)) := fun e l Q =>
  ∀ s x b s', rules.ok l e s = true → sem.run e s x = some (b, s') →
    Q b (l ++ (sem.note e b).map fun ev => (s, ev))

/-- An effect of a request whose stores are in `F`. A shared call has the result property `Res`;
what it read after the request joined it, it read in `F`. -/
def wpReq (Res : K → List (σ × ε) → R → Prop) (F : Set σ) :
    Prog.Wp (Shared E K R) (List (σ × ε)) := fun e l Q =>
  match e with
  | .eff e => ∀ s ∈ F, ∀ x b s', rules.ok l e s = true → sem.run e s x = some (b, s') →
    Q b (l ++ (sem.note e b).map fun ev => (s, ev))
  | .flight key _ => ∀ l₀ l₁ r shared, (∃ s ∈ F, rules.join key l₀ s = true) →
    (∀ y ∈ l₁, y.1 ∈ F) → Res key (l₀ ++ l₁) r → Q (r, shared) (l ++ (l₀ ++ l₁))

/-- The bodies of the calls that a request can share have the result property. -/
def wpHonest (Res : K → List (σ × ε) → R → Prop) : Prog.Wp (Shared E K R) Unit := fun e _ Q =>
  match e with
  | .eff _ => ∀ b, Q b ()
  | .flight key body => Prog.Sat (wpBody sem rules) body [] (fun r l => Res key l r) ∧
    ∀ y, Q y ()

end Rules

/-! ## Programs without shared calls -/

section Lift

variable {sem : Sem E σ χ ε} {rules : Rules E σ ε K} {Res : K → List (σ × ε) → R → Prop}

/-- A program that shares no call, as a program of a request. -/
def lift (p : Prog E α) : Prog (Shared E K R) α := p.map Shared.eff

/-- An effect in a store of `F`. -/
def wpStore (sem : Sem E σ χ ε) (rules : Rules E σ ε K) (F : Set σ) :
    Prog.Wp E (List (σ × ε)) := fun e l Q =>
  ∀ s ∈ F, ∀ x b s', rules.ok l e s = true → sem.run e s x = some (b, s') →
    Q b (l ++ (sem.note e b).map fun ev => (s, ev))

theorem wpStore_mono (F : Set σ) : Prog.Wp.Monotone (wpStore sem rules F) :=
  fun _ _ _ _ hq h s hs x b s' hok hr => hq b _ (h s hs x b s' hok hr)

theorem wpReq_mono (F : Set σ) : Prog.Wp.Monotone (wpReq (R := R) sem rules Res F) := by
  intro β e l Q Q' hq h
  cases e with
  | eff e => exact fun s hs x b s' hok hr => hq b _ (h s hs x b s' hok hr)
  | flight key body => exact fun l₀ l₁ r sh hj hat hr => hq _ _ (h l₀ l₁ r sh hj hat hr)

variable {F : Set σ} {p : Prog E α} {l : List (σ × ε)} {Q : α → List (σ × ε) → Prop}

theorem sat_lift :
    Prog.Sat (wpReq sem rules Res F) (lift p) l Q ↔ Prog.Sat (wpStore sem rules F) p l Q := by
  induction p generalizing l with
  | ret a => exact Iff.rfl
  | op e k ih =>
    constructor
    · exact fun h s hs x b s' hok hr => (ih b).mp (h s hs x b s' hok hr)
    · exact fun h s hs x b s' hok hr => (ih b).mpr (h s hs x b s' hok hr)

/-- The body of a call is a program whose stores are any stores. -/
theorem sat_body :
    Prog.Sat (wpBody sem rules) p l Q ↔ Prog.Sat (wpStore sem rules Set.univ) p l Q := by
  induction p generalizing l with
  | ret a => exact Iff.rfl
  | op e k ih =>
    constructor
    · exact fun h s _ x b s' hok hr => (ih b).mp (h s x b s' hok hr)
    · exact fun h s x b s' hok hr => (ih b).mpr (h s trivial x b s' hok hr)

theorem sat_of_forall (h : ∀ a l', Q a l') :
    Prog.Sat (wpStore sem rules F) p l Q := by
  induction p generalizing l with
  | ret a => exact h a l
  | op e k ih => exact fun s _ x b s' _ _ => ih b

theorem sat_grows :
    Prog.Sat (wpStore sem rules F) p l fun _ l' => l <+: l' := by
  induction p generalizing l with
  | ret a => exact List.prefix_refl l
  | op e k ih =>
    intro s _ x b s' _ _
    exact (ih b).mono (wpStore_mono F) fun _ _ h => (List.prefix_append _ _).trans h

end Lift

/-! ## Answers -/

section Answers

variable {sem : Sem E σ χ ε} {rules : Rules E σ ε K} {Res : K → List (σ × ε) → R → Prop}
  {Pre : ρ → Set σ → Prop} {Q : ρ → Set σ → α → List (σ × ε) → Prop}

/-- The specification of a program that a thread still has to run. -/
def Meets (sem : Sem E σ χ ε) (rules : Rules E σ ε K) (Res : K → List (σ × ε) → R → Prop)
    (F : Set σ) (Q : α → List (σ × ε) → Prop) (p : Prog (Shared E K R) α)
    (l : List (σ × ε)) : Prop :=
  Prog.Sat (wpReq sem rules Res F) p l Q

/-- Every call that the program shares has an honest body. -/
def Honest (sem : Sem E σ χ ε) (rules : Rules E σ ε K) (Res : K → List (σ × ε) → R → Prop)
    (p : Prog (Shared E K R) α) : Prop :=
  Prog.Sat (wpHonest sem rules Res) p () fun _ _ => True

namespace Honest

theorem pure (a : α) : Honest sem rules Res (Pure.pure a) := trivial

theorem bind {β : Type} {p : Prog (Shared E K R) β} {k : β → Prog (Shared E K R) α}
    (hp : Honest sem rules Res p) (hk : ∀ b, Honest sem rules Res (k b)) :
    Honest sem rules Res (p >>= k) := by
  show Honest sem rules Res (p.bind k)
  induction p with
  | ret b => exact hk b
  | op e k' ih =>
    cases e with
    | eff e => exact fun b => ih b (hp b)
    | flight key body => exact ⟨hp.1, fun y => ih y (hp.2 y)⟩

theorem lift (p : Prog E α) : Honest sem rules Res (Flight.lift p) := by
  induction p with
  | ret a => trivial
  | op e k ih => exact fun b => ih b

theorem flight {key : K} {body : Prog E R}
    (h : Prog.Sat (wpBody sem rules) body [] fun r l => Res key l r) :
    Honest sem rules Res (Prog.perform (.flight key body)) :=
  ⟨h, fun _ => trivial⟩

end Honest

/-- What a thread that shares a call relies on. -/
structure Shares (sem : Sem E σ χ ε) (rules : Rules E σ ε K) (Res : K → List (σ × ε) → R → Prop)
    (Pre : ρ → Set σ → Prop) (Q : ρ → Set σ → α → List (σ × ε) → Prop)
    (t : Thread E σ ε K R ρ α) (call : Call σ K R ε)
    (k : R × Bool → Prog (Shared E K R) α) : Prop where
  /-- What the call read since the thread joined it, it read in a store that the thread saw. -/
  split : ∃ l₀ l₁, call.log = l₀ ++ l₁ ∧ (∃ s ∈ t.seen, rules.join call.key l₀ s = true) ∧
    ∀ y ∈ l₁, y.1 ∈ t.seen
  honest : ∀ y, Honest sem rules Res (k y)
  cont : ∀ F : Set σ, (∀ s ∈ t.seen, s ∈ F) → Pre t.req F → ∀ l₀ l₁ r shared,
    (∃ s ∈ F, rules.join call.key l₀ s = true) → (∀ y ∈ l₁, y.1 ∈ F) →
    Res call.key (l₀ ++ l₁) r →
    Meets sem rules Res F (Q t.req F) (k (r, shared)) (t.log ++ (l₀ ++ l₁))

/-- What holds of a thread, by its phase. -/
def PhaseOk (sem : Sem E σ χ ε) (rules : Rules E σ ε K) (Res : K → List (σ × ε) → R → Prop)
    (Pre : ρ → Set σ → Prop) (Q : ρ → Set σ → α → List (σ × ε) → Prop)
    (calls : List (Call σ K R ε)) (t : Thread E σ ε K R ρ α) : Phase E K R α → Prop
  | .run p => Honest sem rules Res p ∧
    ∀ F : Set σ, (∀ s ∈ t.seen, s ∈ F) → Pre t.req F → Meets sem rules Res F (Q t.req F) p t.log
  | .lead c b k => ∃ call, calls[c]? = some call ∧ Shares sem rules Res Pre Q t call k ∧
    call.result = none ∧ Prog.Sat (wpBody sem rules) b call.log fun r l => Res call.key l r
  | .finish c r k => ∃ call, calls[c]? = some call ∧ Shares sem rules Res Pre Q t call k ∧
    call.result = some r
  | .wait c k => ∃ call, calls[c]? = some call ∧ Shares sem rules Res Pre Q t call k

/-- The invariant of the server. -/
structure Inv (sem : Sem E σ χ ε) (rules : Rules E σ ε K) (Res : K → List (σ × ε) → R → Prop)
    (Pre : ρ → Set σ → Prop) (Q : ρ → Set σ → α → List (σ × ε) → Prop)
    (w : World E σ ε K R ρ α) : Prop where
  /-- A published result has the result property. -/
  calls : ∀ c ∈ w.calls, ∀ r, c.result = some r → Res c.key c.log r
  store : ∀ t ∈ w.threads, t.phase.answer = none → w.store ∈ t.seen
  threads : ∀ t ∈ w.threads, PhaseOk sem rules Res Pre Q w.calls t t.phase
  /-- A call has one leader. -/
  leaders : ∀ (i j : Nat) ti tj c, w.threads[i]? = some ti → w.threads[j]? = some tj →
    ti.phase.leads = some c → tj.phase.leads = some c → i = j

variable {t t' : Thread E σ ε K R ρ α} {l : List (σ × ε)} {calls : List (Call σ K R ε)} {s : σ}
  {w : World E σ ε K R ρ α} {i : Nat} {serve : ρ → Prog (Shared E K R) α} {env : σ → η → Option σ}

theorem Shares.later {call call' : Call σ K R ε} {k : R × Bool → Prog (Shared E K R) α}
    (h : Shares sem rules Res Pre Q t call k) (hreq : t'.req = t.req) (hlog : t'.log = t.log)
    (hseen : ∀ s ∈ t.seen, s ∈ t'.seen) (hkey : call'.key = call.key)
    (hl : call'.log = call.log ++ l) (hat : ∀ y ∈ l, y.1 ∈ t'.seen) :
    Shares sem rules Res Pre Q t' call' k where
  split := by
    obtain ⟨l₀, l₁, hs, ⟨s, hmem, hj⟩, hat₁⟩ := h.split
    refine ⟨l₀, l₁ ++ l, by rw [hl, hs, List.append_assoc], ⟨s, hseen s hmem, hkey ▸ hj⟩,
      fun y hy => ?_⟩
    rcases List.mem_append.mp hy with hy | hy
    · exact hseen _ (hat₁ y hy)
    · exact hat y hy
  honest := h.honest
  cont F hF hpre := by
    rw [hkey, hreq, hlog]
    exact h.cont F (fun s hs => hF s (hseen s hs)) (hreq ▸ hpre)

/-- A thread that does not move keeps what holds of it, if calls only grow, and not those that it
leads. -/
theorem PhaseOk.later {calls' : List (Call σ K R ε)}
    (h : PhaseOk sem rules Res Pre Q calls t t.phase) (hphase : t'.phase = t.phase)
    (hreq : t'.req = t.req) (hlog : t'.log = t.log) (hseen : ∀ s ∈ t.seen, s ∈ t'.seen)
    (hcalls : ∀ (c : Nat) call, calls[c]? = some call → ∃ call' l, calls'[c]? = some call' ∧
      call'.key = call.key ∧ call'.log = call.log ++ l ∧
      (t.phase.answer = none → ∀ y ∈ l, y.1 ∈ t'.seen) ∧
      (t.phase.leads = some c → l = [] ∧ call'.result = call.result)) :
    PhaseOk sem rules Res Pre Q calls' t' t'.phase := by
  rw [hphase]
  cases hp : t.phase with
  | run p =>
    rw [hp] at h
    refine ⟨h.1, fun F hF hpre => ?_⟩
    rw [hreq, hlog]
    exact h.2 F (fun s hs => hF s (hseen s hs)) (hreq ▸ hpre)
  | lead c b k =>
    rw [hp] at h
    obtain ⟨call, hc, hsh, hres, hb⟩ := h
    obtain ⟨call', l, hc', hkey, hl, hat, hsame⟩ := hcalls c call hc
    obtain ⟨rfl, hres'⟩ := hsame (by rw [hp]; rfl)
    refine ⟨call', hc', hsh.later hreq hlog hseen hkey hl (by simp), hres'.trans hres, ?_⟩
    rw [hl, List.append_nil, hkey]
    exact hb
  | finish c r k =>
    rw [hp] at h
    obtain ⟨call, hc, hsh, hres⟩ := h
    obtain ⟨call', l, hc', hkey, hl, hat, hsame⟩ := hcalls c call hc
    obtain ⟨rfl, hres'⟩ := hsame (by rw [hp]; rfl)
    exact ⟨call', hc', hsh.later hreq hlog hseen hkey hl (by simp), hres'.trans hres⟩
  | wait c k =>
    rw [hp] at h
    obtain ⟨call, hc, hsh⟩ := h
    obtain ⟨call', l, hc', hkey, hl, hat, -⟩ := hcalls c call hc
    exact ⟨call', hc', hsh.later hreq hlog hseen hkey hl (hat (by rw [hp]; rfl))⟩

theorem Thread.observe_phase (s : σ) (t : Thread E σ ε K R ρ α) :
    (t.observe s).phase = t.phase ∧ (t.observe s).req = t.req ∧ (t.observe s).log = t.log := by
  unfold Thread.observe
  split <;> exact ⟨rfl, rfl, rfl⟩

theorem Thread.observe_seen {s' : σ} (h : s' ∈ t.seen) :
    s' ∈ (t.observe s).seen := by
  unfold Thread.observe
  split
  · exact h
  · exact List.mem_cons_of_mem _ h

theorem Thread.observe_store (h : t.phase.answer = none) :
    s ∈ (t.observe s).seen := by
  unfold Thread.observe
  simp [h]

theorem World.advance_threads {j : Nat} {phase : Phase E K R α}
    (h : (w.advance s i phase l).threads[j]? = some t') :
    ∃ t, w.threads[j]? = some t ∧ t' = if i = j
      then { t.observe s with phase := phase, log := t.log ++ l } else t.observe s := by
  simp only [World.advance, List.getElem?_modify, List.getElem?_map] at h
  obtain ⟨t₁, ht₁, rfl⟩ := Option.map_eq_some_iff.mp h
  obtain ⟨t, ht, rfl⟩ := Option.map_eq_some_iff.mp ht₁
  refine ⟨t, ht, ?_⟩
  split
  · rw [(t.observe_phase s).2.2]
  · rfl

/-- One thread advances; the calls it leads may grow, and it may lead a new one. -/
theorem Inv.advance (h : Inv sem rules Res Pre Q w) (ht : w.threads[i]? = some t)
    (hrun : t.phase.answer = none) {phase : Phase E K R α}
    (hres : ∀ c ∈ calls, ∀ r, c.result = some r → Res c.key c.log r)
    (hcalls : ∀ (c : Nat) call, w.calls[c]? = some call → ∃ call' l', calls[c]? = some call' ∧
      call'.key = call.key ∧ call'.log = call.log ++ l' ∧ (∀ y ∈ l', y.1 = w.store) ∧
      (t.phase.leads ≠ some c → l' = [] ∧ call'.result = call.result))
    (hleads : ∀ c, phase.leads = some c → t.phase.leads = some c ∨ c = w.calls.length)
    (hnew : PhaseOk sem rules Res Pre Q calls
      { t.observe s with phase := phase, log := t.log ++ l } phase) :
    Inv sem rules Res Pre Q (World.advance { w with calls := calls } s i phase l) where
  calls := hres
  store t' ht' hrun' := by
    obtain ⟨j, hj⟩ := List.getElem?_of_mem ht'
    obtain ⟨t₀, ht₀, rfl⟩ := World.advance_threads hj
    split
    · rename_i hij
      subst hij
      obtain rfl : t = t₀ := Option.some.inj (ht.symm.trans ht₀)
      exact Thread.observe_store hrun
    · rename_i hij
      rw [if_neg hij, (t₀.observe_phase s).1] at hrun'
      exact Thread.observe_store hrun'
  threads t' ht' := by
    obtain ⟨j, hj⟩ := List.getElem?_of_mem ht'
    obtain ⟨t₀, ht₀, rfl⟩ := World.advance_threads hj
    by_cases hij : i = j
    · subst hij
      obtain rfl : t = t₀ := Option.some.inj (ht.symm.trans ht₀)
      simp only [if_true]
      exact hnew
    · simp only [if_neg hij]
      obtain ⟨hp, hq, hl⟩ := t₀.observe_phase s
      have hmem := List.mem_of_getElem? ht₀
      refine (h.threads t₀ hmem).later hp hq hl (fun _ => Thread.observe_seen) fun c call hc => ?_
      obtain ⟨call', l', hc', hkey, hlog, hat, hsame⟩ := hcalls c call hc
      refine ⟨call', l', hc', hkey, hlog, fun hrun₀ y hy => ?_, fun hlead => hsame fun hti => ?_⟩
      · rw [hat y hy]
        exact Thread.observe_seen (h.store t₀ hmem hrun₀)
      · exact hij (h.leaders i j t t₀ c ht ht₀ hti hlead)
  leaders j j' t₁ t₂ c h₁ h₂ hl₁ hl₂ := by
    -- A thread that leads a call leads one that is there, so a new one has no other leader.
    have hold : ∀ (j : Nat) t₀, w.threads[j]? = some t₀ → t₀.phase.leads = some c →
        c < w.calls.length := by
      intro j t₀ ht₀ hlead
      have hok := h.threads t₀ (List.mem_of_getElem? ht₀)
      cases hp : t₀.phase with
      | run p => rw [hp] at hlead; cases hlead
      | wait c' k => rw [hp] at hlead; cases hlead
      | lead c' b k =>
        rw [hp] at hlead hok
        cases hlead
        obtain ⟨call, hc, -⟩ := hok
        exact (List.getElem?_eq_some_iff.mp hc).1
      | finish c' r k =>
        rw [hp] at hlead hok
        cases hlead
        obtain ⟨call, hc, -⟩ := hok
        exact (List.getElem?_eq_some_iff.mp hc).1
    obtain ⟨u₁, hu₁, rfl⟩ := World.advance_threads h₁
    obtain ⟨u₂, hu₂, rfl⟩ := World.advance_threads h₂
    have key : ∀ (j : Nat) (u : Thread E σ ε K R ρ α), w.threads[j]? = some u →
        (if i = j then { u.observe s with phase := phase, log := u.log ++ l }
          else u.observe s).phase.leads = some c →
        (i = j ∧ c = w.calls.length) ∨ u.phase.leads = some c := by
      intro j u hu hlead
      split at hlead
      · rename_i hij
        subst hij
        obtain rfl : t = u := Option.some.inj (ht.symm.trans hu)
        rcases hleads c hlead with hc | hc
        · exact .inr hc
        · exact .inl ⟨rfl, hc⟩
      · rw [(u.observe_phase s).1] at hlead
        exact .inr hlead
    rcases key j u₁ hu₁ hl₁ with ⟨rfl, hc⟩ | hu₁'
    · rcases key j' u₂ hu₂ hl₂ with ⟨hij, -⟩ | hu₂'
      · exact hij
      · exact absurd (hold j' u₂ hu₂ hu₂') (by omega)
    · rcases key j' u₂ hu₂ hl₂ with ⟨rfl, hc⟩ | hu₂'
      · exact absurd (hold j u₁ hu₁ hu₁') (by omega)
      · exact h.leaders j j' u₁ u₂ c hu₁ hu₂ hu₁' hu₂'

/-- The store changes. -/
theorem Inv.put (h : Inv sem rules Res Pre Q w) (s : σ) :
    Inv sem rules Res Pre Q (w.put s) where
  calls := h.calls
  store t' ht' hrun := by
    obtain ⟨t, ht, rfl⟩ := List.mem_map.mp ht'
    rw [(t.observe_phase s).1] at hrun
    exact Thread.observe_store hrun
  threads t' ht' := by
    obtain ⟨t, ht, rfl⟩ := List.mem_map.mp ht'
    obtain ⟨hp, hq, hl⟩ := t.observe_phase s
    exact (h.threads t ht).later hp hq hl (fun _ => Thread.observe_seen) fun c call hc =>
      ⟨call, [], hc, rfl, (List.append_nil _).symm, by simp, fun _ => ⟨rfl, rfl⟩⟩
  leaders i j ti tj c hi hj hli hlj := by
    simp only [World.put, List.getElem?_map] at hi hj
    obtain ⟨t₁, h₁, rfl⟩ := Option.map_eq_some_iff.mp hi
    obtain ⟨t₂, h₂, rfl⟩ := Option.map_eq_some_iff.mp hj
    rw [(t₁.observe_phase s).1] at hli
    rw [(t₂.observe_phase s).1] at hlj
    exact h.leaders i j t₁ t₂ c h₁ h₂ hli hlj

/-- A request arrives. -/
theorem Inv.arrive (h : Inv sem rules Res Pre Q w) {r : ρ} {p : Prog (Shared E K R) α}
    (hp : Honest sem rules Res p) (hm : ∀ F, Pre r F → Meets sem rules Res F (Q r F) p []) :
    Inv sem rules Res Pre Q
      { w with threads := w.threads ++ [⟨r, .run p, [], [w.store]⟩] } where
  calls := h.calls
  store t ht hrun := by
    rcases List.mem_append.mp ht with ht | ht
    · exact h.store t ht hrun
    · obtain rfl := List.mem_singleton.mp ht
      exact List.mem_singleton.mpr rfl
  threads t ht := by
    rcases List.mem_append.mp ht with ht | ht
    · exact h.threads t ht
    · obtain rfl := List.mem_singleton.mp ht
      exact ⟨hp, fun F _ hpre => hm F hpre⟩
  leaders i j ti tj c hi hj hli hlj := by
    have old : ∀ (i : Nat) ti, (w.threads ++ [⟨r, .run p, [], [w.store]⟩])[i]? = some ti →
        ti.phase.leads = some c → w.threads[i]? = some ti := by
      intro i ti hi hli
      rcases List.getElem?_append.symm.trans hi with hi
      split at hi
      · exact hi
      · rw [List.getElem?_singleton] at hi
        split at hi
        · cases hi
          cases hli
        · cases hi
    exact h.leaders i j ti tj c (old i ti hi hli) (old j tj hj hlj) hli hlj

theorem callsLater_refl {o : Option Nat} (c : Nat) (call : Call σ K R ε)
    (hc : calls[c]? = some call) :
    ∃ call' l', calls[c]? = some call' ∧ call'.key = call.key ∧ call'.log = call.log ++ l' ∧
      (∀ y ∈ l', y.1 = s) ∧ (o ≠ some c → l' = [] ∧ call'.result = call.result) :=
  ⟨call, [], hc, rfl, (List.append_nil _).symm, by simp, fun _ => ⟨rfl, rfl⟩⟩

theorem callsLater_modify {c : Nat} {f : Call σ K R ε → Call σ K R ε} (hat : ∀ y ∈ l, y.1 = s)
    (hf : ∀ call, (f call).key = call.key ∧ (f call).log = call.log ++ l) (c' : Nat)
    (call : Call σ K R ε) (hc : calls[c']? = some call) :
    ∃ call' l', (calls.modify c f)[c']? = some call' ∧ call'.key = call.key ∧
      call'.log = call.log ++ l' ∧ (∀ y ∈ l', y.1 = s) ∧
      (some c ≠ some c' → l' = [] ∧ call'.result = call.result) := by
  rw [List.getElem?_modify, hc]
  by_cases hcc : c = c'
  · exact ⟨f call, l, by simp [hcc], (hf call).1, (hf call).2, hat, fun h => absurd (by rw [hcc]) h⟩
  · exact ⟨call, [], by simp [hcc], rfl, by simp, by simp, fun _ => ⟨rfl, rfl⟩⟩

theorem mem_modify {c : Nat} {f : Call σ K R ε → Call σ K R ε} {call' : Call σ K R ε}
    (h : call' ∈ calls.modify c f) :
    call' ∈ calls ∨ ∃ call, calls[c]? = some call ∧ call' = f call := by
  obtain ⟨j, hj⟩ := List.getElem?_of_mem h
  rw [List.getElem?_modify] at hj
  obtain ⟨call, hc, rfl⟩ := Option.map_eq_some_iff.mp hj
  split
  · rename_i hcj
    subst hcj
    exact .inr ⟨call, hc, rfl⟩
  · exact .inl (List.mem_of_getElem? hc)

section Step

variable {w : World E σ ε K R ρ α} {t : Thread E σ ε K R ρ α} {i : Nat}

variable {c : Nat} {call : Call σ K R ε} {key : K} {k : R × Bool → Prog (Shared E K R) α} {r : R}

theorem World.logOf_eq (h : w.calls[c]? = some call) :
    w.logOf c = call.log := by
  simp [World.logOf, h]

/-- A thread performs an effect. -/
theorem Inv.effect (h : Inv sem rules Res Pre Q w) (ht : w.threads[i]? = some t) {β : Type}
    {e : E β} {k : β → Prog (Shared E K R) α} (hp : t.phase = .run (.op (.eff e) k))
    (hallow : rules.ok t.log e w.store = true) {x : χ} {b : β} {s : σ}
    (hr : sem.run e w.store x = some (b, s)) :
    Inv sem rules Res Pre Q
      (w.advance s i (.run (k b)) ((sem.note e b).map fun ev => (w.store, ev))) := by
  have hmem := List.mem_of_getElem? ht
  have hrun : t.phase.answer = none := by rw [hp]; rfl
  have hok := h.threads t hmem
  rw [hp] at hok
  refine h.advance ht hrun h.calls callsLater_refl (by rintro c ⟨⟩) ⟨hok.1 b, fun F hF hpre => ?_⟩
  have hsub : ∀ s' ∈ t.seen, s' ∈ F := fun s' hs' => hF s' (Thread.observe_seen hs')
  simp only [(t.observe_phase s).2.1] at hpre ⊢
  exact hok.2 F hsub hpre w.store (hsub _ (h.store t hmem hrun)) x b s hallow hr

theorem shares_of_run (h : Inv sem rules Res Pre Q w) (ht : w.threads[i]? = some t)
    {body : Prog E R} (hp : t.phase = .run (.op (.flight key body) k)) (hkey : call.key = key)
    (hj : rules.join key call.log w.store = true) (phase : Phase E K R α) :
    Shares sem rules Res Pre Q
      { t.observe w.store with phase := phase, log := t.log ++ [] } call k := by
  have hok := h.threads t (List.mem_of_getElem? ht)
  have hstore : w.store ∈ (t.observe w.store).seen := Thread.observe_store (by rw [hp]; rfl)
  rw [hp] at hok
  subst hkey
  refine ⟨⟨call.log, [], by simp, ⟨_, hstore, hj⟩, by simp⟩, fun y => hok.1.2 y,
    fun F hF hpre => ?_⟩
  simp only [(t.observe_phase w.store).2.1, List.append_nil] at hpre ⊢
  exact hok.2 F (fun s hs => hF s (Thread.observe_seen hs)) hpre

/-- A thread joins a call. -/
theorem Inv.join [DecidableEq K] (h : Inv sem rules Res Pre Q w) (ht : w.threads[i]? = some t)
    {body : Prog E R} (hp : t.phase = .run (.op (.flight key body) k)) (hc : w.listed key = some c)
    (hallow : rules.join key (w.logOf c) w.store = true) :
    Inv sem rules Res Pre Q (w.advance w.store i (.wait c k) []) := by
  obtain ⟨hlt, hfound, -⟩ := List.findIdx?_eq_some_iff_getElem.mp hc
  have hcall : w.calls[c]? = some w.calls[c] := List.getElem?_eq_getElem hlt
  simp only [Bool.and_eq_true, decide_eq_true_eq] at hfound
  rw [World.logOf_eq hcall] at hallow
  exact h.advance ht (by rw [hp]; rfl) h.calls callsLater_refl (by rintro c ⟨⟩)
    ⟨w.calls[c], hcall, shares_of_run h ht hp hfound.2 hallow _⟩

/-- A thread leads a new call. -/
theorem Inv.launch (hjoin : ∀ key s, rules.join key [] s = true) (h : Inv sem rules Res Pre Q w)
    (ht : w.threads[i]? = some t) {body : Prog E R} (hp : t.phase = .run (.op (.flight key body) k)) :
    Inv sem rules Res Pre Q
      ((w.launch key).advance w.store i (.lead w.calls.length body k) []) := by
  have hok := h.threads t (List.mem_of_getElem? ht)
  rw [hp] at hok
  refine h.advance ht (by rw [hp]; rfl) (fun c hc r hr => ?_) (fun c call hc => ?_)
    (by rintro c ⟨⟩; exact .inr rfl)
    ⟨⟨key, none, [], true⟩, by simp, shares_of_run h ht hp rfl (hjoin key _) _, rfl, hok.1.1⟩
  · rcases List.mem_append.mp hc with hc | hc
    · exact h.calls c hc r hr
    · obtain rfl := List.mem_singleton.mp hc
      cases hr
  · refine ⟨call, [], ?_, rfl, by simp, by simp, fun _ => ⟨rfl, rfl⟩⟩
    rw [List.getElem?_append_left (List.getElem?_eq_some_iff.mp hc).1, hc]

/-- A leader performs an effect of the body. -/
theorem Inv.body (h : Inv sem rules Res Pre Q w) (ht : w.threads[i]? = some t) {β : Type} {e : E β}
    {k' : β → Prog E R} (hp : t.phase = .lead c (.op e k') k)
    (hallow : rules.ok (w.logOf c) e w.store = true) {x : χ} {b : β} {s : σ}
    (hr : sem.run e w.store x = some (b, s)) :
    Inv sem rules Res Pre Q ((w.onCall c fun call =>
      { call with log := call.log ++ (sem.note e b).map fun ev => (w.store, ev) }).advance s i
        (.lead c (k' b) k) []) := by
  have hmem := List.mem_of_getElem? ht
  have hrun : t.phase.answer = none := by rw [hp]; rfl
  have hok := h.threads t hmem
  rw [hp] at hok
  obtain ⟨call, hc, hsh, hres, hbody⟩ := hok
  rw [World.logOf_eq hc] at hallow
  have hnotes : ∀ y ∈ (sem.note e b).map fun ev => (w.store, ev), y.1 = w.store := by
    intro y hy
    obtain ⟨ev, -, rfl⟩ := List.mem_map.mp hy
    rfl
  refine h.advance ht hrun (fun call' hc' r hr' => ?_) ?_ (fun c' hc' => .inl ?_) ?_
  · rcases mem_modify hc' with hc' | ⟨call₁, hc₁, rfl⟩
    · exact h.calls call' hc' r hr'
    · obtain rfl : call = call₁ := Option.some.inj (hc.symm.trans hc₁)
      simp [hres] at hr'
  · rw [hp]
    exact callsLater_modify hnotes fun _ => ⟨rfl, rfl⟩
  · rw [hp]
    exact hc'
  · refine ⟨{ call with log := call.log ++ (sem.note e b).map fun ev => (w.store, ev) },
      by simp [hc], ?_, hres, hbody w.store x b s hallow hr⟩
    obtain ⟨-, hq, hl⟩ := t.observe_phase s
    refine hsh.later hq (List.append_nil _) (fun _ => Thread.observe_seen) rfl rfl fun y hy => ?_
    rw [hnotes y hy]
    exact Thread.observe_seen (h.store t hmem hrun)

/-- A leader publishes the result. -/
theorem Inv.publish (h : Inv sem rules Res Pre Q w) (ht : w.threads[i]? = some t)
    (hp : t.phase = .lead c (.ret r) k) :
    Inv sem rules Res Pre Q ((w.onCall c fun call => { call with result := some r }).advance
      w.store i (.finish c r k) []) := by
  have hok := h.threads t (List.mem_of_getElem? ht)
  rw [hp] at hok
  obtain ⟨call, hc, hsh, hres, hbody⟩ := hok
  refine h.advance ht (by rw [hp]; rfl) (fun call' hc' r' hr' => ?_) ?_ (fun c' hc' => .inl ?_) ?_
  · rcases mem_modify hc' with hc' | ⟨call₁, hc₁, rfl⟩
    · exact h.calls call' hc' r' hr'
    · obtain rfl : call = call₁ := Option.some.inj (hc.symm.trans hc₁)
      cases hr'
      exact hbody
  · rw [hp]
    exact callsLater_modify (l := []) (by simp) fun _ => ⟨rfl, (List.append_nil _).symm⟩
  · rw [hp]
    exact hc'
  · refine ⟨{ call with result := some r }, by simp [hc], ?_, rfl⟩
    exact hsh.later (t.observe_phase w.store).2.1 (List.append_nil _)
      (fun _ => Thread.observe_seen) rfl (List.append_nil _).symm (by simp)

/-- A thread takes over the result of a call it shares. -/
theorem takes (h : Inv sem rules Res Pre Q w) (hc : w.calls[c]? = some call)
    (hsh : Shares sem rules Res Pre Q t call k) (hres : call.result = some r) (shared : Bool)
    {calls : List (Call σ K R ε)} :
    PhaseOk sem rules Res Pre Q calls { t.observe w.store with
      phase := .run (k (r, shared)), log := t.log ++ w.logOf c } (.run (k (r, shared))) := by
  refine ⟨hsh.honest _, fun F hF hpre => ?_⟩
  have hsub : ∀ s ∈ t.seen, s ∈ F := fun s hs => hF s (Thread.observe_seen hs)
  obtain ⟨l₀, l₁, hl, ⟨s, hs, hj⟩, hat⟩ := hsh.split
  simp only [(t.observe_phase w.store).2.1, World.logOf_eq hc] at hpre ⊢
  rw [hl]
  refine hsh.cont F hsub hpre l₀ l₁ r shared ⟨s, hsub s hs, hj⟩ (fun y hy => hsub _ (hat y hy)) ?_
  rw [← hl]
  exact h.calls call (List.mem_of_getElem? hc) r hres

/-- A leader delists its call and goes on. -/
theorem Inv.delist (h : Inv sem rules Res Pre Q w) (ht : w.threads[i]? = some t)
    (hp : t.phase = .finish c r k) :
    Inv sem rules Res Pre Q ((w.onCall c fun call => { call with listed := false }).advance
      w.store i (.run (k (r, false))) (w.logOf c)) := by
  have hok := h.threads t (List.mem_of_getElem? ht)
  rw [hp] at hok
  obtain ⟨call, hc, hsh, hres⟩ := hok
  refine h.advance ht (by rw [hp]; rfl) (fun call' hc' r' hr' => ?_) ?_ (by rintro c ⟨⟩)
    (takes h hc hsh hres false)
  · rcases mem_modify hc' with hc' | ⟨call₁, hc₁, rfl⟩
    · exact h.calls call' hc' r' hr'
    · exact h.calls call₁ (List.mem_of_getElem? hc₁) r' hr'
  · rw [hp]
    exact callsLater_modify (l := []) (by simp) fun _ => ⟨rfl, (List.append_nil _).symm⟩

/-- A waiting thread goes on with a published result. -/
theorem Inv.take (h : Inv sem rules Res Pre Q w) (ht : w.threads[i]? = some t)
    (hp : t.phase = .wait c k) (hr : w.calls[c]?.bind Call.result = some r) :
    Inv sem rules Res Pre Q (w.advance w.store i (.run (k (r, true))) (w.logOf c)) := by
  have hok := h.threads t (List.mem_of_getElem? ht)
  rw [hp] at hok
  obtain ⟨call, hc, hsh⟩ := hok
  rw [hc] at hr
  exact h.advance ht (by rw [hp]; rfl) h.calls callsLater_refl (by rintro c ⟨⟩)
    (takes h hc hsh hr true)

end Step

/-- Every step of a thread that meets the rules keeps the invariant. -/
theorem Inv.stepThread [DecidableEq K] (hjoin : ∀ key s, rules.join key [] s = true)
    {w' : World E σ ε K R ρ α} {x : χ} (h : Inv sem rules Res Pre Q w)
    (hallow : rules.allows w (.step i x : Act ρ χ η) = true)
    (hs : Flight.stepThread sem w i x = some w') : Inv sem rules Res Pre Q w' := by
  cases ht : w.threads[i]? with
  | none => simp [Flight.stepThread, ht] at hs
  | some t =>
    simp only [Rules.allows, ht] at hallow
    simp only [Flight.stepThread, ht, Option.map_some] at hs
    cases hp : t.phase with
    | run p =>
      rw [hp] at hs hallow
      cases p with
      | ret a => cases hs
      | op e k =>
        cases e with
        | eff e =>
          obtain ⟨⟨b, s⟩, hr, rfl⟩ := Option.map_eq_some_iff.mp hs
          exact h.effect ht hp hallow hr
        | flight key body =>
          dsimp only at hs hallow
          split at hs
          · rename_i c hc
            cases hs
            rw [hc] at hallow
            exact h.join ht hp hc hallow
          · cases hs
            exact h.launch hjoin ht hp
    | lead c b k =>
      rw [hp] at hs hallow
      cases b with
      | ret r =>
        cases hs
        exact h.publish ht hp
      | op e k' =>
        obtain ⟨⟨b, s⟩, hr, rfl⟩ := Option.map_eq_some_iff.mp hs
        exact h.body ht hp hallow hr
    | finish c r k =>
      rw [hp] at hs
      cases hs
      exact h.delist ht hp
    | wait c k =>
      rw [hp] at hs
      obtain ⟨r, hr, rfl⟩ := Option.map_eq_some_iff.mp hs
      exact h.take ht hp hr

theorem inv_inductive [DecidableEq K] (hjoin : ∀ key s, rules.join key [] s = true)
    (hserve : ∀ r, Honest sem rules Res (serve r))
    (hmeets : ∀ r F, Pre r F → Meets sem rules Res F (Q r F) (serve r) []) :
    ((server sem serve env).guard fun w a => rules.allows w a = true).Inductive
      (Inv sem rules Res Pre Q) := by
  refine .of_guard (fun w hw => ?_) fun w a w' h hallow hs => ?_
  · refine ⟨fun c hc => ?_, fun t ht => ?_, fun t ht => ?_, fun i j ti tj c hi => ?_⟩
    · simp [hw.1] at hc
    · simp [hw.2] at ht
    · simp [hw.2] at ht
    · simp [hw.2] at hi
  · cases a with
    | arrive r =>
      cases hs
      exact h.arrive (hserve r) (hmeets r)
    | step i x => exact h.stepThread hjoin hallow hs
    | env a =>
      obtain ⟨s, -, rfl⟩ := Option.map_eq_some_iff.mp hs
      exact h.put s

/-- The answer of a request in a run that meets the rules. -/
theorem answered [DecidableEq K] (Res : K → List (σ × ε) → R → Prop) (Pre : ρ → Set σ → Prop)
    (Q : ρ → Set σ → α → List (σ × ε) → Prop) (hjoin : ∀ key s, rules.join key [] s = true)
    (hserve : ∀ r, Honest sem rules Res (serve r))
    (hmeets : ∀ r F, Pre r F → Meets sem rules Res F (Q r F) (serve r) [])
    (h : ((server sem serve env).guard fun w a => rules.allows w a = true).Reach w)
    (ht : t ∈ w.threads) {a : α} (ha : t.phase.answer = some a) (hpre : Pre t.req {s | s ∈ t.seen}) :
    Q t.req {s | s ∈ t.seen} a t.log := by
  have hok := ((inv_inductive hjoin hserve hmeets).reach h).threads t ht
  cases hp : t.phase with
  | run p =>
    rw [hp] at hok ha
    cases p with
    | ret a' =>
      cases ha
      exact hok.2 _ (fun s hs => hs) hpre
    | op e k => cases ha
  | lead c b k => rw [hp] at ha; cases ha
  | finish c r k => rw [hp] at ha; cases ha
  | wait c k => rw [hp] at ha; cases ha

theorem answered_free [DecidableEq K] (Res : K → List (σ × ε) → R → Prop) (Pre : ρ → Set σ → Prop)
    (Q : ρ → Set σ → α → List (σ × ε) → Prop) (hserve : ∀ r, Honest sem .free Res (serve r))
    (hmeets : ∀ r F, Pre r F → Meets sem .free Res F (Q r F) (serve r) [])
    (h : (server sem serve env).Reach w) (ht : t ∈ w.threads) {a : α} (ha : t.phase.answer = some a)
    (hpre : Pre t.req {s | s ∈ t.seen}) : Q t.req {s | s ∈ t.seen} a t.log :=
  answered Res Pre Q (fun _ _ => rfl) hserve hmeets (h.guard Rules.allows_free) ht ha hpre

end Answers

end AptCacher.Spec.Flight
