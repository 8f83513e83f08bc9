import AptCacher.Cache.Growth

/-!
# The writer and its callers

Every write goes through `submitWrite`: the caller puts its operation into a buffered channel and
waits for the answer, and one goroutine, `writer`, runs what it takes out of the channel. A caller
may stop waiting at any time, and `Close` stops the writer, which answers what it has not run.

* `World`, `step`: any number of calls, the writer and `Close`, one channel operation at a time.
* `Serial`: calls one after the other from an empty database, each as `submitWrite` describes it.
* `writes_serialized`: what ran is such a list, in the order of sending, and each call that returns
  an answer of its operation is in it; the database is one that `Cache.sys` reaches.
* `close_settles`: no call is lost, none is left waiting, and nothing runs once `Close` is over.
-/

namespace AptCacher.Cache.Submit

open Spec
open Function (update forall_update_iff)

/-! ## The protocol -/

/-- What a call gets; `.stopped` also for the error of the writer's connection. -/
abbrev Answer := Except CallErr Unit

/-- `writeReq`: the call, with its operation. -/
abbrev Req := Nat × Op

/-- Where a call of `submitWrite` is; at its second `select`, with what its channel holds. -/
inductive CallPc
  | idle
  | sending (op : Op)
  | waiting (op : Op) (res : Option Answer)
  | returned (op : Op) (r : Answer)

/-- Where `writer` is. -/
inductive WriterPc
  | starting
  | selecting
  | running (req : Req)
  | draining
  | gone

/-- Where the first `Close` is: `closed` is set, `closeCh` is closed, then the writer joined. -/
inductive ClosePc
  | opened
  | flagged
  | signalled
  | joined

/-- The calls, the channel, the writer and `Close`. `sent`, `ran` and `dropped` are a log: the calls
in the order of sending, what the writer ran, and what it answered without running it. -/
structure World where
  db : Db
  calls : Nat → CallPc
  writes : List Req
  writer : WriterPc
  close : ClosePc
  sent : List Req
  ran : List (Req × Answer)
  dropped : List Req

/-- What happens. -/
inductive Act
  | submit (i : Nat) (op : Op)
  | send (i : Nat)
  | receive (i : Nat)
  /-- The context ends, or else `closeCh` is closed. -/
  | giveUp (i : Nat) (ctx : Bool)
  | connect (ok : Bool)
  | take
  /-- With `fault`, the database fails it (the call's context has ended) and rolls it back. -/
  | run (fault : Bool)
  | stop
  | drain
  | close

/-- `closeCh` is closed. -/
def ClosePc.signals : ClosePc → Bool
  | .opened | .flagged => false
  | .signalled | .joined => true

/-- The call whose operation runs. -/
def WriterPc.job : WriterPc → List Req
  | .running req => [req]
  | _ => []

/-- The writer has not begun to drain the channel. -/
def WriterPc.serves : WriterPc → Bool
  | .draining | .gone => false
  | _ => true

/-- The answer `r` arrives in the call's channel, which nobody reads once the call has returned. -/
def CallPc.answered (r : Answer) : CallPc → CallPc
  | .waiting op none => .waiting op (some r)
  | c => c

/-- How an operation ends that the writer runs. -/
def outcome (op : Op) (fault : Bool) (db : Db) : Answer × Db :=
  submitWrite op.tx (if fault then .abandoned false else .answered) db

namespace World

/-- The call `i` goes to `c`. -/
def goto (w : World) (i : Nat) (c : CallPc) : World := { w with calls := update w.calls i c }

/-- The call `i` puts its operation into the channel. -/
def sends (w : World) (i : Nat) (op : Op) : World :=
  goto { w with writes := w.writes ++ [(i, op)], sent := w.sent ++ [(i, op)] } i (.waiting op none)

/-- The writer runs an operation and answers. -/
def runs (w : World) (q : Req) (fault : Bool) : World :=
  let out := outcome q.2 fault w.db
  goto { w with db := out.2, writer := .selecting, ran := w.ran ++ [(q, out.1)] } q.1
    ((w.calls q.1).answered out.1)

/-- The writer answers without running the operation. -/
def drops (w : World) (q : Req) (rest : List Req) : World :=
  goto { w with writes := rest, dropped := w.dropped ++ [q] } q.1
    ((w.calls q.1).answered (.error .stopped))

end World

/-- One step; `cap` is `writeBufferSize`. -/
def step (cap : Nat) (w : World) : Act → Option World
  | .submit i op =>
    match w.calls i, w.close with
    | .idle, .opened => some (w.goto i (.sending op))
    | .idle, _ => some (w.goto i (.returned op (.error .stopped)))
    | _, _ => none
  | .send i =>
    match w.calls i with
    | .sending op => if w.writes.length < cap then some (w.sends i op) else none
    | _ => none
  | .receive i =>
    match w.calls i with
    | .waiting op (some r) => some (w.goto i (.returned op r))
    | _ => none
  | .giveUp i ctx =>
    match w.calls i, ctx || w.close.signals with
    | .sending op, true | .waiting op _, true => some (w.goto i (.returned op (.error .stopped)))
    | _, _ => none
  | .connect ok =>
    match w.writer with
    | .starting => some { w with writer := if ok then .selecting else .draining }
    | _ => none
  | .take =>
    match w.writer, w.writes with
    | .selecting, q :: rest => some { w with writer := .running q, writes := rest }
    | _, _ => none
  | .run fault =>
    match w.writer with
    | .running q => some (w.runs q fault)
    | _ => none
  | .stop =>
    match w.writer, w.close.signals with
    | .selecting, true => some { w with writer := .draining }
    | _, _ => none
  | .drain =>
    match w.writer, w.writes with
    | .draining, q :: rest => some (w.drops q rest)
    | .draining, [] => some { w with writer := .gone }
    | _, _ => none
  | .close =>
    match w.close, w.writer with
    | .opened, _ => some { w with close := .flagged }
    | .flagged, _ => some { w with close := .signalled }
    | .signalled, .gone => some { w with close := .joined }
    | _, _ => none

/-- A cache that was just opened. -/
def opened : World := ⟨.empty, fun _ => .idle, [], .starting, .opened, [], [], []⟩

/-- The protocol. -/
def sys (cap : Nat) : Sys World Act where
  init w := w = opened
  step := step cap

/-! ## One after the other -/

/-- The operations of `l` ran one after the other, each on the database the one before left. -/
inductive Serial : List (Req × Answer) → Db → Prop
  | nil : Serial [] .empty
  | snoc {l : List (Req × Answer)} {db : Db} (q : Req) (fault : Bool) (h : Serial l db) :
      Serial (l ++ [(q, (outcome q.2 fault db).1)]) (outcome q.2 fault db).2

theorem Serial.reach {l : List (Req × Answer)} {db : Db} (h : Serial l db) :
    Cache.sys.Reach db := by
  induction h with
  | nil => exact .init rfl
  | @snoc l db q fault _ ih =>
    cases fault with
    | true => exact ih
    | false =>
      refine .step q.2 ih ?_
      show some (q.2.tx.commit db) = some (submitWrite q.2.tx .answered db).2
      unfold Tx.commit submitWrite
      cases q.2.tx db <;> rfl

/-! ## The invariant -/

/-- An answer that a call may get: that of its own operation, or that it was not run for it. -/
def Got (l : List (Req × Answer)) (q : Req) (r : Answer) : Prop := r = .error .stopped ∨ (q, r) ∈ l

/-- What is true of the call `i`, by where it is: one without an answer is with the writer. -/
def World.Fine (w : World) (i : Nat) : CallPc → Prop
  | .idle | .sending _ => i ∉ w.sent.map Prod.fst
  | .waiting op none => (i, op) ∈ w.writer.job ++ w.writes
  | .waiting op (some r) | .returned op r => Got w.ran (i, op) r

/-- What holds at every moment. -/
structure Inv (w : World) : Prop where
  serial : Serial w.ran w.db
  order : w.sent = w.ran.map Prod.fst ++ w.dropped ++ w.writer.job ++ w.writes
  serves : w.writer.serves = true → w.dropped = []
  nodup : (w.sent.map Prod.fst).Nodup
  calls : ∀ i, w.Fine i (w.calls i)
  joined : w.close = .joined → w.writer = .gone

variable {cap : Nat} {w w' : World} {i : Nat} {q : Req}

/-- What is true of a call stays true while others move, if the writer does not take it. -/
theorem World.Fine.mono {c : CallPc} (h : w.Fine i c)
    (hs : i ∈ w'.sent.map Prod.fst → i ∈ w.sent.map Prod.fst) (hr : w.ran ⊆ w'.ran)
    (hq : ∀ op, c = .waiting op none → (i, op) ∈ w.writer.job ++ w.writes →
      (i, op) ∈ w'.writer.job ++ w'.writes) : w'.Fine i c := by
  match c, h with
  | .idle, h | .sending _, h => exact fun hm => h (hs hm)
  | .waiting op none, h => exact hq op rfl h
  | .waiting _ (some _), h | .returned _ _, h => exact h.imp_right fun hm => hr hm

/-- The call `i` goes to `c`, and the others stay. -/
theorem World.Fine.goto (hw : ∀ j, j ≠ i → w.Fine j (w.calls j)) {c : CallPc} (hc : w.Fine i c)
    (j : Nat) : (w.goto i c).Fine j ((w.goto i c).calls j) :=
  (forall_update_iff w.calls fun j x => (w.goto i c).Fine j x).mpr ⟨hc, hw⟩ j

namespace Inv

theorem mem_sent (hi : Inv w) (h : q ∈ w.writer.job ++ w.writes) : q ∈ w.sent := by
  rw [hi.order, List.append_assoc]
  exact List.mem_append_right _ h

/-- The answer `r` for the request `q`, which the writer has: other calls keep what they know. -/
theorem answered (hi : Inv w) {r : Answer} (hq : q ∈ w.writer.job ++ w.writes)
    (hs : w'.sent = w.sent) (hr : w.ran ⊆ w'.ran) (hg : Got w'.ran q r)
    (ho : ∀ q' ∈ w.writer.job ++ w.writes, q'.1 ≠ q.1 → q' ∈ w'.writer.job ++ w'.writes)
    (hc : w'.calls = update w.calls q.1 ((w.calls q.1).answered r)) (j : Nat) :
    w'.Fine j (w'.calls j) := by
  have hkeep : ∀ j c, w.Fine j c → (∀ op, c = .waiting op none → j ≠ q.1) → w'.Fine j c :=
    fun j c h hj => h.mono (fun hm => hs ▸ hm) hr fun op hop hm => ho (j, op) hm (hj op hop)
  rw [hc]
  refine (forall_update_iff w.calls fun j x => w'.Fine j x).mpr
    ⟨?_, fun j hj => hkeep j _ (hi.calls j) fun _ _ => hj⟩ j
  have hf := hi.calls q.1
  match hcq : w.calls q.1 with
  | .waiting op none =>
    rw [hcq] at hf
    -- the call waits for the very request that is answered
    have heq : (q.1, op) = q :=
      List.inj_on_of_nodup_map hi.nodup (hi.mem_sent hf) (hi.mem_sent hq) rfl
    rw [← heq] at hg
    exact hg
  | .idle | .sending _ | .waiting _ (some _) | .returned _ _ =>
    rw [hcq] at hf
    exact hkeep q.1 _ hf fun _ h => by cases h

theorem goto (hi : Inv w) {c : CallPc} (hc : w.Fine i c) : Inv (w.goto i c) :=
  { hi with calls := .goto (fun j _ => hi.calls j) hc }

theorem sends (hi : Inv w) {op : Op} (hp : w.calls i = .sending op) : Inv (w.sends i op) := by
  have hf := hi.calls i
  rw [hp] at hf
  have hmap : (w.sends i op).sent.map Prod.fst = w.sent.map Prod.fst ++ [i] := List.map_append
  exact { hi with
    order := by simp only [World.sends, World.goto, hi.order, List.append_assoc]
    nodup := by
      rw [hmap, ← List.concat_eq_append]
      exact hi.nodup.concat hf
    calls := fun j => by
      refine World.Fine.goto (fun j hne => ?_) ?_ j
      · refine (hi.calls j).mono (fun hm => ?_) (fun _ => id) fun op' _ hm => ?_
        · simpa [hne] using hm
        · exact List.append_assoc .. ▸ List.mem_append_left _ hm
      · exact List.mem_append_right _ (List.mem_append_right _ (List.mem_singleton_self _)) }

theorem runs (hi : Inv w) (hw : w.writer = .running q) (fault : Bool) : Inv (w.runs q fault) := by
  have hd : w.dropped = [] := hi.serves (by rw [hw]; rfl)
  exact { hi with
    serial := hi.serial.snoc q fault
    order := by simp [World.runs, World.goto, hi.order, hd, hw, WriterPc.job]
    serves := fun _ => hd
    calls := hi.answered (by simp [hw, WriterPc.job]) rfl (List.subset_append_left _ _)
      (.inr (List.mem_append_right _ (List.mem_singleton_self _)))
      (fun q' hm hne => by
        rw [hw] at hm
        exact (List.mem_cons.mp hm).resolve_left fun h => hne (congrArg Prod.fst h)) rfl
    joined := fun hj => by
      have := hw.symm.trans (hi.joined hj)
      cases this }

theorem drops (hi : Inv w) (hw : w.writer = .draining) {rest : List Req}
    (hq : w.writes = q :: rest) : Inv (w.drops q rest) :=
  { hi with
    order := by simp [World.drops, World.goto, hi.order, hq, hw, WriterPc.job]
    serves := fun h => by simp [World.drops, World.goto, hw, WriterPc.serves] at h
    calls := hi.answered (by simp [hq]) rfl (fun _ => id) (.inl rfl)
      (fun q' hm hne => by
        rw [hw, hq] at hm
        show q' ∈ w.writer.job ++ rest
        rw [hw]
        exact (List.mem_cons.mp hm).resolve_left fun h => hne (congrArg Prod.fst h)) rfl }

/-- The writer goes from one place to another, with what it has of the channel. -/
theorem moves (hi : Inv w) {pc pc' : WriterPc} {rest : List Req} (hw : w.writer = pc)
    (hg : pc ≠ .gone) (hq : pc.job ++ w.writes = pc'.job ++ rest)
    (hs : pc'.serves = true → pc.serves = true) : Inv { w with writer := pc', writes := rest } := by
  subst hw
  exact { hi with
    order := by rw [hi.order, List.append_assoc, hq, ← List.append_assoc]
    serves := fun h => hi.serves (hs h)
    calls := fun j => (hi.calls j).mono id (fun _ => id) fun _ _ hm => hq ▸ hm
    joined := fun h => absurd (hi.joined h) hg }

theorem step {a : Act} (hi : Inv w) (h : step cap w a = some w') : Inv w' := by
  cases a with
  | submit i op =>
    have hf := hi.calls i
    simp only [Submit.step] at h
    split at h <;> cases h
    · rename_i hc _
      rw [hc] at hf
      exact hi.goto hf
    · exact hi.goto (.inl rfl)
  | send i =>
    simp only [Submit.step] at h
    split at h
    · obtain ⟨-, h⟩ := Option.ite_none_right_eq_some.mp h
      cases h
      exact hi.sends ‹_›
    · cases h
  | receive i =>
    have hf := hi.calls i
    simp only [Submit.step] at h
    split at h <;> cases h
    rename_i hc
    rw [hc] at hf
    exact hi.goto hf
  | giveUp i ctx =>
    simp only [Submit.step] at h
    split at h <;> cases h
    · exact hi.goto (.inl rfl)
    · exact hi.goto (.inl rfl)
  | connect ok =>
    simp only [Submit.step] at h
    split at h <;> cases h
    exact hi.moves ‹_› (by simp) (by cases ok <;> rfl) fun _ => rfl
  | take =>
    simp only [Submit.step] at h
    split at h <;> cases h
    rename_i hw hq
    exact hi.moves hw (by simp) hq fun _ => rfl
  | run fault =>
    simp only [Submit.step] at h
    split at h <;> cases h
    exact hi.runs ‹_› fault
  | stop =>
    simp only [Submit.step] at h
    split at h <;> cases h
    rename_i hw _
    exact hi.moves hw (by simp) rfl fun h => by cases h
  | drain =>
    simp only [Submit.step] at h
    split at h <;> cases h
    · exact hi.drops ‹_› ‹_›
    · rename_i hw _
      exact hi.moves hw (by simp) rfl fun h => by cases h
  | close =>
    simp only [Submit.step] at h
    split at h <;> cases h
    · exact { hi with joined := fun h => by cases h }
    · exact { hi with joined := fun h => by cases h }
    · exact { hi with joined := fun _ => ‹_› }

end Inv

theorem inductive_inv : (sys cap).Inductive Inv where
  init w h := by
    subst h
    exact ⟨.nil, rfl, fun _ => rfl, .nil, fun _ => List.not_mem_nil, ClosePc.noConfusion⟩
  step _ _ _ hi h := hi.step h

/-! ## What callers can rely on -/

/-- **The writes are serialized.** At every moment of every interleaving, the operations that ran
are the first of those that were sent, in this order, and no call is among them twice; one after the
other they lead from an empty database to this one, which the writer of `Cache.sys` can reach; and a
call that returned something else than `ErrClosed` or a context's error returned the answer that its
own operation had there. -/
theorem writes_serialized (hr : (sys cap).Reach w) :
    (∃ rest, w.sent = w.ran.map Prod.fst ++ rest) ∧ (w.sent.map Prod.fst).Nodup ∧
    Serial w.ran w.db ∧ Cache.sys.Reach w.db ∧
    ∀ i op r, w.calls i = .returned op r → r ≠ .error .stopped → ((i, op), r) ∈ w.ran := by
  have hi := inductive_inv.reach hr
  refine ⟨⟨w.dropped ++ w.writer.job ++ w.writes, ?_⟩, hi.nodup, hi.serial, hi.serial.reach,
    fun i op r hc hne => ?_⟩
  · rw [hi.order]
    simp only [List.append_assoc]
  · have hf := hi.calls i
    rw [hc] at hf
    exact hf.resolve_left hne

/-- Two writes are answered, and `Close` comes before the writer gets to a third one. -/
def closedRun : List Act :=
  [.connect true, .submit 0 (.putBlob (digest 'a') 10 1), .submit 1 (.putBlob (digest 'b') 20 2),
    .submit 2 (.putBlob (digest 'c') 30 3), .send 1, .send 0, .take, .run false, .receive 1, .take,
    .send 2, .run false, .receive 0, .close, .close, .stop, .drain, .drain, .close]

/-- The cache after it. -/
def closed : World := ((sys 2).exec opened closedRun).getD opened

theorem writes_serialized_closed :
    [((1, .putBlob (digest 'b') 20 2), .ok ()), ((0, .putBlob (digest 'a') 10 1), .ok ())] ⊆
      closed.ran ∧ Cache.sys.Reach closed.db ∧ closed.db.blobs.rows.map Blob.size = [10, 20] := by
  have hr : (sys 2).Reach closed := .exec rfl (eq_some_getD _ (by decide +kernel))
  obtain ⟨-, -, -, hdb, hret⟩ := writes_serialized hr
  have hfirst := hret 1 (.putBlob (digest 'b') 20 2) (.ok ()) rfl (by simp)
  have hsecond := hret 0 (.putBlob (digest 'a') 10 1) (.ok ()) rfl (by simp)
  exact ⟨by simp [hfirst, hsecond], hdb, by decide +kernel⟩

theorem gone_of_step {a : Act} (hg : w.writer = .gone) (h : step cap w a = some w') :
    w'.writer = .gone ∧ w'.db = w.db ∧ w'.ran = w.ran := by
  cases a with
  | connect | take | run | stop | drain => simp [step, hg] at h
  | submit | send | receive | giveUp | close =>
    simp only [step] at h
    repeat' split at h
    all_goals cases h
    all_goals exact ⟨hg, rfl, rfl⟩

/-- **Close leaves nobody waiting.** A call that waits without an answer is with the writer, which
can go on unless it is gone; once `closeCh` is closed, every call that has not returned can; and
when `Close` has joined the writer, no operation runs any more. -/
theorem close_settles (hr : (sys cap).Reach w) :
    (∀ i op, w.calls i = .waiting op none → (i, op) ∈ w.writer.job ++ w.writes ∧
      (w.writer = .gone ∨ ∃ a ∈ [Act.connect true, .take, .run false, .drain],
        (step cap w a).isSome = true)) ∧
    (w.close.signals = true → ∀ i op res, w.calls i = .sending op ∨ w.calls i = .waiting op res →
      step cap w (.giveUp i false) = some (w.goto i (.returned op (.error .stopped)))) ∧
    (w.close = .joined → ∀ w', (sys cap).Steps w w' → w'.db = w.db ∧ w'.ran = w.ran) := by
  have hi := inductive_inv.reach hr
  refine ⟨fun i op hc => ?_, fun hs i op res hc => ?_, fun hj w' hw' => ?_⟩
  · have hf := hi.calls i
    rw [hc] at hf
    refine ⟨hf, ?_⟩
    obtain ⟨q, rest, hq⟩ := List.exists_cons_of_ne_nil (List.ne_nil_of_mem hf)
    cases hw : w.writer with
    | gone => exact .inl rfl
    | starting => exact .inr ⟨.connect true, by simp, by simp [step, hw]⟩
    | running q => exact .inr ⟨.run false, by simp, by simp [step, hw]⟩
    | selecting =>
      rw [hw] at hq
      exact .inr ⟨.take, by simp, by simp [step, hw, show w.writes = _ from hq]⟩
    | draining =>
      rw [hw] at hq
      exact .inr ⟨.drain, by simp, by simp [step, hw, show w.writes = _ from hq]⟩
  · rcases hc with hc | hc <;> simp only [step, hc, hs, Bool.false_or]
  · have key : w'.writer = .gone ∧ w'.db = w.db ∧ w'.ran = w.ran :=
      hw'.keeps (P := fun x => x.writer = .gone ∧ x.db = w.db ∧ x.ran = w.ran)
        (fun x a y hx h => by
          obtain ⟨hg, hdb, hran⟩ := gone_of_step hx.1 h
          exact ⟨hg, hdb.trans hx.2.1, hran.trans hx.2.2⟩) ⟨hi.joined hj, rfl, rfl⟩
    exact key.2

theorem close_settles_closed : closed.close = .joined ∧
    (∀ w', (sys 2).Steps closed w' → w'.db = closed.db ∧ w'.ran = closed.ran) ∧
    step 2 closed (.giveUp 2 false) =
      some (closed.goto 2 (.returned (.putBlob (digest 'c') 30 3) (.error .stopped))) := by
  have hr : (sys 2).Reach closed := .exec rfl (eq_some_getD _ (by decide +kernel))
  obtain ⟨-, hreturn, hjoined⟩ := close_settles hr
  exact ⟨rfl, hjoined rfl, hreturn rfl 2 _ (some (.error .stopped)) (.inr rfl)⟩

end AptCacher.Cache.Submit
