import Mathlib.Data.List.Perm.Basic
import AptCacher.Spec.Count
import AptCacher.Freshness.Queue

/-!
# Where the suites are

The operations of the scheduler's queues move suites between the class queues and the waiting list of
their host and the popped items, and `prune` takes hosts off the ring.

* `HostQueue.Ok`, `Inv`: the containers of a host, and of all hosts, against the marks.
* `Turn`, `pop_inv`: what a pop takes.
* `inv_inductive`: every operation keeps the invariant.
* `queue_invariant`: a marked suite is in one place, once, in every run.
-/

namespace AptCacher.Freshness

open Spec Cache

/-! ## The invariant -/

/-- The popped items of a host. -/
def Queued.flying (s : Queued) (host : Str) : List SchedItem := s.popped.filter fun it => it.key.host == host

/-- The queues of one host against the marks and the host's popped items. -/
structure HostQueue.Ok (waitSeq : Nat) (queued : SuiteKey → Bool) (host : Str) (flying : List SchedItem)
    (h : HostQueue) : Prop where
  own : ∀ it ∈ h.items, it.key.host = host
  /-- A marked suite is in one place, once. -/
  once : ∀ k, k.host = host →
    (if queued k then 1 else 0) = h.items.countP (·.key == k) + flying.countP (·.key == k)
  flight : flying.length = if h.inFlight then 1 else 0
  sorted : h.waiting.Pairwise fun v w => v.waitSeq < w.waitSeq
  classes : ∀ c, ∀ it ∈ h.classes c, it.waiting = false
  waiting : ∀ w ∈ h.waiting, w.waiting = true ∧ w.waitSeq ≤ waitSeq
  /-- A popped waiter has left its place open. -/
  flying : ∀ it ∈ flying, it.waiting = true →
    it.waitSeq ≤ waitSeq ∧ ∀ w ∈ h.waiting, w.waitSeq ≠ it.waitSeq

/-- What holds of the containers, also before `prune`. -/
structure Base (s : Queued) : Prop where
  host : ∀ x h, s.q.hosts x = some h → h.Ok s.q.waitSeq s.q.queued x (s.flying x)
  absent : ∀ x, s.q.hosts x = none → s.flying x = [] ∧ ∀ k, k.host = x → s.q.queued k = false
  nodup : s.q.order.Nodup
  ring : ∀ x, x ∈ s.q.order ↔ (s.q.hosts x).isSome = true
  pending : ∀ k, s.q.pending k = true → s.q.queued k = true
  turn : s.q.next ≤ s.q.order.length - 1

/-- The invariant: no host is left without work or a check in flight. -/
structure Inv (s : Queued) : Prop extends Base s where
  work : ∀ x h, s.q.hosts x = some h → h.inFlight = true ∨ h.items ≠ []

/-- The marks of other hosts and later numbers do not matter to a host. -/
theorem HostQueue.Ok.frame {waitSeq waitSeq' : Nat} {queued queued' : SuiteKey → Bool} {host : Str}
    {flying : List SchedItem} {h : HostQueue} (hok : h.Ok waitSeq queued host flying)
    (hseq : waitSeq ≤ waitSeq') (hq : ∀ k, k.host = host → queued' k = queued k) :
    h.Ok waitSeq' queued' host flying where
  own := hok.own
  once k hk := by rw [hq k hk]; exact hok.once k hk
  flight := hok.flight
  sorted := hok.sorted
  classes := hok.classes
  waiting w hw := ⟨(hok.waiting w hw).1, (hok.waiting w hw).2.trans hseq⟩
  flying it hit hw := ⟨(hok.flying it hit hw).1.trans hseq, (hok.flying it hit hw).2⟩

namespace Base

variable {s s' : Queued}

/-- The queue of one host changes, and with it the marks and the popped items of that host. -/
theorem update (h : Base s) {x : Str} {hq : HostQueue}
    (hhosts : s'.q.hosts = Function.update s.q.hosts x (some hq))
    (hok : hq.Ok s'.q.waitSeq s'.q.queued x (s'.flying x))
    (hfly : ∀ y, y ≠ x → s'.flying y = s.flying y)
    (hqueued : ∀ k, k.host ≠ x → s'.q.queued k = s.q.queued k)
    (hseq : s.q.waitSeq ≤ s'.q.waitSeq)
    (horder : s'.q.order = if s.q.hosts x = none then s.q.order ++ [x] else s.q.order)
    (hpending : ∀ k, s'.q.pending k = true → s'.q.queued k = true)
    (hturn : s'.q.next ≤ s'.q.order.length - 1) : Base s' := by
  refine ⟨fun y hy he => ?_, fun y he => ?_, ?_, fun y => ?_, hpending, hturn⟩
  · rw [hhosts] at he
    by_cases hyx : y = x
    · subst hyx
      rw [Function.update_self] at he
      cases he
      exact hok
    · rw [Function.update_of_ne hyx] at he
      rw [hfly y hyx]
      exact (h.host y hy he).frame hseq fun k hk => hqueued k (hk ▸ hyx)
  · rw [hhosts] at he
    have hyx : y ≠ x := by
      rintro rfl
      rw [Function.update_self] at he
      cases he
    rw [Function.update_of_ne hyx] at he
    obtain ⟨hnil, hnone⟩ := h.absent y he
    exact ⟨(hfly y hyx).trans hnil, fun k hk => (hqueued k (hk ▸ hyx)).trans (hnone k hk)⟩
  · rw [horder]
    split
    · rename_i hx
      refine List.nodup_append.mpr ⟨h.nodup, List.nodup_singleton x, fun a ha b hb => ?_⟩
      rw [List.mem_singleton.mp hb]
      rintro rfl
      have hsome := (h.ring a).mp ha
      rw [hx] at hsome
      cases hsome
    · exact h.nodup
  · rw [horder, hhosts]
    by_cases hyx : y = x
    · subst hyx
      rw [Function.update_self]
      split
      · simp
      · rename_i hx
        simp only [Option.isSome_some, iff_true]
        exact (h.ring y).mpr (Option.isSome_iff_ne_none.mpr hx)
    · rw [Function.update_of_ne hyx, ← h.ring y]
      split
      · simp [hyx]
      · exact Iff.rfl

variable {q : SchedQueues}

theorem keeps_iff {x : Str} {hq : HostQueue} (hx : q.hosts x = some hq) :
    q.keeps x = true ↔ hq.inFlight = true ∨ hq.items ≠ [] := by
  simp [SchedQueues.keeps, hx, HostQueue.empty]

theorem prune_hosts_eq {popped : List SchedItem} (h : Base ⟨q, popped⟩) (x : Str) :
    q.prune.hosts x = if q.keeps x then q.hosts x else none := by
  rw [prune_hosts]
  cases hx : q.hosts x with
  | none => simp
  | some hq =>
    have hmem : x ∈ q.order := (h.ring x).mpr (by rw [hx]; rfl)
    cases hk : q.keeps x <;> simp [hmem]

theorem prune {popped : List SchedItem} (h : Base ⟨q, popped⟩) : Inv ⟨q.prune, popped⟩ := by
  have hkept {x : Str} {hq : HostQueue} (he : q.prune.hosts x = some hq) :
      q.hosts x = some hq ∧ q.keeps x = true := by
    rw [h.prune_hosts_eq x] at he
    split at he
    · exact ⟨he, ‹_›⟩
    · cases he
  refine ⟨⟨fun x hq he => ?_, fun x he => ?_, ?_, fun x => ?_, ?_, prune_turn h.turn⟩, fun x hq he => ?_⟩
  · exact (h.host x hq (hkept he).1).frame (Nat.le_of_eq prune_waitSeq.symm) fun k _ =>
      congrFun prune_queued k
  · have hq' (k : SuiteKey) : q.prune.queued k = q.queued k := congrFun prune_queued k
    cases hx : q.hosts x with
    | none =>
      obtain ⟨hnil, hnone⟩ := h.absent x hx
      exact ⟨hnil, fun k hk => (hq' k).trans (hnone k hk)⟩
    | some hq =>
      -- The host was dropped: it has no item and none of its items is popped.
      have hok := h.host x hq hx
      have hdrop : ¬ (hq.inFlight = true ∨ hq.items ≠ []) := by
        rw [← keeps_iff hx]
        intro hk
        rw [show (⟨q.prune, popped⟩ : Queued).q.hosts x = q.prune.hosts x from rfl, h.prune_hosts_eq x, hk,
          hx] at he
        cases he
      have hidle : hq.inFlight = false := by simpa using fun hi => hdrop (.inl hi)
      have hempty : hq.items = [] := by_contra fun hi => hdrop (.inr hi)
      have hfly : Queued.flying ⟨q, popped⟩ x = [] := by
        have hlen := hok.flight
        rw [hidle] at hlen
        exact List.length_eq_zero_iff.mp hlen
      refine ⟨hfly, fun k hk => (hq' k).trans ?_⟩
      have honce := hok.once k hk
      rw [hfly, hempty] at honce
      by_contra hne
      rw [if_pos (by simpa using hne)] at honce
      cases honce
  · show q.prune.order.Nodup
    rw [prune_order]
    exact h.nodup.filter _
  · show x ∈ q.prune.order ↔ (q.prune.hosts x).isSome = true
    rw [prune_order, h.prune_hosts_eq x, List.mem_filter]
    cases hk : q.keeps x with
    | true => simpa using h.ring x
    | false => simp
  · intro k hk
    show q.prune.queued k = true
    rw [prune_queued]
    exact h.pending k (by rwa [show (⟨q.prune, popped⟩ : Queued).q.pending = q.pending from prune_pending] at hk)
  · exact (keeps_iff (hkept he).1).mp (hkept he).2

end Base

/-! ## Moves between the containers -/

section Moves

variable {h : HostQueue} {it : SchedItem} {c : SchedClass}

theorem items_append_class : HostQueue.items { h with
    classes := Function.update h.classes c (h.classes c ++ [it]) } |>.Perm (it :: h.items) := by
  unfold HostQueue.items
  cases c with
  | healthy => simp [Function.update]
  | neverChecked => simpa [Function.update] using (List.perm_middle.append_left _).trans List.perm_middle
  | failing =>
    simpa [Function.update] using
      ((List.perm_middle.append_left _).append_left _).trans
        ((List.perm_middle.append_left _).trans List.perm_middle)

theorem items_append_class_ne : HostQueue.items { h with
    classes := Function.update h.classes c (h.classes c ++ [it]) } ≠ [] := by
  intro hnil
  have hlen := (show List.Perm _ (it :: h.items) from items_append_class (c := c)).length_eq
  rw [hnil] at hlen
  cases hlen

theorem firstOfClass_head (hf : SchedQueues.firstOfClass h = some (c, it)) :
    ∃ rest, h.classes c = it :: rest := by
  obtain ⟨c', -, hc⟩ := List.exists_of_findSome?_eq_some hf
  obtain ⟨it', hhead, heq⟩ := Option.map_eq_some_iff.mp hc
  cases heq
  exact List.head?_eq_some_iff.mp hhead

theorem items_tail_class {rest : List SchedItem} (hc : h.classes c = it :: rest) :
    h.items.Perm (it :: HostQueue.items { h with
      classes := Function.update h.classes c (h.classes c).tail }) := by
  unfold HostQueue.items
  cases c with
  | healthy => simp [Function.update, hc]
  | neverChecked => simp [Function.update, hc]
  | failing => simpa [Function.update, hc] using (List.perm_middle.append_left _).trans List.perm_middle

theorem perm_eraseP {α : Type} {f : α → Bool} {l : List α} {a : α} (hf : l.find? f = some a) :
    l.Perm (a :: l.eraseP f) := by
  induction l with
  | nil => cases hf
  | cons b l ih =>
    rw [List.find?_cons] at hf
    split at hf
    · rename_i hb
      cases hf
      rw [List.eraseP_cons_of_pos hb]
    · rename_i hb
      rw [List.eraseP_cons_of_neg (by simpa using hb)]
      exact ((ih hf).cons b).trans (.swap a b _)

theorem items_waiting {waiting : List SchedItem} (hw : h.waiting.Perm (it :: waiting)) :
    h.items.Perm (it :: HostQueue.items { h with waiting := waiting }) :=
  (hw.append_left _).trans List.perm_middle

theorem insertWaiting_perm (waiting : List SchedItem) :
    (SchedQueues.insertWaiting waiting it).Perm (it :: waiting) := by
  unfold SchedQueues.insertWaiting
  refine List.perm_middle.trans ?_
  rw [List.takeWhile_append_dropWhile]

theorem insertWaiting_sorted {waiting : List SchedItem}
    (hs : waiting.Pairwise fun v w => v.waitSeq < w.waitSeq) (hne : ∀ w ∈ waiting, w.waitSeq ≠ it.waitSeq) :
    (SchedQueues.insertWaiting waiting it).Pairwise fun v w => v.waitSeq < w.waitSeq := by
  induction waiting with
  | nil => exact List.pairwise_singleton ..
  | cons w waiting ih =>
    obtain ⟨hw, hs⟩ := List.pairwise_cons.mp hs
    have ih := ih hs fun v hv => hne v (List.mem_cons_of_mem _ hv)
    by_cases hlt : w.waitSeq < it.waitSeq
    · have hcons : SchedQueues.insertWaiting (w :: waiting) it =
          w :: SchedQueues.insertWaiting waiting it := by
        simp [SchedQueues.insertWaiting, hlt]
      rw [hcons]
      refine List.pairwise_cons.mpr ⟨fun v hv => ?_, ih⟩
      rcases List.mem_cons.mp ((insertWaiting_perm waiting).mem_iff.mp hv) with rfl | hv
      · exact hlt
      · exact hw v hv
    · have hcons : SchedQueues.insertWaiting (w :: waiting) it = it :: w :: waiting := by
        simp [SchedQueues.insertWaiting, hlt]
      have hne := hne w List.mem_cons_self
      rw [hcons]
      refine List.pairwise_cons.mpr ⟨fun v hv => ?_, List.pairwise_cons.mpr ⟨hw, hs⟩⟩
      rcases List.mem_cons.mp hv with rfl | hv
      · omega
      · have := hw v hv
        omega

end Moves

section Popped

variable {popped : List SchedItem} {i : Nat} {item : SchedItem}

theorem eraseIdx_split (h : popped[i]? = some item) :
    ∃ pre post, popped = pre ++ item :: post ∧ popped.eraseIdx i = pre ++ post := by
  obtain ⟨hi, rfl⟩ := List.getElem?_eq_some_iff.mp h
  refine ⟨popped.take i, popped.drop (i + 1), ?_, List.eraseIdx_eq_take_drop_succ ..⟩
  rw [← List.drop_eq_getElem_cons hi, List.take_append_drop]

/-- An item that is finished leaves the popped items of the other hosts alone. -/
theorem flying_eraseIdx_of_ne {q q' : SchedQueues} (h : popped[i]? = some item) {x : Str}
    (hx : x ≠ item.key.host) :
    Queued.flying ⟨q', popped.eraseIdx i⟩ x = Queued.flying ⟨q, popped⟩ x := by
  obtain ⟨pre, post, hp, he⟩ := eraseIdx_split h
  have hne : (item.key.host == x) = false := by simpa using Ne.symm hx
  show (popped.eraseIdx i).filter _ = popped.filter _
  rw [he, hp]
  simp [List.filter_append, hne]

theorem flying_eraseIdx_self {q q' : SchedQueues} (h : popped[i]? = some item)
    (hone : (Queued.flying ⟨q, popped⟩ item.key.host).length ≤ 1) :
    Queued.flying ⟨q, popped⟩ item.key.host = [item] ∧
    Queued.flying ⟨q', popped.eraseIdx i⟩ item.key.host = [] := by
  obtain ⟨pre, post, hp, he⟩ := eraseIdx_split h
  unfold Queued.flying at hone ⊢
  simp only at hone ⊢
  rw [hp] at hone
  rw [he, hp]
  simp only [List.filter_append, List.filter_cons, beq_self_eq_true, if_true, List.length_append,
    List.length_cons] at hone ⊢
  have hpre : pre.filter (fun it => it.key.host == item.key.host) = [] :=
    List.length_eq_zero_iff.mp (by omega)
  have hpost : post.filter (fun it => it.key.host == item.key.host) = [] :=
    List.length_eq_zero_iff.mp (by omega)
  rw [hpre, hpost]
  exact ⟨rfl, rfl⟩

end Popped

namespace HostQueue.Ok

variable {waitSeq waitSeq' : Nat} {queued : SuiteKey → Bool} {host : Str} {flying : List SchedItem}
  {h h' : HostQueue} {it it' : SchedItem}

/-- A host without queues. -/
theorem empty (hq : ∀ k, k.host = host → queued k = false) :
    HostQueue.Ok waitSeq queued host [] ⟨fun _ => [], [], false⟩ where
  own _ hit := by cases hit
  once k hk := by rw [hq k hk]; rfl
  flight := rfl
  sorted := .nil
  classes _ _ hit := by cases hit
  waiting _ hw := by cases hw
  flying _ hit := by cases hit

theorem enqueue (hok : h.Ok waitSeq queued host flying) (c : SchedClass) (it : SchedItem) (hk : it.key.host = host)
    (hnew : queued it.key = false) (hw : it.waiting = false) :
    HostQueue.Ok waitSeq (Function.update queued it.key true) host flying
      { h with classes := Function.update h.classes c (h.classes c ++ [it]) } where
  own x hx := by
    rcases List.mem_cons.mp (items_append_class.mem_iff.mp hx) with rfl | hx
    · exact hk
    · exact hok.own x hx
  once k hkh := by
    have hold := hok.once k hkh
    rw [items_append_class.countP_eq, List.countP_cons]
    by_cases heq : k = it.key
    · subst heq
      rw [hnew] at hold
      simp only [Bool.false_eq_true, if_false] at hold
      simp only [Function.update_self, if_true, beq_self_eq_true]
      omega
    · have hne : (it.key == k) = false := by simpa using Ne.symm heq
      rw [Function.update_of_ne heq, hold, hne]
      simp
  flight := hok.flight
  sorted := hok.sorted
  classes c' x hx := by
    by_cases hc : c' = c
    · subst hc
      simp only [Function.update_self, List.mem_append, List.mem_singleton] at hx
      rcases hx with hx | rfl
      · exact hok.classes c' x hx
      · exact hw
    · simp only [Function.update_of_ne hc] at hx
      exact hok.classes c' x hx
  waiting := hok.waiting
  flying := hok.flying

/-- An item leaves the queues of a host without a check in flight. -/
theorem take (hok : h.Ok waitSeq queued host flying) (hidle : h.inFlight = false)
    (hp : h.items.Perm (it :: h'.items)) (hfl : h'.inFlight = true)
    (hcls : ∀ c, ∀ x ∈ h'.classes c, x ∈ h.classes c) (hwait : h'.waiting.Sublist h.waiting)
    (hkey : it'.key = it.key) (hseq : it'.waiting = true →
      it'.waitSeq ≤ waitSeq ∧ ∀ w ∈ h'.waiting, w.waitSeq ≠ it'.waitSeq) :
    h'.Ok waitSeq queued host (flying ++ [it']) := by
  have hnil : flying = [] := by
    have hlen := hok.flight
    rw [hidle] at hlen
    exact List.length_eq_zero_iff.mp hlen
  subst hnil
  refine ⟨fun x hx => hok.own x (hp.mem_iff.mpr (List.mem_cons_of_mem _ hx)), fun k hk => ?_, ?_,
    hok.sorted.sublist hwait, fun c x hx => hok.classes c x (hcls c x hx),
    fun w hw => hok.waiting w (hwait.subset hw), fun x hx => ?_⟩
  · rw [hok.once k hk, hp.countP_eq, List.countP_cons, List.nil_append, List.countP_singleton, hkey,
      List.countP_nil]
    omega
  · rw [hfl]
    rfl
  · rw [List.nil_append, List.mem_singleton] at hx
    subst hx
    exact hseq

/-- The one popped item of a host comes back as a waiter. -/
theorem park (hok : h.Ok waitSeq queued host [it]) (hle : waitSeq ≤ waitSeq') (hkey : it'.key = it.key)
    (hown : it.key.host = host) (hw : it'.waiting = true) (hseq : it'.waitSeq ≤ waitSeq')
    (hopen : ∀ w ∈ h.waiting, w.waitSeq ≠ it'.waitSeq) :
    HostQueue.Ok waitSeq' queued host []
      { h with inFlight := false, waiting := SchedQueues.insertWaiting h.waiting it' } := by
  have hp : (HostQueue.items ⟨h.classes, SchedQueues.insertWaiting h.waiting it', false⟩).Perm
      (it' :: h.items) :=
    ((insertWaiting_perm h.waiting).append_left _).trans List.perm_middle
  refine ⟨fun x hx => ?_, fun k hk => ?_, rfl, insertWaiting_sorted hok.sorted hopen, hok.classes,
    fun w hw' => ?_, fun x hx => by cases hx⟩
  · rcases List.mem_cons.mp (hp.mem_iff.mp hx) with rfl | hx
    · exact (congrArg SuiteKey.host hkey).trans hown
    · exact hok.own x hx
  · rw [hok.once k hk, hp.countP_eq, List.countP_singleton, List.countP_cons, hkey]
    rfl
  · rcases List.mem_cons.mp ((insertWaiting_perm h.waiting).mem_iff.mp hw') with rfl | hw'
    · exact ⟨hw, hseq⟩
    · exact ⟨(hok.waiting w hw').1, (hok.waiting w hw').2.trans hle⟩

/-- The one popped item of a host is done. -/
theorem finished (hok : h.Ok waitSeq queued host [it]) :
    HostQueue.Ok waitSeq (Function.update queued it.key false) host [] { h with inFlight := false } where
  own := hok.own
  once k hk := by
    have hold := hok.once k hk
    rw [List.countP_singleton] at hold
    show _ = h.items.countP (·.key == k) + 0
    by_cases heq : k = it.key
    · subst heq
      simp only [beq_self_eq_true, if_true] at hold
      simp only [Function.update_self, Bool.false_eq_true, if_false]
      split at hold <;> omega
    · have hne : (it.key == k) = false := by simpa using Ne.symm heq
      rw [Function.update_of_ne heq, hold, hne]
      simp
  flight := rfl
  sorted := hok.sorted
  classes := hok.classes
  waiting := hok.waiting
  flying x hx := by cases hx

theorem mapWaiting (hok : h.Ok waitSeq queued host flying) {f : SchedItem → SchedItem}
    (hf : ∀ w, (f w).key = w.key ∧ (f w).waiting = w.waiting ∧ (f w).waitSeq = w.waitSeq) :
    HostQueue.Ok waitSeq queued host flying { h with waiting := h.waiting.map f } := by
  have hcount (k : SuiteKey) : (HostQueue.items { h with waiting := h.waiting.map f }).countP (·.key == k) =
      h.items.countP (·.key == k) := by
    simp only [HostQueue.items, List.countP_append, List.countP_map]
    congr 1
    exact List.countP_congr fun w _ => by simp [(hf w).1]
  refine ⟨fun x hx => ?_, fun k hk => (hok.once k hk).trans (by rw [hcount k]), hok.flight, ?_, hok.classes,
    fun w hw => ?_, fun x hx hxw => ⟨(hok.flying x hx hxw).1, fun w hw => ?_⟩⟩
  · rcases List.mem_append.mp hx with hx | hx
    · exact hok.own x (List.mem_append_left _ hx)
    · obtain ⟨w, hw, rfl⟩ := List.mem_map.mp hx
      rw [(hf w).1]
      exact hok.own w (List.mem_append_right _ hw)
  · refine List.pairwise_map.mpr (hok.sorted.imp fun {v w} hvw => ?_)
    rw [(hf v).2.2, (hf w).2.2]
    exact hvw
  · obtain ⟨v, hv, rfl⟩ := List.mem_map.mp hw
    rw [(hf v).2.1, (hf v).2.2]
    exact hok.waiting v hv
  · obtain ⟨v, hv, rfl⟩ := List.mem_map.mp hw
    rw [(hf v).2.2]
    exact (hok.flying x hx hxw).2 v hv

end HostQueue.Ok

/-! ## The operations keep the invariant -/

namespace Inv

variable {s s' : Queued}

/-- The queue of one host changes, and it has work or a check in flight. -/
theorem update (h : Inv s) {x : Str} {hq : HostQueue} (hbase : Base s')
    (hhosts : s'.q.hosts = Function.update s.q.hosts x (some hq))
    (hwork : hq.inFlight = true ∨ hq.items ≠ []) : Inv s' := by
  refine ⟨hbase, fun y hy he => ?_⟩
  rw [hhosts] at he
  by_cases hyx : y = x
  · subst hyx
    rw [Function.update_self] at he
    cases he
    exact hwork
  · rw [Function.update_of_ne hyx] at he
    exact h.work y hy he

theorem enqueue (h : Inv s) (d : DueSuite) (pendingChange : Bool) :
    Inv { s with q := s.q.enqueue d pendingChange } := by
  unfold SchedQueues.enqueue
  split
  · rename_i hdup
    split
    · refine ⟨⟨h.host, h.absent, h.nodup, h.ring, fun k
        (hk : Function.update s.q.pending d.key true k = true) => ?_, h.turn⟩, h.work⟩
      by_cases hkd : k = d.key
      · rw [hkd]
        exact hdup
      · rw [Function.update_of_ne hkd] at hk
        exact h.pending k hk
    · exact h
  · rename_i hnew
    have hnew : s.q.queued d.key = false := by simpa using hnew
    have hok : ((s.q.hosts d.key.host).getD ⟨fun _ => [], [], false⟩).Ok s.q.waitSeq s.q.queued d.key.host
        (s.flying d.key.host) := by
      cases hx : s.q.hosts d.key.host with
      | some hq => exact h.host _ hq hx
      | none =>
        obtain ⟨hnil, hnone⟩ := h.absent _ hx
        rw [hnil]
        exact .empty hnone
    have hadd := hok.enqueue (classOf d) ⟨d.key, false, false, false, pendingChange, 0, 0⟩ rfl hnew rfl
    refine h.update (x := d.key.host) (h.toBase.update rfl hadd (fun _ _ => rfl) (fun k hk => ?_)
      (Nat.le_refl _) rfl (fun k hk => ?_) ?_) rfl (.inr fun hnil => ?_)
    · exact Function.update_of_ne (fun hkd => hk (congrArg SuiteKey.host hkd)) ..
    · show Function.update s.q.queued d.key true k = true
      by_cases hkd : k = d.key
      · rw [hkd, Function.update_self]
      · rw [Function.update_of_ne hkd]
        exact h.pending k hk
    · have hturn := h.turn
      show s.q.next ≤ (if s.q.hosts d.key.host = none then s.q.order ++ [d.key.host] else s.q.order).length - 1
      split
      · rw [List.length_append, List.length_singleton]
        omega
      · exact hturn
    · exact items_append_class_ne hnil

end Inv

/-! ### The turn of a host -/

/-- The item of a host's turn and the host's queues after it: an offered waiter, or the first of a
class. -/
inductive Turn (admits : Bool → Bool) (pending : SuiteKey → Bool) (h : HostQueue) : SchedItem → HostQueue → Prop
  | offered {w : SchedItem} (hw : h.waiting.find? (SchedQueues.offerable admits) = some w) :
    Turn admits pending h w
      { h with waiting := h.waiting.eraseP (SchedQueues.offerable admits), inFlight := true }
  | first {c : SchedClass} {it : SchedItem} {rest : List SchedItem} (hc : h.classes c = it :: rest)
    (hnone : h.waiting.find? (SchedQueues.offerable admits) = none) :
    Turn admits pending h { it with pendingChange := it.pendingChange || pending it.key }
      { h with classes := Function.update h.classes c (h.classes c).tail, inFlight := true }

theorem popAt_inv {q q' : SchedQueues} {admits : Str → Bool → Bool} {idx : Nat} {item : SchedItem}
    (h : q.popAt admits idx = some (item, q')) :
    ∃ host hq hq' pending, q.order[idx]? = some host ∧ q.hosts host = some hq ∧ hq.inFlight = false ∧
      Turn (admits host) q.pending hq item hq' ∧
      q' = { q.setHost host hq' with next := (idx + 1) % q.order.length, pending := pending } ∧
      ∀ k, pending k = true → q.pending k = true := by
  unfold SchedQueues.popAt at h
  split at h
  · cases h
  rename_i host hhost
  split at h
  · cases h
  rename_i hq hhq
  split at h
  · cases h
  rename_i hidle
  have hidle : hq.inFlight = false := by simpa using hidle
  simp only at h
  split at h
  · rename_i w hw
    cases h
    exact ⟨host, hq, _, q.pending, hhost, hhq, hidle, .offered hw, rfl, fun _ hk => hk⟩
  · rename_i hnone
    split at h
    · rename_i c it hfirst
      obtain ⟨rest, hc⟩ := firstOfClass_head hfirst
      cases h
      refine ⟨host, hq, _, _, hhost, hhq, hidle, .first hc hnone, rfl, fun k hk => ?_⟩
      by_cases hkey : k = it.key
      · rw [hkey, Function.update_self] at hk
        cases hk
      · rwa [Function.update_of_ne hkey] at hk
    · cases h

namespace Turn

variable {admits : Bool → Bool} {pending : SuiteKey → Bool} {h h' : HostQueue} {item : SchedItem}

theorem inFlight (ht : Turn admits pending h item h') : h'.inFlight = true := by
  cases ht <;> rfl

/-- The item leaves the queues of its host. -/
theorem ok (ht : Turn admits pending h item h') {waitSeq : Nat} {queued : SuiteKey → Bool} {host : Str}
    {flying : List SchedItem} (hok : h.Ok waitSeq queued host flying) (hidle : h.inFlight = false) (gen : Nat) :
    h'.Ok waitSeq queued host (flying ++ [{ item with gen := gen }]) ∧ item.key.host = host := by
  cases ht with
  | offered hw =>
    have hmem := List.mem_of_find?_eq_some hw
    have hperm := perm_eraseP hw
    refine ⟨hok.take hidle (items_waiting hperm) rfl (fun _ _ hx => hx) List.eraseP_sublist rfl fun _ =>
      ⟨(hok.waiting item hmem).2, fun v hv => ?_⟩, hok.own item (List.mem_append_right _ hmem)⟩
    -- The numbers in the list are distinct, so nobody else has the number of the item.
    have hnodup : (h.waiting.map SchedItem.waitSeq).Nodup :=
      List.Pairwise.map _ (fun _ _ hlt => Nat.ne_of_lt hlt) hok.sorted
    have hcons := (hperm.map SchedItem.waitSeq).nodup_iff.mp hnodup
    intro heq
    exact (List.nodup_cons.mp hcons).1 (heq ▸ List.mem_map_of_mem hv)
  | first hc hnone =>
    rename_i c it rest
    have hmem : it ∈ h.classes c := by rw [hc]; exact List.mem_cons_self
    have hperm := items_tail_class hc
    refine ⟨hok.take hidle hperm rfl (fun c' x (hx : x ∈ Function.update h.classes c _ c') => ?_)
      (List.Sublist.refl _) rfl fun hw => ?_, hok.own it (hperm.mem_iff.mpr List.mem_cons_self)⟩
    · by_cases hcc : c' = c
      · subst hcc
        rw [Function.update_self] at hx
        exact List.mem_of_mem_tail hx
      · rwa [Function.update_of_ne hcc] at hx
    · rw [hok.classes c it hmem] at hw
      cases hw

end Turn

theorem findSome?_range {β : Type} {f : Nat → Option β} {n : Nat} {b : β}
    (h : (List.range n).findSome? f = some b) : ∃ i < n, f i = some b ∧ ∀ j < i, f j = none := by
  induction n with
  | zero => cases h
  | succ n ih =>
    rw [List.range_succ, List.findSome?_append] at h
    cases hn : (List.range n).findSome? f with
    | some b' =>
      rw [hn] at h
      cases h
      obtain ⟨i, hi, hsome, hnone⟩ := ih hn
      exact ⟨i, Nat.lt_succ_of_lt hi, hsome, hnone⟩
    | none =>
      rw [hn, Option.none_or] at h
      refine ⟨n, Nat.lt_succ_self n, by simpa using h, fun j hj => ?_⟩
      exact List.findSome?_eq_none_iff.mp hn j (List.mem_range.mpr hj)

/-- What `pop` does: the turn of the first host on the ring that has one. -/
theorem pop_inv {q q' : SchedQueues} {admits : Str → Bool → Bool} {item : SchedItem}
    (h : q.pop admits = some (item, q')) :
    ∃ i < q.order.length, q.popAt admits ((q.next + i) % q.order.length) = some (item, q') ∧
      ∀ j < i, q.popAt admits ((q.next + j) % q.order.length) = none := findSome?_range h

namespace Inv

variable {s : Queued}

variable {item : SchedItem} {i : Nat}

theorem pop (h : Inv s) {admits : Str → Bool → Bool} {q : SchedQueues}
    (hpop : s.q.pop admits = some (item, q)) (gen : Nat) :
    Inv ⟨q, s.popped ++ [{ item with gen := gen }]⟩ := by
  obtain ⟨i, hi, hat, -⟩ := pop_inv hpop
  obtain ⟨host, hq, hq', pending, hhost, hhq, hidle, ht, rfl, hpend⟩ := popAt_inv hat
  obtain ⟨hok, hkey⟩ := ht.ok (h.host host hq hhq) hidle gen
  have hfly (x : Str) : Queued.flying ⟨{ s.q.setHost host hq' with
      next := ((s.q.next + i) % s.q.order.length + 1) % s.q.order.length, pending := pending },
      s.popped ++ [{ item with gen := gen }]⟩ x =
      s.flying x ++ bif host == x then [{ item with gen := gen }] else [] := by
    unfold Queued.flying
    simp only [List.filter_append, List.filter_singleton, hkey]
  refine h.update (x := host) (h.toBase.update rfl ?_ (fun y hy => ?_) (fun _ _ => rfl) (Nat.le_refl _) ?_
    (fun k hk => h.pending k (hpend k hk)) ?_) rfl (.inl ht.inFlight)
  · rw [hfly host, beq_self_eq_true]
    exact hok
  · rw [hfly y]
    have hne : (host == y) = false := by simpa using Ne.symm hy
    simp [hne]
  · exact (if_neg (by rw [hhq]; exact Option.some_ne_none _)).symm
  · have hlt := Nat.mod_lt ((s.q.next + i) % s.q.order.length + 1) (y := s.q.order.length) (by omega)
    show ((s.q.next + i) % s.q.order.length + 1) % s.q.order.length ≤ s.q.order.length - 1
    omega

theorem popped_host (h : Inv s) (hi : s.popped[i]? = some item) :
    ∃ hq, s.q.hosts item.key.host = some hq ∧ s.flying item.key.host = [item] ∧
      hq.Ok s.q.waitSeq s.q.queued item.key.host [item] ∧
      ∀ q', Queued.flying ⟨q', s.popped.eraseIdx i⟩ item.key.host = [] := by
  have hmem : item ∈ s.flying item.key.host :=
    List.mem_filter.mpr ⟨List.mem_of_getElem? hi, beq_self_eq_true _⟩
  cases hx : s.q.hosts item.key.host with
  | none =>
    rw [(h.absent _ hx).1] at hmem
    cases hmem
  | some hq =>
    have hok := h.host _ hq hx
    have hlen : (s.flying item.key.host).length ≤ 1 := by
      rw [hok.flight]
      split <;> omega
    have hself (q' : SchedQueues) : s.flying item.key.host = [item] ∧
        Queued.flying ⟨q', s.popped.eraseIdx i⟩ item.key.host = [] := flying_eraseIdx_self hi hlen
    have hone := (hself s.q).1
    exact ⟨hq, rfl, hone, hone ▸ hok, fun q' => (hself q').2⟩

theorem done (h : Inv s) (hi : s.popped[i]? = some item) :
    Inv ⟨s.q.done item, s.popped.eraseIdx i⟩ := by
  obtain ⟨hq, hx, -, hok, herase⟩ := h.popped_host hi
  unfold SchedQueues.done
  rw [hx]
  refine Base.prune (h.toBase.update (x := item.key.host) rfl ?_ (fun y hy => flying_eraseIdx_of_ne hi hy)
    (fun k hk => Function.update_of_ne (fun hkd => hk (congrArg SuiteKey.host hkd)) ..) (Nat.le_refl _) ?_
    (fun k (hk : Function.update s.q.pending item.key false k = true) => ?_) h.turn)
  · rw [herase]
    exact hok.finished
  · exact (if_neg (by rw [hx]; exact Option.some_ne_none _)).symm
  · show Function.update s.q.queued item.key false k = true
    by_cases hkd : k = item.key
    · rw [hkd, Function.update_self] at hk
      cases hk
    · rw [Function.update_of_ne hkd] at hk ⊢
      exact h.pending k hk

/-- A popped item comes back under its key. -/
theorem park (h : Inv s) {item' : SchedItem} (hi : s.popped[i]? = some item)
    (hkey : item'.key = item.key) (hw : item'.waiting = item.waiting)
    (hseq : item'.waitSeq = item.waitSeq) (signed : Bool) :
    Inv ⟨s.q.park item' signed, s.popped.eraseIdx i⟩ := by
  obtain ⟨hq, hx, -, hok, herase⟩ := h.popped_host hi
  unfold SchedQueues.park
  rw [hkey, hx]
  have hfly := hok.flying item List.mem_cons_self
  have hpark : HostQueue.Ok (if item'.waiting then s.q.waitSeq else s.q.waitSeq + 1) s.q.queued item.key.host []
      { hq with inFlight := false, waiting := SchedQueues.insertWaiting hq.waiting (s.q.waiter item' signed) } := by
    refine hok.park ?_ hkey rfl rfl ?_ fun w hwm => ?_
    · split <;> omega
    · show (if item'.waiting then item'.waitSeq else s.q.waitSeq + 1) ≤ _
      split
      · rename_i hwt
        rw [hseq]
        exact (hfly (hw ▸ hwt)).1
      · exact Nat.le_refl _
    · show w.waitSeq ≠ if item'.waiting then item'.waitSeq else s.q.waitSeq + 1
      split
      · rename_i hwt
        rw [hseq]
        exact (hfly (hw ▸ hwt)).2 w hwm
      · have := (hok.waiting w hwm).2
        omega
  refine h.update (x := item.key.host) (h.toBase.update rfl ?_ (fun y hy => flying_eraseIdx_of_ne hi hy)
    (fun _ _ => rfl) ?_ ?_ h.pending h.turn) rfl (.inr fun hnil => ?_)
  · rw [herase]
    exact hpark
  · show s.q.waitSeq ≤ if item'.waiting then s.q.waitSeq else s.q.waitSeq + 1
    split <;> omega
  · exact (if_neg (by rw [hx]; exact Option.some_ne_none _)).symm
  · have hmem : s.q.waiter item' signed ∈ SchedQueues.insertWaiting hq.waiting (s.q.waiter item' signed) :=
      (insertWaiting_perm hq.waiting).mem_iff.mpr List.mem_cons_self
    have hitems := List.mem_append_right (hq.classes .healthy ++ hq.classes .neverChecked ++ hq.classes .failing) hmem
    rw [show hq.classes .healthy ++ hq.classes .neverChecked ++ hq.classes .failing ++
      SchedQueues.insertWaiting hq.waiting (s.q.waiter item' signed) = [] from hnil] at hitems
    cases hitems

theorem finish (h : Inv s) (hi : s.popped[i]? = some item) (report : CheckReport) (gen : Nat) :
    Inv ⟨s.q.finish item report gen, s.popped.eraseIdx i⟩ := by
  unfold SchedQueues.finish
  split
  · refine h.park hi ?_ ?_ ?_ _ <;> rfl
  · split
    · refine h.park hi ?_ ?_ ?_ _ <;> rfl
    · exact h.done hi

theorem mapWaiting (h : Inv s) {f : SchedItem → SchedItem}
    (hf : ∀ w, (f w).key = w.key ∧ (f w).waiting = w.waiting ∧ (f w).waitSeq = w.waitSeq) :
    Inv { s with q := s.q.mapWaiting f } := by
  have hsome {x : Str} {hq : HostQueue} (hx : (s.q.mapWaiting f).hosts x = some hq) :
      ∃ hq₀, s.q.hosts x = some hq₀ ∧ hq = { hq₀ with waiting := hq₀.waiting.map f } := by
    obtain ⟨hq₀, hx₀, rfl⟩ := Option.map_eq_some_iff.mp hx
    exact ⟨hq₀, hx₀, rfl⟩
  refine ⟨⟨fun x hq hx => ?_, fun x hx => ?_, h.nodup, fun x => ?_, h.pending, h.turn⟩, fun x hq hx => ?_⟩
  · obtain ⟨hq₀, hx₀, rfl⟩ := hsome hx
    exact (h.host x hq₀ hx₀).mapWaiting hf
  · exact h.absent x (Option.map_eq_none_iff.mp hx)
  · refine (h.ring x).trans ?_
    show (s.q.hosts x).isSome ↔ ((s.q.hosts x).map _).isSome
    rw [Option.isSome_map]
  · obtain ⟨hq₀, hx₀, rfl⟩ := hsome hx
    refine (h.work x hq₀ hx₀).imp id fun hne hnil => hne ?_
    simpa [HostQueue.items] using hnil

end Inv

theorem inv_inductive : queues.Inductive Inv where
  init s hs := by
    subst hs
    refine ⟨⟨fun x h hx => ?_, fun x _ => ⟨rfl, fun _ _ => rfl⟩, .nil, fun x => ?_, fun k hk => ?_, Nat.le_refl _⟩,
      fun x h hx => ?_⟩
    · cases hx
    · simp [SchedQueues.new]
    · cases hk
    · cases hx
  step s op s' h hs := by
    cases op with
    | enqueue d pendingChange =>
      cases hs
      exact h.enqueue d pendingChange
    | pop admits gen =>
      simp only [queues, Queued.step] at hs
      split at hs
      · rename_i item q hpop
        cases hs
        exact h.pop hpop gen
      · cases hs
        exact h
    | finish i report gen =>
      obtain ⟨item, hi, rfl⟩ := Option.map_eq_some_iff.mp hs
      exact h.finish hi report gen
    | park i signed =>
      obtain ⟨item, hi, rfl⟩ := Option.map_eq_some_iff.mp hs
      exact h.park hi rfl rfl rfl signed
    | done i =>
      obtain ⟨item, hi, rfl⟩ := Option.map_eq_some_iff.mp hs
      exact h.done hi
    | unhold =>
      cases hs
      exact h.mapWaiting fun w => ⟨rfl, rfl, rfl⟩
    | refreshSigned signed =>
      cases hs
      exact h.mapWaiting fun w => ⟨rfl, rfl, rfl⟩

/-! ## Where a suite is -/

/-- Where an item can be. -/
inductive Place
  | class (host : Str) (c : SchedClass)
  | waiting (host : Str)
  | popped
  deriving DecidableEq

namespace Queued

/-- The items at a place. -/
def itemsAt (s : Queued) : Place → List SchedItem
  | .class host c => ((s.q.hosts host).map fun h => h.classes c).getD []
  | .waiting host => ((s.q.hosts host).map fun h => h.waiting).getD []
  | .popped => s.popped

/-- How often a suite is at a place. -/
def countAt (s : Queued) (k : SuiteKey) (p : Place) : Nat := (s.itemsAt p).countP (·.key == k)

end Queued

/-- The places of a suite: the queues of its own host, and the popped items. -/
def ownPlaces (k : SuiteKey) : List Place :=
  [.class k.host .healthy, .class k.host .neverChecked, .class k.host .failing, .waiting k.host, .popped]

section Where

variable {s : Queued}

theorem countAt_popped (s : Queued) (k : SuiteKey) :
    s.countAt k .popped = (s.flying k.host).countP (·.key == k) := by
  unfold Queued.countAt Queued.flying
  rw [List.countP_filter]
  refine List.countP_congr fun it _ => ?_
  simp only [beq_iff_eq, Bool.and_eq_true]
  exact ⟨fun h => ⟨h, h ▸ rfl⟩, And.left⟩

/-- Over its own places a suite is counted once if it is marked, and never if not. -/
theorem sum_countAt (h : Inv s) (k : SuiteKey) :
    ((ownPlaces k).map (s.countAt k)).sum = if s.q.queued k then 1 else 0 := by
  simp only [ownPlaces, List.map_cons, List.map_nil, List.sum_cons, List.sum_nil, countAt_popped]
  cases hx : s.q.hosts k.host with
  | none =>
    obtain ⟨hnil, hnone⟩ := h.absent _ hx
    simp [Queued.countAt, Queued.itemsAt, hx, hnil, hnone k rfl]
  | some hq =>
    rw [(h.host _ hq hx).once k rfl]
    simp only [Queued.countAt, Queued.itemsAt, hx, Option.map_some, Option.getD_some, HostQueue.items,
      List.countP_append]
    omega

theorem countAt_of_notMem (h : Inv s) {k : SuiteKey} {p : Place} (hp : p ∉ ownPlaces k) : s.countAt k p = 0 := by
  have hown {x : Str} {hq : HostQueue} (hx : s.q.hosts x = some hq) (hne : x ≠ k.host) {it : SchedItem}
      (hit : it ∈ hq.items) : ¬ (it.key == k) = true := by
    intro hk
    have hhost := (h.host x hq hx).own it hit
    rw [eq_of_beq hk] at hhost
    exact hne hhost.symm
  unfold Queued.countAt
  refine List.countP_eq_zero.mpr fun it hit => ?_
  cases p with
  | popped => exact absurd (by simp [ownPlaces]) hp
  | «class» host c =>
    have hne : host ≠ k.host := by
      rintro rfl
      cases c <;> simp [ownPlaces] at hp
    cases hx : s.q.hosts host with
    | none => simp [Queued.itemsAt, hx] at hit
    | some hq =>
      simp only [Queued.itemsAt, hx, Option.map_some, Option.getD_some] at hit
      refine hown hx hne ?_
      cases c <;> simp [HostQueue.items, hit]
  | waiting host =>
    have hne : host ≠ k.host := by
      rintro rfl
      simp [ownPlaces] at hp
    cases hx : s.q.hosts host with
    | none => simp [Queued.itemsAt, hx] at hit
    | some hq =>
      simp only [Queued.itemsAt, hx, Option.map_some, Option.getD_some] at hit
      exact hown hx hne (List.mem_append_right _ hit)

end Where

/-! ## Every run -/

/-- What the containers and the marks say in a state of the queues. -/
structure Sound (s : Queued) : Prop where
  /-- A marked suite is at one of its own places, once, and nowhere else. -/
  queued : ∀ k, s.q.queued k = true ↔
    ∃ p ∈ ownPlaces k, s.countAt k p = 1 ∧ ∀ p', p' ≠ p → s.countAt k p' = 0
  /-- A suite that is not marked is nowhere. -/
  unqueued : ∀ k, s.q.queued k = false → ∀ p, s.countAt k p = 0
  single : ∀ x, (s.flying x).length ≤ 1
  /-- The hosts with a check in flight are those of the popped items. -/
  inFlight : ∀ x, (∃ h, s.q.hosts x = some h ∧ h.inFlight = true) ↔ ∃ it ∈ s.popped, it.key.host = x
  nodup : s.q.order.Nodup
  ring : ∀ x, x ∈ s.q.order ↔ (s.q.hosts x).isSome = true
  /-- No host is left without work or a check in flight. -/
  work : ∀ x h, s.q.hosts x = some h → h.inFlight = true ∨ h.items ≠ []
  sorted : ∀ x h, s.q.hosts x = some h → h.waiting.Pairwise fun v w => v.waitSeq < w.waitSeq
  pending : ∀ k, s.q.pending k = true → s.q.queued k = true
  next : s.q.order ≠ [] → s.q.next < s.q.order.length

namespace Inv

variable {s : Queued}

theorem countAt_of_unqueued (h : Inv s) {k : SuiteKey} (hk : s.q.queued k = false) (p : Place) :
    s.countAt k p = 0 := by
  by_cases hp : p ∈ ownPlaces k
  · have hsum := sum_countAt h k
    rw [hk] at hsum
    have hle := List.single_le_sum (fun n _ => Nat.zero_le n) _ (List.mem_map_of_mem (f := s.countAt k) hp)
    rw [hsum] at hle
    exact Nat.le_zero.mp hle
  · exact countAt_of_notMem h hp

theorem queued_iff (h : Inv s) (k : SuiteKey) : s.q.queued k = true ↔
    ∃ p ∈ ownPlaces k, s.countAt k p = 1 ∧ ∀ p', p' ≠ p → s.countAt k p' = 0 := by
  constructor
  · intro hk
    have hsum := sum_countAt h k
    rw [hk] at hsum
    obtain ⟨p, hp, hone, hzero⟩ := exists_of_sum_eq_one hsum
    refine ⟨p, hp, hone, fun p' hne => ?_⟩
    by_cases hp' : p' ∈ ownPlaces k
    · exact hzero p' hp' hne
    · exact countAt_of_notMem h hp'
  · rintro ⟨p, -, hone, -⟩
    by_contra hk
    rw [h.countAt_of_unqueued (Bool.not_eq_true _ ▸ hk) p] at hone
    cases hone

theorem inFlight_iff (h : Inv s) (x : Str) :
    (∃ hq, s.q.hosts x = some hq ∧ hq.inFlight = true) ↔ ∃ it ∈ s.popped, it.key.host = x := by
  have hmem : (∃ it ∈ s.popped, it.key.host = x) ↔ 0 < (s.flying x).length := by
    simp [Queued.flying, List.length_pos_iff_exists_mem]
  rw [hmem]
  cases hx : s.q.hosts x with
  | none => simp [(h.absent x hx).1]
  | some hq =>
    rw [(h.host x hq hx).flight]
    cases hf : hq.inFlight <;> simp [hf]

theorem sound (h : Inv s) : Sound s where
  queued := h.queued_iff
  unqueued _ hk := h.countAt_of_unqueued hk
  single x := by
    cases hx : s.q.hosts x with
    | none => simp [(h.absent x hx).1]
    | some hq =>
      rw [(h.host x hq hx).flight]
      split <;> omega
  inFlight := h.inFlight_iff
  nodup := h.nodup
  ring := h.ring
  work := h.work
  sorted x hq hx := (h.host x hq hx).sorted
  pending := h.pending
  next hne := by
    have hlen := List.length_pos_iff.mpr hne
    have := h.turn
    omega

end Inv

/-- In every run of the operations the containers, the ring and the marks agree. -/
theorem queue_invariant {s : Queued} (hs : queues.Reach s) : Sound s := (inv_inductive.reach hs).sound

/-- Three suites of two hosts: one is checked and finds no slot, one is done, and the third is noted
as changed while it is queued. -/
def threeSuites : List QueueOp :=
  [.enqueue ⟨⟨.http, ['a'], ['x']⟩, 0, some 1⟩ false,
    .enqueue ⟨⟨.http, ['a'], ['y']⟩, 1, some 1⟩ false,
    .enqueue ⟨⟨.http, ['b'], ['x']⟩, 0, none⟩ false,
    .pop (fun _ _ => true) 0, .pop (fun _ _ => true) 0,
    .enqueue ⟨⟨.http, ['a'], ['y']⟩, 1, some 1⟩ true, .finish 0 ⟨.changedQueued, true⟩ 0, .done 0]

/-- The queues after `threeSuites`. -/
def threeSuitesEnd : Queued := (queues.exec ⟨.new, []⟩ threeSuites).getD ⟨.new, []⟩

/-- Host `b` has left the ring; the suites of `a` are in a class queue and in the waiting list. -/
theorem queue_invariant_threeSuites :
    queues.Reach threeSuitesEnd ∧ threeSuitesEnd.q.order = [['a']] ∧
    threeSuitesEnd.countAt ⟨.http, ['a'], ['x']⟩ (.waiting ['a']) = 1 ∧
    threeSuitesEnd.countAt ⟨.http, ['a'], ['y']⟩ (.class ['a'] .failing) = 1 ∧
    threeSuitesEnd.q.pending ⟨.http, ['a'], ['y']⟩ = true ∧ Sound threeSuitesEnd := by
  have hreach : queues.Reach threeSuitesEnd := .exec rfl (eq_some_getD _ (by decide +kernel))
  exact ⟨hreach, by decide +kernel, by decide +kernel, by decide +kernel, by decide +kernel,
    queue_invariant hreach⟩

end AptCacher.Freshness
