import AptCacher.Handler.Strict

/-!
# Validation of packages

A package is validated against the hashes that current snapshots declare for its path. A request
that lives through stores with one and the same declaration should get that file or none. Two things
can break this: a request may join a miss whose check after the download read a declaration that was
replaced before the request arrived, and `DeclaredHashesForPath` is two statements that can read two
states.

* `checks`: the reads of a call's check after the download.
* `validationRules`: a checked miss is joined only while its check would read the same, and the second
  statement of a lookup reads a state in which the first one would still find nothing.
* `package_validation`: under these rules a body fits the declarations of the request's interval.
* `outdated_joined`: a run in which a request is sent the file that it has just evicted.
-/

namespace AptCacher.Handler

open Spec Cache Aptpath Proxy
open Prog (Sat)
open Flight (wpStore sat_body sat_of_forall wpStore_mono)

variable {B : Type}

/-- The event is a read of declared hashes. -/
def Event.reads : Event → Bool
  | .declared _ _ => true
  | _ => false

/-- The reads of declared hashes after a download. -/
def checks (l : Log B) : Log B :=
  (l.dropWhile fun y => y.2 != .download).filter fun y => y.2.reads

/-- A lookup by suffix reads a state in which the exact lookup finds nothing. -/
def readsOneState {β : Type} : Eff B β → Store B → Bool
  | .read (.declaredHashesBySuffix u), s => s.db.declaredExact u == []
  | _, _ => true

/-- A miss that is checked is joined only where the declarations are those that it read. -/
def joinsUnchanged : Key → Log B → Store B → Bool
  | .miss u, l, s => (checks l).all fun y =>
    distinctDeclared (y.1.db.declaredHashes u) == distinctDeclared (s.db.declaredHashes u)
  | _, _, _ => true

/-- The conditions of `package_validation`. -/
def validationRules : Flight.Rules (Eff B) (Store B) Event Key :=
  ⟨fun _ e s => readsOneState e s, joinsUnchanged⟩

/-- The declarations of a store do not speak against the hash. -/
def Admits (s : Store B) (u : UrlKey) (hash : Str) : Prop :=
  distinctDeclared (s.db.declaredHashes u) = [] ∨ distinctDeclared (s.db.declaredHashes u) = [hash]

/-- A miss of a package read, after its download, declarations that admit its hash. -/
def ValidRes : Key → Log B → Result → Prop
  | .miss u, l, .ok fetched => isMetadata u.path = false →
    ∃ l₁ s rows, l₁ ++ [(s, .declared u rows)] <+: l ∧ (∃ y ∈ l₁, y.2 = .download) ∧
      Admits s u fetched.blobHash
  | _, _, _ => True

section Validation

variable {c : Content B} {cfg : Config} {f : Faults} {req : Request} {F : Set (Store B)} {l : Log B}

/-- Under the rules a lookup finds what both statements find in one state. -/
theorem Finds.declaredHashes {u : UrlKey} {s : Store B} {rows : List DeclaredHash}
    (h : Finds validationRules u l s rows) : rows = s.db.declaredHashes u := by
  unfold Db.declaredHashes
  rcases h with ⟨rfl, hne⟩ | ⟨rfl, hok⟩
  · rw [if_neg hne]
  · have hexact : (s.db.declaredExact u == []) = true := hok
    rw [if_pos (by simpa using hexact)]

theorem Finds.admits {u : UrlKey} {s : Store B} {rows : List DeclaredHash} {hash : Str}
    (h : Finds validationRules u l s rows) (hd : distinctDeclared rows = [hash] ∨ rows = []) :
    Admits s u hash := by
  rw [Admits, ← h.declaredHashes]
  rcases hd with hd | rfl
  · exact .inr hd
  · exact .inl rfl

/-- What the hit path serves, a store of the request admits. -/
theorem Rests.admits {u : UrlKey} {hash : Str} (h : Rests validationRules F cfg u l hash) :
    ∃ s ∈ F, Admits s u hash := by
  obtain ⟨rows, ⟨l₁, s, hs, -, hfinds⟩, hd⟩ := h
  exact ⟨s, hs, hfinds.admits (hd.imp_right And.left)⟩

theorem mem_checks {l₁ : Log B} {y : Store B × Event} (hl : l₁ ++ [y] <+: l)
    (hy : y.2.reads = true) (hdown : ∃ z ∈ l₁, z.2 = .download) : y ∈ checks l := by
  obtain ⟨l₂, rfl⟩ := hl
  obtain ⟨z, hz, he⟩ := hdown
  induction l₁ with
  | nil => exact absurd hz List.not_mem_nil
  | cons a l₁ ih =>
    by_cases ha : a.2 = .download
    · have hstop : (a.2 != Event.download) = false := by simp [ha]
      simp only [checks, List.cons_append, List.dropWhile_cons, hstop, Bool.false_eq_true, if_false]
      exact List.mem_filter.mpr ⟨by simp, hy⟩
    · have hgo : (a.2 != Event.download) = true := by simp [ha]
      simp only [checks, List.cons_append, List.dropWhile_cons, hgo, if_true]
      refine ih ?_
      rcases List.mem_cons.mp hz with rfl | hz
      · exact absurd he ha
      · exact hz

/-- The read that validates a call's result comes before the join or after it. -/
theorem mem_checks_or {l₀ l₁ l₂ : Log B} {y : Store B × Event} (h : l₂ ++ [y] <+: l₀ ++ l₁)
    (hy : y.2.reads = true) (hdown : ∃ z ∈ l₂, z.2 = .download) : y ∈ checks l₀ ∨ y ∈ l₁ := by
  rcases List.prefix_or_prefix_of_prefix h (List.prefix_append l₀ l₁) with hp | hp
  · exact .inl (mem_checks hp hy hdown)
  · rcases List.prefix_concat_iff.mp hp with rfl | ⟨l₃, rfl⟩
    · exact .inl (mem_checks (List.prefix_refl _) hy hdown)
    · rw [List.append_assoc, List.prefix_append_right_inj] at h
      exact .inr (h.subset (List.mem_append_right _ (List.mem_singleton.mpr rfl)))

theorem runFetch_valid {tracked : Bool} (hf : f.reads = false) (hmeta : req.isMetadata = false) :
    Sat (wpStore (sem c f) validationRules F) (runFetch c cfg req tracked) l
      fun r l' => ∀ fetched, r = .ok fetched → ∃ l₁ s rows,
        l₁ ++ [(s, .declared req.url rows)] <+: l' ∧ (∃ y ∈ l₁, y.2 = .download) ∧
        Admits s req.url fetched.blobHash := by
  refine runFetch_package (G := fun l' hash => ∃ l₁ s rows,
      l₁ ++ [(s, .declared req.url rows)] <+: l' ∧ (∃ y ∈ l₁, y.2 = .download) ∧
      Admits s req.url hash) hmeta ?_ (prefetchCheck_go hf) fun unread l₁ b s hs hgo => ?_
  · rintro l l' h hl ⟨l₁, s, rows, hp, hrest⟩
    exact ⟨l₁, s, rows, hp.trans hl, hrest⟩
  · obtain ⟨rfl, -⟩ := hgo
    refine (promoteFetched_ok hf hmeta).mono (wpStore_mono F) fun r l₂ hr hash hok => ?_
    obtain ⟨s', -, rows, hfinds, hp, hd⟩ := hr hash hok
    refine ⟨_, s', rows, hp, ⟨(s, .download), by simp, rfl⟩, hfinds.admits hd⟩

theorem valid_bodies (hf : f.reads = false) : Bodies c cfg f validationRules ValidRes where
  miss req tracked := by
    refine sat_body.mpr ?_
    by_cases hmeta : req.isMetadata = false
    · refine (runFetch_valid hf hmeta).mono (wpStore_mono _) fun r l hr => ?_
      cases r with
      | error e => trivial
      | ok fetched => exact fun _ => hr fetched rfl
    · refine sat_of_forall fun r l => ?_
      cases r with
      | error e => trivial
      | ok fetched => exact fun h => absurd h hmeta
  recovery req declared := sat_body.mpr (sat_of_forall fun _ _ => trivial)
  onboard req := sat_body.mpr (sat_of_forall fun _ _ => trivial)

/-- A body that is sent is admitted by a store of the request's interval. -/
theorem body_admitted {contexts : Bool} {w : World B}
    (h : ((server c cfg ⟨false, contexts⟩).guard fun w a =>
      validationRules.allows w a = true).Reach w)
    {t : Flight.Thread (Eff B) (Store B) Event Key Result Request (Response B)}
    (ht : t ∈ w.threads) {source : Source} {b : B} (ha : t.phase.answer = some (.body source b))
    (hmeta : t.req.isMetadata = false) : ∃ s ∈ t.seen, Admits s t.req.url (c.sha256 b) := by
  refine Flight.answered ValidRes (fun (req : Request) _ => req.isMetadata = false)
    (fun req F a l => Justifies c (fun _ hash => ∃ s ∈ F, Admits s req.url hash) a l) ?_
    (fun req => (valid_bodies rfl).serveHTTP req) (fun req F hreq => ?_) h ht ha hmeta source b rfl
  · intro key s
    cases key <;> rfl
  · refine serveHTTP_package hreq (fun _ _ _ _ hs => hs) (fun l hash => ?_)
      fun l l₀ l₁ fetched hj hat hres => ?_
    · exact (checkPackageHash_serve rfl).mono (wpStore_mono F) fun r l' hr hs => (hr hs).admits
    · obtain ⟨s', hs', hjoin⟩ := hj
      obtain ⟨l₂, s, rows, hp, hdown, hadmits⟩ := hres hreq
      rcases mem_checks_or hp rfl hdown with hold | hnew
      · refine ⟨s', hs', ?_⟩
        rw [Admits, ← eq_of_beq (List.all_eq_true.mp hjoin _ hold)]
        exact hadmits
      · exact ⟨s, hat _ hnew, hadmits⟩

end Validation

/-- While reads succeed, no request joins a miss that was checked against other declarations and no
lookup reads two states: whatever else runs, if one hash is declared for a package's path from a
request's arrival to its answer, a body sent for it has this hash; if two are declared all along, no
body is sent. -/
theorem package_validation {c : Content B} {cfg : Config} {contexts : Bool} {w : World B}
    (h : ((server c cfg ⟨false, contexts⟩).guard fun w a =>
      validationRules.allows w a = true).Reach w)
    {t : Flight.Thread (Eff B) (Store B) Event Key Result Request (Response B)}
    (ht : t ∈ w.threads) {source : Source} {b : B} (ha : t.phase.answer = some (.body source b))
    (hmeta : t.req.isMetadata = false) :
    (∀ hash, (∀ s ∈ t.seen, distinctDeclared (s.db.declaredHashes t.req.url) = [hash]) →
      c.sha256 b = hash) ∧
    ¬ ∀ s ∈ t.seen, 2 ≤ (distinctDeclared (s.db.declaredHashes t.req.url)).length := by
  obtain ⟨s, hs, hadmits⟩ := body_admitted h ht ha hmeta
  constructor
  · intro hash hconst
    rcases hadmits with hd | hd
    · exact absurd (hd.symm.trans (hconst s hs)) (by simp)
    · exact (List.singleton_inj.mp (hd.symm.trans (hconst s hs)))
  · intro htwo
    have hlen := htwo s hs
    rcases hadmits with hd | hd
    · rw [hd] at hlen
      exact absurd hlen (by decide)
    · rw [hd] at hlen
      exact absurd hlen (by simp)

/-! ## Runs -/

/-- A second request joins the miss before its download, a third one after its check. -/
def joinedRun : List (Act Str) :=
  [.arrive debRequest, .step 0 .ok, .step 0 .ok, .arrive debRequest, .step 1 .ok, .step 1 .ok,
    .step 0 .yes, .step 0 .ok, .step 0 .yes, .step 0 (.bytes (digest 'c')), .step 0 .ok,
    .arrive debRequest, .step 2 .ok, .step 2 .ok, .step 0 .ok, .step 0 (.time 8 none),
    .step 0 (.time 8 none), .step 0 (.time 8 none), .step 0 .ok, .step 1 .ok, .step 1 .ok,
    .step 2 .ok, .step 2 .ok]

/-- The world after `joinedRun`. -/
def joinedServed : World Str :=
  (((server texts adopting ⟨false, true⟩).guard fun w a => validationRules.allows w a = true).exec
    (World.start vouchedStore) joinedRun).getD (World.start vouchedStore)

theorem package_validation_joinedServed :
    ∃ t ∈ joinedServed.threads, t.phase.answer = some (.body .fetched (digest 'c')) ∧
      texts.sha256 (digest 'c') = digest 'c' ∧
      ¬ ∀ s ∈ t.seen, 2 ≤ (distinctDeclared (s.db.declaredHashes t.req.url)).length := by
  have hrun : (joinedServed.threads.getLast?.map fun t => (t.phase.answer, t.req.isMetadata,
      t.seen.all fun s => distinctDeclared (s.db.declaredHashes t.req.url) == [digest 'c'])) =
      some (some (.body .fetched (digest 'c')), false, true) := by decide +kernel
  obtain ⟨t, ht, hy⟩ := Option.map_eq_some_iff.mp hrun
  obtain ⟨ha, hmeta, hseen⟩ := Prod.mk.injEq .. ▸ Prod.mk.injEq .. ▸ hy
  have hvalid := package_validation (c := texts)
    (.exec ⟨rfl, rfl⟩ (eq_some_getD _ (by decide +kernel))) (List.mem_of_mem_getLast? ht) ha hmeta
  refine ⟨t, List.mem_of_mem_getLast? ht, ha, hvalid.1 _ fun s hs => ?_, hvalid.2⟩
  exact eq_of_beq (List.all_eq_true.mp hseen s hs)

/-- The second candidate is adopted; it declares another file for the package. -/
def redeclare : Op :=
  .commitAdoption 2 [⟨2, "main/Packages".toList, digest 'b', digest 'b'⟩] []
    [⟨debRequest.url, 2, digest 'e', "x".toList, "all".toList, "2".toList, []⟩] [] true 7 7

/-- A miss publishes its result, and before its call is delisted the other file is declared. A
request arrives, reads the new declaration, evicts the cached row and joins the call. -/
def outdatedRun : List (Act Str) :=
  downloadRun (digest 'c') ++ .step 0 .ok :: promotionRun.take 5 ++
    [.env (.commit redeclare), .arrive debRequest, .step 1 .ok, .step 1 .ok, .step 1 (.time 9 none),
      .step 1 .ok, .step 1 .ok, .step 1 .ok]

/-- The world after `outdatedRun`. -/
def outdatedServed : World Str := .after texts adopting ⟨false, false⟩ vouchedStore outdatedRun

/-- One file is declared from the arrival to the answer, and the other one is sent. -/
theorem outdated_joined :
    sys.Reach vouchedDb ∧ (server texts adopting ⟨false, false⟩).Reach outdatedServed ∧
    ∃ t ∈ outdatedServed.threads, t.req = debRequest ∧ t.req.isMetadata = false ∧
      (∀ s ∈ t.seen, distinctDeclared (s.db.declaredHashes t.req.url) = [digest 'e']) ∧
      t.phase.answer = some (.body .fetched (digest 'c')) ∧
      texts.sha256 (digest 'c') ≠ digest 'e' := by
  have hrun : (outdatedServed.threads.getLast?.map fun t => (t.phase.answer, t.req,
      t.seen.all fun s => distinctDeclared (s.db.declaredHashes t.req.url) == [digest 'e'])) =
      some (some (.body .fetched (digest 'c')), debRequest, true) := by decide +kernel
  obtain ⟨t, ht, hy⟩ := Option.map_eq_some_iff.mp hrun
  obtain ⟨ha, hreq, hseen⟩ := Prod.mk.injEq .. ▸ Prod.mk.injEq .. ▸ hy
  exact ⟨vouchedDb_reach, World.after_reach (by decide +kernel), t, List.mem_of_mem_getLast? ht, hreq,
    hreq ▸ (by decide +kernel), fun s hs => eq_of_beq (List.all_eq_true.mp hseen s hs), ha,
    by decide +kernel⟩

end AptCacher.Handler
