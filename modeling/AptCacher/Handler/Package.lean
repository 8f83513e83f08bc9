import Mathlib.Data.List.Dedup
import AptCacher.Handler.Rules

/-!
# Packages

A request that is not for metadata is answered from its cached row, if the check of the hit path
lets it, or from a shared miss. What its record says of a body that is sent follows from three
facts: what the hit path's check ensures when it serves, what the check before a download ensures
when it goes on, and what the check after it ensures when it promotes.

* `checkPackageHash_serve`, `prefetchCheck_go`, `promoteFetched_ok`: the three checks, while reads
  succeed.
* `runFetch_package`: the miss, from its two checks.
* `serveHTTP_package`: the request, from the hit path's check and the miss.
-/

namespace AptCacher.Handler

open Spec Cache Aptpath Proxy
open Prog (Sat sat_bind)
open Flight (lift wpStore wpReq wpBody sat_lift sat_body sat_of_forall sat_grows wpStore_mono wpReq_mono)

variable {B : Type} {c : Content B} {f : Faults} {cfg : Config} {req : Request}
  {rules : Flight.Rules (Eff B) (Store B) Event Key} {F : Set (Store B)} {l : Log B}

theorem ofSuite_of_package (hmeta : req.isMetadata = false) : req.ofSuite = false := by
  simp only [Request.ofSuite, hmeta, Bool.false_and]

theorem barrierAnchor_of_package (hmeta : req.isMetadata = false) : barrierAnchor cfg req = false := by
  simp only [barrierAnchor, ofSuite_of_package hmeta, Bool.and_false, Bool.false_and]

/-! ## The checks -/

/-- What `DeclaredHashesForPath` finds: rows of the exact lookup, or the lookup by suffix in a store
in which it may be made. -/
def Finds (rules : Flight.Rules (Eff B) (Store B) Event Key) (u : UrlKey) (l : Log B) (s : Store B)
    (rows : List DeclaredHash) : Prop :=
  rows = s.db.declaredExact u ∧ rows ≠ [] ∨
    rows = s.db.declaredBySuffix u ∧ rules.ok l (.read (.declaredHashesBySuffix u)) s = true

/-- A recorded read of the declared hashes. -/
def Looked (rules : Flight.Rules (Eff B) (Store B) Event Key) (F : Set (Store B)) (u : UrlKey)
    (rows : List DeclaredHash) (l : Log B) : Prop :=
  ∃ l₁, ∃ s ∈ F, l₁ ++ [(s, .declared u rows)] <+: l ∧ Finds rules u l₁ s rows

/-- A recorded read of the coverage says that the host has no current signed snapshot, or one with
incomplete coverage. -/
def Unbound (u : UrlKey) (l : Log B) : Prop :=
  ∃ y ∈ l, ∃ rows, y.2 = .coverage u.scheme u.host rows ∧ (rows = [] ∨ ∃ r ∈ rows, r.2 = false)

variable {u : UrlKey} {rows : List DeclaredHash} {hash : Str}

theorem Looked.grow {l' : Log B} (h : Looked rules F u rows l) (hl : l <+: l') :
    Looked rules F u rows l' := by
  obtain ⟨l₁, s, hs, hp, hf⟩ := h
  exact ⟨l₁, s, hs, hp.trans hl, hf⟩

theorem Unbound.grow {l' : Log B} (h : Unbound u l) (hl : l <+: l') : Unbound u l' := by
  obtain ⟨y, hy, h⟩ := h
  exact ⟨y, hl.subset hy, h⟩

theorem distinctDeclared_eq_nil : distinctDeclared rows = [] ↔ rows = [] := by
  rw [distinctDeclared, List.dedup_eq_nil, List.map_eq_nil_iff]

theorem sat_finds {Q : Option (List DeclaredHash) → Log B → Prop} (hf : f.reads = false)
    (h : ∀ s ∈ F, ∀ rows, Finds rules u l s rows → Q (some rows) (l ++ [(s, .declared u rows)])) :
    Sat (wpStore (sem c f) rules F) (declaredHashesForPath u) l Q := by
  refine sat_declared (fun s hs hne => ?_) (fun s hs hok => ?_)
    fun hr => absurd hr (by rw [hf]; exact Bool.false_ne_true)
  · exact h s hs _ (.inl ⟨rfl, hne⟩)
  · exact h s hs _ (.inr ⟨rfl, hok⟩)

theorem sat_looked {Q : Option (List DeclaredHash) → Log B → Prop} (hf : f.reads = false)
    (h : ∀ rows l', l <+: l' → Looked rules F u rows l' → Q (some rows) l') :
    Sat (wpStore (sem c f) rules F) (declaredHashesForPath u) l Q := by
  refine sat_finds hf fun s hs rows hfinds => ?_
  exact h rows _ (List.prefix_append _ _) ⟨l, s, hs, List.prefix_refl _, hfinds⟩

/-- Strict mode lets an unvouched package pass only on a host that binds it to nothing. -/
theorem strictMode_passes {rows : List (Nat × Bool)} (h : strictMode rows ≠ .refuse) :
    rows = [] ∨ ∃ r ∈ rows, r.2 = false := by
  unfold strictMode at h
  split at h
  · exact .inl ‹_›
  · split at h
    · obtain ⟨r, hr, hc⟩ := List.any_eq_true.mp ‹_›
      exact .inr ⟨r, hr, by simpa using hc⟩
    · exact absurd rfl h

theorem sat_strict {Q : StrictMode → Log B → Prop} (hf : f.reads = false)
    (hrefuse : ∀ l', l <+: l' → Q .refuse l')
    (hpass : ∀ m l', m ≠ .refuse → m ≠ .canceled → l <+: l' →
      ((cfg.refuseUnvouchedDebs && cfg.adoptionEnabled) = true → Unbound req.url l') → Q m l') :
    Sat (wpStore (sem c f) rules F) (classifyStrictMode cfg req) l Q := by
  refine sat_strictMode (fun hoff => ?_) (fun s hs => ?_)
    fun hr => absurd hr (by rw [hf]; exact Bool.false_ne_true)
  · exact hpass _ _ (by decide) (by decide) (List.prefix_refl l) fun hon => absurd hon (by simp [hoff])
  · have hprefix := List.prefix_append l
      [(s, Event.coverage req.scheme req.host (s.db.hostCoverage req.scheme req.host))]
    by_cases hm : strictMode (s.db.hostCoverage req.scheme req.host) = .refuse
    · rw [hm]
      exact hrefuse _ hprefix
    · refine hpass _ _ hm ?_ hprefix fun _ => ?_
      · unfold strictMode
        split
        · decide
        · split <;> decide
      · exact ⟨_, List.mem_append_right _ (List.mem_singleton.mpr rfl), _, rfl, strictMode_passes hm⟩

/-- What a hash that is served or promoted rests on: a read that declares it alone, or one that
declares nothing, and then, for a `.deb` in strict mode, a host that is not bound. -/
def Rests (rules : Flight.Rules (Eff B) (Store B) Event Key) (F : Set (Store B)) (cfg : Config)
    (u : UrlKey) (l : Log B) (hash : Str) : Prop :=
  ∃ rows, Looked rules F u rows l ∧ (distinctDeclared rows = [hash] ∨ rows = [] ∧
    ((cfg.refuseUnvouchedDebs && cfg.adoptionEnabled) = true → isDebPath u.path = true → Unbound u l))

theorem checkDeclared_serve (h : Looked rules F req.url rows l) :
    Sat (wpStore (sem c f) rules F) (checkDeclared req hash rows) l
      fun r l' => r = .serve → Rests rules F cfg req.url l' hash := by
  unfold checkDeclared
  split
  · rename_i h' hd
    split
    · rename_i heq
      subst heq
      exact fun _ => ⟨rows, h, .inl hd⟩
    · exact sat_bind.mpr (sat_write fun _ h => nomatch h)
  · exact fun h => nomatch h

theorem checkPackageHashWith_serve {refusal : M B Check} (hf : f.reads = false)
    (hrefusal : ∀ l', l <+: l' → Sat (wpStore (sem c f) rules F) refusal l'
      fun r l' => r = .serve → Rests rules F cfg req.url l' hash) :
    Sat (wpStore (sem c f) rules F) (checkPackageHashWith cfg req hash refusal) l
      fun r l' => r = .serve → Rests rules F cfg req.url l' hash := by
  refine sat_bind.mpr (sat_looked hf fun rows l₁ h₁ hlook => ?_)
  dsimp only
  split
  · rename_i hrows
    subst hrows
    split
    · refine sat_bind.mpr (sat_strict hf (fun l₂ h₂ => hrefusal l₂ (h₁.trans h₂))
        fun m l₂ hm hc h₂ hon => ?_)
      have hserve : Rests rules F cfg req.url l₂ hash :=
        ⟨[], hlook.grow h₂, .inr ⟨rfl, fun hcfg _ => hon hcfg⟩⟩
      cases m with
      | refuse => exact absurd rfl hm
      | canceled => exact absurd rfl hc
      | inactive => exact fun _ => hserve
      | passthrough => exact fun _ => hserve
    · rename_i hdeb
      exact fun _ => ⟨[], hlook, .inr ⟨rfl, fun _ h => absurd h hdeb⟩⟩
  · exact checkDeclared_serve hlook

theorem checkPackageHash_serve (hf : f.reads = false) :
    Sat (wpStore (sem c f) rules F) (checkPackageHash cfg req hash) l
      fun r l' => r = .serve → Rests rules F cfg req.url l' hash := by
  refine checkPackageHashWith_serve hf fun l' _ => ?_
  unfold waitRefusal
  split
  · refine sat_bind.mpr (sat_ask fun inFlight => ?_)
    split
    · refine sat_bind.mpr (sat_ask fun waited => sat_bind.mpr (sat_ask fun ended => ?_))
      split
      · exact fun h => nomatch h
      · split
        · exact checkPackageHashWith_serve hf fun _ _ h => nomatch h
        · exact fun h => nomatch h
    · refine sat_bind.mpr (sat_looked hf fun rows l₁ _ hlook => ?_)
      dsimp only
      split
      · exact fun h => nomatch h
      · exact checkDeclared_serve hlook
  · exact fun h => nomatch h

/-- The check before a download: it goes on after a read that declares something, or if the path is
no `.deb`, or on a host that is not bound. -/
theorem prefetchCheck_go (hf : f.reads = false) :
    Sat (wpStore (sem c f) rules F) (prefetchCheck cfg req) l fun r l' => ∀ unread, r = .go unread →
      unread = false ∧ ((∃ rows, rows ≠ [] ∧ Looked rules F req.url rows l') ∨
        ((cfg.refuseUnvouchedDebs && cfg.adoptionEnabled) = true → isDebPath req.path = true →
          Unbound req.url l')) := by
  refine sat_bind.mpr (sat_looked hf fun rows l₁ _ hlook => ?_)
  dsimp only
  split
  · exact fun _ h => nomatch h
  · split
    · rename_i hgo
      rintro unread ⟨⟩
      refine ⟨rfl, ?_⟩
      rcases hgo with hne | hdeb
      · exact .inl ⟨rows, fun h => hne (distinctDeclared_eq_nil.mpr h), hlook⟩
      · exact .inr fun _ h => absurd h (by simp [hdeb])
    · refine sat_bind.mpr (sat_strict hf (fun l₂ _ => ?_) fun m l₂ hm hc _ hon => ?_)
      · dsimp only
        split
        · refine sat_bind.mpr (sat_ask fun inFlight => ?_)
          split
          · exact fun _ h => nomatch h
          · refine sat_bind.mpr (sat_looked hf fun rows l₃ _ hlook => ?_)
            dsimp only
            split
            · exact fun _ h => nomatch h
            · split
              · exact fun _ h => nomatch h
              · rintro unread ⟨⟩
                exact ⟨rfl, .inl ⟨rows, ‹_›, hlook⟩⟩
        · exact fun _ h => nomatch h
      · have hpass : ∀ unread, Prefetch.go false = .go unread → unread = false ∧
            ((∃ rows, rows ≠ [] ∧ Looked rules F req.url rows l₂) ∨
              ((cfg.refuseUnvouchedDebs && cfg.adoptionEnabled) = true →
                isDebPath req.path = true → Unbound req.url l₂)) := by
          rintro unread ⟨⟩
          exact ⟨rfl, .inr fun hcfg _ => hon hcfg⟩
        cases m with
        | refuse => exact absurd rfl hm
        | canceled => exact absurd rfl hc
        | inactive => exact hpass
        | passthrough => exact hpass

/-- The check after a download: what is promoted is declared alone, or nothing is declared; the read
is one made after what `l` records. -/
theorem promoteFetched_ok {b : B} (hf : f.reads = false) (hmeta : req.isMetadata = false) :
    Sat (wpStore (sem c f) rules F) (promoteFetched c cfg req false b) l
      fun r l' => ∀ hash, r = .ok hash → ∃ s ∈ F, ∃ rows, Finds rules req.url l s rows ∧
        l ++ [(s, .declared req.url rows)] <+: l' ∧ (distinctDeclared rows = [hash] ∨ rows = []) := by
  unfold promoteFetched
  rw [hmeta, if_neg Bool.false_ne_true]
  refine sat_bind.mpr (sat_finds hf fun s hs rows hfinds => ?_)
  dsimp only
  split
  · rename_i hd
    rw [Bool.false_and, if_neg Bool.false_ne_true]
    refine sat_bind.mpr (sat_finalize (fun _ => ?_) fun e _ h => nomatch h)
    rintro hash ⟨⟩
    exact ⟨s, hs, rows, hfinds, List.prefix_refl _, .inr (distinctDeclared_eq_nil.mp hd)⟩
  · rename_i h hd
    split
    · rename_i heq
      refine sat_bind.mpr (sat_finalize (fun _ => ?_) fun e _ h => nomatch h)
      rintro hash ⟨⟩
      exact ⟨s, hs, rows, hfinds, List.prefix_refl _, .inl (heq ▸ hd)⟩
    · exact fun _ h => nomatch h
  · exact fun _ h => nomatch h

/-! ## The miss -/

/-- The rows of a miss do not change what is in the pool under its hash. -/
theorem storeMiss_hash {generation : Option MetadataGeneration} {tracked : Bool} {b : B} :
    Sat (wpStore (sem c f) rules F) (storeMiss c cfg req generation tracked b hash) l
      fun r l' => l <+: l' ∧ ∀ fetched, r = .ok fetched → fetched.blobHash = hash := by
  refine sat_bind.mpr (sat_write fun r => ?_)
  cases r with
  | error e => exact ⟨List.prefix_refl l, fun _ h => nomatch h⟩
  | ok u =>
    refine sat_bind.mpr (sat_clock fun now => sat_bind.mpr (sat_grows.mono (wpStore_mono F)
      fun row l₁ h₁ => ?_))
    cases row with
    | error e => exact ⟨h₁, fun _ h => nomatch h⟩
    | ok m =>
      refine sat_bind.mpr (sat_grows.mono (wpStore_mono F) fun r l₂ h₂ => ?_)
      split
      · exact ⟨h₁.trans h₂, fun _ h => nomatch h⟩
      · exact ⟨h₁.trans h₂, fun _ h => nomatch h⟩
      · refine ⟨h₁.trans h₂, fun fetched h => ?_⟩
        cases h
        rfl

/-- A miss of a package: `P` is what the check before the download ensures, `G` what the check
after it ensures of the hash. -/
theorem runFetch_package {P : Bool → Log B → Prop} {G : Log B → Str → Prop} {tracked : Bool}
    (hmeta : req.isMetadata = false) (hgrow : ∀ l l' h, l <+: l' → G l h → G l' h)
    (hprefetch : Sat (wpStore (sem c f) rules F) (prefetchCheck cfg req) l
      fun r l' => ∀ unread, r = .go unread → P unread l')
    (hpromote : ∀ unread l b, ∀ s ∈ F, P unread l → Sat (wpStore (sem c f) rules F)
      (promoteFetched c cfg req unread b) (l ++ [(s, .download)])
      fun r l' => ∀ h, r = .ok h → G l' h) :
    Sat (wpStore (sem c f) rules F) (runFetch c cfg req tracked) l
      fun r l' => ∀ fetched, r = .ok fetched → G l' fetched.blobHash := by
  unfold runFetch
  rw [ofSuite_of_package hmeta, Bool.and_false, Bool.false_and, if_neg Bool.false_ne_true]
  refine sat_bind.mpr (sat_ask fun slot => ?_)
  cases slot with
  | false => exact fun _ h => nomatch h
  | true =>
    show Sat _ (fetchMiss c cfg req none tracked) l _
    unfold fetchMiss
    rw [hmeta, if_neg Bool.false_ne_true]
    refine sat_bind.mpr (hprefetch.mono (wpStore_mono F) fun r l₁ hr => ?_)
    cases r with
    | stop e => exact fun _ h => nomatch h
    | go unread =>
      refine sat_bind.mpr (sat_ask fun temp => ?_)
      cases temp with
      | false => exact fun _ h => nomatch h
      | true =>
        refine sat_bind.mpr (sat_fetch (fun s hs b => ?_) fun e fetched h => nomatch h)
        refine sat_bind.mpr ((hpromote unread l₁ b s hs (hr unread rfl)).mono (wpStore_mono F)
          fun r l₂ hr₂ => ?_)
        cases r with
        | error e => exact fun _ h => nomatch h
        | ok hash =>
          refine storeMiss_hash.mono (wpStore_mono F) fun r l₃ h₃ fetched hf => ?_
          rw [h₃.2 fetched hf]
          exact hgrow l₂ l₃ hash h₃.1 (hr₂ hash rfl)

/-! ## The request -/

/-- A body that is sent is one that the record justifies. -/
def Justifies (c : Content B) (J : Log B → Str → Prop) (a : Response B) (l : Log B) : Prop :=
  ∀ source b, a = .body source b → J l (c.sha256 b)

section Request

variable {Res : Key → Log B → Result → Prop} {J : Log B → Str → Prop}

theorem justifies_error {status : Nat} : Justifies c J (.error status) l := fun _ _ h => nomatch h

theorem respondError_package (hmeta : req.isMetadata = false) (e : SfErr) :
    Sat (wpStore (sem c f) rules F) (respondError cfg req e) l fun a l' => Justifies c J a l' := by
  have unreachable : Sat (wpStore (sem c f) rules F) (respondUpstreamUnreachable cfg req) l
      fun a l' => Justifies c J a l' := by
    unfold respondUpstreamUnreachable tryServeStale
    rw [hmeta, Bool.false_and, if_neg Bool.false_ne_true]
    exact justifies_error
  unfold respondError
  split
  case h_7 =>
    refine sat_bind.mpr (sat_ask fun deadline => ?_)
    cases deadline with
    | true => exact unreachable
    | false => exact justifies_error
  all_goals first | exact unreachable | exact justifies_error

theorem serveBlob_justified {source : Source} {hash : Str} (h : J l hash) :
    Sat (wpStore (sem c f) rules F) (serveBlob source hash) l
      fun r l' => ∀ a, r = some a → Justifies c J a l' := by
  refine sat_bind.mpr (sat_openBlob (fun b hb => ?_) fun _ h => nomatch h)
  rintro a ⟨⟩ source' b' ⟨⟩
  rw [hb]
  exact h

theorem serveResult_package (hmeta : req.isMetadata = false)
    (hgrow : ∀ l l' h, l <+: l' → J l h → J l' h) {sr : SuiteReq} {r : Result} {shared : Bool}
    (h : ∀ fetched, r = .ok fetched → J l fetched.blobHash) :
    Sat (wpReq (sem c f) rules Res F) (serveResult c cfg req sr (r, shared)) l
      fun a l' => Justifies c J a l' := by
  cases r with
  | error e => exact sat_lift.mpr (respondError_package hmeta e)
  | ok fetched =>
    have body : ∀ l', l <+: l' → ∀ sr, Sat (wpReq (sem c f) rules Res F)
        (serveMiss c cfg req sr false fetched.blobHash) l' fun a l' => Justifies c J a l' := by
      intro l' hl sr
      refine sat_lift.mpr (sat_bind.mpr (sat_openBlob (fun b hb => ?_) justifies_error))
      rintro source' b' ⟨⟩
      rw [hb]
      exact hgrow l l' _ hl (h fetched rfl)
    -- a package is not an anchor: it never registers with the barrier
    have late : Sat (wpStore (sem c f) rules F)
        (registerLate cfg req { sr with tracked := sr.tracked || fetched.tracked }) l
        fun y l' => l <+: l' ∧ y.1 = false := by
      unfold registerLate anchorStart
      rw [barrierAnchor_of_package hmeta, if_neg Bool.false_ne_true]
      split
      · exact ⟨List.prefix_refl l, rfl⟩
      · exact ⟨List.prefix_refl l, rfl⟩
    refine sat_bind.mpr (sat_lift.mpr (late.mono (wpStore_mono F) fun y l₁ hy => ?_))
    obtain ⟨late, sr'⟩ := y
    obtain ⟨hl₁, rfl⟩ := hy
    dsimp only
    split
    · refine sat_bind.mpr (sat_lift.mpr (sat_grows.mono (wpStore_mono F) fun _ l₂ h₂ => ?_))
      exact body l₂ (hl₁.trans h₂) sr'
    · exact body l₁ hl₁ sr'

/-- A request for a package: every body that is sent is justified, if the check of the hit path
justifies what it serves and the result of a shared miss justifies its hash. -/
theorem serveHTTP_package (hmeta : req.isMetadata = false)
    (hgrow : ∀ l l' h, l <+: l' → J l h → J l' h)
    (hcheck : ∀ l hash, Sat (wpStore (sem c f) rules F) (checkPackageHash cfg req hash) l
      fun r l' => r = .serve → J l' hash)
    (hmiss : ∀ l l₀ l₁ fetched, (∃ s ∈ F, rules.join (.miss req.url) l₀ s = true) →
      (∀ y ∈ l₁, y.1 ∈ F) → Res (.miss req.url) (l₀ ++ l₁) (.ok fetched) →
      J (l ++ (l₀ ++ l₁)) fetched.blobHash) :
    Sat (wpReq (sem c f) rules Res F) (serveHTTP c cfg req) l fun a l' => Justifies c J a l' := by
  have result : ∀ l l₀ l₁ r shared sr, (∃ s ∈ F, rules.join (.miss req.url) l₀ s = true) →
      (∀ y ∈ l₁, y.1 ∈ F) → Res (.miss req.url) (l₀ ++ l₁) r →
      Sat (wpReq (sem c f) rules Res F) (serveResult c cfg req sr (r, shared)) (l ++ (l₀ ++ l₁))
        fun a l' => Justifies c J a l' := by
    intro l l₀ l₁ r shared sr hj hat hres
    refine serveResult_package hmeta hgrow fun fetched hr => ?_
    subst hr
    exact hmiss l l₀ l₁ fetched hj hat hres
  have miss : ∀ l sr, Sat (wpReq (sem c f) rules Res F) (serveCacheMiss c cfg req sr) l
      fun a l' => Justifies c J a l' := by
    intro l sr
    refine sat_bind.mpr (sat_share fun l₀ l₁ r shared hj hat hres => ?_)
    split
    · refine sat_bind.mpr (sat_lift.mpr (sat_grows.mono (wpStore_mono F) fun waited l₂ _ => ?_))
      refine sat_bind.mpr (sat_lift.mpr (sat_ask fun ended => ?_))
      split
      · exact sat_lift.mpr (respondError_package hmeta _)
      · split
        · refine sat_bind.mpr (sat_share fun l₀ l₁ r shared hj hat hres => ?_)
          split
          · exact sat_lift.mpr (respondError_package hmeta _)
          · exact result _ l₀ l₁ r shared sr hj hat hres
        · exact sat_lift.mpr (respondError_package hmeta _)
    · exact result l l₀ l₁ r shared sr hj hat hres
  have hit : ∀ l sr, Sat (wpReq (sem c f) rules Res F) (tryCacheHit c cfg req sr) l
      fun y l' => ∀ a, y.1 = some a → Justifies c J a l' := by
    intro l sr
    -- without a cached row there is no by-hash fallback for a package
    have missed : ∀ (l : Log B) (sr : SuiteReq), ∀ a,
        ((none, sr) : Option (Response B) × SuiteReq).1 = some a → Justifies c J a l :=
      fun _ _ _ h => nomatch h
    unfold tryCacheHit tryCachedRows tryURLPathHit
    simp only [ofSuite_of_package hmeta, hmeta, if_neg Bool.false_ne_true]
    refine sat_bind.mpr (sat_bind.mpr (sat_lift.mpr (sat_grows.mono (wpStore_mono F)
      fun row l₁ _ => ?_)))
    split
    · exact missed l₁ sr
    · rename_i hash _
      refine sat_bind.mpr (sat_lift.mpr (sat_bind.mpr ((hcheck l₁ hash).mono (wpStore_mono F)
        fun r l₂ hr => ?_)))
      cases r with
      | refuse status =>
        rintro a ⟨⟩
        exact justifies_error
      | evicted => exact missed l₂ sr
      | serve =>
        refine (serveBlob_justified (hr rfl)).mono (wpStore_mono F) fun r l₃ h₃ => ?_
        cases r with
        | none => exact missed l₃ sr
        | some a =>
          rintro a' ⟨⟩
          exact h₃ a rfl
  unfold serveHTTP anchorStart
  rw [barrierAnchor_of_package hmeta, if_neg Bool.false_ne_true]
  show Sat _ (serveRegistered c cfg req ⟨false, false⟩) l _
  refine sat_bind.mpr ((hit l ⟨false, false⟩).mono (wpReq_mono F) fun y l₁ hy => ?_)
  obtain ⟨r, sr⟩ := y
  cases r with
  | some a => exact hy a rfl
  | none =>
    dsimp only
    split
    · exact miss l₁ sr
    · exact justifies_error

end Request

end AptCacher.Handler
