import AptCacher.Handler.Contract
import AptCacher.Handler.Package

/-!
# Strict mode

With `refuse_unvouched_debs` a `.deb` is sent only if a read of the declared hashes names it, or a
read of the coverage says that the host is not bound. The miss decides this before its download; the
check after the download decides it again only if the first read failed. So a declaration that lets
the download go on, and is withdrawn while the download runs, leaves the file unchecked.

* `Sanctioned`: what a body rests on in strict mode.
* `strictRules`: no declaration is withdrawn between the two checks of a miss.
* `strict_mode`: under these rules every `.deb` that is sent is sanctioned.
* `withdrawn_served`: a run in which an adoption withdraws the declaration, and any bytes are sent.
-/

namespace AptCacher.Handler

open Spec Cache Aptpath Proxy
open Prog (Sat)
open Flight (wpStore sat_body sat_of_forall wpStore_mono)

variable {B : Type}

/-- A recorded read of the declared hashes names exactly this hash. -/
def Vouched (u : UrlKey) (l : Log B) (hash : Str) : Prop :=
  ∃ y ∈ l, ∃ rows, y.2 = .declared u rows ∧ distinctDeclared rows = [hash]

/-- What a `.deb` rests on in strict mode. -/
def Sanctioned (u : UrlKey) (l : Log B) (hash : Str) : Prop := Vouched u l hash ∨ Unbound u l

/-- The event is a read that found declarations of the path. -/
def Event.declares (u : UrlKey) : Event → Bool
  | .declared u' rows => u' == u && rows != []
  | _ => false

/-- A lookup after a download finds a declaration, if one before the download did. -/
def keepsDeclared {β : Type} (l : Log B) : Eff B β → Store B → Bool
  | .read (.declaredHashesBySuffix u), s =>
    !(l.any (fun y => y.2 == .download) && l.any fun y => y.2.declares u) ||
      s.db.declaredBySuffix u != []
  | _, _ => true

/-- No declaration is withdrawn between the checks of a miss. -/
def strictRules : Flight.Rules (Eff B) (Store B) Event Key := ⟨keepsDeclared, fun _ _ _ => true⟩

/-- A miss of a `.deb` is sanctioned. -/
def StrictRes : Key → Log B → Result → Prop
  | .miss u, l, .ok fetched =>
    isDebPath u.path = true → isMetadata u.path = false → Sanctioned u l fetched.blobHash
  | _, _, _ => True

section Strict

variable {c : Content B} {cfg : Config} {f : Faults} {req : Request} {F : Set (Store B)} {l : Log B}

theorem Sanctioned.mono {u : UrlKey} {l' : Log B} {hash : Str} (h : Sanctioned u l hash)
    (hl : l ⊆ l') : Sanctioned u l' hash := by
  rcases h with ⟨y, hy, h⟩ | ⟨y, hy, h⟩
  · exact .inl ⟨y, hl hy, h⟩
  · exact .inr ⟨y, hl hy, h⟩

theorem Looked.mem {rules : Flight.Rules (Eff B) (Store B) Event Key} {u : UrlKey}
    {rows : List DeclaredHash} (h : Looked rules F u rows l) :
    ∃ y ∈ l, y.2 = Event.declared u rows := by
  obtain ⟨l₁, s, -, hp, -⟩ := h
  exact ⟨_, hp.subset (List.mem_append_right _ (List.mem_singleton.mpr rfl)), rfl⟩

theorem Rests.sanctioned {rules : Flight.Rules (Eff B) (Store B) Event Key} {u : UrlKey} {hash : Str}
    (h : Rests rules F cfg u l hash)
    (hcfg : (cfg.refuseUnvouchedDebs && cfg.adoptionEnabled) = true)
    (hdeb : isDebPath u.path = true) : Sanctioned u l hash := by
  obtain ⟨rows, hlook, hd | ⟨-, hun⟩⟩ := h
  · obtain ⟨y, hy, he⟩ := hlook.mem
    exact .inl ⟨y, hy, rows, he, hd⟩
  · exact .inr (hun hcfg hdeb)

/-- After a download, a lookup finds nothing only if none before it found anything. -/
theorem not_declares_of_finds {u : UrlKey} {s s' : Store B}
    (h : Finds strictRules u (l ++ [(s', .download)]) s []) {rows : List DeclaredHash}
    (hrows : rows ≠ []) (hlook : Looked (strictRules (B := B)) F u rows l) : False := by
  rcases h with ⟨-, hne⟩ | ⟨hnil, hok⟩
  · exact hne rfl
  · obtain ⟨y, hy, he⟩ := hlook.mem
    have hdown : (l ++ [(s', Event.download)]).any (fun y => y.2 == .download) = true :=
      List.any_eq_true.mpr ⟨(s', .download), by simp, by simp⟩
    have hdecl : (l ++ [(s', Event.download)]).any (fun y => y.2.declares u) = true :=
      List.any_eq_true.mpr ⟨y, List.mem_append_left _ hy, by simp [he, Event.declares, hrows]⟩
    have hok : (!(((l ++ [(s', Event.download)]).any fun y => y.2 == .download) &&
        (l ++ [(s', Event.download)]).any fun y => y.2.declares u) ||
        s.db.declaredBySuffix u != []) = true := hok
    rw [hdown, hdecl, ← hnil] at hok
    exact absurd hok (by decide)

theorem runFetch_sanctioned {tracked : Bool} (hf : f.reads = false)
    (hcfg : (cfg.refuseUnvouchedDebs && cfg.adoptionEnabled) = true)
    (hdeb : isDebPath req.path = true) (hmeta : req.isMetadata = false) :
    Sat (wpStore (sem c f) strictRules F) (runFetch c cfg req tracked) l
      fun r l' => ∀ fetched, r = .ok fetched → Sanctioned req.url l' fetched.blobHash := by
  refine runFetch_package hmeta (fun l l' h hl hs => hs.mono hl.subset)
    (prefetchCheck_go hf) fun unread l₁ b s hs hgo => ?_
  obtain ⟨rfl, hgo⟩ := hgo
  refine (promoteFetched_ok hf hmeta).mono (wpStore_mono F) fun r l₂ hr hash hok => ?_
  obtain ⟨s', -, rows, hfinds, hp, hd | rfl⟩ := hr hash hok
  · exact .inl ⟨_, hp.subset (List.mem_append_right _ (List.mem_singleton.mpr rfl)), rows, rfl, hd⟩
  · rcases hgo with ⟨rows, hne, hlook⟩ | hun
    · exact (not_declares_of_finds hfinds hne hlook).elim
    · have hl₁ : l₁ <+: l₂ :=
        (List.prefix_append _ _).trans ((List.prefix_append _ _).trans hp)
      exact .inr ((hun hcfg hdeb).grow hl₁)

theorem strict_bodies (hf : f.reads = false)
    (hcfg : (cfg.refuseUnvouchedDebs && cfg.adoptionEnabled) = true) :
    Bodies c cfg f strictRules StrictRes where
  miss req tracked := by
    refine sat_body.mpr ?_
    by_cases h : isDebPath req.path = true ∧ req.isMetadata = false
    · refine (runFetch_sanctioned hf hcfg h.1 h.2).mono (wpStore_mono _) fun r l hr => ?_
      cases r with
      | error e => trivial
      | ok fetched => exact fun _ _ => hr fetched rfl
    · refine sat_of_forall fun r l => ?_
      cases r with
      | error e => trivial
      | ok fetched => exact fun hdeb hmeta => absurd ⟨hdeb, hmeta⟩ h
  recovery req declared := sat_body.mpr (sat_of_forall fun _ _ => trivial)
  onboard req := sat_body.mpr (sat_of_forall fun _ _ => trivial)

end Strict

/-- In strict mode, while reads succeed and no declaration is withdrawn between the checks of a miss:
whatever else runs, a `.deb` is sent only if a read made for the response names its hash alone, or
says that the host has no current signed snapshot or one with incomplete coverage. -/
theorem strict_mode {c : Content B} {cfg : Config} {contexts : Bool} {w : World B}
    (hrefuse : cfg.refuseUnvouchedDebs = true) (hadopt : cfg.adoptionEnabled = true)
    (h : ((server c cfg ⟨false, contexts⟩).guard fun w a => strictRules.allows w a = true).Reach w)
    {t : Flight.Thread (Eff B) (Store B) Event Key Result Request (Response B)}
    (ht : t ∈ w.threads) {source : Source} {b : B} (ha : t.phase.answer = some (.body source b))
    (hdeb : isDebPath t.req.path = true) (hmeta : t.req.isMetadata = false) :
    Vouched t.req.url t.log (c.sha256 b) ∨ Unbound t.req.url t.log := by
  have hcfg : (cfg.refuseUnvouchedDebs && cfg.adoptionEnabled) = true := by rw [hrefuse, hadopt]; rfl
  refine Flight.answered StrictRes
    (fun (req : Request) _ => isDebPath req.path = true ∧ req.isMetadata = false)
    (fun req _ a l => Justifies c (Sanctioned req.url) a l) (fun _ _ => rfl)
    (fun req => (strict_bodies rfl hcfg).serveHTTP req) (fun req F hreq => ?_) h ht ha
    ⟨hdeb, hmeta⟩ source b rfl
  refine serveHTTP_package hreq.2 (fun l l' h hl hs => hs.mono hl.subset) (fun l hash => ?_)
    fun l l₀ l₁ fetched _ _ hres => ?_
  · exact (checkPackageHash_serve rfl).mono (wpStore_mono F)
      fun r l' hr hs => (hr hs).sanctioned hcfg hreq.1
  · exact (hres hreq.1 hreq.2).mono (List.subset_append_right _ _)

/-! ## Runs -/

/-- A package. -/
def debRequest : Request := ⟨.http, "deb".toList, "/debian/pool/x.deb".toList⟩

/-- A suite is adopted that declares the package, and a second candidate waits. -/
def vouchedRun : List Op :=
  [.putBlob (digest 'a') 10 1, .putBlob (digest 'b') 20 2, .putBlob (digest 'd') 10 3,
    .createSuite ⟨stable, 3, 0, []⟩ ⟨0, 0⟩ none 3,
    .insertCandidateSnapshot ⟨stable, some (digest 'a'), none, none, none, false⟩ 4,
    .commitAdoption 1 [⟨1, "main/Packages".toList, digest 'b', digest 'b'⟩] []
      [⟨debRequest.url, 1, digest 'c', "x".toList, "all".toList, "1".toList, []⟩] [] true 5 5,
    .insertCandidateSnapshot ⟨stable, some (digest 'd'), none, none, none, false⟩ 6]

/-- The database after `vouchedRun`. -/
def vouchedDb : Db := (sys.exec Db.empty vouchedRun).getD Db.empty

theorem vouchedDb_reach : sys.Reach vouchedDb :=
  .exec rfl (eq_some_getD _ (by decide +kernel))

/-- The database after `vouchedRun`, with an empty pool. -/
def vouchedStore : Store Str where
  db := vouchedDb
  pool := []
  agree := Db.agree_of_all (by decide +kernel)

/-- The second candidate is adopted; its coverage is complete and it does not list the package. -/
def withdraw : Op :=
  .commitAdoption 2 [⟨2, "main/Packages".toList, digest 'b', digest 'b'⟩] [] [] [] true 7 7

/-- A miss up to its download: the cached row, the call, the slot, the declared hashes, the temp. -/
def downloadRun (b : Str) : List (Act Str) :=
  [.arrive debRequest, .step 0 .ok, .step 0 .ok, .step 0 .yes, .step 0 .ok, .step 0 .yes,
    .step 0 (.bytes b)]

/-- A miss from its promotion: the rows, the end of the call, the file. -/
def promotionRun : List (Act Str) :=
  [.step 0 .ok, .step 0 (.time 8 none), .step 0 (.time 8 none), .step 0 (.time 8 none),
    .step 0 .ok, .step 0 .ok, .step 0 .ok]

/-- The declaration stays, and the declared bytes arrive. -/
def declaredServed : World Str :=
  (((server texts adopting ⟨false, false⟩).guard fun w a => strictRules.allows w a = true).exec
    (World.start vouchedStore) (downloadRun (digest 'c') ++ .step 0 .ok :: promotionRun)).getD
      (World.start vouchedStore)

theorem strict_mode_declaredServed :
    ∃ t ∈ declaredServed.threads, t.phase.answer = some (.body .fetched (digest 'c')) ∧
      (Vouched t.req.url t.log (digest 'c') ∨ Unbound t.req.url t.log) := by
  have hrun : (declaredServed.threads.head?.map fun t => (t.phase.answer, isDebPath t.req.path,
      t.req.isMetadata)) = some (some (.body .fetched (digest 'c')), true, false) := by
    decide +kernel
  obtain ⟨t, ht, hy⟩ := Option.map_eq_some_iff.mp hrun
  obtain ⟨ha, hdeb, hmeta⟩ := Prod.mk.injEq .. ▸ Prod.mk.injEq .. ▸ hy
  exact ⟨t, List.mem_of_mem_head? ht, ha, strict_mode (c := texts) rfl rfl
    (.exec ⟨rfl, rfl⟩ (eq_some_getD _ (by decide +kernel))) (List.mem_of_mem_head? ht) ha hdeb hmeta⟩

/-- Other bytes arrive, and the declaration is withdrawn before the check after the download. -/
def withdrawnRun : List (Act Str) :=
  downloadRun (digest 'e') ++ .env (.commit withdraw) :: .step 0 .ok :: .step 0 .ok :: promotionRun

/-- The world after `withdrawnRun`. -/
def withdrawnServed : World Str := .after texts adopting ⟨false, false⟩ vouchedStore withdrawnRun

/-- The host is bound all along, the one declared hash that was read is another one, and the bytes
are sent. -/
theorem withdrawn_served :
    sys.Reach vouchedDb ∧ (server texts adopting ⟨false, false⟩).Reach withdrawnServed ∧
    ∃ t ∈ withdrawnServed.threads, t.req = debRequest ∧ isDebPath t.req.path = true ∧
      t.phase.answer = some (.body .fetched (digest 'e')) ∧
      ¬ (Vouched t.req.url t.log (texts.sha256 (digest 'e')) ∨ Unbound t.req.url t.log) := by
  have hrun : (withdrawnServed.threads.head?.map fun t => (t.phase.answer, t.req,
      t.log.map Prod.snd)) = some (some (.body .fetched (digest 'e')), debRequest,
      [.declared debRequest.url [⟨digest 'c', 1, "x".toList, stable.suitePath⟩], .download,
        .declared debRequest.url []]) := by decide +kernel
  obtain ⟨t, ht, hy⟩ := Option.map_eq_some_iff.mp hrun
  obtain ⟨ha, hreq, hlog⟩ := Prod.mk.injEq .. ▸ Prod.mk.injEq .. ▸ hy
  refine ⟨vouchedDb_reach, World.after_reach (by decide +kernel), t, List.mem_of_mem_head? ht, hreq,
    hreq ▸ (by decide +kernel), ha, ?_⟩
  have hevent : ∀ y ∈ t.log, y.2 ∈ [Event.declared debRequest.url
      [⟨digest 'c', 1, "x".toList, stable.suitePath⟩], .download, .declared debRequest.url []] :=
    fun y hy => hlog ▸ List.mem_map_of_mem hy
  rintro (⟨y, hy, rows, he, hd⟩ | ⟨y, hy, rows, he, -⟩)
  · have hmem := hevent y hy
    simp only [he, List.mem_cons, Event.declared.injEq, reduceCtorEq, List.not_mem_nil, or_false,
      false_or] at hmem
    rcases hmem with ⟨-, rfl⟩ | ⟨-, rfl⟩
    · exact absurd hd (by decide +kernel)
    · exact absurd hd (by decide +kernel)
  · have hmem := hevent y hy
    simp [he] at hmem

end AptCacher.Handler
