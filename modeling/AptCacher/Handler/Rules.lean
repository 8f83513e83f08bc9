import AptCacher.Handler.Serve

/-!
# Rules for the effects of a request

One rule for each effect: what a program that performs it ensures, in any store of a set `F`, given
what was recorded so far (`l`). A read that a request records extends the record; every other
effect leaves it as it is.

* `sat_read`, `sat_openBlob`, `sat_fetch`, `sat_finalize`, …: the effects.
* `sat_declared`, `sat_strictMode`: the reads behind the package checks.
* `sat_share`: a shared call.
* `Bodies.serveHTTP`: a request is honest if the bodies of its calls are.
-/

namespace AptCacher.Handler

open Spec Cache Aptpath Proxy
open Prog (Sat sat_bind)
open Flight (lift wpStore wpReq wpBody sat_lift sat_body Honest)

/-- What a request has recorded. -/
abbrev Log (B : Type) := List (Store B × Event)

section Effects

variable {B : Type} {c : Content B} {f : Faults}
  {rules : Flight.Rules (Eff B) (Store B) Event Key} {F : Set (Store B)} {l : Log B}

theorem sat_quiet {β : Type} {e : Eff B β} {Q : β → Log B → Prop} (hn : ∀ b, note e b = [])
    (h : ∀ s ∈ F, ∀ x b s', rules.ok l e s = true → run c f e s x = some (b, s') → Q b l) :
    Sat (wpStore (sem c f) rules F) (Prog.perform e) l Q := by
  intro s hs x b s' hok hr
  have hnote : (sem c f).note e b = [] := hn b
  rw [hnote, List.map_nil, List.append_nil]
  exact h s hs x b s' hok hr

/-- The reads that are not recorded. -/
def Query.silent {β : Type} : Query β → Bool
  | .declaredHashesExact _ | .declaredHashesBySuffix _ | .hostCurrentSnapshotsCoverage _ _ => false
  | _ => true

theorem note_silent {β : Type} {q : Query β} (h : q.silent = true) (b : Option β) :
    note (.read q : Eff B (Option β)) b = [] := by
  cases q <;> first | rfl | exact Bool.noConfusion h

/-- A read, in a store of `F`; it can fail if reads can. -/
theorem run_read {β : Type} {q : Query β} {s s' : Store B} {x : Pick B} {b : Option β}
    (h : run c f (.read q) s x = some (b, s')) :
    b = some (q.eval s.db) ∨ f.reads = true ∧ b = none := by
  cases x with
  | ok =>
    cases h
    exact .inl rfl
  | fault =>
    simp only [run] at h
    split at h
    · cases h
      exact .inr ⟨‹_›, rfl⟩
    · cases h
  | _ => cases h

theorem sat_read {β : Type} {q : Query β} {Q : Option β → Log B → Prop} (hq : q.silent = true)
    (h : ∀ s ∈ F, Q (some (q.eval s.db)) l) (hnone : f.reads = true → Q none l) :
    Sat (wpStore (sem c f) rules F) (read q) l Q := by
  refine sat_quiet (note_silent hq) fun s hs x b s' _ hr => ?_
  rcases run_read hr with rfl | ⟨hf, rfl⟩
  · exact h s hs
  · exact hnone hf

theorem sat_openBlob {h : Str} {Q : Option B → Log B → Prop}
    (hsome : ∀ b, c.sha256 b = h → Q (some b) l) (hnone : Q none l) :
    Sat (wpStore (sem c f) rules F) (openBlob h) l Q := by
  refine sat_quiet (fun _ => rfl) fun s _ x b s' _ hr => ?_
  cases x with
  | ok =>
    cases hr
    cases hfile : s.file c h with
    | none => exact hnone
    | some b => exact hsome b (by simpa using List.find?_some hfile)
  | fault =>
    cases hr
    exact hnone
  | _ => cases hr

theorem sat_ask {q : Ask} {Q : Bool → Log B → Prop} (h : ∀ b, Q b l) :
    Sat (wpStore (sem c f) rules F) (ask q) l Q :=
  sat_quiet (fun _ => rfl) fun _ _ _ b _ _ _ => h b

theorem sat_clock {Q : Int → Log B → Prop} (h : ∀ now, Q now l) :
    Sat (wpStore (sem c f) rules F) clock l Q :=
  sat_quiet (fun _ => rfl) fun _ _ _ b _ _ _ => h b

theorem sat_write {β : Type} {w : Write β} {Q : Except (Option Err) β → Log B → Prop}
    (h : ∀ r, Q r l) : Sat (wpStore (sem c f) rules F) (write w) l Q :=
  sat_quiet (fun _ => rfl) fun _ _ _ b _ _ _ => h b

theorem sat_fetch {req : Request} {Q : Except FetchErr B → Log B → Prop}
    (hok : ∀ s ∈ F, ∀ b, Q (.ok b) (l ++ [(s, .download)])) (herr : ∀ e, Q (.error e) l) :
    Sat (wpStore (sem c f) rules F) (Prog.perform (.fetch req)) l Q := by
  intro s hs x b s' _ hr
  cases b with
  | ok b => exact hok s hs b
  | error e =>
    have hnote : (sem c f).note (Eff.fetch (B := B) req) (.error e) = [] := rfl
    rw [hnote, List.map_nil, List.append_nil]
    exact herr e

/-- A promotion gives the content its own hash, and the expected one if there is one. -/
theorem sat_finalize {expected : Option Str} {b : B} {Q : Except FinalizeErr Str → Log B → Prop}
    (hok : (∀ h ∈ expected, h = c.sha256 b) → Q (.ok (c.sha256 b)) l) (herr : ∀ e, Q (.error e) l) :
    Sat (wpStore (sem c f) rules F) (Prog.perform (.finalize expected b)) l Q := by
  refine sat_quiet (fun _ => rfl) fun s _ x r s' _ hr => ?_
  cases x with
  | ok =>
    simp only [run, finalize, Option.some.injEq] at hr
    cases expected with
    | none =>
      cases hr
      exact hok (by simp)
    | some h =>
      dsimp only at hr
      split at hr
      · cases hr
        exact herr _
      · split at hr
        · cases hr
          exact herr _
        · rename_i hsha
          cases hr
          rw [← not_not.mp hsha]
          exact hok (by simpa using (not_not.mp hsha).symm)
  | fault =>
    cases hr
    exact herr _
  | _ => cases hr

/-! ## The reads behind the package checks -/

/-- `DeclaredHashesForPath`: rows of the exact lookup, or what the lookup by suffix finds. -/
theorem sat_declared {u : UrlKey} {Q : Option (List DeclaredHash) → Log B → Prop}
    (hexact : ∀ s ∈ F, s.db.declaredExact u ≠ [] →
      Q (some (s.db.declaredExact u)) (l ++ [(s, .declared u (s.db.declaredExact u))]))
    (hsuffix : ∀ s ∈ F, rules.ok l (.read (.declaredHashesBySuffix u)) s = true →
      Q (some (s.db.declaredBySuffix u)) (l ++ [(s, .declared u (s.db.declaredBySuffix u))]))
    (hnone : f.reads = true → Q none l) :
    Sat (wpStore (sem c f) rules F) (declaredHashesForPath u) l Q := by
  intro s hs x b s' _ hr
  rcases run_read hr with rfl | ⟨hf, rfl⟩
  · by_cases hrows : s.db.declaredExact u = []
    · have hnote : (sem c f).note (Eff.read (B := B) (.declaredHashesExact u))
          (some (s.db.declaredExact u)) = [] := if_pos hrows
      show Sat _ (if s.db.declaredExact u = [] then _ else _) _ Q
      rw [show (Query.declaredHashesExact u).eval s.db = s.db.declaredExact u from rfl, hnote,
        if_pos hrows, List.map_nil, List.append_nil]
      intro s₂ hs₂ x₂ b₂ s₂' hok₂ hr₂
      rcases run_read hr₂ with rfl | ⟨hf, rfl⟩
      · exact hsuffix s₂ hs₂ hok₂
      · exact (List.append_nil l).symm ▸ hnone hf
    · have hnote : (sem c f).note (Eff.read (B := B) (.declaredHashesExact u))
          (some (s.db.declaredExact u)) = [.declared u (s.db.declaredExact u)] := if_neg hrows
      show Sat _ (if s.db.declaredExact u = [] then _ else _) _ Q
      rw [show (Query.declaredHashesExact u).eval s.db = s.db.declaredExact u from rfl, hnote,
        if_neg hrows]
      exact hexact s hs hrows
  · exact (List.append_nil l).symm ▸ hnone hf

/-- `classifyStrictMode`: the verdict on what a coverage read finds, if it is read. -/
theorem sat_strictMode {cfg : Config} {req : Request} {Q : StrictMode → Log B → Prop}
    (hoff : (cfg.refuseUnvouchedDebs && cfg.adoptionEnabled) = false → Q .inactive l)
    (hrows : ∀ s ∈ F, Q (strictMode (s.db.hostCoverage req.scheme req.host))
      (l ++ [(s, .coverage req.scheme req.host (s.db.hostCoverage req.scheme req.host))]))
    (hnone : f.reads = true → Q .inactive l ∧ Q .canceled l) :
    Sat (wpStore (sem c f) rules F) (classifyStrictMode cfg req) l Q := by
  unfold classifyStrictMode
  split
  · intro s hs x b s' _ hr
    rcases run_read hr with rfl | ⟨hf, rfl⟩
    · exact hrows s hs
    · rw [show (sem c f).note (Eff.read (B := B) (.hostCurrentSnapshotsCoverage req.scheme req.host))
        none = [] from rfl, List.map_nil, List.append_nil]
      refine (sat_bind (p := ask .ctxEnded)).mpr (sat_ask fun ended => ?_)
      cases ended with
      | false => exact (hnone hf).1
      | true => exact (hnone hf).2
  · exact hoff (Bool.eq_false_iff.mpr ‹_›)

end Effects

/-! ## Shared calls -/

section Calls

variable {B : Type} {c : Content B} {f : Faults} {cfg : Config}
  {rules : Flight.Rules (Eff B) (Store B) Event Key} {F : Set (Store B)} {l : Log B}
  {Res : Key → Log B → Result → Prop}

/-- The result of a shared call has the result property; what was recorded after the request joined
it, was recorded in a store of the request. -/
theorem sat_share {key : Key} {body : M B Result} {Q : Result × Bool → Log B → Prop}
    (h : ∀ l₀ l₁ r shared, (∃ s ∈ F, rules.join key l₀ s = true) → (∀ y ∈ l₁, y.1 ∈ F) →
      Res key (l₀ ++ l₁) r → Q (r, shared) (l ++ (l₀ ++ l₁))) :
    Sat (wpReq (sem c f) rules Res F) (share key body) l Q := h

/-- The bodies of the calls have the result property. -/
structure Bodies (c : Content B) (cfg : Config) (f : Faults)
    (rules : Flight.Rules (Eff B) (Store B) Event Key) (Res : Key → Log B → Result → Prop) :
    Prop where
  miss : ∀ req tracked, Sat (wpBody (sem c f) rules) (runFetch c cfg req tracked) []
    fun r l => Res (.miss req.url) l r
  recovery : ∀ req declared, Sat (wpBody (sem c f) rules) (runSnapshotMemberFetch c req declared) []
    fun r l => Res (.recovery req.url declared) l r
  onboard : ∀ req, Sat (wpBody (sem c f) rules) (runOnboard c cfg req) []
    fun r l => Res (.onboard req.suite) l r

namespace Bodies

variable (h : Bodies c cfg f rules Res) (req : Request) (sr : SuiteReq)
include h

theorem serveSnapshot (id : Nat) :
    Honest (sem c f) rules Res (Handler.serveSnapshot c cfg req id) := by
  refine .bind (.lift _) fun row => ?_
  split
  · exact .pure _
  · refine .bind (.lift _) fun r => ?_
    split <;> exact .pure _
  · refine .bind (.lift _) fun b => ?_
    split
    · exact .pure _
    · refine .bind (.flight (h.recovery req _)) fun r => ?_
      split
      · exact .pure _
      · refine .bind (.lift _) fun b => ?_
        split <;> exact .pure _

theorem trySnapshotHit : Honest (sem c f) rules Res (Handler.trySnapshotHit c cfg req sr) := by
  refine .bind (.lift _) fun row => ?_
  split
  · exact .pure _
  · exact .pure _
  · split
    · exact .pure _
    · split
      · exact .pure _
      · exact .bind (h.serveSnapshot req _) fun _ => .pure _

theorem redispatch : Honest (sem c f) rules Res (Handler.redispatch c cfg req sr) := by
  refine .bind (.lift _) fun ended => ?_
  split
  · exact .pure _
  · exact h.trySnapshotHit req sr

theorem registerOnboarded (hash : Str) :
    Honest (sem c f) rules Res (Handler.onboard c cfg req sr hash) := by
  unfold Handler.onboard
  split
  · exact .pure _
  · refine .bind (.lift _) fun rejected => ?_
    split
    · exact .pure _
    · refine .bind (.lift _) fun b => ?_
      split
      · exact .pure _
      · split
        · refine .bind (.flight (h.onboard req)) fun r => ?_
          split
          · exact .pure _
          · split
            · refine .bind (.lift _) fun ⟨late, sr⟩ => ?_
              dsimp only
              split
              · exact .bind (.lift _) fun _ => .pure _
              · exact .pure _
            · exact .pure _
        · exact .pure _

theorem tryCachedRows : Honest (sem c f) rules Res (Handler.tryCachedRows c cfg req sr) := by
  refine .bind (.bind (.lift _) fun row => ?_) fun r => ?_
  · split
    · exact .pure _
    · split
      · refine .bind (h.registerOnboarded req sr _) fun ⟨late, sr⟩ => ?_
        dsimp only
        split
        · refine .bind (h.redispatch req _) fun r => ?_
          split
          · exact .pure _
          · exact .bind (.lift _) fun _ => .pure _
        · exact .bind (.lift _) fun _ => .pure _
      · exact .bind (.lift _) fun _ => .pure _
  · split
    · exact .pure _
    · split
      · exact .bind (.lift _) fun _ => .pure _
      · exact .pure _

theorem tryCacheHit : Honest (sem c f) rules Res (Handler.tryCacheHit c cfg req sr) := by
  unfold Handler.tryCacheHit
  split
  · refine .bind (h.trySnapshotHit req sr) fun r => ?_
    split
    · exact .pure _
    · refine .bind (.lift _) fun ⟨late, sr⟩ => ?_
      dsimp only
      split
      · refine .bind (h.redispatch req _) fun r => ?_
        split
        · exact .pure _
        · exact h.tryCachedRows req _
      · exact h.tryCachedRows req _
  · exact h.tryCachedRows req sr

theorem serveResult (res : Result × Bool) :
    Honest (sem c f) rules Res (Handler.serveResult c cfg req sr res) := by
  have miss : ∀ sr late hash,
      Honest (sem c f) rules Res (Handler.serveMiss c cfg req sr late hash) := by
    intro sr late hash
    unfold Handler.serveMiss
    split
    · refine .bind (h.redispatch req sr) fun r => ?_
      split
      · exact .pure _
      · exact .lift _
    · exact .lift _
  obtain ⟨res, shared⟩ := res
  cases res with
  | error e => exact .lift _
  | ok fetched =>
    refine .bind (.lift _) fun ⟨late, sr⟩ => ?_
    dsimp only
    split
    · exact .bind (.lift _) fun _ => miss _ _ _
    · exact miss _ _ _

theorem serveCacheMiss : Honest (sem c f) rules Res (Handler.serveCacheMiss c cfg req sr) := by
  refine .bind (.flight (h.miss req _)) fun res => ?_
  split
  · refine .bind (.lift _) fun waited => .bind (.lift _) fun ended => ?_
    split
    · exact .lift _
    · split
      · refine .bind (.flight (h.miss req _)) fun res => ?_
        split
        · exact .lift _
        · exact h.serveResult req sr _
      · exact .lift _
  · exact h.serveResult req sr _

theorem serveHTTP : Honest (sem c f) rules Res (Handler.serveHTTP c cfg req) := by
  have registered : ∀ sr, Honest (sem c f) rules Res (serveRegistered c cfg req sr) := by
    intro sr
    refine .bind (h.tryCacheHit req sr) fun r => ?_
    split
    · exact .pure _
    · split
      · exact h.serveCacheMiss req _
      · exact .pure _
  refine .bind (.lift _) fun tok => ?_
  split
  · refine .bind (.lift _) fun ended => ?_
    split
    · exact .pure _
    · exact registered _
  · exact registered _

end Bodies

end Calls

end AptCacher.Handler
