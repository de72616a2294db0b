import ForeignPasses.Manager.Register
import ForeignPasses.Proofs.Exec.Ensures

/-!
# What requests do

A request that returns has found its result in the cache, or it has computed and kept it. A
registration is refused, or the analysis is there afterwards. What is done with the attached manager
is done if there is one.
-/

namespace ForeignPasses.Access

open Exec

variable {σ β S Q : Type} {A : Q → Type} {access : Access σ β S Q A} {w : World σ}

@[simp] theorem ensures_held {post : Manager S → World σ → Prop} {halted : Halt → World σ → Prop} :
    access.held.Ensures w post halted ↔ post (access.manager w.focus) w :=
  Iff.rfl

@[simp] theorem ensures_modifyHeld {post : Unit → World σ → Prop} {halted : Halt → World σ → Prop}
    (f : Manager S → Manager S) :
    (access.modifyHeld f).Ensures w post halted ↔
      post () { w with focus := access.setManager w.focus (f (access.manager w.focus)) } :=
  Iff.rfl

/-- What is there while an analysis runs. -/
def started (access : Access σ β S Q A) (key : Key) (s : σ) : σ :=
  access.setManager s ((access.manager s).setRunning key true)

/-- What is there when an analysis has stopped. -/
def stopped (access : Access σ β S Q A) (key : Key) (s : σ) : σ :=
  access.setManager s ((access.manager s).setRunning key false)

/-- The world after a line in the log. -/
def traced (w : World σ) (message : String) : World σ :=
  { w with shared := { w.shared with events := w.shared.events ++ [.log .trace message] } }

/-- What is there when the result of an analysis is kept; `s` is what the analysis left. -/
def kept (access : Access σ β S Q A) (u : CodeUnit β) (key : Key) (r : Result) (s : σ) : σ :=
  let stopped := access.setManager s ((access.manager s).setRunning key false)
  access.setManager stopped
    { access.manager stopped with
      results := (access.manager stopped).results.insert (u.id, key) r }

theorem find?_manager_kept (u : CodeUnit β) (key : Key) (r : Result) (s : σ) :
    (access.manager (access.kept u key r s)).results.find? (u.id, key) = some r := by
  simp [kept, access.manager_setManager]

theorem ensures_expect (f : Flavour) (r : Result) :
    (f.expect r).Ensures w (fun a w' ↦ f.receive r = some a ∧ w' = w) (fun _ w' ↦ w' = w) := by
  rw [Flavour.expect]
  cases f.receive r <;> simp

/-- How a result is obtained: from the cache, or from the analysis under the key, which was at
rest. `s` is what is there afterwards. -/
inductive Obtained (access : Access σ β S Q A) (answer : (q : Q) → Exec σ (A q)) (key : Key)
    (u : CodeUnit β) (r : Result) (w : World σ) (s : σ) : Prop where
  | found (hfound : (access.manager w.focus).results.find? (u.id, key) = some r)
      (hfocus : s = w.focus)
  | computed {analysis : Analysis S} {w₁ w₂ : World σ}
      (hfind : (access.manager w.focus).results.find? (u.id, key) = none)
      (hanalysis : (access.manager w.focus).analyses.find? key = some ⟨analysis, false⟩)
      (hcompute : access.compute answer u analysis w₁ = .ok r w₂)
      (hstarted : w₁.focus = access.started key w.focus)
      (hslot : w₁.shared.slot = w.shared.slot)
      (hkept : s = access.kept u key r w₂.focus)

/-- After a request its result is cached. -/
theorem Obtained.cached {answer : (q : Q) → Exec σ (A q)} {key : Key} {u : CodeUnit β} {r : Result}
    {w : World σ} {s : σ} (h : access.Obtained answer key u r w s) :
    (access.manager s).results.find? (u.id, key) = some r := by
  cases h with
  | found hfound hfocus => rw [hfocus, hfound]
  | computed _ _ _ _ _ hkept => rw [hkept, find?_manager_kept]

@[simp] theorem ensures_keep {post : Unit → World σ → Prop} {halted : Halt → World σ → Prop}
    (u : CodeUnit β) (key : Key) (r : Result) :
    (access.keep u key r).Ensures w post halted ↔
      post () {
        shared := { w.shared with events := w.shared.events ++
          (releases ((access.manager w.focus).results.find? (u.id, key))).map .released }
        focus := access.setManager w.focus { access.manager w.focus with
          results := (access.manager w.focus).results.insert (u.id, key) r } } := by
  simp only [keep, ensures_bind, ensures_held, ensures_modifyHeld, ensures_discard]

section Result

variable {answer : (q : Q) → Exec σ (A q)} {key : Key} {u : CodeUnit β}

/-- The result under a key, which is computed if it is not cached, of whatever type it is. -/
def resultAt (access : Access σ β S Q A) (answer : (q : Q) → Exec σ (A q)) (key : Key)
    (u : CodeUnit β) : Exec σ Result := do
  match (← access.held).results.find? (u.id, key) with
  | some r =>
    trace ("cache hit for analysis " ++ key.name ++ " on `" ++ u.name ++ "`")
    return r
  | none =>
    match (← access.held).analyses.find? key with
    | none => panic .unregistered
    | some registered =>
      trace ("computing analysis " ++ key.name ++ " on `" ++ u.name ++ "`")
      if registered.running then panic .selfRequest
      let r ← access.whileRunning key (access.compute answer u registered.analysis)
      access.keep u key r
      return r

/-- A request hands out the result as the type that was asked for. -/
theorem requestAt_eq (f : Flavour) (key : Key) (u : CodeUnit β) :
    access.requestAt answer f key u = access.resultAt answer key u >>= f.expect := by
  rw [requestAt, resultAt, bind_assoc]
  congr 1
  funext m
  cases m.results.find? (u.id, key) with
  | some r => rfl
  | none =>
    dsimp only
    rw [bind_assoc]
    congr 1
    funext m'
    cases m'.analyses.find? key with
    | none => rfl
    | some registered =>
      obtain ⟨analysis, running⟩ := registered
      cases running with
      | true => rfl
      | false => simp only [Bool.false_eq_true, if_false, bind_assoc, pure_bind]

/-- There are four ways to a result: it is there, there is no analysis, the analysis is running, or
it is at rest and runs now. -/
theorem ensures_resultAt_of {post : Result → World σ → Prop} {halted : Halt → World σ → Prop}
    (hfound : ∀ r message, (access.manager w.focus).results.find? (u.id, key) = some r →
      post r (traced w message))
    (hunregistered : (access.manager w.focus).results.find? (u.id, key) = none →
      (access.manager w.focus).analyses.find? key = none → halted (.panicked .unregistered) w)
    (hrunning : ∀ analysis message,
      (access.manager w.focus).results.find? (u.id, key) = none →
      (access.manager w.focus).analyses.find? key = some ⟨analysis, true⟩ →
        halted (.panicked .selfRequest) (traced w message))
    (hresting : ∀ analysis message,
      (access.manager w.focus).results.find? (u.id, key) = none →
      (access.manager w.focus).analyses.find? key = some ⟨analysis, false⟩ →
        (access.compute answer u analysis).Ensures
          ⟨(traced w message).shared, access.started key w.focus⟩
          (fun r w₁ ↦ (access.keep u key r).Ensures ⟨w₁.shared, access.stopped key w₁.focus⟩
            (fun _ ↦ post r) halted)
          fun e w₁ ↦ halted e ⟨w₁.shared, access.stopped key w₁.focus⟩) :
    (access.resultAt answer key u).Ensures w post halted := by
  simp only [resultAt, ensures_bind, ensures_held]
  cases hfind : (access.manager w.focus).results.find? (u.id, key) with
  | some r => exact hfound r _ hfind
  | none =>
    simp only [ensures_bind, ensures_held]
    cases hanalysis : (access.manager w.focus).analyses.find? key with
    | none => exact hunregistered hfind hanalysis
    | some registered =>
      obtain ⟨analysis, running⟩ := registered
      simp only [ensures_bind, ensures_trace]
      cases running with
      | true => exact hrunning analysis _ hfind hanalysis
      | false =>
        simp only [Bool.false_eq_true, if_false, whileRunning, ensures_bind, ensures_modifyHeld,
          ensures_ensuring, ensures_pure]
        exact hresting analysis _ hfind hanalysis

/-- A request goes the same four ways, and the result has to be of the type that was asked for. -/
theorem ensures_requestAt_of {f : Flavour} {post : f.Answer → World σ → Prop}
    {halted : Halt → World σ → Prop}
    (hfound : ∀ r message, (access.manager w.focus).results.find? (u.id, key) = some r →
      (f.expect r).Ensures (traced w message) post halted)
    (hunregistered : (access.manager w.focus).results.find? (u.id, key) = none →
      (access.manager w.focus).analyses.find? key = none → halted (.panicked .unregistered) w)
    (hrunning : ∀ analysis message,
      (access.manager w.focus).results.find? (u.id, key) = none →
      (access.manager w.focus).analyses.find? key = some ⟨analysis, true⟩ →
        halted (.panicked .selfRequest) (traced w message))
    (hresting : ∀ analysis message,
      (access.manager w.focus).results.find? (u.id, key) = none →
      (access.manager w.focus).analyses.find? key = some ⟨analysis, false⟩ →
        (access.compute answer u analysis).Ensures
          ⟨(traced w message).shared, access.started key w.focus⟩
          (fun r w₁ ↦ (access.keep u key r >>= fun _ ↦ f.expect r).Ensures
            ⟨w₁.shared, access.stopped key w₁.focus⟩ post halted)
          fun e w₁ ↦ halted e ⟨w₁.shared, access.stopped key w₁.focus⟩) :
    (access.requestAt answer f key u).Ensures w post halted := by
  simp only [ensures_bind] at hresting
  rw [requestAt_eq, ensures_bind]
  exact ensures_resultAt_of hfound hunregistered hrunning hresting

end Result

theorem ensures_requestAt (answer : (q : Q) → Exec σ (A q)) (f : Flavour) (key : Key)
    (u : CodeUnit β) :
    (access.requestAt answer f key u).Ensures w
      (fun a w' ↦ ∃ r, f.receive r = some a ∧ access.Obtained answer key u r w w'.focus)
      (fun _ _ ↦ True) := by
  apply ensures_requestAt_of
  case hfound =>
    intro r message hfind
    refine (ensures_expect f r).mono ?_ fun _ _ _ ↦ trivial
    rintro a w' ⟨ha, rfl⟩
    exact ⟨r, ha, .found hfind rfl⟩
  case hunregistered => exact fun _ _ ↦ trivial
  case hrunning => exact fun _ _ _ _ ↦ trivial
  case hresting =>
    intro analysis message hfind hanalysis
    refine (Ensures.trivial _ _).mono ?_ fun _ _ _ ↦ trivial
    intro r w₂ hcompute
    simp only [ensures_bind, ensures_keep]
    refine (ensures_expect f r).mono ?_ fun _ _ _ ↦ trivial
    rintro a w' ⟨ha, rfl⟩
    exact ⟨r, ha, .computed hfind hanalysis hcompute rfl rfl rfl⟩

theorem ensures_cachedAt_of {f : Flavour} {key : Key} {u : CodeUnit β}
    {post : Option f.Answer → World σ → Prop} {halted : Halt → World σ → Prop}
    (hfound : ∀ r, (access.manager w.focus).results.find? (u.id, key) = some r →
      (f.expect r).Ensures w (fun a ↦ post (some a)) halted)
    (hmissing : (access.manager w.focus).results.find? (u.id, key) = none → post none w) :
    (access.cachedAt f key u).Ensures w post halted := by
  simp only [cachedAt, ensures_bind, ensures_held]
  cases hfind : (access.manager w.focus).results.find? (u.id, key) with
  | none => exact hmissing hfind
  | some r => exact (ensures_map _ _).2 (hfound r hfind)

theorem ensures_cachedAt (f : Flavour) (key : Key) (u : CodeUnit β) :
    (access.cachedAt f key u).Ensures w
      (fun a w' ↦ w' = w ∧
        ((access.manager w.focus).results.find? (u.id, key)).map f.receive = a.map some)
      (fun _ w' ↦ w' = w) := by
  apply ensures_cachedAt_of
  case hfound =>
    intro r hfind
    refine (ensures_expect f r).mono ?_ fun _ _ h ↦ h
    rintro a w' ⟨ha, rfl⟩
    exact ⟨rfl, by simp [hfind, ha]⟩
  case hmissing =>
    intro hfind
    exact ⟨rfl, by rw [hfind]; rfl⟩

/-- A registration is refused exactly if the key is taken. -/
def Entered (access : Access σ β S Q A) (key : Key) (analysis : Analysis S) (registered : Bool)
    (s s' : σ) : Prop :=
  registered = !(access.manager s).isRegistered key ∧
    s' = if registered then
      access.setManager s { access.manager s with
        analyses := (access.manager s).analyses.insert key ⟨analysis, false⟩ }
      else s

theorem ensures_registerAt [Owner S] (key : Key) (analysis : Analysis S) :
    (access.registerAt key analysis).Ensures w
      (fun registered w' ↦ access.Entered key analysis registered w.focus w'.focus ∧
        w'.shared.nextUnit = w.shared.nextUnit)
      (fun _ _ ↦ False) := by
  simp only [registerAt, ensures_bind, ensures_held]
  cases hregistered : (access.manager w.focus).isRegistered key with
  | true =>
    simp only [if_true, ensures_bind, ensures_discard, ensures_pure]
    exact ⟨⟨by simp [hregistered], rfl⟩, trivial⟩
  | false =>
    simp only [Bool.false_eq_true, if_false, ensures_bind, ensures_modifyHeld, ensures_pure]
    exact ⟨⟨by simp [hregistered], rfl⟩, trivial⟩

/-! ## Calls with a key -/

/-- The world inside of a scope. -/
def inScope (kind : Kind) (key : Key) (w : World σ) : World σ :=
  { w with shared := { w.shared.setSlot kind ⟨some key⟩ with
    events := w.shared.events ++ [.log .trace ("entering key scope for " ++ key.name)] } }

/-- The world when a scope that was opened in another world is closed. -/
def closed (kind : Kind) (opened w : World σ) : World σ :=
  { w with shared := w.shared.setSlot kind (opened.shared.slot kind) }

/-- A scope in which nothing happens leaves a line in the log. -/
theorem closed_inScope (kind : Kind) (key : Key) (w : World σ) :
    closed kind w (inScope kind key w) = { w with shared := { w.shared with
      events := w.shared.events ++ [.log .trace ("entering key scope for " ++ key.name)] } } := by
  cases kind <;> rfl

theorem slot_inScope (kind : Kind) (key : Key) (w : World σ) :
    ((inScope kind key w).shared.slot kind).current = some key := by
  cases kind <;> rfl

theorem nextUnit_inScope (kind : Kind) (key : Key) (w : World σ) :
    (inScope kind key w).shared.nextUnit = w.shared.nextUnit := by
  cases kind <;> rfl

theorem nextUnit_closed (kind : Kind) (opened w : World σ) :
    (closed kind opened w).shared.nextUnit = w.shared.nextUnit := by
  cases kind <;> rfl

theorem ensures_inScope {α : Type} {kind : Kind} {key : Key} {act : Exec σ α}
    {post : α → World σ → Prop} {halted : Halt → World σ → Prop}
    (h : act.Ensures (inScope kind key w) (fun a w' ↦ post a (closed kind w w'))
      fun e w' ↦ halted e (closed kind w w')) :
    (withKey kind key act).Ensures w post halted := by
  have hevents : (w.shared.setSlot kind ⟨some key⟩).events = w.shared.events := by
    cases kind <;> rfl
  rw [ensures_withKey, hevents]
  exact h

/-- Inside of a scope, an action that starts with resolving goes on with the key of the scope. -/
theorem ensures_resolved {α : Type} {kind : Kind} {key : Key} {f : Key → Exec σ α}
    {post : α → World σ → Prop} {halted : Halt → World σ → Prop}
    (h : (f key).Ensures (inScope kind key w) (fun a w' ↦ post a (closed kind w w'))
      fun e w' ↦ halted e (closed kind w w')) :
    (withKey kind key (identity kind >>= f)).Ensures w post halted := by
  apply ensures_inScope
  rw [ensures_bind]
  exact (ensures_identity_of_current (slot_inScope kind key w)).2 h

theorem eq_foreign_of_receive {r : Result} {value : Opaque Int}
    (h : Flavour.foreign.receive r = some value) : r = .foreign value := by
  cases r <;> cases h
  rfl

theorem ensures_foreignResult (answer : (q : Q) → Exec σ (A q)) (u : CodeUnit β) (key : Key) :
    (access.foreignResult (access.request answer) u key).Ensures w
      (fun value w' ↦
        access.Obtained answer key u (.foreign value) (inScope access.kind key w) w'.focus)
      (fun _ _ ↦ True) := by
  apply ensures_resolved
  refine (ensures_requestAt answer .foreign key u).mono ?_ fun _ _ _ ↦ trivial
  rintro value w' ⟨r, hvalue, hobtained⟩
  rw [eq_foreign_of_receive hvalue] at hobtained
  exact hobtained

/-- What is cached as the result of a foreign analysis. -/
def CachedForeign (access : Access σ β S Q A) (key : Key) (u : CodeUnit β)
    (value : Option (Opaque Int)) (s : σ) : Prop :=
  (access.manager s).results.find? (u.id, key) = value.map .foreign

theorem ensures_foreignCached (u : CodeUnit β) (key : Key) :
    (access.foreignCached u key).Ensures w
      (fun value w' ↦ w' = closed access.kind w (inScope access.kind key w) ∧
        access.CachedForeign key u value w.focus)
      (fun _ w' ↦ w' = closed access.kind w (inScope access.kind key w)) := by
  apply ensures_resolved
  refine (ensures_cachedAt .foreign key u).mono ?_ fun e w' h ↦ h ▸ rfl
  rintro value w' ⟨rfl, hvalue⟩
  refine ⟨rfl, ?_⟩
  change ((access.manager w.focus).results.find? (u.id, key)).map _ = _ at hvalue
  unfold CachedForeign
  cases hfind : (access.manager w.focus).results.find? (u.id, key) with
  | none =>
    rw [hfind] at hvalue
    cases value with
    | none => rfl
    | some value => contradiction
  | some r =>
    rw [hfind] at hvalue
    cases value with
    | none => contradiction
    | some value => exact congrArg some (eq_foreign_of_receive (Option.some.inj hvalue))

theorem ensures_registerForeign [Owner S] (key : Key) (entry : Entry) (context : Opaque String) :
    (access.registerForeign key entry context).Ensures w
      (fun registered w' ↦
        access.Entered key (.foreign entry context) registered w.focus w'.focus ∧
          w'.shared.nextUnit = w.shared.nextUnit)
      (fun _ _ ↦ False) := by
  have hassoc : access.registerForeign key entry context =
      withKey access.kind key (identity access.kind >>= fun key' ↦ do
        let registered ← access.registerAt key' (.foreign entry context)
        debug (access.kind.name ++ " analysis " ++ key.name ++ " registered into manager: " ++
          toString registered)
        return registered) := by
    rw [registerForeign, register, Flavour.resolve, bind_assoc]
  rw [hassoc]
  apply ensures_resolved
  simp only [ensures_bind, ensures_debug, ensures_pure]
  refine (ensures_registerAt key _).mono ?_ fun _ _ h ↦ h
  rintro registered w' ⟨hentered, hnext⟩
  refine ⟨hentered, ?_⟩
  rw [nextUnit_closed]
  exact hnext.trans (nextUnit_inScope _ _ _)

theorem ensures_registerHanded [Owner S] (key : Key) (entry : Entry) (context : Handed String) :
    (adopt context >>= access.registerForeign key entry).Ensures w
      (fun registered w' ↦
        access.Entered key (.foreign entry (.ofRaw (context.toRaw w.shared.nextAddress))) registered
          w.focus w'.focus ∧ w'.shared.nextUnit = w.shared.nextUnit)
      (fun _ _ ↦ True) := by
  simp only [ensures_bind, ensures_adopt]
  exact (ensures_registerForeign key entry _).mono (fun _ _ h ↦ h) fun _ _ h ↦ h.elim

/-! ## Calls from beyond the boundary -/

theorem ensures_boundaryResult (answer : (q : Q) → Exec σ (A q)) (u : CodeUnit β)
    (key : Option Key) :
    (access.boundaryResult (access.request answer) u key).Ensures w
      (fun value w' ↦ ∃ k, key = some k ∧
        access.Obtained answer k u (.foreign value) (inScope access.kind k w) w'.focus)
      (fun _ _ ↦ True) := by
  cases key with
  | none => trivial
  | some key =>
    simp only [boundaryResult, ensures_boundary, ensures_bind, ensures_held]
    have hresult : (access.foreignResult (access.request answer) u key).Ensures w
        (fun value w' ↦ ∃ k, some key = some k ∧
          access.Obtained answer k u (.foreign value) (inScope access.kind k w) w'.focus)
        (fun _ _ ↦ True) :=
      (ensures_foreignResult answer u key).mono (fun _ _ h ↦ ⟨key, rfl, h⟩) fun _ _ h ↦ h
    cases (access.manager w.focus).isRegistered key with
    | true => exact hresult
    | false => trivial

theorem ensures_boundaryCached (u : CodeUnit β) (key : Option Key) :
    (access.boundaryCached u key).Ensures w
      (fun value w' ↦ ∃ k, key = some k ∧ w' = closed access.kind w (inScope access.kind k w) ∧
        access.CachedForeign k u value w.focus)
      (fun _ _ ↦ True) := by
  cases key with
  | none => trivial
  | some key =>
    simp only [boundaryCached, ensures_boundary]
    exact (ensures_foreignCached u key).mono (fun _ _ h ↦ ⟨key, rfl, h⟩) fun _ _ _ ↦ trivial

theorem ensures_boundaryRegister [Owner S] (key : Option Key) (entry : Entry)
    (context : Handed String) :
    (access.boundaryRegister key entry context).Ensures w
      (fun registered w' ↦ ∃ k, key = some k ∧
        access.Entered k (.foreign entry (.ofRaw (context.toRaw w.shared.nextAddress))) registered
          w.focus w'.focus ∧ w'.shared.nextUnit = w.shared.nextUnit)
      (fun _ _ ↦ True) := by
  simp only [boundaryRegister, ensures_bind, ensures_adopt]
  cases key with
  | none => trivial
  | some key =>
    simp only [ensures_boundary]
    exact (ensures_registerForeign key entry _).mono (fun _ _ h ↦ ⟨key, rfl, h⟩)
      fun _ _ h ↦ h.elim

end ForeignPasses.Access

/-! ## Managers with an attached one -/

namespace ForeignPasses.Tier

open Exec

variable {β I S α : Type} {tier : Tier β I S} {w : World (Manager S)}
  {post : α → World (Manager S) → Prop} {halted : Halt → World (Manager S) → Prop}

theorem ensures_onAttached {act : Exec S α} {inner : S} (hattached : w.focus.attached? = some inner) :
    (onAttached act).Ensures w post halted ↔
      act.Ensures ⟨w.shared, inner⟩ (fun a w' ↦ post a ⟨w'.shared, w.focus.setAttached w'.focus⟩)
        fun e w' ↦ halted e ⟨w'.shared, w.focus.setAttached w'.focus⟩ := by
  simp only [onAttached, ensures_bind, ensures_focus, hattached, ensures_zoom]

theorem ensures_onAttached_of {act : Exec S α}
    (hnone : w.focus.attached? = none → halted (.panicked .typeMismatch) w)
    (hsome : ∀ inner, w.focus.attached? = some inner →
      act.Ensures ⟨w.shared, inner⟩ (fun a w' ↦ post a ⟨w'.shared, w.focus.setAttached w'.focus⟩)
        fun e w' ↦ halted e ⟨w'.shared, w.focus.setAttached w'.focus⟩) :
    (onAttached act).Ensures w post halted := by
  cases hattached : w.focus.attached? with
  | none =>
    simp only [onAttached, ensures_bind, ensures_focus, hattached]
    exact hnone hattached
  | some inner => exact (ensures_onAttached hattached).2 (hsome inner hattached)

/-- A request may nest as deep as there are analyses at rest. -/
theorem ensures_fetch {f : Flavour} {u : CodeUnit β} {post : f.Answer → World (Manager S) → Prop} :
    (tier.fetch f u).Ensures w post halted ↔
      (tier.fetchWithin w.focus.idle f u).Ensures w post halted := by
  rw [fetch, ensures_bind, ensures_focus]

/-- However deep requests may nest, the outermost one has not begun to ask. -/
theorem ensures_fetch_of {f : Flavour} {u : CodeUnit β} {post : f.Answer → World (Manager S) → Prop}
    (h : ∀ answer, (tier.access.request answer f u).Ensures w post halted) :
    (tier.fetch f u).Ensures w post halted := by
  obtain ⟨answer, hanswer⟩ := tier.exists_fetchWithin_eq w.focus.idle
  rw [ensures_fetch, hanswer]
  exact h answer

end ForeignPasses.Tier
