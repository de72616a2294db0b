import ForeignPasses.Proofs.Exec.Agreement
import ForeignPasses.Proofs.Manager.Operations
import ForeignPasses.Proofs.Separation.Alike

/-!
# Managers that look alike give the same answers

Where two managers look alike, every request about what is seen there ends in the same way in both,
and they look alike afterwards. Addresses may differ: of a result that is computed anew, what it says
is compared.
-/

namespace ForeignPasses

/-! ## Saying the same -/

def Opaque.SameContent {α : Type} (a b : Opaque α) : Prop := b.content? = a.content?

def Result.SameFinding (r r' : Result) : Prop := r'.finding = r.finding

namespace Flavour

def SameFinding (f : Flavour) (a b : f.Answer) : Prop := f.finding b = f.finding a

/-- Both answers are there and say the same, or neither is. -/
def SameCached (f : Flavour) (a b : Option f.Answer) : Prop := b.map f.finding = a.map f.finding

theorem SameCached.bind_content?_eq {a b : Option (Opaque Int)} (h : SameCached .foreign a b) :
    b.bind Opaque.content? = a.bind Opaque.content? := by
  cases a with
  | none =>
    obtain rfl : b = none := Option.map_eq_none_iff.1 h
    rfl
  | some a =>
    obtain ⟨b, rfl, hb⟩ := Option.map_eq_some_iff.1 h
    exact Finding.foreign.inj hb

theorem SameCached.map_finding {f : Flavour} {result : f.Answer → Result}
    (hresult : ∀ a, (result a).finding = f.finding a) {a b : Option f.Answer}
    (h : f.SameCached a b) :
    (b.map result).map Result.finding = (a.map result).map Result.finding := by
  have hcomp : Result.finding ∘ result = f.finding := funext hresult
  rw [Option.map_map, Option.map_map, hcomp]
  exact h

end Flavour

namespace Exec

variable {σ τ α β γ δ : Type}

/-! ## Going the same way -/

/-- From any two worlds that compare well two actions go the same way, to worlds that compare well,
and with values as `same` says. -/
def Concur (R : World σ → World σ → Prop) (same : α → β → Prop) (act : Exec σ α)
    (act' : Exec σ β) : Prop :=
  ∀ w w', R w w' → Agree act act' w w' (fun a v b v' ↦ same a b ∧ R v v') R

namespace Concur

variable {R : World σ → World σ → Prop} {same : α → β → Prop}

theorem pure {a : α} {b : β} (h : same a b) : Concur R same (Pure.pure a) (Pure.pure b) :=
  fun _ _ hw ↦ Agree.pure ⟨h, hw⟩

theorem throw (e : Halt) : Concur R same (throw e) (throw e) := fun _ _ hw ↦ Agree.throw e hw

theorem bind {same' : γ → δ → Prop} {act : Exec σ γ} {act' : Exec σ δ} {f : γ → Exec σ α}
    {f' : δ → Exec σ β} (hact : Concur R same' act act')
    (hf : ∀ c d, same' c d → Concur R same (f c) (f' d)) :
    Concur R same (act >>= f) (act' >>= f') := fun w w' hw ↦
  Agree.bind ((hact w w' hw).mono (fun c v d v' h ↦ hf c d h.1 v v' h.2) fun _ _ h ↦ h)

theorem map {same' : γ → δ → Prop} {act : Exec σ γ} {act' : Exec σ δ} {f : γ → α} {f' : δ → β}
    (hact : Concur R same' act act') (hf : ∀ c d, same' c d → same (f c) (f' d)) :
    Concur R same (f <$> act) (f' <$> act') := fun w w' hw ↦
  Agree.map ((hact w w' hw).mono (fun c _ d _ h ↦ ⟨hf c d h.1, h.2⟩) fun _ _ h ↦ h)

theorem boundary {act : Exec σ α} {act' : Exec σ β} (hact : Concur R same act act') :
    Concur R same (boundary act) (boundary act') := fun w w' hw ↦ (hact w w' hw).boundary

theorem ensuring {act : Exec σ α} {act' : Exec σ β} (hact : Concur R same act act')
    {after after' : World σ → World σ} (hafter : ∀ v v', R v v' → R (after v) (after' v')) :
    Concur R same (act.ensuring after) (act'.ensuring after') := fun w w' hw ↦
  Agree.ensuring ((hact w w' hw).mono (fun _ v _ v' h ↦ ⟨h.1, hafter v v' h.2⟩) hafter)

/-- The same program runs in the same way. -/
theorem run {Q : Type} {A : Q → Type} {answer answer' : (q : Q) → Exec σ (A q)} {ok : Q → Prop}
    (hanswer : ∀ q, ok q → Concur R Eq (answer q) (answer' q)) {p : Program Q A α}
    (hp : p.AsksOnly ok) : Concur R Eq (p.run answer) (p.run answer') := by
  induction p with
  | done a => exact .pure rfl
  | ask q next ih =>
    refine (hanswer q hp.1).bind ?_
    rintro a _ rfl
    exact ih a (hp.2 a)

end Concur

namespace Concur

variable {like : σ → σ → Prop} {same : α → β → Prop}

theorem focus : Concur (Matching like) like focus focus := fun _ _ hw ↦ .ok rfl rfl ⟨hw.focus, hw⟩

theorem shared : Concur (Matching like) (fun s s' ↦ s'.slot = s.slot) shared shared :=
  fun _ _ hw ↦ .ok rfl rfl ⟨hw.slot_eq, hw⟩

theorem modifyShared {f f' : Shared → Shared}
    (h : ∀ s s' : Shared, s'.slot = s.slot → (f' s').slot = (f s).slot) :
    Concur (Matching like) Eq (modifyShared f) (modifyShared f') := fun _ _ hw ↦
  .ok rfl rfl ⟨rfl, hw.focus, h _ _ hw.slot_eq⟩

theorem modifyFocus {f f' : σ → σ} (h : ∀ s s', like s s' → like (f s) (f' s')) :
    Concur (Matching like) Eq (modifyFocus f) (modifyFocus f') := fun _ _ hw ↦
  .ok rfl rfl ⟨rfl, h _ _ hw.focus, hw.slot_eq⟩

/-- Events are not compared. -/
theorem emitAll (events events' : List Event) :
    Concur (Matching like) Eq (emitAll events) (Exec.emitAll events') :=
  modifyShared fun _ _ hs ↦
    ((Shared.slot_congr rfl rfl).trans hs).trans (Shared.slot_congr rfl rfl)

theorem adopt (value : Handed α) :
    Concur (Matching like) Opaque.SameContent (adopt value) (adopt value) := by
  intro w w' hw
  refine .ok rfl rfl ⟨?_, hw.focus, ?_⟩
  · change (Opaque.ofRaw _).content? = (Opaque.ofRaw _).content?
    rw [Opaque.content?_ofRaw_toRaw, Opaque.content?_ofRaw_toRaw]
  · exact ((Shared.slot_congr rfl rfl).trans hw.slot_eq).trans (Shared.slot_congr rfl rfl)

theorem withKey {act : Exec σ α} {act' : Exec σ β} (hact : Concur (Matching like) same act act')
    (kind : Kind) (key : Key) :
    Concur (Matching like) same (withKey kind key act) (withKey kind key act') := by
  refine shared.bind fun s s' hs ↦ ?_
  rw [hs]
  refine (modifyShared fun _ _ h ↦ Shared.slot_setSlot_congr h kind _).bind fun _ _ _ ↦ ?_
  refine (emitAll _ _).bind fun _ _ _ ↦ hact.ensuring fun v v' hv ↦ ?_
  exact ⟨hv.focus, Shared.slot_setSlot_congr hv.slot_eq kind _⟩

end Concur

/-- How an action ends, without what it leaves. -/
def outcome (act : Exec σ α) (w : World σ) : Except Halt α :=
  match act w with
  | .ok a _ => .ok a
  | .error e _ => .error e

theorem Concur.outcome_eq {R : World σ → World σ → Prop} {act act' : Exec σ α}
    (h : Concur R Eq act act') {w w' : World σ} (hw : R w w') :
    act'.outcome w' = act.outcome w := by
  unfold outcome
  cases h w w' hw with
  | ok hact hact' h => rw [hact, hact', h.1]
  | error hact hact' _ => rw [hact, hact']

end Exec

open Exec

namespace Flavour

theorem takes_of_receive {f : Flavour} {r : Result} {a : f.Answer}
    (h : f.receive r = some a) : f.Takes r.finding := by
  cases f <;> cases r <;> cases h <;> trivial

/-- If two results say the same and one is of the type that was asked for, then so is the other. -/
theorem concur_expect {σ : Type} {R : World σ → World σ → Prop} (f : Flavour)
    {r r' : Result} (h : r'.finding = r.finding) :
    Concur R f.SameFinding (f.expect r : Exec σ f.Answer) (f.expect r') := by
  rw [expect, expect]
  cases hr : f.receive r with
  | some a =>
    have htakes := takes_of_receive hr
    rw [← h] at htakes
    obtain ⟨b, hr'⟩ := receive_of_takes htakes
    rw [hr']
    exact .pure ((finding_eq hr').trans (h.trans (finding_eq hr).symm))
  | none =>
    cases hr' : f.receive r' with
    | none => exact .throw _
    | some b =>
      have htakes := takes_of_receive hr'
      rw [h] at htakes
      obtain ⟨a, ha⟩ := receive_of_takes htakes
      rw [hr] at ha
      contradiction

theorem concur_resolve {σ : Type} {like : σ → σ → Prop} (f : Flavour) (kind : Kind) :
    Concur (Matching like) Eq (f.resolve kind : Exec σ Key) (f.resolve kind) := by
  cases f with
  | foreign =>
    refine Concur.shared.bind fun s s' hs ↦ ?_
    rw [hs]
    cases (s.slot kind).current with
    | some key => exact .pure rfl
    | none => exact .throw _
  | native index => exact .pure rfl
  | attached => exact .pure rfl

end Flavour

namespace Tier

variable {β I S : Type} {tier : Tier β I S} {l : Likeness S Finding} {reach : Reach β I}

/-- All that is within reach can be seen, analyses are confined, and so is code for the attached
manager. -/
structure Exposed (tier : Tier β I S) (l : Likeness S Finding) (reach : Reach β I) : Prop where
  view_eq : ∀ r, l.view r = r.finding
  seen : ∀ u, reach.unit u → l.place u.id
  confines : ∀ analysis, l.good analysis →
    reach.Confines tier.behaviour.toComputations analysis
  within : ∀ program, reach.program program →
    Concur (Matching l.inner) Eq (tier.within program) (tier.within program)

theorem concur_held :
    Concur (Matching (Manager.Alike l)) (Manager.Alike l) tier.access.held tier.access.held :=
  Concur.focus

theorem concur_onAttached {α : Type} {act : Exec S α} (hact : Concur (Matching l.inner) Eq act act) :
    Concur (Matching (Manager.Alike l)) Eq (onAttached act) (onAttached act) := by
  intro w w' hw
  refine Agree.focus ?_
  cases hattached : w.focus.attached? with
  | none =>
    rw [hw.focus.attached?_eq_none hattached]
    exact .throw _ hw
  | some inner =>
    obtain ⟨inner', hattached', hinner⟩ := hw.focus.exists_attached? hattached
    rw [hattached']
    have hput {v v' : World S} (h : Matching l.inner v v') : Matching (Manager.Alike l)
        ⟨v.shared, w.focus.setAttached v.focus⟩ ⟨v'.shared, w'.focus.setAttached v'.focus⟩ :=
      ⟨hw.focus.setAttached hattached hattached' h.focus, h.slot_eq⟩
    exact Agree.zoom ((hact ⟨w.shared, inner⟩ ⟨w'.shared, inner'⟩ ⟨hinner, hw.slot_eq⟩).mono
      (fun _ _ _ _ h ↦ ⟨h.1, hput h.2⟩) fun _ _ h ↦ hput h)

theorem concur_whileRunning {α : Type} {same : α → α → Prop} (key : Key)
    {act act' : Exec (Manager S) α} (hact : Concur (Matching (Manager.Alike l)) same act act') :
    Concur (Matching (Manager.Alike l)) same (tier.access.whileRunning key act)
      (tier.access.whileRunning key act') := by
  have hstart : Concur (Matching (Manager.Alike l)) Eq
      (tier.access.modifyHeld (·.setRunning key true))
      (tier.access.modifyHeld (·.setRunning key true)) :=
    .modifyFocus fun _ _ hm ↦ hm.setRunning key true
  exact hstart.bind fun _ _ _ ↦ hact.ensuring fun _ _ hv ↦
    ⟨hv.focus.setRunning key false, hv.slot_eq⟩

/-- What says the same is kept in the same place. -/
theorem concur_keep (hview : ∀ r, l.view r = r.finding) (u : CodeUnit β) (key : Key)
    {r r' : Result} (h : r'.finding = r.finding) :
    Concur (Matching (Manager.Alike l)) Eq (tier.access.keep u key r)
      (tier.access.keep u key r') := by
  refine concur_held.bind fun m m' _ ↦ ?_
  have hinsert : Concur (Matching (Manager.Alike l)) Eq
      (tier.access.modifyHeld fun m ↦ { m with results := m.results.insert (u.id, key) r })
      (tier.access.modifyHeld fun m ↦ { m with results := m.results.insert (u.id, key) r' }) :=
    .modifyFocus fun _ _ hm ↦ hm.insert (by rw [hview, hview, h]) u.id key
  exact hinsert.bind fun _ _ _ ↦ .emitAll _ _

/-- What is done only if a key is registered. -/
theorem concur_registered {α : Type} {same : α → α → Prop} (key : Key) (error : BoundaryError)
    {act act' : Exec (Manager S) α} (hact : Concur (Matching (Manager.Alike l)) same act act') :
    Concur (Matching (Manager.Alike l)) same
      (do
        unless (← tier.access.held).isRegistered key do fatal error
        act)
      (do
        unless (← tier.access.held).isRegistered key do fatal error
        act') := by
  refine concur_held.bind fun m m' hm ↦ ?_
  rw [hm.isRegistered_eq key]
  cases m.isRegistered key with
  | true => exact hact
  | false => exact .throw _

/-- For what is seen, a result is cached in both managers or in neither, and it says the same. -/
theorem Exposed.cached_eq (h : tier.Exposed l reach) {u : CodeUnit β} (hu : reach.unit u)
    {m m' : Manager S} (hm : m.Alike l m') (key : Key) :
    (m'.results.find? (u.id, key)).map Result.finding =
      (m.results.find? (u.id, key)).map Result.finding := by
  have hresult := hm.result u.id (h.seen u hu) key
  rwa [funext h.view_eq] at hresult

/-! ## Requests -/

section Requests

variable (h : tier.Exposed l reach) {answer : (q : Inquiry β I) → Exec (Manager S) q.Answer}
  (hanswer : ∀ q, reach.Has q → Concur (Matching (Manager.Alike l)) Eq (answer q) (answer q))
  {u : CodeUnit β} (hu : reach.unit u)

include h hanswer hu

/-- What an analysis finds does not depend on where it is computed. -/
theorem concur_compute {analysis analysis' : Analysis S} (halike : analysis.Alike l analysis') :
    Concur (Matching (Manager.Alike l)) Result.SameFinding
      (tier.access.compute answer u analysis) (tier.access.compute answer u analysis') := by
  cases halike with
  | @foreign entry context hgood =>
    have hasks := h.confines _ hgood u hu
    refine (Concur.run hanswer hasks).boundary.bind ?_
    rintro value _ rfl
    exact (Concur.adopt value).bind fun _ _ hcontent ↦ .pure (congrArg Finding.foreign hcontent)
  | @native entry hgood =>
    have hasks := h.confines _ hgood u hu
    refine (Concur.run hanswer hasks).bind ?_
    rintro value _ rfl
    exact .pure rfl
  | attached _ => exact .pure rfl

theorem concur_requestAt (f : Flavour) (key : Key) :
    Concur (Matching (Manager.Alike l)) f.SameFinding
      (tier.access.requestAt answer f key u) (tier.access.requestAt answer f key u) := by
  refine concur_held.bind fun m m' hm ↦ ?_
  have hresult := h.cached_eq hu hm key
  cases hfind : m.results.find? (u.id, key) with
  | some r =>
    rw [hfind] at hresult
    obtain ⟨r', hfind', hfinding⟩ := Option.map_eq_some_iff.1 hresult
    rw [hfind']
    exact (Concur.emitAll _ _).bind fun _ _ _ ↦ f.concur_expect hfinding
  | none =>
    rw [hfind] at hresult
    rw [Option.map_eq_none_iff.1 hresult]
    refine concur_held.bind fun m m' hm ↦ ?_
    cases hanalysis : m.analyses.find? key with
    | none =>
      rw [hm.find?_eq_none hanalysis]
      exact .throw _
    | some registered =>
      obtain ⟨analysis, running⟩ := registered
      obtain ⟨analysis', hanalysis', halike⟩ := hm.exists_find? hanalysis
      rw [hanalysis']
      refine (Concur.emitAll _ _).bind fun _ _ _ ↦ ?_
      cases running with
      | true => exact .throw _
      | false =>
        have hcompute := concur_compute h hanswer hu halike
        refine (concur_whileRunning key hcompute).bind fun r r' hfinding ↦ ?_
        exact (concur_keep h.view_eq u key hfinding).bind fun _ _ _ ↦ f.concur_expect hfinding

theorem concur_request (f : Flavour) :
    Concur (Matching (Manager.Alike l)) f.SameFinding
      (tier.access.request answer f u) (tier.access.request answer f u) := by
  refine (f.concur_resolve tier.access.kind).bind ?_
  rintro key _ rfl
  exact concur_requestAt h hanswer hu f key

end Requests

/-! ## Answers -/

section Answers

variable (h : tier.Exposed l reach) {u : CodeUnit β} (hu : reach.unit u)

include h hu

theorem concur_cached (f : Flavour) :
    Concur (Matching (Manager.Alike l)) f.SameCached (tier.access.cached f u)
      (tier.access.cached f u) := by
  refine (f.concur_resolve tier.access.kind).bind ?_
  rintro key _ rfl
  refine concur_held.bind fun m m' hm ↦ ?_
  have hresult := h.cached_eq hu hm key
  cases hfind : m.results.find? (u.id, key) with
  | some r =>
    rw [hfind] at hresult
    obtain ⟨r', hfind', hfinding⟩ := Option.map_eq_some_iff.1 hresult
    rw [hfind']
    exact (f.concur_expect hfinding).map fun _ _ h ↦ congrArg some h
  | none =>
    rw [hfind] at hresult
    rw [Option.map_eq_none_iff.1 hresult]
    exact .pure rfl

theorem concur_foreignCached (key : Key) :
    Concur (Matching (Manager.Alike l)) (Flavour.SameCached .foreign) (tier.access.foreignCached u key)
      (tier.access.foreignCached u key) :=
  (concur_cached h hu .foreign).withKey tier.kind key

end Answers

section Fetching

variable (h : tier.Exposed l reach) {fetch : Fetch (Manager S) β}
  (hfetch : ∀ f u, reach.unit u → Concur (Matching (Manager.Alike l))
    f.SameFinding (fetch f u) (fetch f u))

include hfetch

theorem concur_foreignResult {u : CodeUnit β} (hu : reach.unit u) (key : Key) :
    Concur (Matching (Manager.Alike l)) Opaque.SameContent
      (tier.access.foreignResult fetch u key) (tier.access.foreignResult fetch u key) := by
  have hfetched : Concur (Matching (Manager.Alike l)) Opaque.SameContent
      (fetch .foreign u) (fetch .foreign u) := fun w w' hw ↦
    (hfetch .foreign u hu w w' hw).mono (fun _ _ _ _ h ↦ ⟨Finding.foreign.inj h.1, h.2⟩)
      fun _ _ h ↦ h
  exact hfetched.withKey tier.kind key

include h

theorem concur_answer (q : Inquiry β I) (hq : reach.Has q) :
    Concur (Matching (Manager.Alike l)) Eq (tier.answer fetch q) (tier.answer fetch q) := by
  cases q with
  | say text => exact .emitAll _ _
  | identities =>
    intro w w' hw
    have hcurrent (kind : Kind) :
        (w.shared.slot kind).current = (w'.shared.slot kind).current := by rw [hw.slot_eq]
    exact .ok rfl rfl ⟨Prod.ext (hcurrent .module) (hcurrent .function), hw⟩
  | result u key =>
    cases key with
    | none => exact .throw _
    | some key =>
      exact ((concur_registered key _ (concur_foreignResult hfetch hq key)).boundary).map
        fun _ _ h ↦ h.symm
  | cached u key =>
    cases key with
    | none => exact .throw _
    | some key =>
      exact ((concur_foreignCached h hq key).boundary).map fun _ _ h ↦ h.bind_content?_eq.symm
  | native u index =>
    intro w w' hw
    exact (hfetch (.native index) u hq w w' hw).mono
      (fun _ _ _ _ h ↦ ⟨(Finding.native.inj h.1).symm, h.2⟩) fun _ _ h ↦ h
  | within u program =>
    refine (concur_registered .proxy _ (hfetch .attached u hq.1)).boundary.bind fun _ _ _ ↦ ?_
    exact concur_onAttached (h.within program hq.2)

end Fetching

theorem concur_fetchWithin (h : tier.Exposed l reach) (depth : Nat) (f : Flavour)
    {u : CodeUnit β} (hu : reach.unit u) :
    Concur (Matching (Manager.Alike l)) f.SameFinding
      (tier.fetchWithin depth f u) (tier.fetchWithin depth f u) := by
  induction depth generalizing f u with
  | zero =>
    exact concur_request h (fun q hq ↦ concur_answer h (fun _ _ _ ↦ .throw _) q hq) hu f
  | succ depth ih =>
    exact concur_request h (fun q hq ↦ concur_answer h (fun f u hu ↦ ih f hu) q hq) hu f

theorem concur_fetch (h : tier.Exposed l reach) (f : Flavour) {u : CodeUnit β}
    (hu : reach.unit u) :
    Concur (Matching (Manager.Alike l)) f.SameFinding (tier.fetch f u)
      (tier.fetch f u) := by
  refine Concur.focus.bind fun m m' hm ↦ ?_
  rw [Manager.idle_eq hm.profile_eq]
  exact concur_fetchWithin h m.idle f hu

/-! ## What is asked from outside -/

theorem concur_lookUp (h : tier.Exposed l reach) (sought : Lookup) {u : CodeUnit β}
    (hu : reach.unit u) :
    Concur (Matching (Manager.Alike l)) Result.SameFinding (tier.lookUp sought u)
      (tier.lookUp sought u) := by
  cases sought with
  | foreign key =>
    exact (concur_foreignResult (fun f _ hu ↦ concur_fetch h f hu) hu key).map
      fun _ _ h ↦ congrArg Finding.foreign h
  | native index => exact (concur_fetch h (.native index) hu).map fun _ _ h ↦ h
  | attached => exact (concur_fetch h .attached hu).map fun _ _ h ↦ h

theorem concur_lookUpCached (h : tier.Exposed l reach) (sought : Lookup) {u : CodeUnit β}
    (hu : reach.unit u) :
    Concur (Matching (Manager.Alike l))
      (fun r r' ↦ r'.map Result.finding = r.map Result.finding) (tier.lookUpCached sought u)
      (tier.lookUpCached sought u) := by
  cases sought with
  | foreign key =>
    exact (concur_foreignCached h hu key).map fun _ _ hab ↦ hab.map_finding fun _ ↦ rfl
  | native index =>
    exact (concur_cached h hu (.native index)).map fun _ _ hab ↦ hab.map_finding fun _ ↦ rfl
  | attached =>
    exact (concur_cached h hu .attached).map fun _ _ hab ↦ hab.map_finding fun _ ↦ rfl

/-- In both worlds every program that asks about what is within reach comes to the same, and every
look-up there has the same result. -/
structure SameAnswers (tier : Tier β I S) (reach : Reach β I) (w w' : World (Manager S)) :
    Prop where
  program {α : Type} (p : Program (Inquiry β I) Inquiry.Answer α) : p.AsksOnly reach.Has →
    outcome (p.run (tier.answer tier.fetch)) w' = outcome (p.run (tier.answer tier.fetch)) w
  lookUp (sought : Lookup) (u : CodeUnit β) : reach.unit u →
    outcome (Result.finding <$> tier.lookUp sought u) w' =
      outcome (Result.finding <$> tier.lookUp sought u) w
  lookUpCached (sought : Lookup) (u : CodeUnit β) : reach.unit u →
    outcome (Option.map Result.finding <$> tier.lookUpCached sought u) w' =
      outcome (Option.map Result.finding <$> tier.lookUpCached sought u) w

theorem sameAnswers (h : tier.Exposed l reach) {w w' : World (Manager S)}
    (hw : Matching (Manager.Alike l) w w') : tier.SameAnswers reach w w' where
  program _ hp :=
    Concur.outcome_eq (.run (concur_answer h fun f _ hu ↦ concur_fetch h f hu) hp) hw
  lookUp sought _ hu :=
    Concur.outcome_eq ((concur_lookUp h sought hu).map fun _ _ h ↦ Eq.symm h) hw
  lookUpCached sought _ hu :=
    Concur.outcome_eq ((concur_lookUpCached h sought hu).map fun _ _ h ↦ Eq.symm h) hw

end Tier

namespace Code

variable (code : Code) (own ids : UnitId → Prop)

theorem functionTier_exposed :
    code.functionTier.Exposed (code.functionLikeness Result.finding own ids)
      (Reach.function own) where
  view_eq _ := rfl
  seen _ hf := hf
  confines _ h := h.1
  within inner := inner.elim

theorem moduleTier_exposed :
    code.moduleTier.Exposed (code.moduleLikeness Result.finding own ids) (Reach.module own) where
  view_eq _ := rfl
  seen _ hm := hm.1
  confines _ h := h.1
  within _ hprogram :=
    have hexposed := code.functionTier_exposed own ids
    .run (Tier.concur_answer hexposed fun f _ hu ↦ Tier.concur_fetch hexposed f hu) hprogram

end Code

end ForeignPasses
