import ForeignPasses.Proofs.Boundary.Refusals
import ForeignPasses.Proofs.Manager.Dealings

/-!
# The accessors of a manager

The result of a foreign analysis is asked for directly or from beyond the boundary, where the key is
looked at first. What is cached and what is registered agree in any course of dealings with a
manager, and therefore the two ways do, also where a call is made in the middle of computations.
-/

namespace ForeignPasses

open Dealing Exec

namespace Exec

variable {σ α : Type} {w : World σ}

theorem boundary_congr {act act' : Exec σ α} (h : act w = act' w) :
    boundary act w = boundary act' w := by
  unfold boundary
  rw [h]

/-- A foreign frame makes no difference to an action out of which no panic comes. -/
theorem boundary_eq {act : Exec σ α}
    (h : act.Ensures w (fun _ _ ↦ True) fun e _ ↦ e.crossed = e) : boundary act w = act w := by
  unfold Ensures at h
  unfold boundary
  cases hact : act w with
  | ok a w' => rfl
  | error e w' =>
    rw [hact] at h
    cases e with
    | panicked p => cases h
    | crashed p | fatal error | exhausted => rfl

/-- What is shared may be anything where a scope has been opened. -/
theorem withKey_congr {act act' : Exec σ α} (h : ∀ s, act ⟨s, w.focus⟩ = act' ⟨s, w.focus⟩)
    (kind : Kind) (key : Key) : withKey kind key act w = withKey kind key act' w := by
  change ensuring act _ _ = ensuring act' _ _
  unfold ensuring
  rw [h]

theorem Ensures.congr {act act' : Exec σ α} (h : act w = act' w)
    {post : α → World σ → Prop} {halted : Halt → World σ → Prop} :
    act.Ensures w post halted ↔ act'.Ensures w post halted := by
  rw [Ensures, Ensures, h]

end Exec

/-- A program halts at one of its questions. -/
theorem Program.ensures_run_asks {Q σ α : Type} {A : Q → Type} (answer : (q : Q) → Exec σ (A q))
    (p : Program Q A α) (w : World σ) :
    Exec.Ensures (p.run answer) w (fun _ _ ↦ True)
      fun e w' ↦ ∃ q w₁, p.Asks answer w q w₁ ∧ answer q w₁ = .error e w' := by
  induction p generalizing w with
  | done a => trivial
  | ask q next ih =>
    change Exec.Ensures (answer q >>= fun a ↦ (next a).run answer) w _ _
    rw [ensures_bind]
    refine (Ensures.trivial (answer q) w).mono ?_ fun e w' herror ↦ ⟨q, w, .now, herror⟩
    intro a w₁ hok
    refine (ih a w₁).mono (fun _ _ h ↦ h) ?_
    rintro e w' ⟨q', w₂, hasks, herror⟩
    exact ⟨q', w₂, .later hok hasks, herror⟩

/-! ## Foreign analyses -/

/-- If there is an analysis, it is foreign. -/
def ForeignAt (known : Outline) (key : Key) : Prop :=
  ∀ analysis, known key = some analysis → ∃ entry context, analysis = .foreign entry context

namespace Manager

variable {S : Type} {m : Manager S} {key : Key}

theorem Tidy.exists_foreign {good : S → Prop} (h : m.Tidy good) (hforeign : ForeignAt m.outline key)
    {id : UnitId} {r : Result} (hr : m.results.find? (id, key) = some r) :
    ∃ value, r = .foreign value := by
  obtain ⟨analysis, hanalysis, hfits⟩ := h.fits _ r hr
  obtain ⟨entry, context, rfl⟩ := hforeign analysis hanalysis
  cases r with
  | foreign value => exact ⟨value, rfl⟩
  | native _ | attached => cases hfits

theorem find?_of_outline_foreign {entry : Entry} {context : Opaque String}
    (houtline : m.outline key = some (.foreign entry context))
    (hidle : m.profile.find? key ≠ some true) :
    m.analyses.find? key = some ⟨.foreign entry context, false⟩ := by
  obtain ⟨⟨analysis, running⟩, hfind, hanalysis⟩ := Option.map_eq_some_iff.1 houtline
  obtain rfl : analysis = .foreign entry context := by
    cases analysis <;> cases hanalysis
    rfl
  cases running with
  | false => exact hfind
  | true => exact absurd (profile_of_find? hfind) hidle

end Manager

namespace Tier

variable {β I S : Type} {tier : Tier β I S} {fetch : Fetch (Manager S) β} {u : CodeUnit β}
  {key : Key} {m : Manager S} {w : World (Manager S)}

/-- Beyond the boundary the key is looked at first. -/
theorem boundaryResult_eq (fetch : Fetch (Manager S) β) (u : CodeUnit β) (key : Key)
    (w : World (Manager S)) :
    tier.access.boundaryResult fetch u (some key) w =
      if w.focus.isRegistered key = true then boundary (tier.access.foreignResult fetch u key) w
      else .error (.fatal (.unregistered tier.kind.name key)) w := by
  cases hregistered : w.focus.isRegistered key with
  | true =>
    refine boundary_congr ?_
    change (if w.focus.isRegistered key = true then _ else _ : Exec _ _) w = _
    rw [if_pos hregistered]
  | false =>
    change _ = boundary (fatal (.unregistered tier.kind.name key)) w
    refine boundary_congr ?_
    change (if w.focus.isRegistered key = true then _ else _ : Exec _ _) w = _
    rw [hregistered]
    rfl

/-! ## Ways of getting results -/

variable (tier) in
/-- Results are got from a manager by requests that may nest so many times more: as often as there
are analyses at rest if they come from outside, and less often if they nest in others. -/
inductive Gets (m : Manager S) : Fetch (Manager S) β → Nat → Prop
  | outermost : Gets m tier.fetch m.idle
  | nested (depth : Nat) : Gets m (tier.fetchWithin depth) depth

section Gets

variable {depth : Nat} (h : tier.Gets m fetch depth)

include h

theorem Gets.eq_request (f : Flavour) (u : CodeUnit β) (s : Shared) :
    fetch f u ⟨s, m⟩ = tier.access.request (tier.answersWithin depth) f u ⟨s, m⟩ := by
  rw [← fetchWithin_eq]
  cases h <;> rfl

theorem Gets.respects {like : Manager S → Manager S → Prop} (hlike : tier.Conserves like)
    (f : Flavour) (u : CodeUnit β) : (fetch f u).Respects (Focused like) := by
  cases h with
  | outermost => exact hlike.fetch f u
  | nested depth => exact hlike.abides.fetchWithin depth f trivial

end Gets

/-! ## Results of foreign analyses -/

variable (tier) in
/-- Run in a world, the code of a foreign analysis comes to a question that ends it. -/
def Stalls (depth : Nat) (u : CodeUnit β) (entry : Entry) (context : Opaque String)
    (w : World (Manager S)) (e : Halt) : Prop :=
  ∃ q w₁ w₂ e₁,
    (tier.behaviour.analysis entry context.content? u).Asks (tier.answersWithin depth) w q w₁ ∧
      tier.answersWithin depth q w₁ = .error e₁ w₂ ∧ e = e₁.crossed

theorem ensures_compute_foreign (depth : Nat) (entry : Entry) (context : Opaque String) :
    (tier.access.compute (tier.answersWithin depth) u (.foreign entry context)).Ensures w
      (fun r _ ↦ ∃ value, r = .foreign value) fun e _ ↦
        tier.Stalls depth u entry context w e := by
  simp only [Access.compute, ensures_bind, ensures_boundary, ensures_adopt, ensures_pure]
  refine (Program.ensures_run_asks _ _ w).mono (fun _ _ _ ↦ ⟨_, rfl⟩) ?_
  rintro e w' ⟨q, w₁, hasks, herror⟩
  exact ⟨q, w₁, w', e, hasks, herror, rfl⟩

/-- While an analysis runs, nothing comes in under its key, however it ends. -/
theorem ensures_compute_missing (depth : Nat) {analysis : Analysis S} {id : UnitId}
    (hmissing : m.results.find? (id, key) = none)
    (hresting : m.analyses.find? key = some ⟨analysis, false⟩) (s : Shared) :
    (tier.access.compute (tier.answersWithin depth) u analysis).Ensures
      ⟨s, m.setRunning key true⟩ (fun _ w' ↦ w'.focus.results.find? (id, key) = none)
      fun _ w' ↦ w'.focus.results.find? (id, key) = none := by
  have hrests : m.profile.find? key = some false := Manager.profile_of_find? hresting
  have hanswer : ∀ q, (tier.answersWithin depth q).Respects (Focused tier.Gained) :=
    conserves_gained.answersWithin depth
  exact (respects_computed Gained.onward hanswer u analysis ⟨s, m.setRunning key true⟩
    Gained.refl).mono (fun _ _ h ↦ h.find?_eq_none hrests hmissing)
      fun _ _ h ↦ h.find?_eq_none hrests hmissing

/-- A result that is cached is handed out, and nothing changes. Otherwise the analysis runs and its
result is cached, unless its code comes to a question that ends it. -/
theorem ensures_foreignResult_foreign {depth : Nat} (hgets : tier.Gets m fetch depth)
    {entry : Entry} {context : Opaque String}
    (hresting : m.analyses.find? key = some ⟨.foreign entry context, false⟩)
    (hforeign : ∀ r, m.results.find? (u.id, key) = some r → ∃ value, r = .foreign value)
    (s : Shared) :
    (tier.access.foreignResult fetch u key).Ensures ⟨s, m⟩
      (fun value w' ↦ w'.focus.results.find? (u.id, key) = some (.foreign value) ∧
        ((m.results.find? (u.id, key)).isSome → w'.focus = m))
      fun e w' ↦ m.results.find? (u.id, key) = none ∧
        w'.focus.results.find? (u.id, key) = none ∧
          ∃ s', tier.Stalls depth u entry context ⟨s', m.setRunning key true⟩ e := by
  have hrequest : tier.access.foreignResult fetch u key ⟨s, m⟩ =
      tier.access.foreignResult (tier.access.request (tier.answersWithin depth)) u key ⟨s, m⟩ :=
    withKey_congr (hgets.eq_request .foreign u) tier.kind key
  refine (Ensures.congr hrequest).2 (Access.ensures_resolved ?_)
  apply Access.ensures_requestAt_of
  case hfound =>
    intro r message (hfind : m.results.find? (u.id, key) = some r)
    obtain ⟨value, rfl⟩ := hforeign r hfind
    exact ⟨hfind, fun _ ↦ rfl⟩
  case hunregistered =>
    intro _ (hnone : m.analyses.find? key = none)
    rw [hresting] at hnone
    cases hnone
  case hrunning =>
    intro analysis _ _ (hrunning : m.analyses.find? key = some ⟨analysis, true⟩)
    rw [hresting] at hrunning
    cases hrunning
  case hresting =>
    intro analysis message (hmissing : m.results.find? (u.id, key) = none)
      (hanalysis : m.analyses.find? key = some ⟨analysis, false⟩)
    obtain rfl : analysis = .foreign entry context := by
      rw [hresting] at hanalysis
      exact (congrArg Registered.analysis (Option.some.inj hanalysis)).symm
    refine ((ensures_compute_foreign depth entry context).and
      (ensures_compute_missing depth hmissing hresting _)).mono ?_ ?_
    · rintro r w₁ ⟨⟨value, rfl⟩, -⟩
      refine ⟨Table.find?_insert_self _ _ _, ?_⟩
      rw [hmissing]
      exact fun h ↦ nomatch h
    · rintro e w₁ ⟨hstalls, hstill⟩
      exact ⟨hmissing, hstill, _, hstalls⟩

/-- What is cached is looked for. -/
theorem ensures_foreignCached_foreign
    (hforeign : ∀ r, m.results.find? (u.id, key) = some r → ∃ value, r = .foreign value)
    (s : Shared) :
    (tier.access.foreignCached u key).Ensures ⟨s, m⟩
      (fun value w' ↦ w'.focus = m ∧ m.results.find? (u.id, key) = value.map .foreign)
      fun _ _ ↦ False := by
  apply Access.ensures_resolved
  apply Access.ensures_cachedAt_of
  case hfound =>
    intro r (hfind : m.results.find? (u.id, key) = some r)
    obtain ⟨value, rfl⟩ := hforeign r hfind
    exact ⟨rfl, hfind⟩
  case hmissing => exact fun hmissing ↦ ⟨rfl, hmissing⟩

/-! ## Registrations -/

section Registrations

variable [Owner S]

/-- An analysis is registered if its key is free, and refused if the key is taken. -/
def Enters (key : Key) (analysis : Analysis S) (act : Exec (Manager S) Bool)
    (w : World (Manager S)) : Prop :=
  act.Ensures w
    (fun registered w' ↦ registered = !w.focus.isRegistered key ∧
      w'.focus = w.focus.accept key analysis)
    fun _ _ ↦ False

variable (tier) in
/-- Every way of registering goes by whether the key is taken. Only a null key ends everything. -/
structure Admits (m : Manager S) : Prop where
  foreign : ∀ key entry context s,
    Enters key (.foreign entry context) (tier.access.registerForeign key entry context) ⟨s, m⟩
  beyond : ∀ key entry context s,
    Enters key (.foreign entry (.ofRaw (context.toRaw s.nextAddress)))
      (tier.access.boundaryRegister (some key) entry context) ⟨s, m⟩
  null : ∀ entry context s, (tier.access.boundaryRegister none entry context).Ensures ⟨s, m⟩
    (fun _ _ ↦ False) fun e w' ↦ e = .fatal .nullKey ∧ w'.focus = m
  known : ∀ s, tier.enrolRegistry.Ensures ⟨s, m⟩
    (fun _ w' ↦ w'.focus = m.enrol (s.registry tier.kind).analyses.entries) fun _ _ ↦ False
  native : ∀ index entry s,
    Enters (.numbered index) (.native entry) (tier.registerNative index entry) ⟨s, m⟩
  attached : ∀ inner s, Enters .proxy (.attached inner) (tier.attach inner) ⟨s, m⟩

theorem enters_registerForeign (key : Key) (entry : Entry) (context : Opaque String)
    (w : World (Manager S)) :
    Enters key (.foreign entry context) (tier.access.registerForeign key entry context) w :=
  (Access.ensures_registerForeign key entry context).imp fun _ _ h ↦ ⟨h.1.1, eq_accept h.1⟩

theorem enters_registerAt (key : Key) (analysis : Analysis S) (w : World (Manager S)) :
    Enters key analysis (tier.access.registerAt key analysis) w :=
  (Access.ensures_registerAt key analysis).imp fun _ _ h ↦ ⟨h.1.1, eq_accept h.1⟩

theorem admits (m : Manager S) : tier.Admits m where
  foreign key entry context s := enters_registerForeign key entry context ⟨s, m⟩
  beyond key entry context s := by
    unfold Enters
    simp only [Access.boundaryRegister, ensures_bind, ensures_adopt, ensures_boundary]
    exact enters_registerForeign key entry _ _
  null _ _ _ := ⟨rfl, rfl⟩
  known s := by
    simp only [enrolRegistry, ensures_bind, ensures_shared]
    exact (ensures_registerAll _).imp fun _ _ h ↦ h.1
  native index entry s := enters_registerAt (.numbered index) (.native entry) ⟨s, m⟩
  attached inner s := enters_registerAt .proxy (.attached inner) ⟨s, m⟩

end Registrations

/-! ## What can be relied on -/

variable (tier) in
/-- However an action on a manager ends, results have come in behind those that were there, and
nothing else has changed. -/
def GainsOnly (m : Manager S) {α : Type} (act : Exec (Manager S) α) : Prop :=
  ∀ s, act.Ensures ⟨s, m⟩ (fun _ w' ↦ tier.Gained m w'.focus) fun _ w' ↦ tier.Gained m w'.focus

theorem gainsOnly {α : Type} {act : Exec (Manager S) α} (h : act.Respects (Focused tier.Gained)) :
    tier.GainsOnly m act := fun s ↦ h ⟨s, m⟩ Gained.refl

variable (tier) in
/-- Whatever asks for results spares those that are there. When an analysis has run, the place for
its result is still vacant. -/
structure Spares (m : Manager S) : Prop where
  fetch : ∀ fetch depth, tier.Gets m fetch depth → ∀ f u, tier.GainsOnly m (fetch f u)
  direct : ∀ fetch depth, tier.Gets m fetch depth → ∀ u key,
    tier.GainsOnly m (tier.access.foreignResult fetch u key)
  beyond : ∀ fetch depth, tier.Gets m fetch depth → ∀ u key,
    tier.GainsOnly m (tier.access.boundaryResult fetch u key)
  answer : ∀ fetch depth, tier.Gets m fetch depth → ∀ q, tier.GainsOnly m (tier.answer fetch q)
  vacant : ∀ depth key analysis (u : CodeUnit β) s, m.results.find? (u.id, key) = none →
    m.analyses.find? key = some ⟨analysis, false⟩ →
      (tier.access.compute (tier.answersWithin depth) u analysis).Ensures
        ⟨s, m.setRunning key true⟩ (fun _ w' ↦ w'.focus.results.find? (u.id, key) = none)
        fun _ w' ↦ w'.focus.results.find? (u.id, key) = none

theorem spares (m : Manager S) : tier.Spares m where
  fetch _ _ hgets f u := gainsOnly (hgets.respects conserves_gained f u)
  direct _ _ hgets _ key :=
    gainsOnly (conserves_gained.abides.foreignResult
      (fun f u _ ↦ hgets.respects conserves_gained f u) trivial key)
  beyond _ _ hgets _ key :=
    gainsOnly (conserves_gained.abides.boundaryResult
      (fun f u _ ↦ hgets.respects conserves_gained f u) trivial key)
  answer _ _ hgets q := gainsOnly (conserves_gained.answer (hgets.respects conserves_gained) q)
  vacant depth _ _ _ s hmissing hresting := ensures_compute_missing depth hmissing hresting s

/-- The result of a foreign analysis is handed out. If it was cached then nothing changes, and
otherwise it is cached afterwards, unless the code of the analysis comes to a question that ends
it. -/
structure Delivers (tier : Tier β I S) (fetch : Fetch (Manager S) β) (depth : Nat) (entry : Entry)
    (context : Opaque String) (key : Key) (u : CodeUnit β) (s : Shared) (m : Manager S) : Prop where
  cached : ∀ r, m.results.find? (u.id, key) = some r → ∃ value s',
    r = .foreign value ∧ tier.access.foreignResult fetch u key ⟨s, m⟩ = .ok value ⟨s', m⟩
  computed : m.results.find? (u.id, key) = none →
    (tier.access.foreignResult fetch u key).Ensures ⟨s, m⟩
      (fun value w' ↦ w'.focus.results.find? (u.id, key) = some (.foreign value))
      fun e w' ↦ w'.focus.results.find? (u.id, key) = none ∧
        ∃ s', tier.Stalls depth u entry context ⟨s', m.setRunning key true⟩ e

/-- Asking from beyond the boundary ends everything if the key is null, and asking for a result does
if there is no analysis under the key. Otherwise, for a foreign analysis that is not being computed,
it is the same as asking directly. -/
structure Agrees (tier : Tier β I S) (fetch : Fetch (Manager S) β) (depth : Nat) (known : Outline)
    (outstanding : List (UnitId × Key)) (m : Manager S) : Prop where
  null : ∀ u s, tier.access.boundaryResult fetch u none ⟨s, m⟩ = .error (.fatal .nullKey) ⟨s, m⟩
  unregistered : ∀ key, known key = none → ∀ u s,
    tier.access.boundaryResult fetch u (some key) ⟨s, m⟩ =
      .error (.fatal (.unregistered tier.kind.name key)) ⟨s, m⟩
  foreign : ∀ key entry context, known key = some (.foreign entry context) →
    (∀ id, (id, key) ∉ outstanding) → ∀ u s,
      tier.access.boundaryResult fetch u (some key) ⟨s, m⟩ =
          tier.access.foreignResult fetch u key ⟨s, m⟩ ∧
        tier.Delivers fetch depth entry context key u s m
  cachedNull : ∀ u s, tier.access.boundaryCached u none ⟨s, m⟩ = .error (.fatal .nullKey) ⟨s, m⟩
  cached : ∀ key, ForeignAt known key → ∀ u s, ∃ value s',
    m.results.find? (u.id, key) = value.map .foreign ∧
      tier.access.boundaryCached u (some key) ⟨s, m⟩ = .ok value ⟨s', m⟩ ∧
      tier.access.foreignCached u key ⟨s, m⟩ = .ok value ⟨s', m⟩

theorem Stalls.crossed {depth : Nat} {entry : Entry} {context : Opaque String} {e : Halt}
    (h : tier.Stalls depth u entry context w e) : e.crossed = e := by
  obtain ⟨-, -, -, e₁, -, -, rfl⟩ := h
  cases e₁ <;> rfl

theorem agrees {depth : Nat} {known : Outline} {outstanding : List (UnitId × Key)}
    (hgets : tier.Gets m fetch depth) (hstands : tier.Stands known m) {good : S → Prop}
    (htidy : m.Tidy good)
    (hrunning : ∀ key, m.profile.find? key = some true → ∃ id, (id, key) ∈ outstanding) :
    tier.Agrees fetch depth known outstanding m where
  null _ _ := rfl
  unregistered key hkey u s := by
    have hfree : m.isRegistered key = false := by
      rw [hstands.isRegistered, hkey]
      rfl
    rw [boundaryResult_eq, if_neg (Bool.eq_false_iff.1 hfree)]
  foreign key entry context hkey hidle u s := by
    have hregistered : m.isRegistered key = true := by
      rw [hstands.isRegistered, hkey]
      rfl
    have hresting : m.analyses.find? key = some ⟨.foreign entry context, false⟩ := by
      refine Manager.find?_of_outline_foreign (hstands.outline_eq ▸ hkey) fun h ↦ ?_
      obtain ⟨id, hmem⟩ := hrunning key h
      exact hidle id hmem
    have hforeignAt : ForeignAt known key := by
      intro analysis hanalysis
      exact ⟨entry, context, Option.some.inj (hanalysis.symm.trans hkey)⟩
    have hforeign (r : Result) (hr : m.results.find? (u.id, key) = some r) :
        ∃ value, r = .foreign value :=
      htidy.exists_foreign (hstands.outline_eq ▸ hforeignAt) hr
    have hresult := ensures_foreignResult_foreign hgets hresting hforeign s
    refine ⟨?_, ?_, ?_⟩
    · rw [boundaryResult_eq, if_pos hregistered]
      refine boundary_eq (hresult.mono (fun _ _ _ ↦ trivial) ?_)
      rintro e w' ⟨-, -, s', hstalls⟩
      exact hstalls.crossed
    · intro r hr
      obtain ⟨value, ⟨s', m'⟩, hok, hfound, hsame⟩ := hresult.exists_ok fun e w' h ↦ by
        rw [h.1] at hr
        cases hr
      obtain rfl : m' = m := hsame (by rw [hr]; rfl)
      exact ⟨value, s', Option.some.inj (hr.symm.trans hfound), hok⟩
    · exact fun _ ↦ hresult.mono (fun _ _ h ↦ h.1) fun _ _ h ↦ h.2
  cachedNull _ _ := rfl
  cached key hkey u s := by
    have hforeign (r : Result) (hr : m.results.find? (u.id, key) = some r) :
        ∃ value, r = .foreign value :=
      htidy.exists_foreign (hstands.outline_eq ▸ hkey) hr
    have hcached : (tier.access.foreignCached u key).Ensures ⟨s, m⟩
        (fun value w' ↦ w'.focus = m ∧ m.results.find? (u.id, key) = value.map .foreign)
        fun _ _ ↦ False :=
      ensures_foreignCached_foreign hforeign s
    obtain ⟨value, ⟨s', m'⟩, hok, hsame, hvalue⟩ := hcached.exists_ok fun _ _ h ↦ h
    obtain rfl : m' = m := hsame
    have hboundary : tier.access.boundaryCached u (some key) ⟨s, m'⟩ =
        tier.access.foreignCached u key ⟨s, m'⟩ :=
      boundary_eq (hcached.mono (fun _ _ _ ↦ trivial) fun _ _ h ↦ h.elim)
    exact ⟨value, s', hvalue, hboundary.trans hok, hok⟩

/-- What can be relied on with a manager to which some analyses were offered, while some
computations are outstanding. -/
structure Reliable [Owner S] (tier : Tier β I S) (offers : List (Key × Analysis S))
    (outstanding : List (UnitId × Key)) (m : Manager S) : Prop where
  registered : ∀ key, m.isRegistered key = true ↔ ∃ analysis, (key, analysis) ∈ offers
  stands : tier.Stands (firstOf offers) m
  cached : ∀ id key r, m.results.find? (id, key) = some r → m.isRegistered key = true
  admits : tier.Admits m
  spares : tier.Spares m
  agrees : ∀ fetch depth, tier.Gets m fetch depth →
    tier.Agrees fetch depth (firstOf offers) outstanding m
  inexhaustible : ∀ u key s, (tier.access.boundaryResult tier.fetch u key).Ensures ⟨s, m⟩
    (fun _ _ ↦ True) fun e _ ↦ e ≠ .exhausted

theorem Nests.reliable [Owner S] [Account S]
    (hkeeps : ∀ i, (tier.within i).Keeps Role.Any True 0 fun _ ↦ 0)
    (history : List (Shared × Dealing β I S)) {outstanding : List (UnitId × Key)}
    (hnests : tier.Nests (· = tier.dealt history {}) outstanding m) :
    tier.Reliable (offered tier.kind history) outstanding m := by
  have hstands : tier.Stands (firstOf (offered tier.kind history)) m :=
    hnests.stands fun _ hm ↦ by
      rw [hm]
      exact stands_dealt history
  have hupkeep : Manager.Upkeep (fun _ ↦ True) {} (tier.dealt history {}) :=
    upkeep_dealt history .empty
  obtain ⟨htidy, hrunning⟩ := hnests.tidy_and_running maintained_true fun _ hm ↦ by
    rw [hm]
    exact ⟨hupkeep.tidy, hupkeep.rests fun _ h ↦ nomatch h⟩
  refine
    { registered := fun key ↦ ?_
      stands := hstands
      cached := fun id key r hr ↦ ?_
      admits := admits m
      spares := spares m
      agrees := fun fetch depth hgets ↦ agrees hgets hstands htidy fun key ↦ (hrunning key).1
      inexhaustible := fun u key s ↦ ?_ }
  · rw [hstands.isRegistered, isSome_firstOf]
  · obtain ⟨analysis, hanalysis, -⟩ := hstands.stems _ r hr
    rw [hstands.isRegistered, hanalysis]
    rfl
  · refine Ensures.mono (consults_boundaryResult (consults_fetch hkeeps) u key ⟨s, m⟩
      (Nat.lt_succ_self _)) (fun _ _ _ ↦ trivial) ?_
    rintro _ _ hexcused rfl
    exact hexcused

end Tier

namespace Code

/-- Whatever has been done with a manager of functions or of modules, and whatever is being computed
in it: each key has the analysis that was offered for it first, which has computed all that is
cached under the key; requests spare what is cached; and asking from beyond the boundary comes to
the same as asking directly, for foreign analyses that are not being computed. -/
theorem accessors_agree (code : Code) :
    (∀ history outstanding (m : FunctionManager),
      code.functionTier.Nests (· = code.functionTier.dealt history {}) outstanding m →
        code.functionTier.Reliable (offered .function history) outstanding m) ∧
    ∀ history outstanding (m : ModuleManager),
      code.moduleTier.Nests (· = code.moduleTier.dealt history {}) outstanding m →
        code.moduleTier.Reliable (offered .module history) outstanding m :=
  ⟨fun history _ _ hnests ↦ hnests.reliable code.keeps_functionWithin history,
    fun history _ _ hnests ↦ hnests.reliable code.keeps_moduleWithin history⟩

end Code

namespace Demo

/-! ## In the middle of a chain -/

/-- Two analyses of the chain are registered, and a third is refused. -/
def chainHistory : List (Shared × Dealing Body Empty Empty) :=
  [({}, .registerForeign (.numbered 0) 0 .null),
    ({}, .boundaryRegister (some (.numbered 1)) 1 .null),
    ({}, .registerForeign (.numbered 1) 0 .null)]

/-- The second analysis of the chain is being computed, and is about to ask for the first. -/
def midway : FunctionManager :=
  (chained.functionTier.dealt chainHistory {}).setRunning (.numbered 1) true

/-- The manager of functions is attached to one of modules. -/
def attachHistory : List (Shared × Dealing Functions FunctionInquest FunctionManager) :=
  [({}, .attach midway), ({}, .perform .clear)]

theorem accessors_agree_midway :
    chained.functionTier.Nests (· = chained.functionTier.dealt chainHistory {})
        [(main.id, .numbered 1)] midway ∧
      (∀ s, chained.functionTier.access.boundaryResult chained.functionTier.fetch main
          (some (.numbered 0)) ⟨s, midway⟩ =
        chained.functionTier.access.foreignResult chained.functionTier.fetch main (.numbered 0)
          ⟨s, midway⟩) ∧
      (chained.functionTier.access.boundaryResult chained.functionTier.fetch main
          (some (.numbered 0))).Ensures ⟨{}, midway⟩ (fun value _ ↦ value.content? = some 2)
        (fun _ _ ↦ False) ∧
      chained.moduleTier.Reliable (offered .module attachHistory) []
        (chained.moduleTier.dealt attachHistory {}) := by
  have hasks : chained.functionTier.CodeAsks (chained.functionTier.fetchWithin 0) main
      (.foreign 1 .null) ⟨{}, midway⟩ ⟨{}, midway⟩ := .foreign .now
  have hnests : chained.functionTier.Nests (· = chained.functionTier.dealt chainHistory {})
      [(main.id, .numbered 1)] midway := by
    have hrest : chained.functionTier.Nests (· = chained.functionTier.dealt chainHistory {}) []
        (chained.functionTier.dealt chainHistory {}) := .rest rfl
    exact hrest.computing rfl rfl hasks
  have hreliable := (Code.accessors_agree chained).1 _ _ _ hnests
  refine ⟨hnests, fun s ↦ ?_, by decide +kernel,
    (Code.accessors_agree chained).2 _ _ _ (.rest rfl)⟩
  exact ((hreliable.agrees _ _ .outermost).foreign (.numbered 0) 0 .null rfl (by simp)
    main s).1

end Demo

end ForeignPasses
