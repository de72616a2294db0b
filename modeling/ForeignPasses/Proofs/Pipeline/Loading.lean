import ForeignPasses.Builder.Analyses
import ForeignPasses.Plugin
import ForeignPasses.Proofs.Exec.Agreement
import ForeignPasses.Proofs.Manager.Request
import ForeignPasses.Proofs.Pipeline.Resolution
import ForeignPasses.Proofs.Registry.History

/-!
# Loading and registering in any order

The callbacks of the plugin read the registries when they are asked, not when they are installed.
So it does not matter when the plugin is loaded, how often, or what is registered before and after:
a builder answers as if everything had been registered first and the plugin loaded once.
-/

namespace ForeignPasses

open Exec Registry

/-! ## Managers filled from a registry -/

namespace Manager

variable {S : Type}

/-- An analysis comes under a key, unless the key is taken. -/
def accept (m : Manager S) (key : Key) (analysis : Analysis S) : Manager S :=
  if m.isRegistered key then m
  else { m with analyses := m.analyses.insert key ⟨analysis, false⟩ }

/-- Foreign analyses without contexts come one after the other. -/
def enrol (m : Manager S) (entries : List (Key × Entry)) : Manager S :=
  entries.foldl (fun m e ↦ m.accept e.1 (.foreign e.2 .null)) m

theorem isRegistered_accept (m : Manager S) (key : Key) (analysis : Analysis S) :
    (m.accept key analysis).isRegistered key = true := by
  unfold accept
  split
  · assumption
  · simp [isRegistered, Table.contains]

theorem isRegistered_accept_of_isRegistered {m : Manager S} {key : Key}
    (h : m.isRegistered key = true) (other : Key) (analysis : Analysis S) :
    (m.accept other analysis).isRegistered key = true := by
  unfold accept
  split
  · exact h
  · simp only [isRegistered, Table.contains, Table.find?_insert] at h ⊢
    split
    · rfl
    · exact h

theorem isRegistered_enrol_of_isRegistered {m : Manager S} {key : Key}
    (h : m.isRegistered key = true) (entries : List (Key × Entry)) :
    (m.enrol entries).isRegistered key = true := by
  induction entries generalizing m with
  | nil => exact h
  | cons e rest ih => exact ih (isRegistered_accept_of_isRegistered h e.1 _)

theorem isRegistered_enrol (m : Manager S) {entries : List (Key × Entry)} {e : Key × Entry}
    (he : e ∈ entries) : (m.enrol entries).isRegistered e.1 = true := by
  induction entries generalizing m with
  | nil => contradiction
  | cons first rest ih =>
    rcases List.mem_cons.1 he with rfl | he
    · exact isRegistered_enrol_of_isRegistered (m.isRegistered_accept e.1 _) rest
    · exact ih (m.accept first.1 _) he

theorem enrol_eq_self {m : Manager S} {entries : List (Key × Entry)}
    (h : ∀ e ∈ entries, m.isRegistered e.1 = true) : m.enrol entries = m := by
  induction entries with
  | nil => rfl
  | cons e rest ih =>
    obtain ⟨hfirst, hrest⟩ := List.forall_mem_cons.1 h
    have hsame : m.accept e.1 (.foreign e.2 .null) = m := if_pos hfirst
    rw [enrol, List.foldl_cons, hsame]
    exact ih hrest

/-- Coming again, every analysis is refused. -/
theorem enrol_enrol (m : Manager S) (entries : List (Key × Entry)) :
    (m.enrol entries).enrol entries = m.enrol entries :=
  enrol_eq_self fun _ he ↦ m.isRegistered_enrol he

end Manager

/-! ## Nothing is said -/

theorem Shared.registry_setSlot (s : Shared) (kind : Kind) (slot : Slot) :
    (s.setSlot kind slot).registry = s.registry := by
  funext kind'
  cases kind <;> cases kind' <;> rfl

namespace Builder.Quiet

variable {σ : Type}

theorem logged (s : Shared) (severity : Severity) (message : String) :
    Quiet s { s with events := s.events ++ [.log severity message] } where
  registry_eq := funext fun kind ↦ by cases kind <;> rfl
  silent := .log severity message rfl

theorem inScope (kind : Kind) (key : Key) (w : World σ) :
    Quiet w.shared (Access.inScope kind key w).shared where
  registry_eq := Shared.registry_setSlot w.shared kind ⟨some key⟩
  silent := .log .trace _ rfl

theorem closed (kind : Kind) (opened w : World σ) :
    Quiet w.shared (Access.closed kind opened w).shared where
  registry_eq := Shared.registry_setSlot _ _ _
  silent := .of_events_eq (by cases kind <;> rfl)

end Builder.Quiet

namespace Access

variable {σ β S Q : Type} {A : Q → Type} {access : Access σ β S Q A} {w : World σ}

/-- Nothing is heard of an analysis that is not refused or holds nothing. -/
theorem ensures_registerAt_quiet [Owner S] (key : Key) {analysis : Analysis S}
    (hholds : (access.manager w.focus).isRegistered key = true → releases analysis = []) :
    (access.registerAt key analysis).Ensures w
      (fun _ w' ↦ Builder.Quiet w.shared w'.shared) fun _ _ ↦ False := by
  simp only [registerAt, ensures_bind, ensures_held]
  cases hregistered : (access.manager w.focus).isRegistered key with
  | true =>
    simp only [if_true, ensures_bind, ensures_discard, ensures_pure, hholds hregistered,
      List.map_nil, List.append_nil]
    exact .refl
  | false =>
    simp only [Bool.false_eq_true, if_false, ensures_bind, ensures_modifyHeld, ensures_pure]
    exact .refl

theorem ensures_registerForeign_quiet [Owner S] (key : Key) (entry : Entry) :
    (access.registerForeign key entry .null).Ensures w
      (fun _ w' ↦ Builder.Quiet w.shared w'.shared) fun _ _ ↦ False := by
  simp only [registerForeign, register, Flavour.resolve, bind_assoc]
  apply ensures_resolved
  simp only [ensures_bind, ensures_debug, ensures_pure]
  refine (ensures_registerAt_quiet key fun _ ↦ Opaque.drop_null).mono ?_ fun _ _ h ↦ h
  intro _ w' hquiet
  refine ((Builder.Quiet.inScope access.kind key w).trans hquiet).trans ?_
  exact (Builder.Quiet.logged w'.shared _ _).trans (.closed access.kind w ⟨_, w'.focus⟩)

end Access

/-- A manager takes what the registry has, and nothing is heard of it. -/
def Manager.Takes {S : Type} (entries : List (Key × Entry)) (w w' : World (Manager S)) : Prop :=
  w'.focus = w.focus.enrol entries ∧ Builder.Quiet w.shared w'.shared

namespace Tier

variable {β I S : Type} {tier : Tier β I S} {w : World (Manager S)}

theorem eq_accept {key : Key} {analysis : Analysis S} {registered : Bool} {m m' : Manager S}
    (h : tier.access.Entered key analysis registered m m') : m' = m.accept key analysis := by
  obtain ⟨hregistered, hm'⟩ := h
  have hheld : (tier.access.manager m).isRegistered key = m.isRegistered key := rfl
  rw [hm', hregistered, hheld, Manager.accept]
  cases m.isRegistered key <;> rfl

variable [Owner S]

theorem ensures_registerAll (entries : List (Key × Entry)) :
    (tier.registerAll entries).Ensures w (fun _ w' ↦ Manager.Takes entries w w')
      fun _ _ ↦ False := by
  induction entries generalizing w with
  | nil => exact ⟨rfl, .refl⟩
  | cons e rest ih =>
    rw [registerAll, ensures_bind]
    refine ((Access.ensures_registerForeign e.1 e.2 .null).and
      (Access.ensures_registerForeign_quiet e.1 e.2)).mono ?_ fun _ _ h ↦ h.1
    rintro _ w₁ ⟨⟨hentered, -⟩, hquiet⟩
    refine ih.mono ?_ fun _ _ h ↦ h
    rintro _ w' ⟨hfocus, hquiet'⟩
    rw [eq_accept hentered] at hfocus
    exact ⟨hfocus, hquiet.trans hquiet'⟩

/-- However many callbacks of the plugin there are, a manager takes what the registry has once. -/
theorem ensures_enrolAll {code : Code} {hooks : List Hook} (hne : hooks ≠ [])
    (hregistry : ∀ hook ∈ hooks, hook = .registry) :
    (Builder.enrolAll code tier hooks).Ensures w
      (fun _ w' ↦ Manager.Takes (w.shared.registry tier.kind).analyses.entries w w')
      fun _ _ ↦ False := by
  induction hooks generalizing w with
  | nil => contradiction
  | cons hook rest ih =>
    obtain ⟨rfl, hrest⟩ := List.forall_mem_cons.1 hregistry
    simp only [Builder.enrolAll, Hook.enrol, enrolRegistry, ensures_bind, ensures_shared]
    refine (ensures_registerAll _).mono ?_ fun _ _ h ↦ h
    rintro _ w₁ ⟨hfocus, hquiet⟩
    by_cases hmore : rest = []
    · subst hmore
      exact ⟨hfocus, hquiet⟩
    · refine (ih hmore hrest).mono ?_ fun _ _ h ↦ h
      rintro _ w' ⟨hfocus', hquiet'⟩
      rw [hquiet.registry_eq, hfocus, Manager.enrol_enrol] at hfocus'
      exact ⟨hfocus', hquiet.trans hquiet'⟩

end Tier

namespace Builder

/-! ## Preparing a builder -/

/-- All callbacks for names and for analyses are those of the plugin, if there are any. -/
structure Plain (b : Builder) : Prop where
  parsing : ∀ kind, ∀ hook ∈ b.parsingOf kind, hook = .registry
  enrolment : ∀ kind, ∀ hook ∈ b.enrolmentOf kind, hook = .registry

/-- The plugin has been loaded, and no other callbacks are there for names or for analyses. -/
structure Loaded (b : Builder) : Prop extends b.Plain where
  parsing_ne : ∀ kind, b.parsingOf kind ≠ []
  enrolment_ne : ∀ kind, b.enrolmentOf kind ≠ []

theorem Loaded.installed {b : Builder} (h : b.Loaded) : b.Installed := ⟨h.parsing_ne, h.parsing⟩

/-- The builder with one more pair of callbacks of the plugin. -/
def hooked (b : Builder) (kind : Kind) : Builder where
  extensions := b.extensions
  parsing := b.parsing ++ [(kind, .registry)]
  enrolment := b.enrolment ++ [(kind, .registry)]

/-- The builder after the plugin was loaded once more. -/
def plus (b : Builder) : Builder := (b.hooked .module).hooked .function

theorem parsingOf_plus (b : Builder) (kind : Kind) :
    b.plus.parsingOf kind = b.parsingOf kind ++ [.registry] := by
  cases kind <;> simp [parsingOf, plus, hooked]

theorem enrolmentOf_plus (b : Builder) (kind : Kind) :
    b.plus.enrolmentOf kind = b.enrolmentOf kind ++ [.registry] := by
  cases kind <;> simp [enrolmentOf, plus, hooked]

theorem Plain.plus {b : Builder} (h : b.Plain) : b.plus.Loaded where
  parsing kind := by
    rw [parsingOf_plus, List.forall_mem_append]
    exact ⟨h.parsing kind, by simp⟩
  enrolment kind := by
    rw [enrolmentOf_plus, List.forall_mem_append]
    exact ⟨h.enrolment kind, by simp⟩
  parsing_ne kind := by
    rw [parsingOf_plus]
    simp
  enrolment_ne kind := by
    rw [enrolmentOf_plus]
    simp

/-- A plugin for another version is refused, and nothing happens. -/
theorem load_refused {info : PluginInfo} (hversion : info.apiVersion ≠ apiVersion)
    (w : World Builder) :
    load info w = .ok (.error (.incompatibleApiVersion apiVersion info.apiVersion)) w := by
  rw [load, if_pos hversion]
  rfl

theorem ensures_install (kind : Kind) (w : World Builder) :
    (install kind).Ensures w
      (fun _ w' ↦ w'.focus = w.focus.hooked kind ∧ Quiet w.shared w'.shared) fun _ _ ↦ False := by
  simp only [install, ensures_bind, ensures_shared, ensures_debug, ensures_modifyFocus]
  exact ⟨rfl, .logged _ _ _⟩

theorem ensures_load {info : PluginInfo} (hversion : info.apiVersion = apiVersion)
    (w : World Builder) :
    (load info).Ensures w
      (fun outcome w' ↦ outcome = .ok () ∧ w'.focus = w.focus.plus ∧ Quiet w.shared w'.shared)
      fun _ _ ↦ False := by
  have hsame : ¬info.apiVersion ≠ apiVersion := fun hne ↦ hne hversion
  rw [load, if_neg hsame]
  simp only [ensures_bind, ensures_debug, ensures_pure]
  refine (ensures_install .module _).imp ?_
  rintro _ w₁ ⟨hmodule, hquiet⟩
  refine (ensures_install .function w₁).imp ?_
  rintro _ w₂ ⟨hfunction, hquiet'⟩
  refine ⟨trivial, ?_, ((Quiet.logged _ _ _).trans hquiet).trans hquiet'⟩
  rw [hfunction, hmodule]
  rfl

/-- Loading keeps the registries and the builder plain, and loads it if the version is right. -/
theorem ensures_load_loaded (info : PluginInfo) (w : World Builder) (hplain : w.focus.Plain) :
    (load info).Ensures w
      (fun _ w' ↦ w'.shared.registry = w.shared.registry ∧ w'.focus.Plain ∧
        (w.focus.Loaded ∨ info.apiVersion = apiVersion → w'.focus.Loaded))
      fun _ _ ↦ False := by
  by_cases hversion : info.apiVersion = apiVersion
  · refine (ensures_load hversion w).mono ?_ fun _ _ h ↦ h
    rintro outcome w' ⟨-, hfocus, hquiet⟩
    have hloaded : w'.focus.Loaded := hfocus ▸ hplain.plus
    exact ⟨hquiet.registry_eq, hloaded.toPlain, fun _ ↦ hloaded⟩
  · rw [Ensures, load_refused hversion]
    exact ⟨rfl, hplain, fun h ↦ h.resolve_right hversion⟩

/-- What is done to get ready: loading a plugin, or registering something. -/
inductive Preparation
  | load (info : PluginInfo)
  | register (request : Request)

namespace Preparation

abbrev Outcome := Except LoadError Unit ⊕ Except BoundaryError Unit

/-- Preparations one after the other, until a request from beyond the boundary is refused. -/
def performAll : List Preparation → Exec Builder (List Outcome)
  | [] => return []
  | load info :: rest => do
    let outcome ← Builder.load info
    (.inl outcome :: ·) <$> performAll rest
  | register request :: rest => do
    let outcome ← request.perform
    (.inr outcome :: ·) <$> performAll rest

/-- What is registered in the course of preparations. -/
def requests (preparations : List Preparation) : List Request :=
  preparations.filterMap fun
    | load _ => none
    | register request => some request

/-- A plugin for this version is loaded. -/
def Loads (preparations : List Preparation) : Prop :=
  ∃ info, load info ∈ preparations ∧ info.apiVersion = apiVersion

end Preparation

/-! ## Two ways to the same registries -/

section Agreement

variable {σ τ : Type} {w : World σ} {w' : World τ}

/-- Two worlds after the same requests. -/
structure Matches (w v : World σ) (w' v' : World τ) : Prop where
  registry_eq : v.shared.registry = v'.shared.registry
  focus_eq : v.focus = w.focus
  focus_eq' : v'.focus = w'.focus

theorem agree_enter (hregistry : w.shared.registry = w'.shared.registry) (kind : Kind)
    (line : String) (register : Registry → Except BoundaryError Registry) :
    Agree (enter kind line register) (enter kind line register) w w'
      (fun outcome v outcome' v' ↦ outcome = outcome' ∧ Matches w v w' v') fun _ _ ↦ True := by
  have hsame : w.shared.registry kind = w'.shared.registry kind := congrFun hregistry kind
  refine .shared ?_
  rw [hsame]
  cases register (w'.shared.registry kind) with
  | error error => exact .pure ⟨rfl, hregistry, rfl, rfl⟩
  | ok r =>
    refine .ok rfl rfl ⟨rfl, ?_, rfl, rfl⟩
    change (Shared.setRegistry _ kind r).registry = (Shared.setRegistry _ kind r).registry
    funext other
    by_cases hother : other = kind
    · subst hother
      rw [Shared.registry_setRegistry, Shared.registry_setRegistry]
    · rw [Shared.registry_setRegistry_of_ne _ _ hother, Shared.registry_setRegistry_of_ne _ _ hother]
      have := congrFun hregistry other
      cases other <;> exact this

/-- What comes of a request is decided by the registries alone. -/
theorem agree_perform (hregistry : w.shared.registry = w'.shared.registry) (request : Request) :
    Agree request.perform request.perform w w'
      (fun outcome v outcome' v' ↦ outcome = outcome' ∧ Matches w v w' v') fun _ _ ↦ True := by
  have hfatal {outcome outcome' : Except BoundaryError Unit} {v : World σ} {v' : World τ}
      (h : outcome = outcome' ∧ Matches w v w' v') :
      Agree (orFatal outcome) (orFatal outcome') v v'
        (fun a v b v' ↦ Except.ok (ε := BoundaryError) a = .ok b ∧ Matches w v w' v')
        fun _ _ ↦ True := by
    obtain ⟨rfl, hmatches⟩ := h
    cases outcome with
    | error error => exact .throw _ trivial
    | ok _ => exact .pure ⟨rfl, hmatches⟩
  cases request with
  | pass kind name entry =>
    exact agree_enter hregistry kind _ (·.addPass name entry)
  | analysis kind key entry =>
    exact agree_enter hregistry kind _ (·.addAnalysis key entry)
  | boundaryPass kind name entry =>
    exact .map (.bind ((agree_enter hregistry kind _ _).mono (fun _ _ _ _ h ↦ hfatal h)
      fun _ _ _ ↦ trivial))
  | boundaryAnalysis kind key entry =>
    cases key with
    | none => exact .map (.throw _ trivial)
    | some key =>
      exact .map (.bind ((agree_enter hregistry kind _ _).mono (fun _ _ _ _ h ↦ hfatal h)
        fun _ _ _ ↦ trivial))

end Agreement

theorem Preparation.loads_cons {p : Preparation} {rest : List Preparation} :
    Loads (p :: rest) ↔ (∃ info, p = load info ∧ info.apiVersion = apiVersion) ∨ Loads rest := by
  constructor
  · rintro ⟨info, hinfo, hversion⟩
    rcases List.mem_cons.1 hinfo with rfl | hinfo
    · exact .inl ⟨info, rfl, hversion⟩
    · exact .inr ⟨info, hinfo, hversion⟩
  · rintro (⟨info, rfl, hversion⟩ | ⟨info, hinfo, hversion⟩)
    · exact ⟨info, List.mem_cons_self, hversion⟩
    · exact ⟨info, List.mem_cons_of_mem p hinfo, hversion⟩

/-- Leaving out what is loaded does not change what comes of the requests. -/
theorem agree_performAll (preparations : List Preparation) {w w' : World Builder}
    (hregistry : w.shared.registry = w'.shared.registry) (hplain : w.focus.Plain) :
    Agree (Preparation.performAll preparations)
      (Request.performAll (Preparation.requests preparations)) w w'
      (fun outcomes v outcomes' v' ↦ outcomes.filterMap Sum.getRight? = outcomes' ∧
        v.shared.registry = v'.shared.registry ∧ v'.focus = w'.focus ∧ v.focus.Plain ∧
        (w.focus.Loaded ∨ Preparation.Loads preparations → v.focus.Loaded))
      fun _ _ ↦ True := by
  induction preparations generalizing w w' with
  | nil =>
    refine .pure ⟨rfl, hregistry, rfl, hplain, fun hloaded ↦ hloaded.resolve_right ?_⟩
    rintro ⟨info, hinfo, -⟩
    contradiction
  | cons p rest ih =>
    simp only [Preparation.loads_cons]
    cases p with
    | register request =>
      refine .bind ((agree_perform hregistry request).mono ?_ fun _ _ _ ↦ trivial)
      rintro outcome v outcome' v' ⟨rfl, hregistry', hfocus, hfocus'⟩
      refine .map ((ih hregistry' (hfocus ▸ hplain)).mono ?_ fun _ _ _ ↦ trivial)
      rintro outcomes u outcomes' u' ⟨houtcomes, hregistry'', hsame, hplain', hloaded⟩
      refine ⟨congrArg (outcome :: ·) houtcomes, hregistry'', hsame.trans hfocus', hplain', ?_⟩
      rintro (hbefore | ⟨info, hinfo, -⟩ | hrest)
      · exact hloaded (.inl (hfocus ▸ hbefore))
      · contradiction
      · exact hloaded (.inr hrest)
    | load info =>
      -- Only one side moves; its registries stay, so the requests to come find the same.
      refine .first ((ensures_load_loaded info w hplain).mono ?_ fun _ _ h ↦ h)
      rintro outcome v ⟨hsame, hplain', hloaded⟩
      refine .mapLeft ((ih (hsame.trans hregistry) hplain').mono ?_ fun _ _ _ ↦ trivial)
      rintro outcomes u outcomes' u' ⟨houtcomes, hregistry', hfocus', hplain'', hloaded'⟩
      refine ⟨houtcomes, hregistry', hfocus', hplain'', ?_⟩
      rintro (hbefore | ⟨info', hinfo, hversion⟩ | hrest)
      · exact hloaded' (.inl (hloaded (.inl hbefore)))
      · cases hinfo
        exact hloaded' (.inl (hloaded (.inr hversion)))
      · exact hloaded' (.inr hrest)

/-! ## The same builder in the end -/

/-- Builders that cannot be told apart as long as nothing more is registered: whatever text they
elaborate, they end in the same outcome with the same passes added, and whatever managers they set
up, those end as the same. -/
structure SameAnswers (known : Kind → Registry) (b b' : Builder) : Prop where
  elaborateText : ∀ (code : Code) (text : String) (passes : ModulePipeline) (s s' : Shared),
    s.registry = known → s'.registry = known → ∃ outcome added,
      (b.elaborateText code text).EndsIn ⟨s, passes⟩ outcome (passes ++ added) ∧
        (b'.elaborateText code text).EndsIn ⟨s', passes⟩ outcome (passes ++ added)
  setUp : ∀ (code : Code) (modules : ModuleManager) (functions : FunctionManager) (s s' : Shared),
    s.registry = known → s'.registry = known → ∃ filled,
      (b.setUp code functions).EndsIn ⟨s, modules⟩ () filled ∧
        (b'.setUp code functions).EndsIn ⟨s', modules⟩ () filled

theorem Loaded.elaborateText_endsIn {b : Builder} (hb : b.Loaded) (code : Code) (text : String)
    (w : World ModulePipeline) :
    (b.elaborateText code text).EndsIn w (Pipeline.resolve w.shared.registry text).2
      (w.focus ++ (Pipeline.resolve w.shared.registry text).1) :=
  ((ensures_elaborateText_comes hb.installed text w).mono
    (fun _ _ h ↦ ⟨h.outcome_eq, h.focus_eq⟩) fun _ _ h ↦ h).endsIn

/-- The managers take what the registries have, and nothing is heard of it unless the manager of
modules had another one attached. -/
theorem Loaded.ensures_setUp {b : Builder} (hb : b.Loaded) (code : Code)
    (functions : FunctionManager) (w : World ModuleManager) :
    (b.setUp code functions).Ensures w
      (fun _ w' ↦
        w'.focus = (w.focus.enrol (w.shared.registry .module).analyses.entries).accept .proxy
          (.attached (functions.enrol (w.shared.registry .function).analyses.entries)) ∧
        ((w.focus.enrol (w.shared.registry .module).analyses.entries).isRegistered .proxy = false →
          Quiet w.shared w'.shared))
      fun _ _ ↦ False := by
  simp only [setUp, ensures_bind, ensures_zoom, ensures_focus, ensures_pure]
  refine (Tier.ensures_enrolAll (hb.enrolment_ne .function) (hb.enrolment .function)).mono ?_
    fun _ _ h ↦ h
  rintro _ w₁ ⟨hfunctions, hquiet⟩
  refine (Tier.ensures_enrolAll (hb.enrolment_ne .module) (hb.enrolment .module)).mono ?_
    fun _ _ h ↦ h
  rintro _ w₂ ⟨hmodules, hquiet₂⟩
  have hfunctions' : w₁.focus = functions.enrol (w.shared.registry .function).analyses.entries :=
    hfunctions
  have hmodules' : w₂.focus = w.focus.enrol (w.shared.registry .module).analyses.entries :=
    hquiet.registry_eq ▸ hmodules
  simp only [Tier.attach, Access.register, Flavour.resolve, ensures_bind, ensures_pure]
  rw [← hfunctions', ← hmodules']
  cases hproxy : w₂.focus.isRegistered .proxy with
  | true =>
    refine (Access.ensures_registerAt .proxy _).mono ?_ fun _ _ h ↦ h
    rintro _ w₃ ⟨hentered, -⟩
    exact ⟨Tier.eq_accept hentered, fun h ↦ absurd h (by decide)⟩
  | false =>
    have hfree : (code.moduleTier.access.manager w₂.focus).isRegistered .proxy ≠ true := by
      change w₂.focus.isRegistered .proxy ≠ true
      simp [hproxy]
    refine ((Access.ensures_registerAt .proxy _).and
      (Access.ensures_registerAt_quiet .proxy fun h ↦ absurd h hfree)).mono ?_ fun _ _ h ↦ h.1
    rintro _ w₃ ⟨⟨hentered, -⟩, hquiet₃⟩
    exact ⟨Tier.eq_accept hentered, fun _ ↦ (hquiet.trans hquiet₂).trans hquiet₃⟩

theorem Loaded.setUp_endsIn {b : Builder} (hb : b.Loaded) (code : Code)
    (functions : FunctionManager) (w : World ModuleManager) :
    (b.setUp code functions).EndsIn w ()
      ((w.focus.enrol (w.shared.registry .module).analyses.entries).accept .proxy
        (.attached (functions.enrol (w.shared.registry .function).analyses.entries))) :=
  ((hb.ensures_setUp code functions w).imp fun _ _ h ↦ ⟨rfl, h.1⟩).endsIn

theorem Loaded.sameAnswers {b b' : Builder} (hb : b.Loaded) (hb' : b'.Loaded)
    (known : Kind → Registry) : SameAnswers known b b' where
  elaborateText code text passes s s' hs hs' := by
    have h := hb.elaborateText_endsIn code text ⟨s, passes⟩
    have h' := hb'.elaborateText_endsIn code text ⟨s', passes⟩
    rw [hs] at h
    rw [hs'] at h'
    exact ⟨_, _, h, h'⟩
  setUp code modules functions s s' hs hs' := by
    have h := hb.setUp_endsIn code functions ⟨s, modules⟩
    have h' := hb'.setUp_endsIn code functions ⟨s', modules⟩
    rw [hs] at h
    rw [hs'] at h'
    exact ⟨_, h, h'⟩

/-- A builder is prepared in any order, and another one first by all registrations and then by one
load. A plugin for another version is refused without any effect. Either a request from beyond the
boundary ends both, or all registrations come to the same and the builders cannot be told apart. -/
theorem performAll_sameAnswers {preparations : List Preparation}
    (hloads : Preparation.Loads preparations) {info : PluginInfo}
    (hversion : info.apiVersion = apiVersion) {b b' : Builder} (hb : b.Plain) (hb' : b'.Plain)
    (s : Shared) :
    (∀ (other : PluginInfo) (w : World Builder), other.apiVersion ≠ apiVersion →
      load other w = .ok (.error (.incompatibleApiVersion apiVersion other.apiVersion)) w) ∧
    Agree (Preparation.performAll preparations)
      (do
        let outcomes ← Request.performAll (Preparation.requests preparations)
        return (outcomes, ← load info))
      ⟨s, b⟩ ⟨s, b'⟩
      (fun outcomes w single w' ↦
        outcomes.filterMap Sum.getRight? = single.1 ∧ single.2 = .ok () ∧
        w.shared.registry = w'.shared.registry ∧
        SameAnswers w.shared.registry w.focus w'.focus)
      fun _ _ ↦ True := by
  refine ⟨fun other w hother ↦ load_refused hother w, ?_⟩
  rw [← bind_pure (Preparation.performAll preparations)]
  have hstart : (⟨s, b⟩ : World Builder).shared.registry = (⟨s, b'⟩ : World Builder).shared.registry :=
    rfl
  refine .bind ((agree_performAll preparations hstart hb).mono ?_ fun _ _ _ ↦ trivial)
  rintro outcomes w outcomes' w' ⟨houtcomes, hregistry, hfocus, -, hloaded⟩
  refine .second ((ensures_load hversion w').mono ?_ fun _ _ h ↦ h)
  rintro outcome v' ⟨houtcome, hfocus', hquiet⟩
  have hw : w.focus.Loaded := hloaded (.inr hloads)
  have hv' : v'.focus.Loaded := by
    rw [hfocus', hfocus]
    exact hb'.plus
  exact .pure ⟨houtcomes, houtcome, hregistry.trans hquiet.registry_eq.symm, hw.sameAnswers hv' _⟩

end Builder

namespace Demo

open Builder

/-- The plugin is loaded before, between and after what it brings, once for another version. -/
def preparations : List Preparation :=
  [.load info, .register (.pass .function "strip-nops" stripNops),
    .load { info with apiVersion := 2 },
    .register (.boundaryPass .module "print-stats".toUTF8 printStats),
    .register (.pass .module "print-stats" hello), .load info,
    .register (.analysis .function lengthKey 0)]

/-- Only what was registered later is refused, and the plugin for another version. -/
theorem ensures_preparations :
    (Preparation.performAll preparations).Ensures ⟨{}, {}⟩
      (fun outcomes _ ↦ outcomes =
        [.inl (.ok ()), .inr (.ok ()), .inl (.error (.incompatibleApiVersion 1 2)), .inr (.ok ()),
          .inr (.error (.duplicatePass "module" "print-stats")), .inl (.ok ()), .inr (.ok ())])
      fun _ _ ↦ False := by
  decide +kernel

theorem performAll_sameAnswers_preparations :
    Preparation.Loads preparations ∧ info.apiVersion = apiVersion ∧ Plain {} ∧
    ∃ outcomes w outcome w', Preparation.performAll preparations ⟨{}, {}⟩ = .ok outcomes w ∧
      (do
        let outcomes ← Request.performAll (Preparation.requests preparations)
        return (outcomes, ← load info) : Exec Builder _) ⟨{}, {}⟩ =
          .ok (outcomes.filterMap Sum.getRight?, outcome) w' ∧
      SameAnswers w.shared.registry w.focus w'.focus := by
  have hloads : Preparation.Loads preparations := ⟨info, List.mem_cons_self, rfl⟩
  have hversion : info.apiVersion = apiVersion := rfl
  have hplain : Plain {} := ⟨by simp [parsingOf], by simp [enrolmentOf]⟩
  obtain ⟨outcomes, w, hperform, -⟩ := ensures_preparations.exists_ok fun _ _ h ↦ h
  obtain ⟨⟨_, outcome⟩, w', hsingle, rfl, -, -, hsame⟩ :=
    (performAll_sameAnswers hloads hversion hplain hplain {}).2.of_ok hperform
  exact ⟨hloads, hversion, hplain, outcomes, w, outcome, w', hperform, hsingle, hsame⟩

end Demo

end ForeignPasses
