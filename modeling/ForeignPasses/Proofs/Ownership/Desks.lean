import ForeignPasses.Proofs.Ownership.Guarding
import ForeignPasses.Proofs.Ownership.Passes

/-!
# Steps at a desk keep accounts

The steps that there are for both kinds of units, for any desk whose parts are where they should
be. What a step finds it works on in place, and what it moves it has in hand meanwhile.
-/

namespace ForeignPasses

open Exec

/-! ## What the steps may take away -/

def Kind.pipelineId : Kind → String → ObjectId
  | .module, name => (.modulePipeline, name)
  | .function, name => (.functionPipeline, name)

/-- The object that a manager is, or that it is attached to. -/
def Kind.managerId : Kind → String → ObjectId
  | .module, name => (.moduleManager, name)
  | .function, spec =>
    match Objects.splitAt? '@' spec with
    | some (manager, _) => (.moduleManager, manager)
    | none => (.functionManager, spec)

/-- A new pipeline replaces an old one, a group is moved out of its place, and a manager that is
cleared loses its results. -/
def UnitStep.loses (kind : Kind) : UnitStep → Losses
  | .newPipeline name, id, _ => id = kind.pipelineId name
  | .addGroup _ inner, id, _ => id = kind.pipelineId inner
  | .clear name, id, role => id = kind.managerId name ∧ ¬role.IsContext
  | _, _, _ => False

namespace Session

/-- A manager is at its place in an object. -/
def Hold.At {S : Type} [Account S] (hold : Hold S) (id : ObjectId) (o : Objects) : Prop :=
  ∀ m, Exchanges id (holding hold.manager) (holding m) o (hold.put m o)

/-- A unit that is put back changes nothing of what is held. -/
def Place.Blank {β : Type} (place : Place β) : Prop := ∀ u o, Objects.Same o (place.put u o)

/-- What a desk has to be: pipelines on a shelf of their own, units and managers at their places,
and passes that keep accounts. -/
structure Desk.Orderly {β I S J : Type} [Owner S] [Owner J] [Account S] (desk : Desk β I S J)
    (kind : Kind) where
  shelf : Shelf (List (Pass J))
  pipelineId_eq : ∀ name, kind.pipelineId name = (shelf.sort, name)
  pipelines_eq : desk.pipelines = shelf.table
  putPipeline_eq :
    desk.putPipeline = fun name passes o ↦ shelf.put o ((shelf.table o).insert name passes)
  erasePipeline_eq : desk.erasePipeline = fun name o ↦ shelf.put o ((shelf.table o).erase name)
  within : ∀ inner, (desk.tier.within inner).Keeps Role.Any True 0 fun _ ↦ 0
  accountable : desk.tier.Accountable desk.adapt
  place : ∀ name w, Ensures (desk.place name) w
    (fun r w' ↦ w' = w ∧ ∀ place, r = .ok place → place.Blank) fun _ _ ↦ False
  hold : ∀ name w, Ensures (desk.hold name) w
    (fun r w' ↦ Guards (fun _ _ ↦ False) w 0 w' 0 ∧
      ∀ hold, r = .ok hold → hold.At (kind.managerId name) w'.focus)
    (Excused True fun w' ↦ Guards (fun _ _ ↦ False) w 0 w' 0)

namespace GuardsAt

variable {α β I S J : Type} [Owner S] [Owner J] [Account S] {desk : Desk β I S J} {kind : Kind}
  {loses : Losses} {w : World Objects} {out : α → Tally} {kept : Role → Prop} {name : String}

theorem place (hdesk : desk.Orderly kind) {f : Place β → Act α}
    (hf : ∀ place, place.Blank → GuardsAt loses w 0 (f place) out) :
    GuardsAt loses w 0 (desk.place name >>= f) out := by
  rw [GuardsAt, ensures_bind]
  refine Exec.Ensures.mono (hdesk.place name w) ?_ fun _ _ ↦ False.elim
  rintro r w' ⟨rfl, hblank⟩
  cases r with
  | ok place => exact hf place (hblank place rfl)
  | error refusal => exact Guards.refl

theorem hold (hdesk : desk.Orderly kind) {f : Hold S → Act α}
    (hf : ∀ hold w', hold.At (kind.managerId name) w'.focus → GuardsAt loses w' 0 (f hold) out) :
    GuardsAt loses w 0 (desk.hold name >>= f) out := by
  have hany {w' : World Objects} (h : Guards (fun _ _ ↦ False) w 0 w' 0) :
      Guards loses w 0 w' 0 := h.mono fun _ _ ↦ False.elim
  rw [GuardsAt, ensures_bind]
  refine Exec.Ensures.mono (hdesk.hold name w) ?_ fun _ _ h ↦ h.mono (fun h ↦ h) hany
  rintro r w' ⟨hguards, hat⟩
  cases r with
  | ok hold => exact (hf hold w' (hat hold rfl)).after (hany hguards)
  | error refusal => exact hany hguards

omit [Owner S] in
theorem onManager {hold : Hold S} {id : ObjectId} {act : Exec (Manager S) α}
    (hat : hold.At id w.focus) (h : act.Keeps kept True 0 out)
    (hkept : ∀ role, ¬loses id role → kept role) :
    GuardsAt loses w 0 (Desk.onManager hold act) out :=
  .on (h ⟨w.shared, hold.manager⟩) hat hkept

omit [Owner S] in
/-- A look-up at a manager that was found. -/
theorem lookUp {hold : Hold S} {id : ObjectId} {act : Exec (Manager S) α}
    (hat : hold.At id w.focus) (h : ∀ n, act.Consults n) (answer : α → Answer) :
    GuardsAt loses w 0 (do return answer (← Desk.onManager hold act)) fun _ ↦ 0 :=
  (onManager hat (Consults.keeps h) fun _ _ ↦ trivial).bind fun _ _ ↦ .pure _ rfl

omit [Owner S] in
theorem onJob {place : Place β} {hold : Hold S} {id : ObjectId} {act : Exec (Job β S) α}
    (hblank : place.Blank) (hat : hold.At id w.focus) (h : act.Keeps kept True 0 out)
    (hkept : ∀ role, ¬loses id role → kept role) :
    GuardsAt loses w 0 (Desk.onJob place hold act) out :=
  .on (h _) (fun job ↦ (hat job.manager).trans_same (hblank job.unit _)) hkept

theorem onPipeline (hdesk : desk.Orderly kind) {act : Exec (List (Pass J)) α}
    (h : act.Keeps Role.Any True 0 out) : GuardsAt loses w 0 (desk.onPipeline name act) out := by
  rw [Desk.onPipeline, hdesk.pipelines_eq, hdesk.putPipeline_eq]
  refine .require fun passes hfind ↦ ?_
  exact .on (h _) (hdesk.shelf.exchanges_found hfind) fun _ _ ↦ trivial

end GuardsAt

/-! ## Moving objects -/

section Moving

variable {σ τ : Type} [Owner σ] [Account σ] [Accounted σ] [Account τ] {loses : Losses}
  {w : World Objects}

/-- Moves an object into another one. -/
def moveInto (inner : Shelf σ) (outer : Shelf τ) (part source target : String)
    (wrap : σ → τ → τ) : Act Answer := do
  let a ← take part inner.table (fun o ↦ inner.put o ((inner.table o).erase source)) source
  let b ← orDrop a (require outer.table target)
  modifyObjects fun o ↦ outer.put o ((outer.table o).insert target (wrap a b))
  return .nothing

variable (inner : Shelf σ) (outer : Shelf τ) (part source target : String) {wrap : σ → τ → τ}
  (hwrap : ∀ a b, holding (wrap a b) = holding b + holding a)

include hwrap

/-- What is moved is held by the other object, or is dropped if that one is not there. -/
theorem guards_moveInto (hloses : ∀ role, loses (inner.sort, source) role) :
    GuardsAt loses w 0 (moveInto inner outer part source target wrap) fun _ ↦ 0 := by
  refine (GuardsAt.take inner source part hloses).bind fun a w' ↦ .orDrop fun b hfind ↦ ?_
  have hmodify : GuardsAt loses w' (held a)
      (modifyObjects fun o ↦ outer.put o ((outer.table o).insert target (wrap a b)))
      fun _ ↦ 0 := by
    refine .modify (outer.exchanges_found hfind (wrap a b)) ?_ fun role _ x ↦ ?_
    · rw [hwrap, Holding.sum_add, add_zero]
      rfl
    · rw [hwrap]
      exact Nat.le_add_right _ _
  exact hmodify.bind fun _ _ ↦ .pure _ rfl

omit [Accounted σ] in
theorem moveInto_moves :
    Ensures (moveInto inner outer part source target wrap) w
      (fun r w' ↦ ∀ answer, r = .ok answer → ∀ role x,
        w.focus.holdingAt (inner.sort, source) role x ≤
          w'.focus.holdingAt (outer.sort, target) role x) fun _ _ ↦ True := by
  rw [moveInto, ensures_bind, ensures_take]
  simp only [inner.holdingAt_eq, outer.holdingAt_eq]
  cases (inner.table w.focus).find? source with
  | none =>
    intro _ h
    cases h
  | some a =>
    refine (ensures_bind _ _).2 ((ensures_orDrop a _).2 ((ensures_require _ _).2 ?_))
    cases (outer.table (inner.put w.focus ((inner.table w.focus).erase source))).find? target with
    | none =>
      intro _ h
      cases h
    | some b =>
      intro _ _ role x
      rw [outer.table_put, Table.find?_insert_self, holding_some, holding_some, hwrap]
      exact Nat.le_add_left _ _

end Moving

/-! ## All steps -/

section Steps

variable {β I S J : Type} [Owner S] [Owner J] [Account S] {desk : Desk β I S J}
  {kind : Kind} {loses : Losses} {w : World Objects}

theorem guards_registration (route : Route) (r : Except BoundaryError Unit) :
    GuardsAt loses w 0 (Desk.settleRegistration route r) fun _ ↦ 0 := by
  cases r with
  | ok _ => cases route <;> exact Guards.refl
  | error e =>
    cases route with
    | boundary => trivial
    | direct => exact Guards.refl

theorem guards_enter (kind : Kind) (line : String)
    (register : Registry → Except BoundaryError Registry) :
    GuardsAt loses w 0 (ExceptT.lift (enter kind line register)) fun _ ↦ 0 := by
  have hkeeps : (enter kind line register : Exec Objects _).Keeps Role.Any True 0 fun _ ↦ 0 :=
    keeps_enter kind line register
  refine .lift (hkeeps w) ?_
  simp only [enter, Exec.ensures_bind, ensures_shared]
  cases register (w.shared.registry kind) <;> rfl

/-- Scopes that nest close again. -/
theorem guards_scopes (kind : Kind) (scopes : List Key) :
    GuardsAt loses w 0 (ExceptT.lift (scopes.foldr (withKey kind) (identity kind)))
      fun _ ↦ 0 := by
  have hkeeps (scopes : List Key) :
      (scopes.foldr (withKey kind) (identity kind) : Exec Objects Key).Keeps Role.Any True 0
        fun _ ↦ 0 := by
    induction scopes with
    | nil => exact keeps_identity kind
    | cons key rest ih => exact ih.withKey kind key
  have hstill (scopes : List Key) (v : World Objects) :
      (scopes.foldr (withKey kind) (identity kind)).Ensures v (fun _ v' ↦ v'.focus = v.focus)
        fun _ v' ↦ v'.focus = v.focus := by
    induction scopes generalizing v with
    | nil =>
      refine (ensures_identity kind).2 ?_
      cases (v.shared.slot kind).current <;> rfl
    | cons key rest ih =>
      refine (ensures_withKey kind key _).2 ?_
      exact (ih _).mono (fun _ _ h ↦ h) fun _ _ h ↦ h
  exact .lift (hkeeps scopes w) (hstill scopes w)

theorem guards_install (kind : Kind) (builder : String) :
    GuardsAt loses w 0
      (do
        let b ← Session.require Objects.builders builder
        on b (putBuilder builder) (Builder.install kind)
        return Answer.nothing) fun _ ↦ 0 := by
  refine .require fun b hfind ↦ ?_
  have hinstall : GuardsAt loses w 0 (on b (putBuilder builder) (Builder.install kind)) fun _ ↦ 0 :=
    .on (Builder.keeps_install kind _) (Shelf.builders.exchanges_found hfind) fun _ _ ↦ trivial
  exact hinstall.bind fun _ _ ↦ .pure _ rfl

namespace Desk.Orderly

variable (hdesk : desk.Orderly kind) (code : Code)

include hdesk

/-! ### Pipelines -/

theorem guards_newPipeline (pipeline : String) :
    GuardsAt (UnitStep.loses kind (.newPipeline pipeline)) w 0
      (desk.step code (.newPipeline pipeline)) fun _ ↦ 0 := by
  rw [step, hdesk.pipelines_eq, hdesk.putPipeline_eq]
  exact (GuardsAt.store hdesk.shelf pipeline (fun _ ↦ (hdesk.pipelineId_eq pipeline).symm) []).bind
    fun _ _ ↦ .pure _ rfl

theorem step_addGroup (pipeline inner : String) :
    desk.step code (.addGroup pipeline inner) =
      moveInto hdesk.shelf hdesk.shelf "inner" inner pipeline
        fun passes outer ↦ outer ++ [.group passes] := by
  rw [step, hdesk.pipelines_eq, hdesk.putPipeline_eq, hdesk.erasePipeline_eq]
  rfl

theorem guards_addGroup (pipeline inner : String) :
    GuardsAt (UnitStep.loses kind (.addGroup pipeline inner)) w 0
      (desk.step code (.addGroup pipeline inner)) fun _ ↦ 0 := by
  rw [hdesk.step_addGroup]
  exact guards_moveInto hdesk.shelf hdesk.shelf "inner" inner pipeline holding_append_group
    fun _ ↦ (hdesk.pipelineId_eq inner).symm

theorem addGroup_moves (pipeline inner : String) :
    Ensures (desk.step code (.addGroup pipeline inner)) w
      (fun r w' ↦ ∀ answer, r = .ok answer → ∀ role x,
        w.focus.holdingAt (kind.pipelineId inner) role x ≤
          w'.focus.holdingAt (kind.pipelineId pipeline) role x) fun _ _ ↦ True := by
  rw [hdesk.step_addGroup, hdesk.pipelineId_eq, hdesk.pipelineId_eq]
  exact moveInto_moves hdesk.shelf hdesk.shelf "inner" inner pipeline holding_append_group

theorem guards_relay (subscription pipeline : String) (effort : Effort) :
    GuardsAt loses w 0 (desk.step code (.relay subscription pipeline effort)) fun _ ↦ 0 := by
  refine .require fun s _ ↦ ?_
  have hextend : (s.extend code desk.tier.kind effort : Exec (List (Pass J)) Unit).Keeps Role.Any
      True 0 fun _ ↦ 0 := (keeps_extend code s desk.tier.kind effort).steady
  exact (GuardsAt.onPipeline hdesk hextend).bind fun _ _ ↦ .pure _ rfl

/-! ### Runs and results -/

theorem guards_run (pipeline target manager : String) :
    GuardsAt loses w 0 (desk.step code (.run pipeline target manager)) fun _ ↦ 0 := by
  refine .place hdesk fun place hblank ↦ .hold hdesk fun hold w' hat ↦ .require fun passes _ ↦ ?_
  have hrun := hdesk.accountable.keeps_runAll passes
  exact (GuardsAt.onJob hblank hat hrun fun _ _ ↦ trivial).bind fun _ _ ↦ .pure _ rfl

theorem guards_result (manager : String) (key : Option Key) (target : String) (route : Route) :
    GuardsAt loses w 0 (desk.step code (.result manager key target route)) fun _ ↦ 0 := by
  refine .place hdesk fun place _ ↦ .hold hdesk fun hold w' hat ↦ ?_
  have hfetch {n : Nat} (f : Flavour) (u : CodeUnit β) : (desk.tier.fetch f u).Consults n :=
    Tier.consults_fetch hdesk.within f u
  refine GuardsAt.lookUp hat (fun n ↦ ?_) _
  cases route with
  | boundary => exact Tier.consults_boundaryResult hfetch place.unit key
  | direct =>
    cases key with
    | none => exact Tier.consults_boundaryResult hfetch place.unit none
    | some key => exact Tier.consults_foreignResult hfetch place.unit key

theorem guards_cached (manager : String) (key : Option Key) (target : String) (route : Route) :
    GuardsAt loses w 0 (desk.step code (.cached manager key target route)) fun _ ↦ 0 := by
  refine .place hdesk fun place _ ↦ .hold hdesk fun hold w' hat ↦ ?_
  refine GuardsAt.lookUp hat (fun n ↦ ?_) _
  cases route with
  | boundary => exact Tier.consults_boundaryCached place.unit key
  | direct =>
    cases key with
    | none => exact Tier.consults_boundaryCached place.unit none
    | some key => exact Tier.consults_foreignCached place.unit key

theorem guards_clear (manager : String) :
    GuardsAt (UnitStep.loses kind (.clear manager)) w 0 (desk.step code (.clear manager))
      fun _ ↦ 0 := by
  refine .hold hdesk fun hold w' hat ↦ ?_
  refine GuardsAt.bind (GuardsAt.onManager hat Tier.keeps_clear fun role hrole ↦ ?_)
    fun _ _ ↦ .pure _ rfl
  by_contra hcontext
  exact hrole ⟨rfl, hcontext⟩

theorem guards_invalidate (manager target : String) (preserved : Preserved) :
    GuardsAt loses w 0 (desk.step code (.invalidate manager target preserved)) fun _ ↦ 0 := by
  refine .place hdesk fun place _ ↦ .hold hdesk fun hold w' hat ↦ ?_
  have hinvalidate := hdesk.accountable.invalidate place.unit preserved
  exact (GuardsAt.onManager hat hinvalidate fun _ _ ↦ trivial).bind fun _ _ ↦ .pure _ rfl

/-! ### Contexts -/

variable [Accounted S]

/-- The context of a pass that is invoked alone is released when it is done. -/
theorem guards_invoke (pass : Entry) (context : Handed String) (name target manager : String) :
    GuardsAt loses w 0 (desk.step code (.invoke pass context name target manager))
      fun _ ↦ 0 := by
  refine .place hdesk fun place hblank ↦ .hold hdesk fun hold w' hat ↦ ?_
  have hinvoke : (do
      let context ← adopt context
      let status ← desk.tier.invoke pass context
      discard context
      return status : Exec (Job β S) Status).Keeps Role.Any True 0 fun _ ↦ 0 :=
    (keeps_adopt context).bind fun context ↦
      (Tier.keeps_invoke hdesk.within pass context).steady.bind fun _ ↦
        (keeps_release context.drop).bind fun _ ↦ .pure _ rfl
  exact (GuardsAt.onJob hblank hat hinvoke fun _ _ ↦ trivial).bind fun _ _ ↦ .pure _ rfl

theorem guards_register (manager : String) (key : Option Key) (analysis : Entry)
    (context : Handed String) (route : Route) :
    GuardsAt loses w 0 (desk.step code (.register manager key analysis context route))
      fun _ ↦ 0 := by
  refine .hold hdesk fun hold w' hat ↦ ?_
  have hboundary (key : Option Key) :
      (desk.tier.access.boundaryRegister key analysis context).Keeps Role.Any True 0 fun _ ↦ 0 :=
    (Tier.keeps_boundaryRegister key analysis context).steady
  have hdirect (key : Key) : (do
      desk.tier.access.registerForeign key analysis (← adopt context)).Keeps Role.Any True 0
        fun _ ↦ 0 := (Tier.keeps_registerHanded key analysis context).steady
  cases route with
  | boundary =>
    exact (GuardsAt.onManager hat (hboundary key) fun _ _ ↦ trivial).bind fun _ _ ↦ .pure _ rfl
  | direct =>
    cases key with
    | none =>
      exact (GuardsAt.onManager hat (hboundary none) fun _ _ ↦ trivial).bind fun _ _ ↦ .pure _ rfl
    | some key =>
      exact (GuardsAt.onManager hat (hdirect key) fun _ _ ↦ trivial).bind fun _ _ ↦ .pure _ rfl

theorem guards_enrolRegistry (manager : String) :
    GuardsAt loses w 0 (desk.step code (.enrolRegistry manager)) fun _ ↦ 0 := by
  refine .hold hdesk fun hold w' hat ↦ ?_
  have henrol : desk.tier.enrolRegistry.Keeps Role.Any True 0 fun _ ↦ 0 :=
    Tier.keeps_enrolRegistry.steady
  exact (GuardsAt.onManager hat henrol fun _ _ ↦ trivial).bind fun _ _ ↦ .pure _ rfl

theorem guards_nativeRegister (manager : String) (index : Nat) (analysis : Entry) :
    GuardsAt loses w 0 (desk.step code (.nativeRegister manager index analysis)) fun _ ↦ 0 := by
  refine .hold hdesk fun hold w' hat ↦ ?_
  have hregister : (desk.tier.registerNative index analysis).Keeps Role.Any True 0 fun _ ↦ 0 :=
    (Tier.keeps_registerNative index analysis).steady
  exact (GuardsAt.onManager hat hregister fun _ _ ↦ trivial).bind fun _ _ ↦ .pure _ rfl

/-! ### Every step -/

/-- Every step at a desk keeps account of everything. -/
theorem guards_step (s : UnitStep) :
    GuardsAt (s.loses kind) w 0 (desk.step code s) fun _ ↦ 0 := by
  cases s with
  | enterPass name entry route =>
    exact (guards_enter _ _ _).bind fun _ _ ↦
      (guards_registration route _).bind fun _ _ ↦ .pure _ rfl
  | enterAnalysis key entry route =>
    cases key with
    | none => trivial
    | some key =>
      exact (guards_enter _ _ _).bind fun _ _ ↦
        (guards_registration route _).bind fun _ _ ↦ .pure _ rfl
  | knowsPass name => exact Guards.refl
  | registry => exact Guards.refl
  | appendRegistered name pipeline =>
    exact (GuardsAt.onPipeline hdesk (keeps_appendRegistered _ name)).bind fun _ _ ↦ .pure _ rfl
  | install builder => exact guards_install _ builder
  | enrolRegistry manager => exact hdesk.guards_enrolRegistry code manager
  | newPipeline pipeline => exact hdesk.guards_newPipeline code pipeline
  | addPass pipeline addition =>
    exact (GuardsAt.onPipeline hdesk (keeps_answerAssemble _ _).steady).bind
      fun _ _ ↦ .pure _ rfl
  | addNative pipeline pass =>
    have happend : (append [Pass.native (J := J) (code.nativeName pass) pass]).Keeps Role.Any True
        (0 + 0) fun _ ↦ 0 := keeps_append _
    exact (GuardsAt.onPipeline hdesk happend).bind fun _ _ ↦ .pure _ rfl
  | addGroup pipeline inner => exact hdesk.guards_addGroup code pipeline inner
  | pipeline pipeline => exact .require fun _ _ ↦ .pure _ rfl
  | run pipeline target manager => exact hdesk.guards_run code pipeline target manager
  | invoke pass context name target manager =>
    exact hdesk.guards_invoke code pass context name target manager
  | register manager key analysis context route =>
    exact hdesk.guards_register code manager key analysis context route
  | result manager key target route => exact hdesk.guards_result code manager key target route
  | cached manager key target route => exact hdesk.guards_cached code manager key target route
  | manager manager => exact .hold hdesk fun _ _ _ ↦ .pure _ rfl
  | isRegistered manager key => exact .hold hdesk fun _ _ _ ↦ .pure _ rfl
  | clear manager => exact hdesk.guards_clear code manager
  | invalidate manager target preserved =>
    exact hdesk.guards_invalidate code manager target preserved
  | setBody target body =>
    refine .place hdesk fun place hblank ↦ ?_
    exact (GuardsAt.modify_same (hblank _ _)).bind fun _ _ ↦ .pure _ rfl
  | nativeRegister manager index analysis =>
    exact hdesk.guards_nativeRegister code manager index analysis
  | nativeResult manager index target =>
    exact .place hdesk fun place _ ↦ .hold hdesk fun hold w' hat ↦
      GuardsAt.lookUp hat (fun _ ↦ Tier.consults_fetch hdesk.within _ place.unit) _
  | nativeCached manager index target =>
    exact .place hdesk fun place _ ↦ .hold hdesk fun hold w' hat ↦
      GuardsAt.lookUp hat (fun _ ↦ Tier.consults_cached _ place.unit) _
  | identity scopes => exact (guards_scopes _ scopes).bind fun _ _ ↦ .pure _ rfl
  | relay subscription pipeline effort => exact hdesk.guards_relay code subscription pipeline effort

end Desk.Orderly

end Steps

end Session

end ForeignPasses
