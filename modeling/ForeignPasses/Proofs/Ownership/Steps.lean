import ForeignPasses.Proofs.Ownership.Desks

/-!
# Every step of a session keeps accounts

The two desks are in order, and the steps without a kind drop what they replace. What a step moves
is held by the object that it is moved into from then on.
-/

namespace ForeignPasses

open Exec

/-- What is replaced, dropped or moved may lose everything. -/
def Step.loses : Step → Losses
  | .builder name, id, _ => id = (.builder, name)
  | .moduleManager name, id, _ => id = (.moduleManager, name)
  | .functionManager name, id, _ => id = (.functionManager, name)
  | .drop sort name, id, _ => id = (sort, name)
  | .addAdapter _ inner, id, _ => id = (.functionPipeline, inner)
  | .setUp _ _ name, id, _ => id = (.functionManager, name)
  | .build _ name _ _, id, _ => id = (.modulePipeline, name)
  | .newSubscription name _ _, id, _ => id = (.subscription, name)
  | .cloneSubscription name _, id, _ => id = (.subscription, name)
  | .onUnit kind s, id, role => s.loses kind id role
  | _, _, _ => False

/-- No address is held that was not given out. -/
def World.Bounded (w : World Objects) : Prop :=
  ∀ address, w.shared.nextAddress ≤ address → held w.focus (some address) = 0

namespace Session

variable {loses : Losses} {w : World Objects}

/-! ## The two desks -/

/-- A manager that was found by its name. -/
theorem hold_at {S : Type} [Account S] (shelf : Shelf (Manager S)) {name : String} {m : Manager S}
    {o : Objects} (h : (shelf.table o).find? name = some m) :
    (⟨m, fun m o ↦ shelf.put o ((shelf.table o).insert name m)⟩ : Hold S).At (shelf.sort, name) o :=
  shelf.exchanges_found h

/-- A manager of functions that is attached to a manager of modules. -/
theorem hold_attached {manager : String} {mam : ModuleManager} {inner : FunctionManager}
    {o : Objects} (h : o.moduleManagers.find? manager = some mam)
    (hattached : mam.attached? = some inner) :
    (⟨inner, fun inner o ↦
      { o with moduleManagers := o.moduleManagers.modify manager (·.setAttached inner) }⟩ :
        Hold Empty).At (.moduleManager, manager) o := by
  intro m
  have hmodify := Shelf.moduleManagers.exchanges_modify o manager (·.setAttached m)
  have hfind : Shelf.moduleManagers.table o = o.moduleManagers := rfl
  rw [hfind, h] at hmodify
  exact hmodify.narrow (mam.holding_setAttached hattached m)

theorem holdAttached_at (code : Code) (manager module : String) :
    Ensures (holdAttached code manager module) w
      (fun r w' ↦ Guards (fun _ _ ↦ False) w 0 w' 0 ∧
        ∀ hold, r = .ok hold → hold.At (.moduleManager, manager) w'.focus)
      (Excused True fun w' ↦ Guards (fun _ _ ↦ False) w 0 w' 0) := by
  rw [holdAttached, ensures_bind, ensures_require]
  cases hfind : w.focus.moduleManagers.find? manager with
  | none => exact ⟨.refl, fun _ h ↦ nomatch h⟩
  | some mam =>
    refine (ensures_bind _ _).2 ((ensures_require _ _).2 ?_)
    cases w.focus.modules.find? module with
    | none => exact ⟨.refl, fun _ h ↦ nomatch h⟩
    | some m =>
      refine (ensures_bind _ _).2 ((ensures_on _ _ _).2 ?_)
      have hput (mam' : ModuleManager) := Shelf.moduleManagers.exchanges_found hfind mam'
      have hattached : (code.moduleTier.access.boundaryAttached code.moduleTier.fetch m).KeepsAt
          Role.Any True ⟨w.shared, mam⟩ 0 fun _ ↦ 0 :=
        Consults.keeps (fun _ ↦ Tier.consults_boundaryAttached
          (Tier.consults_fetch code.keeps_moduleWithin) m) _
      simp only [Exec.ensures_bind, ensures_focus, Exec.ensures_pure]
      refine Exec.Ensures.mono hattached ?_ ?_
      · intro _ v hsettles
        have hguards : Guards (fun _ _ ↦ False) w 0 ⟨v.shared, putModuleManager manager v.focus
            w.focus⟩ 0 := .of_part hsettles (hput v.focus) fun _ _ ↦ trivial
        cases hinner : v.focus.attached? with
        | none => exact ⟨hguards, fun _ h ↦ nomatch h⟩
        | some inner =>
          refine ⟨hguards, fun hold h ↦ ?_⟩
          cases h
          exact hold_attached (Table.find?_insert_self _ _ _) hinner
      · intro e v hexcused
        exact hexcused.mono (fun h ↦ h) fun hsettles ↦
          .of_part hsettles (hput v.focus) fun _ _ ↦ trivial

variable (code : Code)

def moduleDesk_orderly : (moduleDesk code).Orderly .module where
  shelf := Shelf.modulePipelines
  pipelineId_eq _ := rfl
  pipelines_eq := rfl
  putPipeline_eq := rfl
  erasePipeline_eq := rfl
  within := code.keeps_moduleWithin
  accountable := code.moduleTier_accountable
  place name w := by
    refine (ensures_bind _ _).2 ((ensures_require _ _).2 ?_)
    cases w.focus.modules.find? name with
    | none => exact ⟨rfl, fun _ h ↦ nomatch h⟩
    | some m =>
      refine ⟨rfl, fun place h ↦ ?_⟩
      cases h
      exact fun u o ↦ o.same_setModules _
  hold name w := by
    refine (ensures_bind _ _).2 ((ensures_require _ _).2 ?_)
    cases hfind : w.focus.moduleManagers.find? name with
    | none => exact ⟨.refl, fun _ h ↦ nomatch h⟩
    | some m =>
      refine ⟨.refl, fun hold h ↦ ?_⟩
      cases h
      exact hold_at Shelf.moduleManagers hfind

def functionDesk_orderly : (functionDesk code).Orderly .function where
  shelf := Shelf.functionPipelines
  pipelineId_eq _ := rfl
  pipelines_eq := rfl
  putPipeline_eq := rfl
  erasePipeline_eq := rfl
  within := code.keeps_functionWithin
  accountable := code.functionTier_accountable _
  place spec w := by
    refine (ensures_bind _ _).2 (ensures_objects.2 ?_)
    cases hfound : w.focus.function spec with
    | error name =>
      change Ensures (refuseWith .noSuch (w.focus.function spec) >>= _) w _ _
      rw [hfound]
      exact ⟨rfl, fun _ h ↦ nomatch h⟩
    | ok found =>
      change Ensures (refuseWith .noSuch (w.focus.function spec) >>= _) w _ _
      rw [hfound]
      refine ⟨rfl, fun place h ↦ ?_⟩
      cases h
      intro u o
      obtain ⟨spot, f⟩ := found
      cases spot with
      | alone name => exact o.same_setFunctions _
      | inside module index => exact o.same_setModules _
  hold spec w := by
    change Ensures (match Objects.splitAt? '@' spec with
      | some (manager, module) => holdAttached code manager module
      | none => do
        let m ← require Objects.functionManagers spec
        return ⟨m, putFunctionManager spec⟩) w _ _
    simp only [Kind.managerId]
    cases Objects.splitAt? '@' spec with
    | some found => exact holdAttached_at code found.1 found.2
    | none =>
      refine (ensures_bind _ _).2 ((ensures_require _ _).2 ?_)
      cases hfind : w.focus.functionManagers.find? spec with
      | none => exact ⟨.refl, fun _ h ↦ nomatch h⟩
      | some m =>
        refine ⟨.refl, fun hold h ↦ ?_⟩
        cases h
        exact hold_at Shelf.functionManagers hfind

/-! ## Steps without a kind -/

theorem guards_freshUnit : GuardsAt loses w 0 (ExceptT.lift freshUnit) fun _ ↦ 0 := by
  have hkeeps : (freshUnit : Exec Objects UnitId).Keeps Role.Any True 0 fun _ ↦ 0 :=
    keeps_freshUnit
  exact .lift (hkeeps w) rfl

theorem guards_makeFunctions (functions : List (String × Body)) :
    GuardsAt loses w 0 (makeFunctions functions) fun _ ↦ 0 := by
  induction functions generalizing w with
  | nil => exact .pure _ rfl
  | cons f rest ih => exact guards_freshUnit.bind fun _ _ ↦ ih.bind fun _ _ ↦ .pure _ rfl

theorem guards_drop (name : String) (sort : ObjectSort) :
    GuardsAt (Step.loses (.drop sort name)) w 0 (drop name sort) fun _ ↦ 0 := by
  cases sort with
  | module =>
    exact .objects ((GuardsAt.modify_same (Objects.same_setModules _ _)).bind
      fun _ _ ↦ .pure _ rfl)
  | function =>
    exact .objects ((GuardsAt.modify_same (Objects.same_setFunctions _ _)).bind
      fun _ _ ↦ .pure _ rfl)
  | builder => exact .remove Shelf.builders name fun _ ↦ rfl
  | moduleManager => exact .remove Shelf.moduleManagers name fun _ ↦ rfl
  | functionManager => exact .remove Shelf.functionManagers name fun _ ↦ rfl
  | modulePipeline => exact .remove Shelf.modulePipelines name fun _ ↦ rfl
  | functionPipeline => exact .remove Shelf.functionPipelines name fun _ ↦ rfl
  | subscription => exact .removeSubscription fun _ ↦ rfl

/-- Work on a builder. -/
theorem guards_onBuilder {α : Type} {name : String} {b : Builder} {act : Exec Builder α}
    (hfind : w.focus.builders.find? name = some b) (h : act.Keeps Role.Any True 0 fun _ ↦ 0) :
    GuardsAt loses w 0 (on b (putBuilder name) act) fun _ ↦ 0 :=
  .on (h _) (Shelf.builders.exchanges_found hfind) fun _ _ ↦ trivial

theorem guards_setUp (code : Code) (builder moduleManager functionManager : String) :
    GuardsAt (Step.loses (.setUp builder moduleManager functionManager)) w 0
      (step code (.setUp builder moduleManager functionManager)) fun _ ↦ 0 := by
  refine (GuardsAt.take Shelf.functionManagers functionManager "fam" fun _ ↦ rfl).bind
    fun fam _ ↦ .orDrop fun mam hfind ↦ .orDrop fun b _ ↦ ?_
  have hsetUp : (b.setUp code fam).Keeps Role.Any True (held fam) fun _ ↦ 0 :=
    (keeps_setUp code b fam).steady
  exact (GuardsAt.on (hsetUp _) (Shelf.moduleManagers.exchanges_found hfind)
    fun _ _ ↦ trivial).bind fun _ _ ↦ .pure _ rfl

theorem guards_parse (code : Code) (builder pipeline text : String) :
    GuardsAt loses w 0 (step code (.parse builder pipeline text)) fun _ ↦ 0 := by
  refine .require fun passes hfind ↦ .require fun b _ ↦ ?_
  have helaborate : (b.elaborateText code text).Keeps Role.Any True 0 fun _ ↦ 0 :=
    (b.keeps_elaborateText code text).steady
  exact (GuardsAt.on (helaborate _) (Shelf.modulePipelines.exchanges_found hfind)
    fun _ _ ↦ trivial).bind fun _ _ ↦ .refuseWith fun _ ↦ .pure _ rfl

theorem guards_build (code : Code) (builder pipeline : String) (effort : Effort) (link : Bool) :
    GuardsAt (Step.loses (.build builder pipeline effort link)) w 0
      (step code (.build builder pipeline effort link)) fun _ ↦ 0 := by
  refine .require fun b _ ↦ ?_
  have hbuild : (if link then b.buildLink code effort else b.buildDefault code effort).Keeps
      Role.Any False 0 fun _ ↦ 0 := by
    cases link with
    | true => exact b.keeps_buildLink code effort
    | false => exact b.keeps_buildDefault code effort
  have hbuilding : (building (if link then b.buildLink code effort
      else b.buildDefault code effort) : Exec Objects (Unit × ModulePipeline)).Keeps Role.Any True 0
        fun r ↦ held r.2 + 0 := keeps_building hbuild
  have hlift : GuardsAt (Step.loses (.build builder pipeline effort link)) w 0
      (ExceptT.lift (building (if link then b.buildLink code effort
        else b.buildDefault code effort))) fun r ↦ held r.2 := by
    refine .lift (hbuilding w) ?_
    rw [building, ensures_zoom]
    exact (Ensures.trivial _ _).mono (fun _ _ _ ↦ rfl) fun _ _ _ ↦ rfl
  refine hlift.bind fun r w' ↦ ?_
  exact (GuardsAt.store Shelf.modulePipelines pipeline (fun _ ↦ rfl) r.2).bind
    fun _ _ ↦ .pure _ rfl

/-- A context that nobody had is held from now on. -/
theorem guards_storeNew {name : String} {s : Subscription}
    (hnew : ∀ r ∈ releases s, r ∉ releases w.focus.subscriptions.values)
    (hloses : ∀ role, loses (.subscription, name) role) :
    GuardsAt loses w (tally (releases s)) (storeSubscription name s) fun _ ↦ 0 := by
  have hall : (releases s).filter (fun r ↦ !(releases w.focus.subscriptions.values).contains r) =
      releases s := by
    refine List.filter_eq_self.2 fun r hr ↦ ?_
    simpa using hnew r hr
  have hstore := GuardsAt.storeSubscription (w := w) hloses s
  rwa [hall] at hstore

/-- A context that others have is shared. -/
theorem guards_storeShared {name : String} {s : Subscription}
    (hshared : ∀ r ∈ releases s, r ∈ releases w.focus.subscriptions.values)
    (hloses : ∀ role, loses (.subscription, name) role) :
    GuardsAt loses w 0 (storeSubscription name s) fun _ ↦ 0 := by
  have hnone : (releases s).filter (fun r ↦ !(releases w.focus.subscriptions.values).contains r) =
      [] := by
    refine List.filter_eq_nil_iff.2 fun r hr ↦ ?_
    simpa using hshared r hr
  have hstore := GuardsAt.storeSubscription (w := w) hloses s
  rwa [hnone] at hstore

/-- A new context has an address that nobody had. -/
theorem not_mem_of_bounded (hbounded : w.Bounded) (context : Handed String) :
    ∀ r ∈ (Opaque.ofRaw (context.toRaw w.shared.nextAddress)).drop,
      r ∉ releases w.focus.subscriptions.values := by
  intro r hr hmem
  have haddress : r.address = some w.shared.nextAddress := by
    cases context with
    | null => exact absurd hr List.not_mem_nil
    | nullWithDeleter => exact absurd hr List.not_mem_nil
    | owned content announcement => exact congrArg Release.address (List.mem_singleton.1 hr)
    | borrowed content => exact congrArg Release.address (List.mem_singleton.1 hr)
  have hpos := Objects.held_pos_of_mem hmem
  rw [haddress, hbounded w.shared.nextAddress (Nat.le_refl _)] at hpos
  exact Nat.lt_irrefl 0 hpos

theorem guards_newSubscription (code : Code) (name : String) (callback : Entry)
    (context : Handed String) (hbounded : w.Bounded) :
    GuardsAt (Step.loses (.newSubscription name callback context)) w 0
      (step code (.newSubscription name callback context)) fun _ ↦ 0 := by
  have hadopt : (adopt context : Exec Objects (Opaque String)).KeepsAt Role.Any True w 0
      fun value ↦ tally value.drop + 0 := keeps_adopt context w
  refine (ensures_bind _ _).2 ((ensures_lift _).2 ((ensures_adopt context).2 ?_))
  refine GuardsAt.after ?_ (.of_settles ((ensures_adopt context).1 hadopt) rfl)
  exact (guards_storeNew (not_mem_of_bounded hbounded context) fun _ ↦ rfl).bind
    fun _ _ ↦ .pure _ rfl

theorem guards_cloneSubscription (code : Code) (name source : String) :
    GuardsAt (Step.loses (.cloneSubscription name source)) w 0
      (step code (.cloneSubscription name source)) fun _ ↦ 0 := by
  refine .require fun s hfind ↦ ?_
  refine (guards_storeShared (fun r hr ↦ ?_) fun _ ↦ rfl).bind fun _ _ ↦ .pure _ rfl
  exact Objects.mem_releases_values.2 ⟨source, s, hfind, hr⟩

/-! ## Every step -/

/-- Every step of a session keeps account of everything. -/
theorem guards_step (code : Code) (s : Step) (hbounded : w.Bounded) :
    GuardsAt s.loses w 0 (step code s) fun _ ↦ 0 := by
  cases s with
  | module id name functions =>
    exact guards_freshUnit.bind fun _ _ ↦ (guards_makeFunctions functions).bind fun _ _ ↦
      (GuardsAt.modify_same (Objects.same_setModules _ _)).bind fun _ _ ↦ .pure _ rfl
  | function id name body =>
    exact guards_freshUnit.bind fun _ _ ↦
      (GuardsAt.modify_same (Objects.same_setFunctions _ _)).bind fun _ _ ↦ .pure _ rfl
  | addFunction module name body =>
    exact .require fun _ _ ↦ guards_freshUnit.bind fun _ _ ↦
      (GuardsAt.modify_same (Objects.same_setModules _ _)).bind fun _ _ ↦ .pure _ rfl
  | findFunction module name =>
    refine .require fun m _ ↦ ?_
    cases m.function? name <;> exact .pure _ rfl
  | print module => exact .require fun _ _ ↦ .pure _ rfl
  | compareUnits first second =>
    exact .objects (.refuseWith fun _ ↦ .objects (.refuseWith fun _ ↦ .pure _ rfl))
  | builder id =>
    exact (GuardsAt.store Shelf.builders id (fun _ ↦ rfl) {}).bind fun _ _ ↦ .pure _ rfl
  | moduleManager id =>
    exact (GuardsAt.store Shelf.moduleManagers id (fun _ ↦ rfl) {}).bind fun _ _ ↦ .pure _ rfl
  | functionManager id =>
    exact (GuardsAt.store Shelf.functionManagers id (fun _ ↦ rfl) {}).bind fun _ _ ↦ .pure _ rfl
  | drop sort id => exact (guards_drop id sort).bind fun _ _ ↦ .pure _ rfl
  | addAdapter target inner =>
    exact guards_moveInto Shelf.functionPipelines Shelf.modulePipelines "fpm" inner target
      holding_append_perFunction fun _ ↦ rfl
  | subscribe builder topic callback context =>
    exact .require fun b hfind ↦
      (guards_onBuilder hfind (Builder.keeps_subscribe topic callback context)).bind
        fun _ _ ↦ .pure _ rfl
  | load builder info =>
    exact .require fun b hfind ↦ (guards_onBuilder hfind (Builder.keeps_load info)).bind
      fun _ _ ↦ .refuseWith fun _ ↦ .pure _ rfl
  | apiVersion => exact .pure _ rfl
  | setUp builder moduleManager functionManager =>
    exact guards_setUp code builder moduleManager functionManager
  | parse builder pipeline text => exact guards_parse code builder pipeline text
  | build builder pipeline effort link => exact guards_build code builder pipeline effort link
  | newSubscription id callback context =>
    exact guards_newSubscription code id callback context hbounded
  | cloneSubscription id source => exact guards_cloneSubscription code id source
  | onUnit kind s =>
    cases kind with
    | module => exact (moduleDesk_orderly code).guards_step code s
    | function => exact (functionDesk_orderly code).guards_step code s

end Session

end ForeignPasses
