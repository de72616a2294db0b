import ForeignPasses.Proofs.Demo.Confinement
import ForeignPasses.Proofs.Ownership.Sessions
import ForeignPasses.Proofs.Separation.Answers
import ForeignPasses.Proofs.Separation.Passes

/-!
# Modules that share managers do not interfere

Passes are run over one module, with a manager that knows other modules as well. Whatever is cached
for those and their functions stays as it is, nothing of it is released, and every look-up there has
the same answer as if the passes had not been run.
-/

namespace ForeignPasses

open Exec

/-! ## What is cached is held -/

theorem Result.exists_address {r : Result} {release : Release} (h : release ∈ releases r) :
    ∃ address, release.address = some address := by
  cases r with
  | foreign value =>
    obtain ⟨⟨pointer, deleter⟩⟩ := value
    cases pointer with
    | none => cases h
    | some p =>
      cases deleter with
      | none => cases h
      | some deleter =>
        obtain rfl := List.mem_singleton.1 h
        exact ⟨_, rfl⟩
  | native value => cases h
  | attached => cases h

namespace Manager

variable {S : Type} [Account S] {m : Manager S}

theorem holding_of_cached {id : UnitId} {key : Key} {r : Result}
    (hfind : m.results.find? (id, key) = some r) {release : Release} (h : release ∈ releases r) :
    0 < holding m (.entry id key) release.address := by
  have hcaching : 0 < caching m.results (.entry id key) release.address := by
    change 0 < tally (releases (m.results.find? (id, key))) release.address
    rw [hfind]
    exact List.countP_pos_iff.2 ⟨release, h, decide_eq_true rfl⟩
  exact Nat.lt_of_lt_of_le hcaching (Nat.le_add_left _ _)

theorem holding_attached_le {inner : S} (h : m.attached? = some inner) (role : Role)
    (x : Option Nat) : holding inner role x ≤ holding m role x := by
  obtain ⟨running, hfind⟩ := find?_of_attached? h
  have herase := congrFun (congrFun (holding_erase m.analyses .proxy) role) x
  rw [hfind] at herase
  have hanalyses : holding inner role x ≤ holding m.analyses role x := by
    rw [← herase]
    exact Nat.le_add_left _ _
  exact Nat.le_trans hanalyses (Nat.le_add_right _ _)

end Manager

/-! ## What is left alone -/

namespace Tier

variable {β I S : Type}

/-- What is cached for units within reach is what was cached before, at the same addresses, and
nothing of it was released; every look-up there has the same answer. -/
structure Untouched (tier : Tier β I S) (reach : Reach β I) (w w' : World (Manager S)) : Prop where
  results : ∀ u, reach.unit u → ∀ key,
    w'.focus.results.find? (u.id, key) = w.focus.results.find? (u.id, key)
  unreleased : ∀ u, reach.unit u → ∀ key r, w.focus.results.find? (u.id, key) = some r →
    ∀ release ∈ releases r, deletions w'.shared.events release.address = 0
  answers : tier.SameAnswers reach w w'

end Tier

namespace Session

/-- A module is what it was, and so is all that a manager knows about it and its functions. -/
structure Undisturbed (code : Code) (manager other : String) (w w' : World Objects) : Prop where
  content : w'.focus.modules.find? other = w.focus.modules.find? other
  known : ∀ m mam, w.focus.modules.find? other = some m →
    w.focus.moduleManagers.find? manager = some mam →
      ∃ mam', w'.focus.moduleManagers.find? manager = some mam' ∧
        code.moduleTier.Untouched (Reach.module m.Owns) ⟨w.shared, mam⟩ ⟨w'.shared, mam'⟩ ∧
        ∀ fam, mam.attached? = some fam → ∃ fam', mam'.attached? = some fam' ∧
          code.functionTier.Untouched (Reach.function m.Owns) ⟨w.shared, fam⟩ ⟨w'.shared, fam'⟩

variable {w w' : World Objects} {past : List Event}

/-- What a manager of modules still holds after a step was not released by it. -/
theorem deletions_of_held {loses : Losses} (hsound : Sound past w) (hguards : Guards loses w 0 w' 0)
    {manager : String} {mam : ModuleManager}
    (hmanager : w'.focus.moduleManagers.find? manager = some mam) {role : Role} {r : Result}
    {release : Release} (hrelease : release ∈ releases r)
    (hheld : 0 < holding mam role release.address) :
    deletions w'.shared.events release.address = 0 := by
  obtain ⟨address, haddress⟩ := Result.exists_address hrelease
  rw [haddress] at hheld ⊢
  have hat : 0 < w'.focus.holdingAt (.moduleManager, manager) role (some address) := by
    rw [Objects.holdingAt, hmanager]
    exact hheld
  have hdeletions := (hsound.step hguards).unreleased hat
  rw [deletions_append] at hdeletions
  exact (Nat.add_eq_zero_iff.1 hdeletions).2

section Run

variable {code : Code} {target other manager pipeline : String} {m₁ m₂ : Module}
  {mam : ModuleManager} {passes : ModulePipeline} {ids : UnitId → Prop}

/-- The objects after work on a module and a manager. -/
def withJob (target manager : String) (job : Job Functions FunctionManager) (o : Objects) :
    Objects :=
  { o with
    modules := o.modules.insert target job.unit
    moduleManagers := o.moduleManagers.insert manager job.manager }

theorem ensures_run {post : Except Refusal Answer → World Objects → Prop}
    {halted : Halt → World Objects → Prop} (htarget : w.focus.modules.find? target = some m₁)
    (hmanager : w.focus.moduleManagers.find? manager = some mam)
    (hpipeline : w.focus.modulePipelines.find? pipeline = some passes)
    (h : (code.runModulePipeline passes).Ensures ⟨w.shared, ⟨mam, m₁⟩⟩
      (fun preserved v ↦
        post (.ok (.preserved preserved)) ⟨v.shared, withJob target manager v.focus w.focus⟩)
      fun e v ↦ halted e ⟨v.shared, withJob target manager v.focus w.focus⟩) :
    Ensures (step code (.onUnit .module (.run pipeline target manager))) w post halted := by
  refine (ensures_bind _ _).2 ((ensures_bind _ _).2 ((ensures_require _ _).2 ?_))
  rw [htarget]
  refine (ensures_bind _ _).2 ((ensures_bind _ _).2 ((ensures_require _ _).2 ?_))
  rw [hmanager]
  have hfind : ((moduleDesk code).pipelines w.focus).find? pipeline = some passes := hpipeline
  refine (ensures_bind _ _).2 ((ensures_require _ _).2 ?_)
  rw [hfind]
  exact (ensures_bind _ _).2 ((ensures_on _ _ _).2 h)

/-- What a run over one module leaves to another one. -/
theorem undisturbed_of_proceeds {loses : Losses} (hsound : Sound past w)
    (htarget : w.focus.modules.find? target = some m₁)
    (hother : w.focus.modules.find? other = some m₂)
    (hmanager : w.focus.moduleManagers.find? manager = some mam)
    (howns : ¬m₂.Owns m₁.id) {v : World (Job Functions FunctionManager)}
    (hproceeds : code.ModuleProceeds id m₂.Owns ids ⟨w.shared, ⟨mam, m₁⟩⟩ v)
    (hguards : Guards loses w 0 ⟨v.shared, withJob target manager v.focus w.focus⟩ 0) :
    Undisturbed code manager other w ⟨v.shared, withJob target manager v.focus w.focus⟩ := by
  have halike := hproceeds.focus.manager
  have hslot := hproceeds.slot_eq
  have hmanager' : (withJob target manager v.focus w.focus).moduleManagers.find? manager =
      some v.focus.manager := Table.find?_insert_self _ _ _
  constructor
  · have hne : other ≠ target := by
      rintro rfl
      obtain rfl := Option.some.inj (htarget.symm.trans hother)
      exact howns (.inl rfl)
    exact (Table.find?_insert _ _ _ _).trans (if_neg hne)
  · rintro m mam' hm hmam
    obtain rfl := Option.some.inj (hother.symm.trans hm)
    obtain rfl := Option.some.inj (hmanager.symm.trans hmam)
    have hresults {u : Module} (hu : (Reach.module m₂.Owns).unit u) (key : Key) :
        v.focus.manager.results.find? (u.id, key) = mam.results.find? (u.id, key) := by
      simpa only [Code.moduleLikeness, Option.map_id_fun, id_eq] using halike.result u.id hu.1 key
    refine ⟨v.focus.manager, hmanager', ⟨fun u hu ↦ hresults hu, ?_, ?_⟩, ?_⟩
    · intro u hu key r hr release hrelease
      rw [← hresults hu] at hr
      exact deletions_of_held hsound hguards hmanager' hrelease
        (Manager.holding_of_cached hr hrelease)
    · exact Tier.sameAnswers (code.moduleTier_exposed m₂.Owns ids)
        ⟨Code.moduleLikeness_imp _ halike, hslot⟩
    · intro fam hfam
      obtain ⟨fam', hfam', hinner⟩ := halike.exists_attached? hfam
      have hresults' {u : Function} (hu : (Reach.function m₂.Owns).unit u) (key : Key) :
          fam'.results.find? (u.id, key) = fam.results.find? (u.id, key) := by
        simpa only [Code.functionLikeness, Option.map_id_fun, id_eq] using hinner.result u.id hu key
      refine ⟨fam', hfam', fun u hu ↦ hresults' hu, ?_, ?_⟩
      · intro u hu key r hr release hrelease
        rw [← hresults' hu] at hr
        exact deletions_of_held hsound hguards hmanager' hrelease
          (Nat.lt_of_lt_of_le (Manager.holding_of_cached hr hrelease)
            (Manager.holding_attached_le hfam' _ _))
      · exact Tier.sameAnswers (code.functionTier_exposed m₂.Owns ids)
          ⟨Code.functionLikeness_imp _ hinner, hslot⟩

/-- Passes are run over a module, and keep to its own units and new ones, which `ids` has; the
manager has analyses that never look from one side to the other. Then no module that is made of other
units is disturbed, however the run ends, unless the session is over. -/
theorem run_undisturbed (hsound : Sound past w)
    (htarget : w.focus.modules.find? target = some m₁)
    (hother : w.focus.modules.find? other = some m₂)
    (hmanager : w.focus.moduleManagers.find? manager = some mam)
    (hpipeline : w.focus.modulePipelines.find? pipeline = some passes)
    (howns : ∀ id, m₁.Owns id → ids id) (hnew : ∀ id, w.shared.nextUnit ≤ id → ids id)
    (hapart : ∀ id, ids id → ¬m₂.Owns id) (hsided : code.SidedManager m₂.Owns ids mam)
    (hpasses : code.HoldsModulePipeline ids passes) :
    Ensures (step code (.onUnit .module (.run pipeline target manager))) w
      (fun _ w' ↦ Undisturbed code manager other w w')
      (Excused True fun w' ↦ Undisturbed code manager other w w') := by
  have hunit := Module.unit_of_owns howns
  have hdistinct : ¬m₂.Owns m₁.id := hapart _ (howns _ (.inl rfl))
  have hrespects : (code.runModulePipeline passes).Respects (code.ModuleProceeds id m₂.Owns ids) :=
    Code.respects_runModulePipeline hapart hpasses
  have hrun := hrespects ⟨w.shared, ⟨mam, m₁⟩⟩ ⟨.refl ⟨hsided.alike id, hunit, hunit⟩, hnew⟩
  let proceeds (w' : World Objects) : Prop := ∃ v : World (Job Functions FunctionManager),
    code.ModuleProceeds id m₂.Owns ids ⟨w.shared, ⟨mam, m₁⟩⟩ v ∧
      w' = ⟨v.shared, withJob target manager v.focus w.focus⟩
  have hproceeds : Ensures (step code (.onUnit .module (.run pipeline target manager))) w
      (fun _ w' ↦ proceeds w') fun _ w' ↦ proceeds w' :=
    ensures_run htarget hmanager hpipeline
      (hrun.mono (fun _ v h ↦ ⟨v, h, rfl⟩) fun _ v h ↦ ⟨v, h, rfl⟩)
  have hguards := guards_step code (.onUnit .module (.run pipeline target manager)) hsound.bounded
  refine Exec.Ensures.mono (Exec.Ensures.and hproceeds hguards) ?_ ?_
  · rintro r _ ⟨⟨v, hv, rfl⟩, hguards⟩
    have hnothing : inHand (fun _ ↦ 0) r = 0 := by cases r <;> rfl
    rw [hnothing] at hguards
    exact undisturbed_of_proceeds hsound htarget hother hmanager hdistinct hv hguards
  · rintro _ _ ⟨⟨v, hv, rfl⟩, hexcused⟩
    exact hexcused.mono id fun hguards ↦
      undisturbed_of_proceeds hsound htarget hother hmanager hdistinct hv hguards

/-- The functions of the sample are stripped, and the bystander, which shares the manager, keeps its
results. -/
theorem run_undisturbed_demo :
    Sound [.adopted 0, .adopted 1, .adopted 2] Demo.sharing ∧
      Demo.sharing.focus.modules.find? "bystander" = some Demo.bystander ∧
      ∃ answer w', (step Demo.code (.onUnit .module (.run "stages" "sample" "mam"))).run
          Demo.sharing = .ok (.ok answer) w' ∧
        (w'.focus.modules.find? "sample").map (fun m ↦ m.content.map CodeUnit.content) =
          some [["ret"], ["ret"]] ∧
        Undisturbed Demo.code "mam" "bystander" Demo.sharing w' := by
  have howns (id : Nat) (hid : Demo.twoFunctions.Owns id) : ¬Demo.bystander.Owns id := by
    rw [Demo.twoFunctions_owns] at hid
    rw [Demo.bystander_owns]
    omega
  have hnew (id : Nat) (hid : Demo.sharing.shared.nextUnit ≤ id) : ¬Demo.bystander.Owns id := by
    change 6 ≤ id at hid
    rw [Demo.bystander_owns]
    omega
  have htarget : Demo.sharing.focus.modules.find? "sample" = some Demo.twoFunctions := rfl
  have hother : Demo.sharing.focus.modules.find? "bystander" = some Demo.bystander := rfl
  have hmanager : Demo.sharing.focus.moduleManagers.find? "mam" = some Demo.sharedManager := rfl
  have hpipeline : Demo.sharing.focus.modulePipelines.find? "stages" = some Demo.stages := rfl
  have hsound := Demo.sharing_sound
  obtain ⟨r, w', hrun, hok, hcontent⟩ := Demo.stages_step.exists_ok fun _ _ h ↦ h
  generalize Demo.sharing = w at *
  have hundisturbed := run_undisturbed hsound htarget hother hmanager hpipeline howns hnew
    (fun _ h ↦ h) (Demo.sidedManager _ _ _) (Demo.holds_modulePipeline _ _)
  cases r with
  | error refusal => cases hok
  | ok answer => exact ⟨hsound, hother, answer, w', hrun, hcontent, hundisturbed.of_ok hrun⟩

end Run

end Session

end ForeignPasses
