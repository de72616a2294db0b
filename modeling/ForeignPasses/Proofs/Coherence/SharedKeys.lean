import ForeignPasses.Proofs.Coherence.Runs
import ForeignPasses.Proofs.Demo.Honesty
import ForeignPasses.Proofs.Preservation.Reports

/-!
# Keys in use for both kinds of unit

Analyses of modules and of functions are known by the same keys, and a report is a list of keys that
does not say which kind it is about. What an adapter reports for functions counts for the module,
and what a pass reports for a module is passed on to its functions. So every listed result is kept,
of whichever kind it is, and reports are harmless only if they are true of both kinds.
-/

namespace ForeignPasses

open Exec

/-! ## Reports about one kind -/

/-- The keys under which there are analyses of modules, and those of functions. A key may be in use
for both. -/
structure Keyring where
  onModules : Key → Prop
  onFunctions : Key → Prop

namespace Meaning

variable (meaning : Meaning) (keyring : Keyring)

/-- Under keys that are not in use nothing but attached managers is found. -/
structure Within : Prop where
  onModule : ∀ key, ¬keyring.onModules key → ∀ m, meaning.onModule key m = .attached
  onFunction : ∀ key, ¬keyring.onFunctions key → ∀ f, meaning.onFunction key f = .attached

/-- A pass over a module left other functions, and reports truthfully on the module. -/
structure TrueOfModule (m : Module) (next : UnitId) (functions : Functions) (preserved : Preserved)
    (next' : UnitId) : Prop where
  nodup : (functions.map CodeUnit.id).Nodup
  origin : ∀ g ∈ functions, (∃ f ∈ m.content, f.id = g.id) ∨ (next ≤ g.id ∧ g.id < next')
  same : ∀ key, keyring.onModules key → preserved.contains key = true →
    meaning.onModule key (m.withContent functions) = meaning.onModule key m

/-- What a pass over a module reports is true of the functions that stay. -/
def TrueOfParts (m : Module) (functions : Functions) (preserved : Preserved) : Prop :=
  ∀ key, keyring.onFunctions key →
    preserved.contains .proxy = true ∨ preserved.contains key = true →
      ∀ f ∈ m.content, ∀ g ∈ functions, f.id = g.id →
        meaning.onFunction key g = meaning.onFunction key f

/-- A pass over a function left another body, and reports truthfully on the function. -/
def TrueOfFunction (f : Function) (body : Body) (preserved : Preserved) : Prop :=
  ∀ key, keyring.onFunctions key → preserved.contains key = true →
    meaning.onFunction key (f.withContent body) = meaning.onFunction key f

/-- What a pass over a function between others reports is true of the module. -/
def TrueOfWhole (m : Module) (before : Functions) (f : Function) (after : Functions) (body : Body)
    (preserved : Preserved) : Prop :=
  ∀ key, keyring.onModules key → preserved.contains key = true →
    meaning.onModule key (m.withContent (before ++ f.withContent body :: after)) =
      meaning.onModule key (m.withContent (before ++ f :: after))

end Meaning

/-- What is asked of the reports of passes over modules and of passes over functions. -/
structure Duty where
  overModule : Module → UnitId → Functions → Preserved → UnitId → Prop
  overFunction : Module → Functions → Function → Functions → Body → Preserved → Prop

namespace Meaning

variable (meaning : Meaning) (keyring : Keyring)

/-- Reports are true of the kind of unit that the pass ran over. -/
def ownDuty : Duty where
  overModule m next functions preserved next' :=
    meaning.TrueOfModule keyring m next functions preserved next'
  overFunction _ _ f _ body preserved := meaning.TrueOfFunction keyring f body preserved

/-- Reports are true of both kinds of unit. -/
def bothDuty : Duty where
  overModule m next functions preserved next' :=
    meaning.TrueOfModule keyring m next functions preserved next' ∧
      meaning.TrueOfParts keyring m functions preserved
  overFunction m before f after body preserved :=
    meaning.TrueOfFunction keyring f body preserved ∧
      meaning.TrueOfWhole keyring m before f after body preserved

variable {meaning keyring}

theorem Within.moduleReport (h : meaning.Within keyring) {m : Module} {next next' : UnitId}
    {functions : Functions} {preserved : Preserved}
    (hduty : (meaning.bothDuty keyring).overModule m next functions preserved next') :
    meaning.ModuleReport m next functions preserved next' where
  nodup := hduty.1.nodup
  origin := hduty.1.origin
  onModule key hkey := by
    by_cases hused : keyring.onModules key
    · exact hduty.1.same key hused hkey
    · rw [h.onModule key hused, h.onModule key hused]
  onFunctions key hkey f hf g hg hid := by
    by_cases hused : keyring.onFunctions key
    · exact hduty.2 key hused hkey f hf g hg hid
    · rw [h.onFunction key hused, h.onFunction key hused]

theorem Within.functionReport (h : meaning.Within keyring) {m : Module} {before after : Functions}
    {f : Function} {body : Body} {preserved : Preserved}
    (hduty : (meaning.bothDuty keyring).overFunction m before f after body preserved) :
    meaning.FunctionReport m before f after body preserved where
  onFunction key hkey := by
    by_cases hused : keyring.onFunctions key
    · exact hduty.1 key hused hkey
    · rw [h.onFunction key hused, h.onFunction key hused]
  onModule key hkey := by
    by_cases hused : keyring.onModules key
    · exact hduty.2 key hused hkey
    · rw [h.onModule key hused, h.onModule key hused]

end Meaning

/-! ## Pipelines that do their duty -/

namespace Code

variable (code : Code) (meaning : Meaning) (duty : Duty) (possible : Module → Prop)

/-- Code that does its duty over the possible modules and registers lawful analyses alone. -/
def DutifulOverModules (pass : Module → Edition Functions FunctionInquest (Functions × Preserved)) :
    Prop :=
  ∀ m next, possible m → Distinct m.content next →
    (pass m).fold
      (Edit.Allows ((meaning.moduleTheory fun _ ↦ True).allows (· = m))
        ((meaning.moduleTheory fun _ ↦ True).LawfulForeign code.modules.toComputations))
      (fun r next' ↦ duty.overModule m next r.1 r.2 next' ∧ possible (m.withContent r.1)) next

def DutifulOverFunctions (pass : Function → Edition Body Empty (Body × Preserved)) : Prop :=
  ∀ m before f after next, possible (m.withContent (before ++ f :: after)) →
    (pass f).fold
      (Edit.Allows (meaning.functionTheory.allows (· = f))
        (meaning.functionTheory.LawfulForeign code.functions.toComputations))
      (fun r _ ↦ duty.overFunction m before f after r.1 r.2 ∧
        possible (m.withContent (before ++ f.withContent r.1 :: after)))
      next

def DutifulFunctionPipeline (passes : FunctionPipeline) : Prop :=
  Pass.EveryOf code.functions (code.DutifulOverFunctions meaning duty possible)
    (fun j ↦ nomatch j) passes

def DutifulModulePipeline (passes : ModulePipeline) : Prop :=
  Pass.EveryOf code.modules (code.DutifulOverModules meaning duty possible)
    (code.DutifulFunctionPipeline meaning duty possible) passes

end Code

/-! ## Honest in both respects -/

/-- What follows from the answers to more questions follows. -/
theorem Program.fold_mono {Q α L : Type} {A : Q → Type} [Preorder L]
    {ask : (q : Q) → (A q → L) → L}
    (hask : ∀ q f g, (∀ a, f a ≤ g a) → ask q f ≤ ask q g) {done done' : α → L}
    (hdone : ∀ a, done a ≤ done' a) (p : Program Q A α) : p.fold ask done ≤ p.fold ask done' := by
  induction p with
  | done a => exact hdone a
  | ask q next ih => exact hask q _ _ ih

theorem Inquiry.Allows.mono {β I : Type} {meaning : Key → CodeUnit β → Finding}
    {allowed : CodeUnit β → Prop} {within : CodeUnit β → I → (Option Int → Prop) → Prop}
    (hwithin : ∀ u inner (post post' : Option Int → Prop), (∀ a, post a → post' a) →
      within u inner post → within u inner post')
    {q : Inquiry β I} {post post' : q.Answer → Prop} (hpost : ∀ a, post a → post' a)
    (h : Inquiry.Allows meaning allowed within q post) :
    Inquiry.Allows meaning allowed within q post' := by
  cases q with
  | say text => exact hpost _ h
  | identities => exact fun ids ↦ hpost _ (h ids)
  | result u key => exact ⟨h.1, fun k value hk hvalue ↦ hpost _ (h.2 k value hk hvalue)⟩
  | cached u key =>
    refine ⟨h.1, fun k hk ↦ ⟨hpost _ (h.2 k hk).1, fun value hvalue ↦ ?_⟩⟩
    exact hpost _ ((h.2 k hk).2 value hvalue)
  | native u index => exact ⟨h.1, fun value hvalue ↦ hpost _ (h.2 value hvalue)⟩
  | within u inner => exact ⟨h.1, hwithin u inner post post' hpost h.2⟩

/-- Code of which less is asked in the end does that as well. -/
theorem Edit.fold_mono {β I α : Type} {inquire : (q : Inquiry β I) → (q.Answer → Prop) → Prop}
    (hinquire : ∀ q post post', (∀ a, post a → post' a) → inquire q post → inquire q post')
    {lawful : Key → Entry → Option String → Prop} {post post' : α → UnitId → Prop}
    (hpost : ∀ a next, post a next → post' a next) {p : Edition β I α} {next : UnitId}
    (h : p.fold (Edit.Allows inquire lawful) post next) :
    p.fold (Edit.Allows inquire lawful) post' next := by
  refine Program.fold_mono (L := UnitId → Prop) ?_ hpost p next h
  intro q f g hfg next hq
  cases q with
  | inquire q => exact hinquire q _ _ (fun a ↦ hfg a next) hq
  | register key entry context =>
    exact ⟨hq.1, fun registered ↦ hfg registered next (hq.2 registered)⟩
  | freshUnit => exact hfg next (next + 1) hq

namespace Meaning

variable (meaning : Meaning)

theorem functionTheory_allows_mono {allowed : Function → Prop} (q : Inquiry Body Empty)
    (post post' : q.Answer → Prop) (hpost : ∀ a, post a → post' a)
    (h : meaning.functionTheory.allows allowed q post) :
    meaning.functionTheory.allows allowed q post' :=
  h.mono (fun _ inner ↦ inner.elim) hpost

theorem moduleTheory_allows_mono {inner : FunctionManager → Prop} {allowed : Module → Prop}
    (q : Inquiry Functions FunctionInquest) (post post' : q.Answer → Prop)
    (hpost : ∀ a, post a → post' a) (h : (meaning.moduleTheory inner).allows allowed q post) :
    (meaning.moduleTheory inner).allows allowed q post' := by
  refine h.mono (fun m program post post' hpost hprogram ↦ ?_) hpost
  exact Program.fold_mono (L := Prop) meaning.functionTheory_allows_mono hpost program hprogram

end Meaning

namespace Pass

variable {β I J : Type} {behaviour : Behaviour β I}
  {leaf leaf' : (CodeUnit β → Edition β I (β × Preserved)) → Prop} {inner inner' : J → Prop}

mutual

theorem Every.mono (hleaf : ∀ code, leaf code → leaf' code) (hinner : ∀ j, inner j → inner' j) :
    ∀ {pass : Pass J}, pass.Every behaviour leaf inner → pass.Every behaviour leaf' inner'
  | foreign .., h => hleaf _ h
  | native .., h => hleaf _ h
  | group _, h => EveryOf.mono hleaf hinner h
  | perFunction j, h => hinner j h

theorem EveryOf.mono (hleaf : ∀ code, leaf code → leaf' code) (hinner : ∀ j, inner j → inner' j) :
    ∀ {passes : List (Pass J)}, EveryOf behaviour leaf inner passes →
      EveryOf behaviour leaf' inner' passes
  | [], _ => trivial
  | _ :: _, h => ⟨Every.mono hleaf hinner h.1, EveryOf.mono hleaf hinner h.2⟩

end

end Pass

namespace Code

variable {code : Code} {meaning : Meaning} {keyring : Keyring} {possible : Module → Prop}

/-- Passes whose reports are true of both kinds are honest. -/
theorem DutifulModulePipeline.honest (hwithin : meaning.Within keyring) {passes : ModulePipeline}
    (h : code.DutifulModulePipeline meaning (meaning.bothDuty keyring) possible passes) :
    code.HonestModulePipeline meaning possible passes := by
  have hmodules pass (hpass : code.DutifulOverModules meaning (meaning.bothDuty keyring) possible
      pass) : code.HonestOverModules meaning possible pass := by
    intro m next hpossible hdistinct
    refine Edit.fold_mono (meaning.moduleTheory_allows_mono ·) ?_ (hpass m next hpossible hdistinct)
    exact fun r next' hr ↦ ⟨hwithin.moduleReport hr.1, hr.2⟩
  have hfunctions pass (hpass : code.DutifulOverFunctions meaning (meaning.bothDuty keyring)
      possible pass) : code.HonestOverFunctions meaning possible pass := by
    intro m before f after next hpossible
    refine Edit.fold_mono (meaning.functionTheory_allows_mono ·) ?_
      (hpass m before f after next hpossible)
    exact fun r _ hr ↦ ⟨hwithin.functionReport hr.1, hr.2⟩
  exact Pass.EveryOf.mono hmodules
    (fun _ hinner ↦ Pass.EveryOf.mono hfunctions (fun j ↦ j.elim) hinner) h

end Code

/-! ## What is listed is kept -/

namespace Tier

variable {β I S J : Type} {w w₁ w₂ : World (Job β S)} {preserved preserved' : Preserved}

/-- Results that are reported as preserved for a unit are cached as before. -/
structure KeepsListed (w : World (Job β S)) (preserved : Preserved) (w' : World (Job β S)) :
    Prop where
  id_eq : w'.focus.unit.id = w.focus.unit.id
  kept : ∀ key r, preserved.contains key = true →
    w.focus.manager.results.find? (w.focus.unit.id, key) = some r →
      w'.focus.manager.results.find? (w'.focus.unit.id, key) = some r

/-- Nothing is lost and the unit keeps its identifier. -/
def SparesAll (w w' : World (Job β S)) : Prop :=
  w'.focus.unit.id = w.focus.unit.id ∧
    w.focus.manager.Spares (fun _ ↦ True) w'.focus.manager

theorem SparesAll.keepsListed (h : SparesAll w w₁) : KeepsListed w preserved w₁ where
  id_eq := h.1
  kept key r _ hr := by
    rw [h.1]
    exact h.2.kept _ trivial key r hr

theorem KeepsListed.trans (h : KeepsListed w preserved w₁) (h' : KeepsListed w₁ preserved' w₂) :
    KeepsListed w (preserved.inter preserved') w₂ where
  id_eq := h'.id_eq.trans h.id_eq
  kept key r hkey hr := by
    rw [Preserved.contains_inter, Bool.and_eq_true] at hkey
    exact h'.kept key r hkey.2 (h.kept key r hkey.1 hr)

variable {tier : Tier β I S}

/-- The invalidation that goes with a report takes nothing that is listed. -/
theorem KeepsListed.invalidated (h : KeepsListed w preserved w₁) :
    (tier.invalidateUnit preserved).Ensures w₁ (fun _ w₂ ↦ KeepsListed w preserved w₂)
      fun _ _ ↦ True := by
  rw [ensures_invalidateUnit]
  refine (ensures_invalidate_dropped w₁.focus.unit preserved _).relax ?_
  intro _ w' hdropped
  refine ⟨h.id_eq, fun key r hkey hr ↦ ?_⟩
  change w'.focus.results.find? (w₁.focus.unit.id, key) = some r
  rw [hdropped.find?_eq, if_neg (by simp [hkey])]
  exact h.kept key r hkey hr

variable [Owner S] {adapt : J → Exec (Job β S) Preserved}

theorem ensures_invokeNative_spares (entry : Entry) (w : World (Job β S)) :
    (tier.invokeNative entry).Ensures w (fun _ w' ↦ SparesAll w w') fun _ _ ↦ True := by
  rw [ensures_invokeNative]
  refine (ensures_run_idles _ w).relax ?_
  rintro _ w' ⟨hunit, hspares⟩
  have hid : w'.focus.unit.id = w.focus.unit.id := by rw [hunit]
  exact ⟨hid, hspares⟩

mutual

theorem keepsListed_runPass
    (hadapt : ∀ j w, (adapt j).Ensures w (fun _ w' ↦ SparesAll w w') fun _ _ ↦ True)
    (pass : Pass J) (w : World (Job β S)) :
    (tier.runPass adapt pass).Ensures w (KeepsListed w) fun _ _ ↦ True := by
  cases pass with
  | foreign name entry context =>
    rw [ensures_runPass_foreign]
    refine (ensures_invoke_spares entry context w).relax ?_
    intro status w' (hspares : SparesAll w w')
    have hlogged (s : Shared) : SparesAll w ⟨s, w'.focus⟩ := hspares
    exact (hlogged _).keepsListed
  | native name entry =>
    refine (ensures_invokeNative_spares entry w).relax ?_
    exact fun preserved w' hspares ↦ hspares.keepsListed
  | group passes => exact keepsListed_runAll hadapt passes w
  | perFunction j =>
    exact (hadapt j w).relax fun preserved w' hspares ↦ hspares.keepsListed

theorem keepsListed_runAll
    (hadapt : ∀ j w, (adapt j).Ensures w (fun _ w' ↦ SparesAll w w') fun _ _ ↦ True)
    (passes : List (Pass J)) (w : World (Job β S)) :
    (tier.runAll adapt passes).Ensures w (KeepsListed w) fun _ _ ↦ True := by
  cases passes with
  | nil => exact SparesAll.keepsListed ⟨rfl, .refl⟩
  | cons pass rest =>
    rw [ensures_runAll_cons, ensures_stage]
    refine Ensures.relax (keepsListed_runPass hadapt pass (announced pass.name w)) ?_
    intro preserved w₁ hpass
    refine hpass.invalidated.relax ?_
    intro _ w₂ hstage
    refine (keepsListed_runAll hadapt rest w₂).relax ?_
    exact fun others w₃ hrest ↦ ⟨(hstage.trans hrest).id_eq, (hstage.trans hrest).kept⟩

end

end Tier

namespace Code

variable {code : Code}

/-- An adapter takes nothing from the manager of modules. -/
theorem ensures_runPerFunction_spares (passes : FunctionPipeline)
    (w : World (Job Functions FunctionManager)) :
    (code.runPerFunction passes).Ensures w (fun _ w' ↦ Tier.SparesAll w w') fun _ _ ↦ True := by
  have hover (before rest : Functions) (w : World (Job Functions FunctionManager)) :
      (code.runOverFunctions passes before rest).Ensures w (fun _ w' ↦ Tier.SparesAll w w')
        fun _ _ ↦ True := by
    induction rest generalizing before w with
    | nil => exact ⟨rfl, .refl⟩
    | cons f after ih =>
      rw [ensures_runOverFunctions_cons]
      apply ensures_runOverOne_of
      case hnone => exact fun _ ↦ trivial
      case hsome =>
        intro inner _
        refine (Ensures.trivial _ _).relax ?_
        intro preserved w₁ _
        refine (ih (before ++ [w₁.focus.unit]) _).relax ?_
        rintro _ w₂ ⟨hid, hspares⟩
        exact ⟨hid, (Manager.Spares.setAttached w₁.focus.manager).trans hspares⟩
  have hfetch : (Tier.onManager (code.moduleTier.fetch .attached w.focus.unit)).Ensures w
      (fun _ w' ↦ Tier.SparesAll w w') fun _ _ ↦ True := by
    refine (Tier.ensures_onManager _).2 ((Tier.adds_fetch .attached w.focus.unit _).mono ?_ ?_)
    · exact fun _ w' hgrown ↦ ⟨rfl, hgrown.spares⟩
    · exact fun _ _ _ ↦ trivial
  rw [ensures_runPerFunction_iff]
  refine hfetch.relax ?_
  rintro _ w₁ ⟨hid₁, hspares₁⟩
  refine (hover [] w.focus.unit.content w₁).relax ?_
  rintro _ w₂ ⟨hid₂, hspares₂⟩
  exact ⟨hid₂.trans hid₁, hspares₁.trans hspares₂⟩

variable {meaning : Meaning} {keyring : Keyring} {possible : Module → Prop}

/-- A run of passes whose reports are true of both kinds of unit ends with fresh managers. Whatever
its passes do, every result for the module is kept if its key is listed, and then it is right only
if the module means the same under that key as before. -/
theorem runModulePipeline_keeps_listed (hwithin : meaning.Within keyring) {passes : ModulePipeline}
    {w w' : World (Job Functions FunctionManager)} {preserved : Preserved}
    (hgood : (code.moduleRegime meaning possible).GoodIn w)
    (hok : code.runModulePipeline passes w = .ok preserved w') :
    (code.DutifulModulePipeline meaning (meaning.bothDuty keyring) possible passes →
      code.ModuleFresh meaning w'.focus.unit ⟨w'.shared, w'.focus.manager⟩) ∧
    ∀ key r, preserved.contains key = true →
      w.focus.manager.results.find? (w.focus.unit.id, key) = some r →
        w'.focus.manager.results.find? (w'.focus.unit.id, key) = some r ∧
          (r.finding = meaning.onModule key w'.focus.unit ↔
            meaning.onModule key w'.focus.unit = meaning.onModule key w.focus.unit) := by
  refine ⟨fun hduty ↦ ?_, fun key r hkey hr ↦ ?_⟩
  · exact (runModulePipeline_fresh (hduty.honest hwithin) hgood).2.2 preserved w' hok
  · have hkeeps := (Tier.keepsListed_runAll ensures_runPerFunction_spares passes w).of_ok hok
    have hfinding : r.finding = meaning.onModule key w.focus.unit :=
      hgood.1.right w.focus.unit (by simp) key r trivial hr
    refine ⟨hkeeps.kept key r hkey hr, ?_⟩
    rw [hfinding]
    exact eq_comm

end Code

namespace Demo

/-! ## A count for modules and one for functions -/

/-- What the analyses of functions count: their instructions, or the functions themselves. -/
def measure (entry : Entry) (f : Function) : Nat := if entry = 0 then f.content.length else 1

/-- Native passes turn functions round or strip what does nothing, and list the key of the
counts. -/
def counting : Code :=
  { code with
    functions := { functionBehaviour with
      analysis := fun entry _ f ↦ return boxed (measure entry f)
      nativePass := fun entry f ↦
        return (if entry = 0 then f.content.reverse else f.content.filter (· ≠ "nop"),
          Preserved.none.preserve instructionCount) } }

def counts (entry : Entry) : Meaning where
  onModule key m :=
    if key = instructionCount then .foreign (some (countInstructions m)) else .attached
  onFunction key f :=
    if key = instructionCount then .foreign (some (measure entry f)) else .attached

def countKeys : Keyring where
  onModules := (· = instructionCount)
  onFunctions := (· = instructionCount)

theorem counts_within (entry : Entry) : (counts entry).Within countKeys where
  onModule _ hkey _ := if_neg hkey
  onFunction _ hkey _ := if_neg hkey

def functionCounts (entry : Entry) : FunctionManager where
  analyses := Table.insert ∅ instructionCount ⟨.foreign entry .null, false⟩

/-- The instructions of the module have been counted, under the key that functions use as well. -/
def moduleCounts (entry : Entry) : ModuleManager where
  analyses := Table.insert (Table.insert ∅ instructionCount ⟨.foreign 0 .null, false⟩) .proxy
    ⟨.attached (functionCounts entry), false⟩
  results := Table.insert ∅ (twoFunctions.id, instructionCount)
    (.foreign (.ofRaw ((boxed (countInstructions twoFunctions)).toRaw 0)))

def countingStart (entry : Entry) : World (Job Functions FunctionManager) :=
  ⟨{ nextUnit := 4 }, ⟨moduleCounts entry, twoFunctions⟩⟩

theorem countingStart_good (entry : Entry) :
    (counting.moduleRegime (counts entry) fun _ ↦ True).GoodIn (countingStart entry) := by
  have hfunctions : counting.FunctionsRight (counts entry) (fun _ _ ↦ True) twoFunctions.content 4
      (functionCounts entry) := by
    have hlawful : (counts entry).functionTheory.Lawful (S := Empty)
        counting.functions.toComputations instructionCount (.foreign entry .null) := fun _ ↦ rfl
    exact Manager.Coherent.empty.insert_analysis hlawful
  let inner := counting.FunctionsRight (counts entry) (fun _ _ ↦ True) twoFunctions.content 4
  have hcount : ((counts entry).moduleTheory inner).Lawful counting.modules.toComputations
      instructionCount (.foreign 0 .null) := fun _ ↦ rfl
  have hattached : ((counts entry).moduleTheory inner).Lawful counting.modules.toComputations
      .proxy (.attached (functionCounts entry)) := ⟨rfl, fun _ ↦ rfl, hfunctions⟩
  have hanalyses : counting.ModuleRight (counts entry) (fun _ ↦ True) inner twoFunctions
      { moduleCounts entry with results := ∅ } :=
    (Manager.Coherent.empty.insert_analysis hcount).insert_analysis hattached
  have hright : counting.ModuleRight (counts entry) (fun _ ↦ True) inner twoFunctions
      (moduleCounts entry) :=
    hanalyses.insert_result (by simp) (List.mem_singleton_self twoFunctions) trivial rfl rfl
  have hdistinct : Code.Distinct twoFunctions.content 4 := ⟨by decide, by decide⟩
  exact ⟨hright, hdistinct, trivial⟩

def reversing : ModulePipeline := [.perFunction [.native "reverse" 0]]

/-- A function that is turned round has as many instructions as before, and so has its module. -/
theorem dutiful_reversing :
    counting.DutifulModulePipeline (counts 0) ((counts 0).bothDuty countKeys) (fun _ ↦ True)
      reversing := by
  refine ⟨⟨fun m before f after next _ ↦ ⟨⟨?_, ?_⟩, trivial⟩, trivial⟩, trivial⟩
  · rintro key rfl -
    change Finding.foreign (some f.content.reverse.length) = .foreign (some f.content.length)
    rw [List.length_reverse]
  · rintro key rfl -
    have hcount :
        countInstructions (m.withContent (before ++ f.withContent f.content.reverse :: after)) =
          countInstructions (m.withContent (before ++ f :: after)) := by
      simp [countInstructions, CodeUnit.withContent]
    exact congrArg (fun n : Nat ↦ Finding.foreign (some n)) hcount

theorem reversing_returns : (counting.runModulePipeline reversing).Ensures (countingStart 0)
    (fun preserved w ↦ preserved.contains instructionCount = true ∧
      w.focus.unit.content.map CodeUnit.content = [["ret", "nop"], ["ret"]]) fun _ _ ↦ False := by
  decide +kernel

theorem countingStart_count (entry : Entry) :
    (countingStart entry).focus.manager.results.find? (twoFunctions.id, instructionCount) =
      some (.foreign (.ofRaw ((boxed 3).toRaw 0))) := by
  rfl

/-- The functions are turned round, and the count of the module is kept and right. -/
theorem runModulePipeline_keeps_count :
    (counts 0).Within countKeys ∧
    (counting.moduleRegime (counts 0) fun _ ↦ True).GoodIn (countingStart 0) ∧
    counting.DutifulModulePipeline (counts 0) ((counts 0).bothDuty countKeys) (fun _ ↦ True)
      reversing ∧
    ∃ preserved w', counting.runModulePipeline reversing (countingStart 0) = .ok preserved w' ∧
      w'.focus.unit.content.map CodeUnit.content = [["ret", "nop"], ["ret"]] ∧
      w'.focus.manager.results.find? (w'.focus.unit.id, instructionCount) =
        some (.foreign (.ofRaw ((boxed 3).toRaw 0))) ∧
      counting.ModuleFresh (counts 0) w'.focus.unit ⟨w'.shared, w'.focus.manager⟩ := by
  obtain ⟨preserved, w', hok, hlisted, hcontent⟩ := reversing_returns.exists_ok fun _ _ h ↦ h
  obtain ⟨hfresh, hkept⟩ :=
    Code.runModulePipeline_keeps_listed (counts_within 0) (countingStart_good 0) hok
  exact ⟨counts_within 0, countingStart_good 0, dutiful_reversing, preserved, w', hok, hcontent,
    (hkept instructionCount _ hlisted (countingStart_count 0)).1, hfresh dutiful_reversing⟩

def strippingNops : ModulePipeline := [.perFunction [.native "strip-nops" 1]]

theorem strippingNops_returns : (counting.runModulePipeline strippingNops).Ensures (countingStart 1)
    (fun _ w ↦ countInstructions w.focus.unit = 2 ∧
      w.focus.manager.results.find? (w.focus.unit.id, instructionCount) =
        some (.foreign (.ofRaw ((boxed 3).toRaw 0)))) fun _ _ ↦ False := by
  decide +kernel

/-- There is one function for each function, whatever is stripped off it. But the instructions of
the module are counted under the same key, and that count gets stale. -/
theorem strippingNops_stale :
    (counts 1).Within countKeys ∧
    (counting.moduleRegime (counts 1) fun _ ↦ True).GoodIn (countingStart 1) ∧
    counting.DutifulModulePipeline (counts 1) ((counts 1).ownDuty countKeys) (fun _ ↦ True)
      strippingNops ∧
    ∃ preserved w', counting.runModulePipeline strippingNops (countingStart 1) =
        .ok preserved w' ∧
      ¬counting.ModuleFresh (counts 1) w'.focus.unit ⟨w'.shared, w'.focus.manager⟩ := by
  have hduty : counting.DutifulModulePipeline (counts 1) ((counts 1).ownDuty countKeys)
      (fun _ ↦ True) strippingNops := by
    refine ⟨⟨fun m before f after next _ ↦ ⟨?_, trivial⟩, trivial⟩, trivial⟩
    rintro key rfl -
    rfl
  obtain ⟨preserved, w', hok, hcount, hkept⟩ := strippingNops_returns.exists_ok fun _ _ h ↦ h
  refine ⟨counts_within 1, countingStart_good 1, hduty, preserved, w', hok, fun hfresh ↦ ?_⟩
  have hright := (hfresh.1 w'.focus.unit (List.mem_singleton_self _) instructionCount _ hkept).1
  have hmeaning : (counts 1).onModule instructionCount w'.focus.unit =
      .foreign (some (countInstructions w'.focus.unit)) := rfl
  rw [hmeaning, hcount] at hright
  cases hright

end Demo

end ForeignPasses
