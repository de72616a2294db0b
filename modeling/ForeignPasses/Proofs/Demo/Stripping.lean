import ForeignPasses.Proofs.Demo.Counting
import ForeignPasses.Proofs.Manager.Stages

/-!
# Counts after stripping

Stripping leaves no count behind that is not right any more: what a pass reports of one function is
enough for its length, and what all of them report together for the counts of the module.
-/

namespace ForeignPasses

open Exec

/-! ## Reports -/

namespace Preserved

/-- Nothing is preserved. -/
def Blank (p : Preserved) : Prop := p.isAll = false ∧ ∀ key, p.contains key = false

/-- All is preserved and nothing has changed, or nothing is preserved. -/
def Reports (p : Preserved) (unchanged : Prop) : Prop := p = .all ∧ unchanged ∨ p.Blank

theorem blank_none : none.Blank := ⟨rfl, contains_none⟩

theorem Reports.inter {p q : Preserved} {unchanged unchanged' : Prop} (hp : p.Reports unchanged)
    (hq : q.Reports unchanged') : (p.inter q).Reports (unchanged ∧ unchanged') := by
  rcases hp with ⟨rfl, hp⟩ | ⟨hall, hcontains⟩
  · rcases hq with ⟨rfl, hq⟩ | hq
    · exact .inl ⟨rfl, hp, hq⟩
    · exact .inr hq
  · refine .inr ⟨?_, fun key ↦ ?_⟩
    · cases p with
      | all => contradiction
      | only keys => cases q <;> rfl
    · rw [contains_inter, hcontains key]
      rfl

theorem Reports.mono {p : Preserved} {unchanged unchanged' : Prop} (hp : p.Reports unchanged)
    (h : unchanged → unchanged') : p.Reports unchanged' :=
  hp.imp (And.imp_right h) fun h ↦ h

end Preserved

/-! ## Forgetting -/

namespace Tier

variable {β I S : Type} {tier : Tier β I S} {w w' w'' : World (Manager S)}

theorem LooksUp.trans {Expected Expected' : Result → Prop} {place : UnitId × Key}
    (h : LooksUp Expected place w w') (h' : LooksUp Expected' place w' w'') :
    LooksUp Expected' place w w'' where
  analyses_eq := h'.analyses_eq.trans h.analyses_eq
  expected := h'.expected
  others other hother := (h'.others other hother).trans (h.others other hother)
  silent := h.silent.after h'.silent

/-- A result that goes away without a word is forgotten. -/
theorem utters_forgotten {u : CodeUnit β} {key : Key}
    (hsilent : ∀ r, w.focus.results.find? (u.id, key) = some r →
      ∀ e ∈ (releases r).map Event.released, e.Silent) :
    w.shared.Utters [] (forgotten u key w).shared := by
  rw [forgotten]
  cases hfind : w.focus.results.find? (u.id, key) with
  | none => exact .of_events_eq (List.append_nil _)
  | some r => exact .of_silent (hsilent r hfind) rfl

variable {u : CodeUnit β} {preserved : Preserved}

theorem invalidate_of_all (hall : preserved = .all) : tier.invalidate u preserved = pure () := by
  rw [invalidate, hall]
  rfl

theorem invalidate_of_blank (hblank : preserved.Blank) :
    tier.invalidate u preserved = (do tier.invalidateEach u preserved (← focus).analyses.entries) := by
  simp only [invalidate, hblank.1, Bool.false_eq_true, if_false]

theorem invalidateEach_of_blank (hblank : preserved.Blank) (key : Key) (registered : Registered S)
    (rest : List (Key × Registered S)) :
    tier.invalidateEach u preserved ((key, registered) :: rest) =
      (forget u key >>= fun _ ↦ tier.notify u preserved key registered.analysis) >>= fun _ ↦
        tier.invalidateEach u preserved rest := by
  simp only [invalidateEach, hblank.2 key, Bool.false_eq_true, if_false, bind_assoc]

/-- The manager without the result in one place. -/
def without (m : Manager S) (place : UnitId × Key) : Manager S :=
  { m with results := m.results.erase place }

variable {key : Key}
  (hsilent : ∀ r, w.focus.results.find? (u.id, key) = some r →
    ∀ e ∈ (releases r).map Event.released, e.Silent)

include hsilent

theorem ensures_lose_foreign (entry : Entry) (context : Opaque String) :
    (forget u key >>= fun _ ↦ tier.notify u preserved key (.foreign entry context)).Ensures w
      (fun _ w' ↦ w'.focus = without w.focus (u.id, key) ∧ w.shared.Utters [] w'.shared)
      fun _ _ ↦ False := by
  rw [ensures_bind, ensures_forget]
  exact ⟨rfl, (utters_forgotten hsilent).after (.of_silent_one rfl rfl)⟩

/-- The attached manager is told, and does what it does. -/
theorem ensures_lose_attached {inner inner' : S} (hattached : w.focus.attached? = some inner)
    {kept : S → Prop}
    (hwithin : ∀ s, (tier.invalidateWithin u preserved).Ensures ⟨s, inner⟩
      (fun _ v ↦ kept v.focus ∧ s.Utters [] v.shared) fun _ _ ↦ False) :
    (forget u key >>= fun _ ↦ tier.notify u preserved key (.attached inner')).Ensures w
      (fun _ w' ↦ (∃ inner, kept inner ∧
        w'.focus = (without w.focus (u.id, key)).setAttached inner) ∧ w.shared.Utters [] w'.shared)
      fun _ _ ↦ False := by
  have hattached₁ : (forgotten u key w).focus.attached? = some inner := hattached
  rw [ensures_bind, ensures_forget, ensures_notify_attached hattached₁]
  refine (hwithin _).imp ?_
  rintro _ v ⟨hkept, hwithout⟩
  refine ⟨⟨v.focus, hkept, rfl⟩, ((utters_forgotten hsilent).after ?_).after hwithout⟩
  exact .of_silent_one rfl rfl

end Tier

namespace Demo

/-! ## One function -/

/-- A function without the instructions that do nothing. -/
def stripped (f : Function) : Function := f.withContent (f.content.filter (· ≠ "nop"))

theorem stripped_stripped (f : Function) : stripped (stripped f) = stripped f := by
  simp [stripped, CodeUnit.withContent]

theorem ensures_invalidate_function {f : Function} {preserved : Preserved}
    (hblank : preserved.Blank) {n : Nat} (n' : Nat) {w : World FunctionManager}
    (hanalyses : w.focus.analyses = lengthManager.analyses)
    (hheld : ∀ r, w.focus.results.find? (f.id, lengthKey) = some r → Boxed n r) :
    (code.functionTier.invalidate f preserved).Ensures w
      (fun _ w' ↦ Tier.LooksUp (Boxed n') (f.id, lengthKey) w w') fun _ _ ↦ False := by
  have hentries : w.focus.analyses.entries = [(lengthKey, ⟨.foreign 0 .null, false⟩)] := by
    rw [hanalyses]
    rfl
  rw [Tier.invalidate_of_blank hblank, ensures_bind, ensures_focus, hentries,
    Tier.invalidateEach_of_blank hblank, ensures_bind]
  refine (Tier.ensures_lose_foreign (fun r hr ↦ (hheld r hr).silent) 0 .null).imp ?_
  rintro _ w' ⟨hfocus, hsilent⟩
  refine ⟨by rw [hfocus]; rfl, fun r hr ↦ ?_, fun other hother ↦ ?_, hsilent⟩
  · rw [hfocus, Tier.without, Table.find?_erase_self] at hr
    contradiction
  · rw [hfocus, Tier.without, Table.find?_erase, if_neg hother]

/-- What was cached of a function before it changed is invalidated as it was reported. -/
theorem ensures_invalidate_reported {f f' : Function} {preserved : Preserved}
    (hreports : preserved.Reports (f' = f)) (hid : f'.id = f.id) {w : World FunctionManager}
    (h : LengthsRight [f] w.focus) :
    (code.functionTier.invalidate f' preserved).Ensures w
      (fun _ w' ↦ Tier.LooksUp (Boxed f'.content.length) (f'.id, lengthKey) w w')
      fun _ _ ↦ False := by
  have hheld := h.length f (List.mem_singleton_self f)
  rcases hreports with ⟨hall, rfl⟩ | hblank
  · rw [Tier.invalidate_of_all hall]
    exact ⟨rfl, hheld, fun _ _ ↦ rfl, .refl⟩
  · exact ensures_invalidate_function hblank _ h.analyses_eq (hid ▸ hheld)

/-- Work on a function has come to another one, whose length is right if it is cached. -/
structure Leaves (f' : Function) (s : Shared) (fam : FunctionManager) (w : World (Job Body Empty)) :
    Prop where
  unit_eq : w.focus.unit = f'
  looksUp : Tier.LooksUp (Boxed f'.content.length) (f'.id, lengthKey) ⟨s, fam⟩
    ⟨w.shared, w.focus.manager⟩

theorem Leaves.right {f f' : Function} {s : Shared} {fam : FunctionManager}
    {w : World (Job Body Empty)} (h : Leaves f' s fam w) (hf : LengthsRight [f] fam) :
    LengthsRight [w.focus.unit] w.focus.manager := by
  rw [h.unit_eq]
  refine LengthsRight.looksUp (w := ⟨s, fam⟩) hf (fun g hg ↦ ?_) h.looksUp
  exact .inl (List.mem_singleton.1 hg)

theorem Leaves.trans {f' f'' : Function} {s : Shared} {fam : FunctionManager}
    {w w' : World (Job Body Empty)} (h : Leaves f' s fam w)
    (h' : Leaves f'' w.shared w.focus.manager w') (hid : f''.id = f'.id) : Leaves f'' s fam w' where
  unit_eq := h'.unit_eq
  looksUp := by
    have hfirst := h.looksUp
    rw [← hid] at hfirst
    exact hfirst.trans h'.looksUp

theorem ensures_invalidateUnit_reported {f f' : Function} {preserved : Preserved}
    (hreports : preserved.Reports (f' = f)) (hid : f'.id = f.id) {s : Shared}
    {fam : FunctionManager} (h : LengthsRight [f] fam) :
    (code.functionTier.invalidateUnit preserved).Ensures ⟨s, ⟨fam, f'⟩⟩
      (fun _ w ↦ Leaves f' s fam w) fun _ _ ↦ False := by
  rw [Tier.ensures_invalidateUnit]
  exact (ensures_invalidate_reported hreports hid (w := ⟨s, fam⟩) h).imp fun _ _ h ↦ ⟨rfl, h⟩

theorem ensures_invoke_stripNops (entry : Entry) (context : Opaque String) (s : Shared)
    (fam : FunctionManager) (f : Function) :
    (code.functionTier.invoke entry context).Ensures ⟨s, ⟨fam, f⟩⟩
      (fun status w ↦ (Preserved.ofStatus status).Reports (stripped f = f) ∧
        w = ⟨s, ⟨fam, stripped f⟩⟩)
      fun _ _ ↦ False := by
  rw [Tier.ensures_invoke]
  refine ⟨?_, rfl⟩
  change (Preserved.ofStatus (if (f.content.filter (· ≠ "nop")).length = f.content.length then _
    else _)).Reports _
  split
  · rename_i hlength
    have hsame : f.content.filter (· ≠ "nop") = f.content :=
      List.filter_sublist.eq_of_length hlength
    exact .inl ⟨rfl, congrArg f.withContent hsame⟩
  · exact .inr Preserved.blank_none

theorem ensures_stage_strip (name : String) (context : Opaque String) {s : Shared}
    {fam : FunctionManager} {f : Function} (h : LengthsRight [f] fam) :
    (code.functionTier.stage name (code.functionTier.runPass (fun inner : Empty ↦ nomatch inner)
      (.foreign name stripNops context))).Ensures ⟨s, ⟨fam, f⟩⟩
      (fun preserved w ↦ preserved.Reports (stripped f = f) ∧ Leaves (stripped f) s fam w)
      fun _ _ ↦ False := by
  rw [Tier.ensures_stage, Tier.ensures_runPass_foreign]
  refine (ensures_invoke_stripNops _ _ _ _ _).imp ?_
  rintro status w₁ ⟨hreports, rfl⟩
  refine (ensures_invalidateUnit_reported hreports rfl h).imp ?_
  intro _ w₂ hleaves
  refine ⟨hreports, hleaves.unit_eq, ?_⟩
  have hlooked := hleaves.looksUp
  exact ⟨hlooked.analyses_eq, hlooked.expected, hlooked.others,
    ((Builder.Quiet.logged _ _ _).trans (.logged _ _ _)).silent.after hlooked.silent⟩

/-- Nothing but stripping. -/
def Strips (passes : FunctionPipeline) : Prop :=
  ∀ p ∈ passes, ∃ name context, p = .foreign name stripNops context

/-- What such passes come to. -/
def strip (passes : FunctionPipeline) (f : Function) : Function :=
  if passes.isEmpty then f else stripped f

theorem strip_cons (p : FunctionPass) (rest : FunctionPipeline) (f : Function) :
    strip rest (stripped f) = strip (p :: rest) f := by
  cases rest with
  | nil => rfl
  | cons _ _ => exact stripped_stripped f

theorem id_strip (passes : FunctionPipeline) (f : Function) : (strip passes f).id = f.id := by
  unfold strip
  split <;> rfl

theorem ensures_runFunctionPipeline {passes : FunctionPipeline} (hstrips : Strips passes)
    {s : Shared} {fam : FunctionManager} {f : Function} (h : LengthsRight [f] fam) :
    (code.runFunctionPipeline passes).Ensures ⟨s, ⟨fam, f⟩⟩
      (fun preserved w ↦ preserved.Reports (strip passes f = f) ∧ Leaves (strip passes f) s fam w)
      fun _ _ ↦ False := by
  induction passes generalizing s fam f with
  | nil =>
    refine ⟨.inl ⟨rfl, rfl⟩, rfl, rfl, ?_, fun _ _ ↦ rfl, .refl⟩
    exact h.length f (List.mem_singleton_self f)
  | cons p rest ih =>
    obtain ⟨⟨name, context, rfl⟩, hrest⟩ := List.forall_mem_cons.1 hstrips
    rw [Code.runFunctionPipeline, Tier.ensures_runAll_cons]
    refine (ensures_stage_strip name context h).imp ?_
    rintro preserved ⟨s₁, fam₁, f₁⟩ ⟨hreports, hleaves⟩
    obtain rfl : f₁ = stripped f := hleaves.unit_eq
    have hright : LengthsRight [stripped f] fam₁ := hleaves.right h
    refine (ih hrest hright).imp ?_
    rintro preserved' w₂ ⟨hreports', hleaves'⟩
    rw [strip_cons (.foreign name stripNops context)] at hreports' hleaves'
    refine ⟨(hreports.inter hreports').mono ?_, hleaves.trans hleaves' ?_⟩
    · exact fun hsame ↦ hsame.2.trans hsame.1
    · exact id_strip _ f

theorem ensures_runOverFunction {passes : FunctionPipeline} (hstrips : Strips passes)
    {s : Shared} {fam : FunctionManager} {f : Function} (h : LengthsRight [f] fam) :
    (code.runOverFunction passes).Ensures ⟨s, ⟨fam, f⟩⟩
      (fun preserved w ↦ preserved.Reports (strip passes f = f) ∧ Leaves (strip passes f) s fam w)
      fun _ _ ↦ False := by
  rw [Code.ensures_runOverFunction_iff]
  refine (ensures_runFunctionPipeline hstrips h).imp ?_
  rintro preserved ⟨s₁, fam₁, f₁⟩ ⟨hreports, hleaves⟩
  obtain rfl : f₁ = strip passes f := hleaves.unit_eq
  have hright : LengthsRight [strip passes f] fam₁ := hleaves.right h
  have hagain : preserved.Reports (strip passes f = strip passes f) := hreports.mono fun _ ↦ rfl
  refine (ensures_invalidateUnit_reported hagain rfl hright).imp ?_
  intro _ w₂ hleaves₂
  exact ⟨hreports, hleaves.trans hleaves₂ rfl⟩

/-! ## All functions of a module -/

/-- The functions of a module are being worked on: those before are done. -/
structure Working (functions : Functions) (s : Shared) (job : Job Functions FunctionManager)
    (w : World (Job Functions FunctionManager)) : Prop where
  unit_eq : w.focus.unit = job.unit.withContent functions
  attached : ∃ fam, w.focus.manager.analyses = equipment fam ∧ LengthsRight functions fam
  results_eq : w.focus.manager.results = job.manager.results
  silent : s.Utters [] w.shared

/-- With one function replaced the others still have other identifiers. -/
theorem eq_or_of_replaced {before after : Functions} {f f' : Function}
    (hnodup : ((before ++ f :: after).map CodeUnit.id).Nodup) {g : Function}
    (hg : g ∈ before ++ f' :: after) : g = f' ∨ g ∈ before ++ f :: after ∧ g.id ≠ f.id := by
  have hother (hg : g ∈ before ++ after) : g ∈ before ++ f :: after ∧ g.id ≠ f.id := by
    rw [List.map_append, List.map_cons] at hnodup
    have hid := (List.nodup_cons.1 (List.perm_middle.nodup_iff.1 hnodup)).1
    rw [← List.map_append] at hid
    refine ⟨?_, fun heq ↦ hid (heq ▸ List.mem_map_of_mem hg)⟩
    rcases List.mem_append.1 hg with hg | hg
    · exact List.mem_append_left _ hg
    · exact List.mem_append_right _ (List.mem_cons_of_mem f hg)
  rcases List.mem_append.1 hg with hg | hg
  · exact .inr (hother (List.mem_append_left _ hg))
  · rcases List.mem_cons.1 hg with rfl | hg
    · exact .inl rfl
    · exact .inr (hother (List.mem_append_right _ hg))

theorem ensures_runOverOne {passes : FunctionPipeline} (hstrips : Strips passes)
    {before after : Functions} {f : Function}
    (hnodup : ((before ++ f :: after).map CodeUnit.id).Nodup) {s : Shared}
    {job : Job Functions FunctionManager} {w : World (Job Functions FunctionManager)}
    (h : Working (before ++ f :: after) s job w) :
    (code.runOverOne passes before f after).Ensures w
      (fun r w' ↦ r.1.Reports (strip passes f = f) ∧ r.2 = strip passes f ∧
        Working (before ++ strip passes f :: after) s job w')
      fun _ _ ↦ False := by
  obtain ⟨fam, hanalyses, hlengths⟩ := h.attached
  have hattached : w.focus.manager.attached? = some fam := by
    rw [Manager.attached?, hanalyses, find?_proxy]
  rw [Code.ensures_runOverOne_iff hattached]
  have hf : LengthsRight [f] fam := ⟨hlengths.analyses_eq, fun g hg ↦ by
    rw [List.mem_singleton.1 hg]
    exact hlengths.length f (by simp)⟩
  refine (ensures_runOverFunction hstrips hf).imp ?_
  rintro preserved w' ⟨hreports, hleaves⟩
  refine ⟨hreports, hleaves.unit_eq, ?_, ⟨w'.focus.manager, ?_, ?_⟩, ?_, ?_⟩
  · rw [Code.rejoined, hleaves.unit_eq, h.unit_eq]
    rfl
  · exact analyses_setAttached hanalyses _
  · refine LengthsRight.looksUp (w := ⟨w.shared, fam⟩) hlengths (fun g hg ↦ ?_) hleaves.looksUp
    rw [id_strip]
    exact eq_or_of_replaced hnodup hg
  · exact h.results_eq
  · exact h.silent.after hleaves.looksUp.silent

theorem ensures_runOverFunctions {passes : FunctionPipeline} (hstrips : Strips passes)
    {before functions : Functions} (hnodup : ((before ++ functions).map CodeUnit.id).Nodup)
    {s : Shared} {job : Job Functions FunctionManager} {w : World (Job Functions FunctionManager)}
    (h : Working (before ++ functions) s job w) :
    (code.runOverFunctions passes before functions).Ensures w
      (fun preserved w' ↦ preserved.Reports (functions.map (strip passes) = functions) ∧
        Working (before ++ functions.map (strip passes)) s job w')
      fun _ _ ↦ False := by
  induction functions generalizing before w with
  | nil => exact ⟨.inl ⟨rfl, rfl⟩, h⟩
  | cons f after ih =>
    rw [Code.ensures_runOverFunctions_cons]
    refine (ensures_runOverOne hstrips hnodup h).imp ?_
    rintro ⟨preserved, f'⟩ w₁ ⟨hreports, hf', hworking⟩
    obtain rfl : f' = strip passes f := hf'
    have hdone : before ++ strip passes f :: after = (before ++ [strip passes f]) ++ after := by simp
    rw [hdone] at hworking
    have hnodup' : ((before ++ [strip passes f] ++ after).map CodeUnit.id).Nodup := by
      simpa [id_strip] using hnodup
    refine (ih hnodup' hworking).imp ?_
    rintro preserved' w₂ ⟨hreports', hworking'⟩
    refine ⟨(hreports.inter hreports').mono ?_, ?_⟩
    · rintro ⟨hfirst, hrest⟩
      rw [List.map_cons, hfirst, hrest]
    · rw [List.append_assoc] at hworking'
      exact hworking'

/-! ## A module -/

/-- What passes that strip make of a module. -/
def stripAll (passes : FunctionPipeline) (m : Module) : Module :=
  m.withContent (m.content.map (strip passes))

theorem nodup_stripAll (passes : FunctionPipeline) {m : Module}
    (hnodup : (m.content.map CodeUnit.id).Nodup) :
    ((stripAll passes m).content.map CodeUnit.id).Nodup := by
  have hsame : (stripAll passes m).content.map CodeUnit.id = m.content.map CodeUnit.id := by
    simp [stripAll, id_strip]
  rwa [hsame]

theorem ensures_runPerFunction {passes : FunctionPipeline} (hstrips : Strips passes) {s : Shared}
    {mam : ModuleManager} {m : Module} (hnodup : (m.content.map CodeUnit.id).Nodup)
    (h : CountsRight m mam) :
    (code.runPerFunction passes).Ensures ⟨s, ⟨mam, m⟩⟩
      (fun preserved w ↦ preserved.Reports (stripAll passes m = m) ∧
        w.focus.unit = stripAll passes m ∧
        Counts (countInstructions m) (stripAll passes m) w.focus.manager ∧ s.Utters [] w.shared)
      fun _ _ ↦ False := by
  obtain ⟨⟨fam, hanalyses, hlengths⟩, hcounts, hproxies⟩ := h
  have hattached : (code.moduleTier.fetch .attached m).Ensures ⟨s, mam⟩
      (fun _ w ↦ Tier.LooksUp (· = .attached) (m.id, .proxy) ⟨s, mam⟩ w) fun _ _ ↦ False :=
    ensures_fetch_attached (hanalyses ▸ find?_proxy fam) hproxies
  rw [Code.ensures_runPerFunction_iff, Tier.ensures_onManager]
  refine hattached.imp ?_
  intro _ w hlooked
  have hworking : Working ([] ++ m.content) s ⟨w.focus, m⟩ ⟨w.shared, ⟨w.focus, m⟩⟩ :=
    ⟨rfl, ⟨fam, hlooked.analyses_eq.trans hanalyses, hlengths⟩, rfl, hlooked.silent⟩
  have hnodup' : (([] ++ m.content : Functions).map CodeUnit.id).Nodup := hnodup
  refine (ensures_runOverFunctions hstrips hnodup' hworking).imp ?_
  rintro preserved w' ⟨hreports, hworking'⟩
  refine ⟨hreports.mono fun hsame ↦ congrArg m.withContent hsame, hworking'.unit_eq,
    ⟨hworking'.attached, ?_, ?_⟩, hworking'.silent⟩
  · intro r hr
    rw [hworking'.results_eq] at hr
    change w.focus.results.find? (m.id, instructionCount) = _ at hr
    rw [hlooked.others _ (by simp [instructionCount])] at hr
    exact hcounts r hr
  · intro r hr
    rw [hworking'.results_eq] at hr
    exact hlooked.expected r hr

/-! ## Invalidating a module -/

theorem ensures_invalidateFunctions {preserved : Preserved} (hblank : preserved.Blank)
    {all functions : Functions} (hall : ∀ f ∈ functions, f ∈ all)
    (hnodup : (all.map CodeUnit.id).Nodup) {w : World FunctionManager}
    (h : LengthsRight all w.focus) :
    (invalidateFunctions code preserved functions).Ensures w
      (fun _ w' ↦ LengthsRight all w'.focus ∧ w.shared.Utters [] w'.shared) fun _ _ ↦ False := by
  induction functions generalizing w with
  | nil => exact ⟨h, .refl⟩
  | cons f rest ih =>
    obtain ⟨hf, hrest⟩ := List.forall_mem_cons.1 hall
    rw [invalidateFunctions, ensures_bind]
    refine (ensures_invalidate_function hblank f.content.length h.analyses_eq (h.length f hf)).imp ?_
    intro _ w₁ hlooked
    refine (ih hrest (h.looksUp (eq_or_of_nodup hnodup hf) hlooked)).imp ?_
    rintro _ w₂ ⟨hright, hsilent⟩
    exact ⟨hright, hlooked.silent.after hsilent⟩

/-- If nothing is preserved, no count of the module is left, and those of its functions are right. -/
theorem ensures_invalidate_module {preserved : Preserved} (hblank : preserved.Blank) {n : Nat}
    {m : Module} (hnodup : (m.content.map CodeUnit.id).Nodup) {w : World ModuleManager}
    (h : Counts n m w.focus) :
    (code.moduleTier.invalidate m preserved).Ensures w
      (fun _ w' ↦ CountsRight m w'.focus ∧ w.shared.Utters [] w'.shared) fun _ _ ↦ False := by
  obtain ⟨⟨fam, hanalyses, hlengths⟩, hcounts, hproxies⟩ := h
  have hentries : w.focus.analyses.entries =
      [(instructionCount, ⟨.foreign 0 .null, false⟩), (.proxy, ⟨.attached fam, false⟩)] := by
    rw [hanalyses]
    rfl
  rw [Tier.invalidate_of_blank hblank, ensures_bind, ensures_focus, hentries,
    Tier.invalidateEach_of_blank hblank, Tier.invalidateEach_of_blank hblank, ensures_bind]
  refine (Tier.ensures_lose_foreign (fun r hr ↦ (hcounts r hr).silent) 0 .null).imp ?_
  rintro _ w₁ ⟨hfocus₁, hsilent₁⟩
  have hfind₁ : w₁.focus.analyses.find? .proxy = some ⟨.attached fam, false⟩ := by
    rw [hfocus₁]
    exact hanalyses ▸ find?_proxy fam
  have hattached₁ : w₁.focus.attached? = some fam := by
    rw [Manager.attached?, hfind₁]
  have hproxies₁ (r : Result) (hr : w₁.focus.results.find? (m.id, .proxy) = some r) :
      ∀ e ∈ (releases r).map Event.released, e.Silent := by
    rw [hfocus₁, Tier.without, Table.find?_erase, if_neg (by simp [instructionCount])] at hr
    rw [hproxies r hr]
    exact fun e he ↦ absurd he List.not_mem_nil
  rw [ensures_bind]
  refine (Tier.ensures_lose_attached hproxies₁ hattached₁ fun s ↦
    ensures_invalidateFunctions hblank (fun f hf ↦ hf) hnodup (w := ⟨s, fam⟩) hlengths).imp ?_
  rintro _ w₂ ⟨⟨fam', hright, hfocus₂⟩, hsilent₂⟩
  rw [hfocus₁] at hfocus₂
  refine ⟨?_, hsilent₁.after hsilent₂⟩
  rw [hfocus₂]
  refine ⟨⟨fam', analyses_setAttached hanalyses fam', hright⟩, ?_, ?_⟩
  · intro r (hr : ((w.focus.results.erase (m.id, instructionCount)).erase (m.id, .proxy)).find?
      (m.id, instructionCount) = some r)
    rw [Table.find?_erase, if_neg (by simp [instructionCount]), Table.find?_erase_self] at hr
    contradiction
  · intro r (hr : ((w.focus.results.erase (m.id, instructionCount)).erase (m.id, .proxy)).find?
      (m.id, .proxy) = some r)
    rw [Table.find?_erase_self] at hr
    contradiction

/-! ## Stages -/

/-- A pass was run over a module: the module is another one now, and what is cached is right. -/
structure Played (m : Module) (lines : List String) (s : Shared)
    (w : World (Job Functions FunctionManager)) : Prop where
  unit_eq : w.focus.unit = m
  right : CountsRight m w.focus.manager
  utters : s.Utters lines w.shared

theorem ensures_stage_perFunction {passes : FunctionPipeline} (hstrips : Strips passes)
    {s : Shared} {mam : ModuleManager} {m : Module} (hnodup : (m.content.map CodeUnit.id).Nodup)
    (h : CountsRight m mam) :
    (code.moduleTier.stage (Pass.perFunction passes).name
      (code.moduleTier.runPass code.runPerFunction (.perFunction passes))).Ensures ⟨s, ⟨mam, m⟩⟩
      (fun _ w ↦ Played (stripAll passes m) [] s w) fun _ _ ↦ False := by
  rw [Tier.ensures_stage, Tier.runPass]
  refine (ensures_runPerFunction hstrips hnodup h).imp ?_
  rintro preserved ⟨s₁, mam₁, m₁⟩ ⟨hreports, hunit, hcounts, hsilent⟩
  obtain rfl : m₁ = stripAll passes m := hunit
  have hsilent' : s.Utters [] s₁ := (Builder.Quiet.logged s _ _).silent.after hsilent
  rw [Tier.ensures_invalidateUnit]
  rcases hreports with ⟨hall, hsame⟩ | hblank
  · rw [Tier.invalidate_of_all hall]
    refine ⟨rfl, ?_, hsilent'⟩
    have hcount : countInstructions m = countInstructions (stripAll passes m) := by rw [hsame]
    rwa [hcount] at hcounts
  · refine (ensures_invalidate_module hblank (nodup_stripAll passes hnodup) (w := ⟨s₁, mam₁⟩) hcounts).imp ?_
    rintro _ v ⟨hright, hsilent₂⟩
    exact ⟨rfl, hright, hsilent'.after hsilent₂⟩

theorem ensures_stage_printStats (name : String) (context : Opaque String) {s : Shared}
    {mam : ModuleManager} {m : Module} (hnodup : (m.content.map CodeUnit.id).Nodup)
    (h : CountsRight m mam) :
    (code.moduleTier.stage name (code.moduleTier.runPass code.runPerFunction
      (.foreign name printStats context))).Ensures ⟨s, ⟨mam, m⟩⟩
      (fun _ w ↦ Played m (block m) s w) fun _ _ ↦ False := by
  rw [Tier.ensures_stage, Tier.ensures_runPass_foreign, Tier.ensures_invoke]
  refine (ensures_printStats hnodup h).imp ?_
  rintro _ ⟨s₁, mam₁, m₁⟩ ⟨rfl, hunit, hright, hlines⟩
  obtain rfl : m₁ = m := hunit
  refine ⟨rfl, hright, ?_⟩
  exact ((Builder.Quiet.logged s _ _).silent.after hlines).before (Builder.Quiet.logged _ _ _).silent

end Demo

end ForeignPasses
