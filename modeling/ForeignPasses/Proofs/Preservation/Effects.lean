import ForeignPasses.Proofs.Manager.Reached

/-!
# Passes that depend on bodies alone

If what a pass over functions does to a function depends on the body of the function alone, so does
what an adapter does with such passes. Then it does not matter how the passes are divided among
adapters: whether all passes run over a function before the next one or all functions are run over
before the next pass, every function ends with the same body, and the same is preserved.
-/

namespace ForeignPasses

open Exec

/-! ## Intersections of preserved sets -/

namespace KeySet

/-- A set is its elements. -/
theorem ext_contains {s t : KeySet} (h : ∀ k, s.contains k = t.contains k) : s = t := by
  have hmem (k : Key) : k ∈ s.keys ↔ k ∈ t.keys := by
    have hk := h k
    rwa [contains, contains, decide_eq_decide] at hk
  have hnodup (u : KeySet) : u.keys.Nodup := by
    refine u.sorted.imp fun {i j} hij hsame ↦ ?_
    rw [hsame, Key.before_irrefl] at hij
    cases hij
  have hperm : s.keys.Perm t.keys := (List.perm_ext_iff_of_nodup (hnodup s) (hnodup t)).2 hmem
  have hkeys : s.keys = t.keys := by
    refine hperm.eq_of_pairwise (fun i j _ _ hij hji ↦ ?_) s.sorted t.sorted
    have hii := Key.before_trans hij hji
    rw [Key.before_irrefl] at hii
    cases hii
  obtain ⟨keys, sorted⟩ := s
  obtain rfl : keys = t.keys := hkeys
  rfl

end KeySet

namespace Preserved

theorem inter_comm (p q : Preserved) : p.inter q = q.inter p := by
  cases p with
  | all => cases q <;> rfl
  | only s =>
    cases q with
    | all => rfl
    | only t => exact congrArg only (KeySet.ext_contains fun k ↦ by simp [Bool.and_comm])

theorem inter_assoc (p q r : Preserved) : (p.inter q).inter r = p.inter (q.inter r) := by
  cases p with
  | all => cases q <;> cases r <;> rfl
  | only s =>
    cases q with
    | all => cases r <;> rfl
    | only t =>
      cases r with
      | all => rfl
      | only u => exact congrArg only (KeySet.ext_contains fun k ↦ by simp [Bool.and_assoc])

theorem all_inter (p : Preserved) : all.inter p = p := rfl

/-- Four sets may be intersected in pairs either way. -/
theorem inter_inter_inter_comm (p q r s : Preserved) :
    (p.inter q).inter (r.inter s) = (p.inter r).inter (q.inter s) :=
  calc
    (p.inter q).inter (r.inter s) = p.inter ((q.inter r).inter s) := by
      rw [inter_assoc, inter_assoc]
    _ = p.inter ((r.inter q).inter s) := by rw [inter_comm q]
    _ = (p.inter r).inter (q.inter s) := by rw [inter_assoc, inter_assoc]

end Preserved

/-! ## Effects -/

/-- What passes do to a body, by their entries, and what they report. -/
abbrev Effect := Entry → Body → Body × Status

namespace Effect

variable (effect : Effect)

/-- What passes do to a body one after the other, and what they preserve together. -/
def inTurn : List Entry → Body → Body × Preserved
  | [], body => (body, .all)
  | entry :: rest, body =>
    ((inTurn rest (effect entry body).1).1,
      (Preserved.ofStatus (effect entry body).2).inter (inTurn rest (effect entry body).1).2)

theorem inTurn_append (entries others : List Entry) (body : Body) :
    effect.inTurn (entries ++ others) body =
      ((effect.inTurn others (effect.inTurn entries body).1).1,
        (effect.inTurn entries body).2.inter
          (effect.inTurn others (effect.inTurn entries body).1).2) := by
  induction entries generalizing body with
  | nil => rfl
  | cons entry rest ih => rw [List.cons_append, inTurn, ih, inTurn, Preserved.inter_assoc]

/-- A function after some passes. -/
def apply (entries : List Entry) (f : Function) : Function :=
  f.withContent (effect.inTurn entries f.content).1

/-- What some passes preserve over functions. -/
def preserves (entries : List Entry) : Functions → Preserved
  | [] => .all
  | f :: rest => (effect.inTurn entries f.content).2.inter (preserves entries rest)

theorem apply_append (entries others : List Entry) (f : Function) :
    effect.apply (entries ++ others) f = effect.apply others (effect.apply entries f) := by
  rw [apply, inTurn_append]
  rfl

theorem preserves_nil (functions : Functions) : effect.preserves [] functions = .all := by
  induction functions with
  | nil => rfl
  | cons f rest ih => rw [preserves, ih, inTurn, Preserved.all_inter]

/-- All passes over each function preserve what the first of them over all functions preserve, and
the others after them. -/
theorem preserves_append (entries others : List Entry) (functions : Functions) :
    effect.preserves (entries ++ others) functions =
      (effect.preserves entries functions).inter
        (effect.preserves others (functions.map (effect.apply entries))) := by
  induction functions with
  | nil => rfl
  | cons f rest ih =>
    -- What the others preserve of this function changes places with what the first preserve of the
    -- rest.
    let firstHere := (effect.inTurn entries f.content).2
    let othersHere := (effect.inTurn others (effect.inTurn entries f.content).1).2
    calc
      effect.preserves (entries ++ others) (f :: rest) =
          (firstHere.inter othersHere).inter ((effect.preserves entries rest).inter
            (effect.preserves others (rest.map (effect.apply entries)))) := by
        rw [preserves, inTurn_append, ih]
      _ = (firstHere.inter (effect.preserves entries rest)).inter (othersHere.inter
            (effect.preserves others (rest.map (effect.apply entries)))) :=
        Preserved.inter_inter_inter_comm _ _ _ _
      _ = (effect.preserves entries (f :: rest)).inter
            (effect.preserves others ((f :: rest).map (effect.apply entries))) := rfl

/-- What groups of passes do to functions, one group after the other. -/
def inGroups : List (List Entry) → Functions → Functions × Preserved
  | [], functions => (functions, .all)
  | entries :: rest, functions =>
    ((inGroups rest (functions.map (effect.apply entries))).1,
      (effect.preserves entries functions).inter
        (inGroups rest (functions.map (effect.apply entries))).2)

/-- How passes are divided among groups does not matter. -/
theorem inGroups_eq (groups : List (List Entry)) (functions : Functions) :
    effect.inGroups groups functions =
      (functions.map (effect.apply groups.flatten), effect.preserves groups.flatten functions) := by
  induction groups generalizing functions with
  | nil =>
    have hsame : functions.map (effect.apply []) = functions := List.map_id _
    rw [inGroups, List.flatten_nil, hsame, preserves_nil]
  | cons entries rest ih =>
    have happly : effect.apply (entries ++ rest.flatten) =
        effect.apply rest.flatten ∘ effect.apply entries := funext (effect.apply_append _ _)
    rw [inGroups, ih, List.flatten_cons, preserves_append, happly, List.map_map]

end Effect

/-! ## Passes over one function -/

/-- What a registered pass does to a function depends on its body alone. It may halt if `halts`. -/
def Code.Does (code : Code) (effect : Effect) (halts : Prop) (entry : Entry) : Prop :=
  ∀ w : World (Job Body Empty), (code.functionTier.invoke entry .null).Ensures w
    (fun status w' ↦ status = (effect entry w.focus.unit.content).2 ∧
      w'.focus.unit = w.focus.unit.withContent (effect entry w.focus.unit.content).1)
    fun _ _ ↦ halts

/-- Registered passes as a pipeline holds them, by names and entries. -/
def enlisted (named : List (String × Entry)) : FunctionPipeline :=
  named.map fun p ↦ .foreign p.1 p.2 .null

namespace Code

variable {code : Code} {effect : Effect} {halts : Prop} {named : List (String × Entry)}

theorem outline_function (m : FunctionManager) (key : Key) :
    m.outline key = some (.attached ()) → key = .proxy := by
  intro hkey
  obtain ⟨⟨analysis, running⟩, -, hanalysis⟩ := Option.map_eq_some_iff.1 hkey
  cases analysis with
  | foreign entry context => cases hanalysis
  | native entry => cases hanalysis
  | attached inner => exact inner.elim

theorem ensures_invalidateFunctionUnit (preserved : Preserved) (w : World (Job Body Empty)) :
    (code.functionTier.invalidateUnit preserved).Ensures w
      (fun _ w' ↦ w'.focus.unit = w.focus.unit) fun _ _ ↦ halts := by
  rw [Tier.ensures_invalidateUnit]
  exact (Tier.ensures_invalidate_quiet code.functionTier_quiet w.focus.unit preserved
    (outline_function w.focus.manager)).mono (fun _ _ _ ↦ rfl) fun _ _ h ↦ h.elim

theorem ensures_runFunctionPipeline_effects (h : ∀ p ∈ named, code.Does effect halts p.2)
    (w : World (Job Body Empty)) :
    (code.runFunctionPipeline (enlisted named)).Ensures w
      (fun preserved w' ↦
        preserved = (effect.inTurn (named.map Prod.snd) w.focus.unit.content).2 ∧
        w'.focus.unit = effect.apply (named.map Prod.snd) w.focus.unit)
      fun _ _ ↦ halts := by
  rw [runFunctionPipeline, enlisted]
  induction named generalizing w with
  | nil => exact ⟨rfl, rfl⟩
  | cons p rest ih =>
    obtain ⟨name, entry⟩ := p
    obtain ⟨hfirst, hrest⟩ := List.forall_mem_cons.1 h
    rw [List.map_cons, Tier.ensures_runAll_cons, Tier.ensures_stage, Tier.ensures_runPass_foreign]
    refine Ensures.imp (hfirst _) ?_
    rintro status w₁ ⟨rfl, hunit⟩
    refine Ensures.imp (ensures_invalidateFunctionUnit _ _) ?_
    intro _ w₂ hsame
    have hunit₂ : w₂.focus.unit = w.focus.unit.withContent (effect entry w.focus.unit.content).1 :=
      hsame.trans hunit
    refine (ih hrest w₂).imp ?_
    rintro preserved w₃ ⟨rfl, hunit₃⟩
    rw [hunit₂] at hunit₃ ⊢
    exact ⟨rfl, hunit₃⟩

theorem ensures_runOverFunction_effects (h : ∀ p ∈ named, code.Does effect halts p.2)
    (w : World (Job Body Empty)) :
    (code.runOverFunction (enlisted named)).Ensures w
      (fun preserved w' ↦
        preserved = (effect.inTurn (named.map Prod.snd) w.focus.unit.content).2 ∧
        w'.focus.unit = effect.apply (named.map Prod.snd) w.focus.unit)
      fun _ _ ↦ halts := by
  rw [ensures_runOverFunction_iff]
  refine (ensures_runFunctionPipeline_effects h w).imp ?_
  rintro preserved w₁ ⟨hpreserved, hunit⟩
  refine (ensures_invalidateFunctionUnit preserved w₁).imp ?_
  exact fun _ w₂ hsame ↦ ⟨hpreserved, hsame.trans hunit⟩

end Code

/-! ## The attached manager -/

/-- The manager that is attached is at rest, and it is found for a unit whether it is cached for it
or not. -/
structure Manager.Proxied {S : Type} (m : Manager S) (id : UnitId) : Prop where
  attached : m.outline .proxy = some (.attached ())
  rests : m.profile.find? .proxy = some false
  only : ∀ key, m.outline key = some (.attached ()) → key = .proxy
  cached : ∀ r, m.results.find? (id, .proxy) = some r → r = .attached

namespace Manager.Proxied

variable {S : Type} {m m' : Manager S} {id : UnitId}

theorem of_same (h : m.Proxied id) (houtline : m'.outline = m.outline)
    (hprofile : m'.profile.find? .proxy = some false)
    (hcached : ∀ r, m'.results.find? (id, .proxy) = some r → r = .attached) : m'.Proxied id where
  attached := by rw [houtline, h.attached]
  rests := hprofile
  only key hkey := by
    rw [houtline] at hkey
    exact h.only key hkey
  cached := hcached

theorem setAttached (h : m.Proxied id) (inner : S) : (m.setAttached inner).Proxied id :=
  h.of_same (outline_setAttached h.attached inner) (by rw [profile_setAttached, h.rests]) h.cached

/-- The manager is looked for, and kept as a result. -/
theorem kept (h : m.Proxied id) :
    Proxied { (m.setRunning .proxy true).setRunning .proxy false with
      results := m.results.insert (id, .proxy) .attached } id := by
  refine h.of_same ?_ ?_ fun r hr ↦ ?_
  · change ((m.setRunning .proxy true).setRunning .proxy false).outline = m.outline
    rw [outline_setRunning, outline_setRunning]
  · change ((m.setRunning .proxy true).setRunning .proxy false).profile.find? .proxy = some false
    rw [profile_setRunning, profile_setRunning, Table.find?_modify, Table.find?_modify, h.rests]
    rfl
  · rw [Table.find?_insert_self] at hr
    exact (Option.some.inj hr).symm

end Manager.Proxied

/-- Whatever has been done with a manager, the one attached to it is found for every unit. -/
theorem Code.ReachesModules.proxied {code : Code} {m : ModuleManager} (h : code.ReachesModules m)
    {inner : FunctionManager} (hinner : m.attached? = some inner) (id : UnitId) : m.Proxied id := by
  obtain ⟨htidy, hrests⟩ := h.tidy_and_rests
  have houtline := Manager.outline_proxy hinner
  refine ⟨houtline, ?_, htidy.proxy, fun r hr ↦ ?_⟩
  · obtain ⟨running, hfind⟩ := Manager.find?_of_attached? hinner
    have hprofile : m.profile.find? .proxy = some running := Manager.profile_of_find? hfind
    cases running with
    | false => exact hprofile
    | true => exact absurd hprofile (hrests .proxy)
  · obtain ⟨analysis, hanalysis, hfits⟩ := htidy.fits _ r hr
    obtain rfl : .attached () = analysis := Option.some.inj (houtline.symm.trans hanalysis)
    cases r with
    | attached => rfl
    | foreign value => exact hfits.elim
    | native value => exact hfits.elim

namespace Tier

variable {β I S : Type} {tier : Tier β I S}

theorem ensures_fetch_proxied {u : CodeUnit β} {w : World (Manager S)}
    (h : w.focus.Proxied u.id) :
    (tier.fetch .attached u).Ensures w (fun _ w' ↦ w'.focus.Proxied u.id) fun _ _ ↦ False := by
  apply ensures_fetch_of
  intro answer
  change (tier.access.requestAt answer .attached .proxy u).Ensures w _ _
  obtain ⟨inner, hattached⟩ := Manager.exists_attached? h.attached
  obtain ⟨running, hfind⟩ := Manager.find?_of_attached? hattached
  obtain rfl : running = false :=
    Option.some.inj ((Manager.profile_of_find? hfind).symm.trans h.rests)
  apply Access.ensures_requestAt_of
  case hfound =>
    intro r message (hcached : w.focus.results.find? (u.id, .proxy) = some r)
    obtain rfl := h.cached r hcached
    exact h
  case hunregistered =>
    intro _ (hnone : w.focus.analyses.find? .proxy = none)
    rw [hfind] at hnone
    cases hnone
  case hrunning =>
    intro analysis _ _ (hrunning : w.focus.analyses.find? .proxy = some ⟨analysis, true⟩)
    rw [hfind] at hrunning
    cases hrunning
  case hresting =>
    intro analysis _ _ (hresting : w.focus.analyses.find? .proxy = some ⟨analysis, false⟩)
    obtain rfl : .attached inner = analysis :=
      congrArg Registered.analysis (Option.some.inj (hfind.symm.trans hresting))
    exact h.kept

theorem ensures_invalidate_proxied (hquiet : tier.Quiet) {u : CodeUnit β} (preserved : Preserved)
    {id : UnitId} {w : World (Manager S)} (h : w.focus.Proxied id) :
    (tier.invalidate u preserved).Ensures w (fun _ w' ↦ w'.focus.Proxied id) fun _ _ ↦ False := by
  refine ((ensures_invalidate_quiet hquiet u preserved h.only).and
    (ensures_invalidate_dropped u preserved w)).mono ?_ fun _ _ h ↦ h.1
  rintro _ w' ⟨⟨houtline, -⟩, hdropped⟩
  refine h.of_same houtline (by rw [hdropped.profile_eq, h.rests]) fun r hr ↦ ?_
  rw [hdropped.find?_eq] at hr
  split at hr
  · cases hr
  · exact h.cached r hr

end Tier

/-! ## Passes over all functions -/

namespace Code

variable {code : Code} {effect : Effect} {halts : Prop} {named : List (String × Entry)}

/-- What is left of a module and its manager, with some functions in it. -/
def Left (w : World (Job Functions FunctionManager)) (functions : Functions)
    (w' : World (Job Functions FunctionManager)) : Prop :=
  w'.focus.unit = w.focus.unit.withContent functions ∧ w'.focus.manager.Proxied w.focus.unit.id

theorem ensures_runOverOne_effects (h : ∀ p ∈ named, code.Does effect halts p.2)
    (before : Functions) (f : Function) (after : Functions)
    {w : World (Job Functions FunctionManager)} (hw : w.focus.manager.Proxied w.focus.unit.id) :
    (code.runOverOne (enlisted named) before f after).Ensures w
      (fun r w' ↦ r.1 = (effect.inTurn (named.map Prod.snd) f.content).2 ∧
        r.2 = effect.apply (named.map Prod.snd) f ∧
        Left w (before ++ effect.apply (named.map Prod.snd) f :: after) w')
      fun _ _ ↦ halts := by
  obtain ⟨inner, hattached⟩ := Manager.exists_attached? hw.attached
  rw [ensures_runOverOne_iff hattached]
  refine (ensures_runOverFunction_effects h _).imp ?_
  rintro preserved w₁ ⟨hpreserved, hunit⟩
  refine ⟨hpreserved, hunit, ?_, hw.setAttached _⟩
  change w.focus.unit.withContent (before ++ w₁.focus.unit :: after) = _
  rw [hunit]

theorem ensures_runOverFunctions_effects (h : ∀ p ∈ named, code.Does effect halts p.2)
    (before rest : Functions) {w : World (Job Functions FunctionManager)}
    (hcontent : w.focus.unit.content = before ++ rest)
    (hw : w.focus.manager.Proxied w.focus.unit.id) :
    (code.runOverFunctions (enlisted named) before rest).Ensures w
      (fun preserved w' ↦ preserved = effect.preserves (named.map Prod.snd) rest ∧
        Left w (before ++ rest.map (effect.apply (named.map Prod.snd))) w')
      fun _ _ ↦ halts := by
  induction rest generalizing before w with
  | nil =>
    refine ⟨rfl, ?_, hw⟩
    rw [List.map_nil, ← hcontent]
    rfl
  | cons f after ih =>
    rw [ensures_runOverFunctions_cons]
    refine (ensures_runOverOne_effects h before f after hw).imp ?_
    rintro ⟨preserved, f'⟩ w₁ ⟨hpreserved, hf', hunit, hw₁⟩
    dsimp only at hpreserved hf'
    subst hpreserved hf'
    have hid : w₁.focus.unit.id = w.focus.unit.id := by rw [hunit]; rfl
    have hcontent₁ : w₁.focus.unit.content =
        before ++ [effect.apply (named.map Prod.snd) f] ++ after := by
      rw [hunit]
      simp
    refine (ih _ hcontent₁ (hid ▸ hw₁)).imp ?_
    rintro preserved' w₂ ⟨rfl, hunit₂, hw₂⟩
    refine ⟨rfl, ?_, hid ▸ hw₂⟩
    rw [hunit₂, hunit, List.map_cons, List.append_assoc, List.singleton_append]
    rfl

theorem ensures_runPerFunction_effects (h : ∀ p ∈ named, code.Does effect halts p.2)
    {w : World (Job Functions FunctionManager)} (hw : w.focus.manager.Proxied w.focus.unit.id) :
    (code.runPerFunction (enlisted named)).Ensures w
      (fun preserved w' ↦ preserved = effect.preserves (named.map Prod.snd) w.focus.unit.content ∧
        Left w (w.focus.unit.content.map (effect.apply (named.map Prod.snd))) w')
      fun _ _ ↦ halts := by
  rw [ensures_runPerFunction_iff]
  refine (Tier.ensures_onManager _).2 ((Tier.ensures_fetch_proxied hw).mono ?_ fun _ _ h ↦ h.elim)
  intro _ w₁ hw₁
  exact ensures_runOverFunctions_effects h [] w.focus.unit.content
    (w := ⟨w₁.shared, ⟨w₁.focus, w.focus.unit⟩⟩) rfl hw₁

/-- Adapters one after the other do what their passes do in groups. -/
theorem ensures_runModulePipeline_effects {groups : List (List (String × Entry))}
    (h : ∀ named ∈ groups, ∀ p ∈ named, code.Does effect halts p.2)
    {w : World (Job Functions FunctionManager)} (hw : w.focus.manager.Proxied w.focus.unit.id) :
    (code.runModulePipeline (groups.map fun named ↦ .perFunction (enlisted named))).Ensures w
      (fun preserved w' ↦
        preserved = (effect.inGroups (groups.map (List.map Prod.snd)) w.focus.unit.content).2 ∧
        Left w (effect.inGroups (groups.map (List.map Prod.snd)) w.focus.unit.content).1 w')
      fun _ _ ↦ halts := by
  rw [runModulePipeline]
  induction groups generalizing w with
  | nil => exact ⟨rfl, rfl, hw⟩
  | cons named rest ih =>
    obtain ⟨hfirst, hrest⟩ := List.forall_mem_cons.1 h
    rw [List.map_cons, Tier.ensures_runAll_cons, Tier.ensures_stage, Tier.runPass]
    refine Ensures.imp (ensures_runPerFunction_effects hfirst hw) ?_
    rintro preserved w₁ ⟨rfl, hunit, hw₁⟩
    rw [Tier.ensures_invalidateUnit]
    refine (Tier.ensures_invalidate_proxied code.moduleTier_quiet _ hw₁).mono ?_ fun _ _ h ↦ h.elim
    intro _ w₂ hw₂
    have hid : w₁.focus.unit.id = w.focus.unit.id := by rw [hunit]; rfl
    have hcontent : w₁.focus.unit.content =
        w.focus.unit.content.map (effect.apply (named.map Prod.snd)) := by
      rw [hunit]
      rfl
    refine (ih hrest (w := ⟨w₂.shared, ⟨w₂.focus, w₁.focus.unit⟩⟩) (hid ▸ hw₂)).imp ?_
    rintro preserved' w₃ ⟨rfl, hunit₃, hw₃⟩
    dsimp only at hunit₃ hw₃ ⊢
    rw [hcontent] at hunit₃ ⊢
    refine ⟨rfl, ?_, hid ▸ hw₃⟩
    rw [hunit₃, hunit]
    rfl

end Code

end ForeignPasses
