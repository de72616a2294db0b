import ForeignPasses.Pass.Run
import ForeignPasses.Proofs.Coherence.Working
import ForeignPasses.Proofs.Manager.Dropped

/-!
# What foreign passes report and spare

A foreign pass reports that all results are preserved or that none is, and a run of foreign passes
reports the latter if one of them does. It takes results away from its own unit alone, and from
that one only if it reports so.
-/

namespace ForeignPasses

open Exec

/-! ## Reports -/

namespace Pass

variable {J : Type}

mutual

/-- Foreign passes and groups of them. -/
def IsForeign : Pass J → Prop
  | foreign .. => True
  | native .. => False
  | group passes => AreForeign passes
  | perFunction _ => False

def AreForeign : List (Pass J) → Prop
  | [] => True
  | pass :: rest => IsForeign pass ∧ AreForeign rest

end

end Pass

namespace Tier

variable {β I S J : Type} [Owner S] (tier : Tier β I S) (adapt : J → Exec (Job β S) Preserved)

/-- In the course of a run of passes, at any depth of groups, a foreign pass reports a status. -/
inductive Reports : List (Pass J) → World (Job β S) → Status → Prop where
  | first {name : String} {entry : Entry} {context : Opaque String} {rest : List (Pass J)}
      {w w₁ : World (Job β S)} {status : Status}
      (h : tier.invoke entry context (announced name w) = .ok status w₁) :
      Reports (.foreign name entry context :: rest) w status
  | within {passes rest : List (Pass J)} {w : World (Job β S)} {status : Status}
      (h : Reports passes (announced (Pass.group passes).name w) status) :
      Reports (.group passes :: rest) w status
  | later {pass : Pass J} {rest : List (Pass J)} {w w₁ : World (Job β S)} {preserved : Preserved}
      {status : Status}
      (hfirst : tier.stage pass.name (tier.runPass adapt pass) w = .ok preserved w₁)
      (h : Reports rest w₁ status) :
      Reports (pass :: rest) w status

end Tier

/-! ## Sparing results -/

namespace Manager

variable {S : Type} {m m' m'' : Manager S} {spared spared' : UnitId → Prop}

/-- What is registered stays so, and what is cached for some of the units stays. -/
structure Spares (m : Manager S) (spared : UnitId → Prop) (m' : Manager S) : Prop where
  registered : ∀ key, m.isRegistered key = true → m'.isRegistered key = true
  kept : ∀ id, spared id → ∀ key r, m.results.find? (id, key) = some r →
    m'.results.find? (id, key) = some r

namespace Spares

theorem refl : m.Spares spared m := ⟨fun _ h ↦ h, fun _ _ _ _ h ↦ h⟩

theorem trans (h : m.Spares spared m') (h' : m'.Spares spared m'') : m.Spares spared m'' where
  registered key hkey := h'.registered key (h.registered key hkey)
  kept id hid key r hr := h'.kept id hid key r (h.kept id hid key r hr)

theorem mono (h : m.Spares spared m') (hspared : ∀ id, spared' id → spared id) :
    m.Spares spared' m' where
  registered := h.registered
  kept id hid := h.kept id (hspared id hid)

theorem setAttached (inner : S) : m.Spares spared (m.setAttached inner) where
  registered key hkey := by rwa [isRegistered_setAttached]
  kept _ _ _ _ hr := hr

end Spares

theorem Grown.spares {new : Computed} (h : m.Grown new m') : m.Spares spared m' where
  registered key hkey := (isRegistered_congr h.profile_eq key).trans hkey
  kept _ _ _ _ hr := h.find?_of_find? hr

theorem Dropped.spares {id : UnitId} {lost : Key → Bool} (h : m.Dropped id lost m') :
    m.Spares (· ≠ id) m' where
  registered key hkey := (isRegistered_congr h.profile_eq key).trans hkey
  kept id' hid key r hr := by rw [h.find?_eq, if_neg fun hlost ↦ hid hlost.1, hr]

end Manager

namespace Tier

variable {β I S J : Type} [Owner S] {tier : Tier β I S} {adapt : J → Exec (Job β S) Preserved}

/-! ## One pass -/

/-- The unit is still the one it was, and all results that were cached are. -/
def Idles (w w' : World (Job β S)) : Prop :=
  w'.focus.unit = w.focus.unit ∧ w.focus.manager.Spares (fun _ ↦ True) w'.focus.manager

theorem ensures_answerEdit_idles (q : Edit β I) (w : World (Job β S)) :
    (tier.answerEdit q).Ensures w (fun _ w' ↦ Idles w w') fun _ _ ↦ True := by
  cases q with
  | inquire q =>
    apply (ensures_onManager (tier.answer tier.fetch q)).2
    refine Ensures.relax (adds_answer adds_fetch q ⟨w.shared, w.focus.manager⟩) ?_
    intro _ w' hgrown
    exact ⟨rfl, hgrown.spares⟩
  | register key entry context =>
    apply (ensures_onManager (tier.access.boundaryRegister key entry context)).2
    refine (Access.ensures_boundaryRegister key entry context).relax ?_
    rintro registered w' ⟨k, -, ⟨-, hentered⟩, -⟩
    refine ⟨rfl, ?_⟩
    change w.focus.manager.Spares _ w'.focus
    rw [hentered]
    cases registered with
    | false => exact .refl
    | true =>
      refine ⟨fun key' hkey' ↦ ?_, fun _ _ _ _ hr ↦ hr⟩
      change Manager.isRegistered { w.focus.manager with
        analyses := w.focus.manager.analyses.insert k _ } key' = true
      rw [Manager.isRegistered_insert, hkey', Bool.or_true]
  | freshUnit => exact ⟨rfl, .refl⟩

theorem ensures_run_idles {α : Type} (p : Edition β I α) (w : World (Job β S)) :
    Exec.Ensures (p.run tier.answerEdit) w (fun _ w' ↦ Idles w w') fun _ _ ↦ True :=
  Program.ensures_run_of_step (fun _ ↦ ⟨rfl, .refl⟩)
    (fun _ _ _ h h' ↦ ⟨h'.1.trans h.1, h.2.trans h'.2⟩) ensures_answerEdit_idles p w

/-- While a foreign pass runs no result is lost, and its unit keeps its identifier. -/
theorem ensures_invoke_spares (entry : Entry) (context : Opaque String) (w : World (Job β S)) :
    (tier.invoke entry context).Ensures w
      (fun _ w' ↦ w'.focus.unit.id = w.focus.unit.id ∧
        w.focus.manager.Spares (fun _ ↦ True) w'.focus.manager) fun _ _ ↦ True := by
  rw [ensures_invoke]
  refine (ensures_run_idles _ w).relax ?_
  rintro _ w' ⟨hunit, hspares⟩
  have hid : w'.focus.unit.id = w.focus.unit.id := by rw [hunit]
  exact ⟨hid, hspares⟩

omit [Owner S] in
theorem ensures_invalidateUnit_spares (preserved : Preserved) (w : World (Job β S)) :
    (tier.invalidateUnit preserved).Ensures w
      (fun _ w' ↦ w'.focus.unit = w.focus.unit ∧
        w.focus.manager.Spares (· ≠ w.focus.unit.id) w'.focus.manager) fun _ _ ↦ True := by
  rw [ensures_invalidateUnit]
  refine (ensures_invalidate_dropped w.focus.unit preserved _).relax ?_
  intro _ w' hdropped
  exact ⟨rfl, hdropped.spares⟩

/-! ## A run of passes -/

/-- Passes that ran over one unit, and may have reported that nothing is preserved. -/
structure Ran (reported : Prop) (w : World (Job β S)) (preserved : Preserved)
    (w' : World (Job β S)) : Prop where
  id_eq : w'.focus.unit.id = w.focus.unit.id
  others : w.focus.manager.Spares (· ≠ w.focus.unit.id) w'.focus.manager
  outcome : preserved = .ofStatus .nonePreserved ∧ reported ∨
    preserved = .ofStatus .allPreserved ∧ ¬reported ∧
      w.focus.manager.Spares (fun _ ↦ True) w'.focus.manager

omit [Owner S] in
theorem ensures_invalidateUnit_all {w : World (Job β S)} {post : World (Job β S) → Prop}
    (h : post w) :
    (tier.invalidateUnit .all).Ensures w (fun _ w' ↦ post w') fun _ _ ↦ True := by
  rw [ensures_invalidateUnit]
  exact h

theorem Reports.of_singleton {pass : Pass J} {w : World (Job β S)} {status : Status}
    (h : tier.Reports adapt [pass] w status) (rest : List (Pass J)) :
    tier.Reports adapt (pass :: rest) w status := by
  cases h with
  | first h => exact .first h
  | within h => exact .within h
  | later _ h => nomatch h

theorem Reports.cons_inv {pass : Pass J} {rest : List (Pass J)} {w : World (Job β S)}
    {status : Status} (h : tier.Reports adapt (pass :: rest) w status) :
    tier.Reports adapt [pass] w status ∨ ∃ preserved w₁,
      tier.stage pass.name (tier.runPass adapt pass) w = .ok preserved w₁ ∧
        tier.Reports adapt rest w₁ status := by
  cases h with
  | first h => exact .inl (.first h)
  | within h => exact .inl (.within h)
  | later hfirst h => exact .inr ⟨_, _, hfirst, h⟩

omit [Owner S] in
/-- Two runs, one after the other. -/
theorem Ran.trans {reported reported' both : Prop} {w w₁ w₂ : World (Job β S)}
    {preserved preserved' : Preserved} (h : Ran reported w preserved w₁)
    (h' : Ran reported' w₁ preserved' w₂) (hboth : both ↔ reported ∨ reported') :
    Ran both w (preserved.inter preserved') w₂ where
  id_eq := h'.id_eq.trans h.id_eq
  others := h.others.trans (by rw [← h.id_eq]; exact h'.others)
  outcome := by
    rcases h.outcome with ⟨rfl, hreported⟩ | ⟨rfl, hnot, hspares⟩
    · left
      refine ⟨?_, hboth.2 (.inl hreported)⟩
      rcases h'.outcome with ⟨rfl, -⟩ | ⟨rfl, -⟩ <;> rfl
    · rcases h'.outcome with ⟨rfl, hreported'⟩ | ⟨rfl, hnot', hspares'⟩
      · exact .inl ⟨rfl, hboth.2 (.inr hreported')⟩
      · right
        refine ⟨rfl, fun hb ↦ ?_, hspares.trans hspares'⟩
        exact (hboth.1 hb).elim hnot hnot'

omit [Owner S] in
/-- What was reported is invalidated. -/
theorem Ran.invalidated {reported : Prop} {w w₁ : World (Job β S)} {preserved : Preserved}
    (h : Ran reported w preserved w₁) :
    (tier.invalidateUnit preserved).Ensures w₁ (fun _ w₂ ↦ Ran reported w preserved w₂)
      fun _ _ ↦ True := by
  obtain ⟨hid, hothers, ⟨rfl, hreported⟩ | ⟨rfl, hnot, hspares⟩⟩ := h
  · refine (ensures_invalidateUnit_spares .none w₁).relax ?_
    rintro _ w₂ ⟨hunit, hspares⟩
    rw [hid] at hspares
    exact ⟨by rw [hunit, hid], hothers.trans hspares, .inl ⟨rfl, hreported⟩⟩
  · exact ensures_invalidateUnit_all ⟨hid, hothers, .inr ⟨rfl, hnot, hspares⟩⟩

theorem ran_foreign (name : String) (entry : Entry) (context : Opaque String)
    (w : World (Job β S)) :
    (tier.stage name (tier.runPass adapt (.foreign name entry context))).Ensures w
      (Ran (tier.Reports adapt [.foreign name entry context] w .nonePreserved) w)
      fun _ _ ↦ True := by
  rw [ensures_stage, ensures_runPass_foreign]
  refine Ensures.relax ((ensures_invoke_spares entry context (announced name w)).and
    (Ensures.trivial _ _)) ?_
  rintro status w₁ ⟨⟨hid, hspares⟩, hok⟩
  refine Ran.invalidated ⟨hid, hspares.mono fun _ _ ↦ trivial, ?_⟩
  cases status with
  | nonePreserved => exact .inl ⟨rfl, .first hok⟩
  | allPreserved =>
    refine .inr ⟨rfl, fun hreports ↦ ?_, hspares⟩
    cases hreports with
    | first h =>
      rw [hok] at h
      cases h
    | later _ h => cases h

mutual

theorem ran_stage (pass : Pass J) (hpass : pass.IsForeign) (w : World (Job β S)) :
    (tier.stage pass.name (tier.runPass adapt pass)).Ensures w
      (Ran (tier.Reports adapt [pass] w .nonePreserved) w) fun _ _ ↦ True := by
  cases pass with
  | foreign name entry context => exact ran_foreign name entry context w
  | native name entry => exact hpass.elim
  | perFunction j => exact hpass.elim
  | group passes =>
    rw [ensures_stage, runPass]
    refine Ensures.relax (ran_runAll passes hpass (announced (Pass.group passes).name w)) ?_
    intro preserved w₁ hran
    have hreports : tier.Reports adapt [.group passes] w .nonePreserved ↔
        tier.Reports adapt passes (announced (Pass.group passes).name w) .nonePreserved := by
      refine ⟨fun h ↦ ?_, .within⟩
      cases h with
      | within h => exact h
      | later _ h => nomatch h
    rw [hreports]
    exact Ran.invalidated (w := w) ⟨hran.id_eq, hran.others, hran.outcome⟩

theorem ran_runAll (passes : List (Pass J)) (hpasses : Pass.AreForeign passes)
    (w : World (Job β S)) :
    (tier.runAll adapt passes).Ensures w
      (Ran (tier.Reports adapt passes w .nonePreserved) w) fun _ _ ↦ True := by
  cases passes with
  | nil =>
    have hnone : ¬tier.Reports adapt [] w .nonePreserved := fun h ↦ nomatch h
    exact ⟨rfl, .refl, .inr ⟨rfl, hnone, .refl⟩⟩
  | cons pass rest =>
    rw [runAll, ensures_bind]
    refine ((ran_stage pass hpasses.1 w).and (Ensures.trivial _ _)).relax ?_
    rintro preserved w₁ ⟨hran, hok⟩
    rw [ensures_bind]
    refine (ran_runAll rest hpasses.2 w₁).relax ?_
    intro preserved' w₂ hran'
    refine hran.trans hran' ⟨fun h ↦ ?_, fun h ↦ ?_⟩
    · rcases h.cons_inv with h | ⟨other, w₁', hok', h⟩
      · exact .inl h
      · rw [hok] at hok'
        cases hok'
        exact .inr h
    · rcases h with h | h
      · exact h.of_singleton rest
      · exact .later hok h

end

end Tier

end ForeignPasses
