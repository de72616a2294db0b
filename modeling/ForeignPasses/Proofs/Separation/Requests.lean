import ForeignPasses.Proofs.Manager.Abiding
import ForeignPasses.Proofs.Separation.Alike

/-!
# Requests leave the rest alone

A request about a unit within reach changes nothing that can be seen from elsewhere, however it
ends: results come in within reach alone, analyses are at rest again and scopes are closed.
-/

namespace ForeignPasses

namespace Exec

variable {σ α : Type}

/-- A later world that matches. -/
structure Later (like : σ → σ → Prop) (w w' : World σ) : Prop extends Matching like w w' where
  next_le : w.shared.nextUnit ≤ w'.shared.nextUnit

namespace Later

variable {like : σ → σ → Prop} {w w' : World σ}

theorem refl (hw : like w.focus w.focus) : Later like w w := ⟨⟨hw, rfl⟩, Nat.le_refl _⟩

theorem emitted (hw : like w.focus w.focus) (events : List Event) :
    Later like w { w with shared := { w.shared with events := w.shared.events ++ events } } where
  focus := hw
  slot_eq := Shared.slot_congr rfl rfl
  next_le := Nat.le_refl _

theorem onward (hsymm : ∀ {s s'}, like s s' → like s' s)
    (htrans : ∀ {s s' s''}, like s s' → like s' s'' → like s s'') : Onward (Later like) where
  right h := .refl (htrans (hsymm h.focus) h.focus)
  trans h h' :=
    ⟨⟨htrans h.focus h'.focus, h'.slot_eq.trans h.slot_eq⟩, Nat.le_trans h.next_le h'.next_le⟩

theorem respects_adopt {α : Type} (value : Handed α) :
    (adopt value : Exec σ (Opaque α)).Respects (Later like) :=
  fun _ hw ↦ ⟨⟨hw.focus, Shared.slot_congr rfl rfl⟩, Nat.le_refl _⟩

theorem slot_inScope_of_ne {kind other : Kind} (h : other ≠ kind) (key : Key) :
    (Access.inScope kind key w).shared.slot other = w.shared.slot other := by
  cases kind <;> cases other <;> first | rfl | exact absurd rfl h

/-- When a scope is closed, the identities are current that were before it was opened. -/
theorem slot_closed {kind : Kind} {key : Key}
    (h : w'.shared.slot = (Access.inScope kind key w).shared.slot) :
    (Access.closed kind w w').shared.slot = w.shared.slot := by
  funext other
  by_cases hother : other = kind
  · subst hother
    exact w'.shared.slot_setSlot other _
  · calc (Access.closed kind w w').shared.slot other = w'.shared.slot other :=
        w'.shared.slot_setSlot_of_ne _ hother
      _ = (Access.inScope kind key w).shared.slot other := congrFun h other
      _ = w.shared.slot other := slot_inScope_of_ne hother key

theorem withKey {act : Exec σ α} (hact : act.Respects (Later like)) (kind : Kind) (key : Key) :
    (withKey kind key act).Respects (Later like) := by
  intro w hw
  have hclosed {w' : World σ} (h : Later like (Access.inScope kind key w) w') :
      Later like w (Access.closed kind w w') :=
    ⟨⟨h.focus, slot_closed h.slot_eq⟩, by
      rw [Access.nextUnit_closed, ← Access.nextUnit_inScope kind key]
      exact h.next_le⟩
  apply Access.ensures_inScope
  exact (hact (Access.inScope kind key w) (.refl hw.focus)).mono (fun _ _ h ↦ hclosed h)
    fun _ _ h ↦ hclosed h

end Later

end Exec

open Exec

namespace Tier

variable {β I S V α : Type} {tier : Tier β I S} {l : Likeness S V} {reach : Reach β I}

/-- Nothing within reach can be seen from elsewhere, analyses are confined, and code for the attached
manager leaves the rest of that alone. -/
structure Fenced (tier : Tier β I S) (l : Likeness S V) (reach : Reach β I) : Prop where
  apart : ∀ u, reach.unit u → ¬l.place u.id
  confines : ∀ analysis, l.good analysis →
    reach.Confines tier.behaviour.toComputations analysis
  within : ∀ program, reach.program program → (tier.within program).Respects (Later l.inner)
  invalidateWithin : ∀ u preserved, reach.unit u →
    (tier.invalidateWithin u preserved).Respects (Later l.inner)

theorem Fenced.confined (h : tier.Fenced l reach) {analysis : Analysis S}
    (hgood : analysis.Alike l analysis) :
    reach.Confines tier.behaviour.toComputations analysis := by
  cases hgood with
  | foreign hgood => exact h.confines _ hgood
  | native hgood => exact h.confines _ hgood
  | attached _ => trivial

theorem onward_alike : Onward (Later (Manager.Alike l)) := Later.onward .symm .trans

theorem respects_onAttached {act : Exec S α} (hact : act.Respects (Later l.inner)) :
    (onAttached act).Respects (Later (Manager.Alike l)) := by
  intro w hw
  apply ensures_onAttached_of
  case hnone => exact fun _ ↦ hw
  case hsome =>
    intro inner hattached
    have hinner := hw.focus.inner_self hattached
    have hput {w' : World S} (h : Later l.inner ⟨w.shared, inner⟩ w') :
        Later (Manager.Alike l) w ⟨w'.shared, w.focus.setAttached w'.focus⟩ :=
      ⟨⟨hw.focus.setAttached_right hattached h.focus, h.slot_eq⟩, h.next_le⟩
    exact (hact _ (.refl hinner)).mono (fun _ _ h ↦ hput h) fun _ _ h ↦ hput h

/-! ## Requests -/

section Requests

variable (h : tier.Fenced l reach) {answer : (q : Inquiry β I) → Exec (Manager S) q.Answer}
  (hanswer : ∀ q, reach.Has q → (answer q).Respects (Later (Manager.Alike l))) {u : CodeUnit β}
  (hu : reach.unit u)

include h hanswer hu

omit hanswer in
/-- A result within reach is kept, and handed out. -/
theorem respects_keep (f : Flavour) (key : Key) (r : Result) {w w₁ : World (Manager S)}
    (h₁ : Later (Manager.Alike l) w w₁) :
    (tier.access.keep u key r >>= fun _ ↦ f.expect r).Ensures w₁
      (fun _ w' ↦ Later (Manager.Alike l) w w') fun _ w' ↦ Later (Manager.Alike l) w w' := by
  simp only [ensures_bind, Access.ensures_keep]
  let m : Manager S := { w₁.focus with results := w₁.focus.results.insert (u.id, key) r }
  have hm : w.focus.Alike l m := h₁.focus.insert_right (h.apart u hu) key r
  have hkept : Later (Manager.Alike l) w ⟨w₁.shared, m⟩ := ⟨⟨hm, h₁.slot_eq⟩, h₁.next_le⟩
  have hdropped := onward_alike.trans hkept (.emitted hm.right
    ((releases (w₁.focus.results.find? (u.id, key))).map .released))
  exact (f.respects_expect r _ (.refl hm.right)).mono
    (fun _ _ h ↦ onward_alike.trans hdropped h) fun _ _ h ↦ onward_alike.trans hdropped h

theorem respects_requestAt (f : Flavour) (key : Key) :
    (tier.access.requestAt answer f key u).Respects (Later (Manager.Alike l)) := by
  intro w hw
  apply Access.ensures_requestAt_of
  case hfound =>
    intro r message _
    have htraced : Later (Manager.Alike l) w (Access.traced w message) := .emitted hw.focus _
    exact (f.respects_expect r (Access.traced w message) (.refl hw.focus)).mono
      (fun _ _ h ↦ onward_alike.trans htraced h) fun _ _ h ↦ onward_alike.trans htraced h
  case hunregistered => exact fun _ _ ↦ hw
  case hrunning => exact fun _ message _ _ ↦ .emitted hw.focus [.log .trace message]
  case hresting =>
    intro analysis message _ (hanalysis : w.focus.analyses.find? key = some ⟨analysis, false⟩)
    obtain ⟨analysis', hsame, hgood⟩ := hw.focus.exists_find? hanalysis
    obtain rfl : analysis = analysis' :=
      congrArg Registered.analysis (Option.some.inj (hanalysis.symm.trans hsame))
    have htraced : Later (Manager.Alike l) w (Access.traced w message) := .emitted hw.focus _
    have hstopped {w₁ : World (Manager S)} (h₁ : Later (Manager.Alike l)
        ⟨(Access.traced w message).shared, w.focus.setRunning key true⟩ w₁) :
        Later (Manager.Alike l) w ⟨w₁.shared, w₁.focus.setRunning key false⟩ :=
      ⟨⟨h₁.focus.setRunning_right hanalysis, h₁.slot_eq.trans htraced.slot_eq⟩,
        Nat.le_trans htraced.next_le h₁.next_le⟩
    have hcompute := respects_compute onward_alike Later.respects_adopt hanswer hu (h.confined hgood)
      ⟨(Access.traced w message).shared, w.focus.setRunning key true⟩
      (.refl (hw.focus.setRunning key true))
    refine Ensures.mono hcompute ?_ fun _ _ h₁ ↦ hstopped h₁
    intro r w₁ h₁
    exact respects_keep h hu f key r (hstopped h₁)

end Requests

/-- Whatever is asked about what is within reach, the rest is left alone. -/
theorem Fenced.abides (h : tier.Fenced l reach) :
    tier.Abides (Later (Manager.Alike l)) reach where
  onward := onward_alike
  emit event _ hw := .emitted hw.focus [event]
  withKey hact key := Later.withKey hact tier.kind key
  onAttached program hprogram := respects_onAttached (h.within program hprogram)
  requestAt _ hanswer f key _ hu := respects_requestAt h hanswer hu f key

/-! ## Invalidation -/

section Invalidation

variable (h : tier.Fenced l reach) {u : CodeUnit β} (hu : reach.unit u) (preserved : Preserved)

include h hu

theorem respects_forget (key : Key) :
    (forget u key : Exec (Manager S) Unit).Respects (Later (Manager.Alike l)) := by
  intro w hw
  rw [ensures_forget]
  let m : Manager S := { w.focus with results := w.focus.results.erase (u.id, key) }
  have hm : w.focus.Alike l m := hw.focus.erase_right (h.apart u hu) key
  have hforgotten : Later (Manager.Alike l) w ⟨w.shared, m⟩ := ⟨⟨hm, rfl⟩, Nat.le_refl _⟩
  exact onward_alike.trans hforgotten (.emitted hm.right
    ((releases (w.focus.results.find? (u.id, key))).map .released))

theorem Fenced.respects_invalidate :
    (tier.invalidate u preserved).Respects (Later (Manager.Alike l)) :=
  Tier.respects_invalidate onward_alike (respects_forget h hu) <|
    respects_notify onward_alike h.abides.emit <|
      respects_onAttached (h.invalidateWithin u preserved hu)

end Invalidation

end Tier

namespace Code

variable (code : Code) {V : Type} (view : Result → V) {own ids : UnitId → Prop}
  (hapart : ∀ id, ids id → ¬own id)

include hapart

theorem functionTier_fenced :
    code.functionTier.Fenced (code.functionLikeness view own ids) (Reach.function ids) where
  apart f hf := hapart f.id hf
  confines _ h := h.2
  within inner := inner.elim
  invalidateWithin _ _ _ := .pure ()

theorem respects_invalidateFunctions (preserved : Preserved) (fs : Functions)
    (hfs : ∀ f ∈ fs, ids f.id) :
    (invalidateFunctions code preserved fs).Respects
      (Later (Manager.Alike (code.functionLikeness view own ids))) := by
  induction fs with
  | nil => exact .pure ()
  | cons f rest ih =>
    obtain ⟨hf, hrest⟩ := List.forall_mem_cons.1 hfs
    exact ((code.functionTier_fenced view hapart).respects_invalidate hf preserved).bind
      Tier.onward_alike fun _ ↦ ih hrest

theorem moduleTier_fenced :
    code.moduleTier.Fenced (code.moduleLikeness view own ids) (Reach.module ids) where
  apart m hm := hapart m.id hm.1
  confines _ h := h.2
  within _ hprogram := (code.functionTier_fenced view hapart).abides.run hprogram
  invalidateWithin m preserved hm :=
    code.respects_invalidateFunctions view hapart preserved m.content hm.2

end Code

end ForeignPasses
