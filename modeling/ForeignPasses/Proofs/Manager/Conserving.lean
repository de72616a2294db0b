import ForeignPasses.Proofs.Manager.Abiding
import ForeignPasses.Proofs.Manager.Operations

/-!
# What asking for results conserves

A relation between managers, earlier and later. If one request keeps to it when the questions of its
analysis do, then so does everything that asks for results, however deep it nests and however it
ends. If dropping one result keeps to it, then so does every invalidation.
-/

namespace ForeignPasses

namespace Exec

variable {σ α β : Type}

/-- What is in focus is related, and nothing is said about what is shared. -/
def Focused (like : σ → σ → Prop) (w w' : World σ) : Prop := like w.focus w'.focus

namespace Respects

variable {like : σ → σ → Prop}

/-- An action that leaves what is in focus as it is, however it ends. -/
theorem of_still {act : Exec σ α}
    (h : ∀ w, act.Ensures w (fun _ w' ↦ w'.focus = w.focus) fun _ w' ↦ w'.focus = w.focus) :
    act.Respects (Focused like) := by
  intro w hw
  have hlike {w' : World σ} (hfocus : w'.focus = w.focus) : Focused like w w' := by
    rw [Focused, hfocus]
    exact hw
  exact (h w).mono (fun _ _ h ↦ hlike h) fun _ _ h ↦ hlike h

theorem withKey {act : Exec σ α} (hact : act.Respects (Focused like)) (kind : Kind) (key : Key) :
    (withKey kind key act).Respects (Focused like) := fun w hw ↦
  Access.ensures_inScope (hact (Access.inScope kind key w) hw)

end Respects

end Exec

/-- All is within reach. -/
def Reach.everything (β I : Type) : Reach β I := ⟨fun _ ↦ True, fun _ ↦ True⟩

theorem Reach.everything_has {β I : Type} (q : Inquiry β I) : (Reach.everything β I).Has q := by
  cases q <;> simp [Reach.Has, Reach.everything]

open Exec

namespace Tier

variable {β I S α : Type} {tier : Tier β I S} {like : Manager S → Manager S → Prop}

/-! ## Actions that leave the manager alone -/

theorem respects_emit (event : Event) :
    (emit event : Exec (Manager S) Unit).Respects (Focused like) :=
  .of_still fun _ ↦ rfl

theorem respects_adopted (value : Handed α) :
    (adopt value : Exec (Manager S) (Opaque α)).Respects (Focused like) :=
  .of_still fun _ ↦ rfl

/-! ## Requests -/

/-- Running an analysis does nothing but ask its questions. -/
theorem respects_computed (honward : Onward (Focused like))
    {answer : (q : Inquiry β I) → Exec (Manager S) q.Answer}
    (hanswer : ∀ q, (answer q).Respects (Focused like)) (u : CodeUnit β) (analysis : Analysis S) :
    (tier.access.compute answer u analysis).Respects (Focused like) := by
  have hasks {γ : Type} (p : Program (Inquiry β I) Inquiry.Answer γ) :
      p.AsksOnly (Reach.everything β I).Has :=
    Program.asksOnly_of_forall Reach.everything_has p
  have hconfined : (Reach.everything β I).Confines tier.behaviour.toComputations analysis := by
    cases analysis with
    | foreign entry context => exact fun _ _ ↦ hasks _
    | native entry => exact fun _ _ ↦ hasks _
    | attached inner => trivial
  have hunit : (Reach.everything β I).unit u := trivial
  exact respects_compute honward respects_adopted (fun q _ ↦ hanswer q) hunit hconfined

/-- A request keeps to the relation if the answers that its analysis gets do, and so does what is
done on the attached manager. -/
structure Conserves (tier : Tier β I S) (like : Manager S → Manager S → Prop) : Prop where
  onward : Onward (Focused like)
  onAttached : ∀ program, (onAttached (tier.within program)).Respects (Focused like)
  requestAt : ∀ depth, (∀ q, (tier.answersWithin depth q).Respects (Focused like)) →
    ∀ f key u, (tier.access.requestAt (tier.answersWithin depth) f key u).Respects (Focused like)

namespace Conserves

variable (h : tier.Conserves like)

include h

theorem abides : tier.Abides (Focused like) (.everything β I) where
  onward := h.onward
  emit := respects_emit
  withKey hact key := hact.withKey tier.kind key
  onAttached program _ := h.onAttached program
  requestAt depth hanswer f key u _ :=
    h.requestAt depth (fun q ↦ hanswer q (Reach.everything_has q)) f key u

theorem answer {fetch : Fetch (Manager S) β} (hfetch : ∀ f u, (fetch f u).Respects (Focused like))
    (q : Inquiry β I) : (tier.answer fetch q).Respects (Focused like) :=
  h.abides.answer (fun f u _ ↦ hfetch f u) q (Reach.everything_has q)

theorem answersWithin (depth : Nat) (q : Inquiry β I) :
    (tier.answersWithin depth q).Respects (Focused like) :=
  h.abides.answersWithin depth q (Reach.everything_has q)

theorem fetch (f : Flavour) (u : CodeUnit β) : (tier.fetch f u).Respects (Focused like) :=
  h.abides.fetch f trivial

theorem lookUp (l : Lookup) (u : CodeUnit β) : (tier.lookUp l u).Respects (Focused like) := by
  cases l with
  | foreign key => exact (h.abides.foreignResult (fun f u _ ↦ h.fetch f u) trivial key).map _
  | native index => exact (h.fetch (.native index) u).map _
  | attached => exact (h.fetch .attached u).map _

theorem lookUpCached (l : Lookup) (u : CodeUnit β) :
    (tier.lookUpCached l u).Respects (Focused like) := by
  cases l with
  | foreign key => exact (h.abides.foreignCached u key).map _
  | native index => exact (h.abides.cached (.native index) u).map _
  | attached => exact (h.abides.cached .attached u).map _

end Conserves

/-! ## Invalidation -/

/-- One result is dropped, or the attached manager drops some, and the relation holds between what
was there before and what is there then. -/
structure Drops (tier : Tier β I S) (like : Manager S → Manager S → Prop) : Prop where
  onward : Onward (Focused like)
  forget : ∀ (u : CodeUnit β) key, (forget u key : Exec (Manager S) Unit).Respects (Focused like)
  onAttached : ∀ u preserved,
    (onAttached (tier.invalidateWithin u preserved)).Respects (Focused like)

theorem Drops.invalidate (h : tier.Drops like) (u : CodeUnit β) (preserved : Preserved) :
    (tier.invalidate u preserved).Respects (Focused like) :=
  respects_invalidate h.onward (h.forget u) <|
    respects_notify h.onward respects_emit (h.onAttached u preserved)

end Tier

end ForeignPasses
