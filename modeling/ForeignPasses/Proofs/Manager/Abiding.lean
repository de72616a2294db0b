import ForeignPasses.Proofs.Separation.Reach

/-!
# Relations that actions keep to

A relation holds between the world that an action starts in and every world that it may end in. If
the steps of requests keep to it, then so does whatever asks for results, however deep requests
nest; if dropping a result does, then so do invalidations; and if each pass does, then so do runs.
-/

namespace ForeignPasses

namespace Exec

variable {σ τ α β : Type}

/-- What an action keeps: wherever it starts from it ends, and one such action may follow another. -/
structure Onward (R : World σ → World σ → Prop) : Prop where
  right : ∀ {w w'}, R w w' → R w' w'
  trans : ∀ {w w' w''}, R w w' → R w' w'' → R w w''

/-- However the action ends, it ends in a world that the first one is related to. -/
def Respects (R : World σ → World σ → Prop) (act : Exec σ α) : Prop :=
  ∀ w, R w w → act.Ensures w (fun _ w' ↦ R w w') fun _ w' ↦ R w w'

namespace Respects

variable {R : World σ → World σ → Prop}

/-- An action that changes nothing, however it ends. -/
theorem of_same {act : Exec σ α}
    (h : ∀ w, act.Ensures w (fun _ w' ↦ w' = w) fun _ w' ↦ w' = w) : act.Respects R := by
  intro w hw
  refine (h w).mono ?_ ?_
  · rintro a _ rfl
    exact hw
  · rintro e _ rfl
    exact hw

theorem pure (a : α) : (Pure.pure a : Exec σ α).Respects R := fun _ hw ↦ hw

theorem throw (e : Halt) : (throw e : Exec σ α).Respects R := fun _ hw ↦ hw

theorem focus : (Exec.focus : Exec σ σ).Respects R := fun _ hw ↦ hw

theorem bind (hR : Onward R) {act : Exec σ β} {f : β → Exec σ α} (hact : act.Respects R)
    (hf : ∀ b, (f b).Respects R) : (act >>= f).Respects R := by
  intro w hw
  rw [ensures_bind]
  refine (hact w hw).mono ?_ fun _ _ h ↦ h
  intro b w₁ hw₁
  exact (hf b w₁ (hR.right hw₁)).mono (fun _ _ h ↦ hR.trans hw₁ h) fun _ _ h ↦ hR.trans hw₁ h

theorem map {act : Exec σ β} (hact : act.Respects R) (f : β → α) : (f <$> act).Respects R :=
  fun w hw ↦ (ensures_map act f).2 (hact w hw)

theorem boundary {act : Exec σ α} (hact : act.Respects R) : (boundary act).Respects R :=
  fun w hw ↦ (ensures_boundary act).2 ((hact w hw).mono (fun _ _ h ↦ h) fun _ _ h ↦ h)

theorem run (hR : Onward R) {Q : Type} {A : Q → Type} {answer : (q : Q) → Exec σ (A q)}
    {ok : Q → Prop} (hanswer : ∀ q, ok q → (answer q).Respects R) {p : Program Q A α}
    (hp : p.AsksOnly ok) : Respects R (p.run answer) := by
  intro w hw
  refine Program.ensures_run_of_asksOnly (fun q w₁ hw₁ hq ↦ ?_) hp hw
  exact (hanswer q hq w₁ (hR.right hw₁)).mono (fun _ _ h ↦ hR.trans hw₁ h)
    fun _ _ h ↦ hR.trans hw₁ h

/-- Any program may run if all questions are answered well. -/
theorem answered {Q : Type} {A : Q → Type} (hR : Onward R) {answer : (q : Q) → Exec σ (A q)}
    (hanswer : ∀ q, (answer q).Respects R) (p : Program Q A α) : Respects R (p.run answer) :=
  .run hR (fun q _ ↦ hanswer q) (Program.asksOnly_of_forall (fun _ ↦ trivial) p)

end Respects

end Exec

open Exec

/-! ## Looking at what is there -/

section Looking

variable {σ α : Type} {R : World σ → World σ → Prop}

theorem Flavour.respects_expect (f : Flavour) (r : Result) :
    (f.expect r : Exec σ f.Answer).Respects R :=
  .of_same fun _ ↦ (Access.ensures_expect f r).mono (fun _ _ h ↦ h.2) fun _ _ h ↦ h

theorem Flavour.respects_resolve (f : Flavour) (kind : Kind) :
    (f.resolve kind : Exec σ Key).Respects R := by
  cases f with
  | foreign =>
    refine .of_same fun w ↦ (ensures_identity kind).2 ?_
    cases (w.shared.slot kind).current <;> rfl
  | native index => exact .pure _
  | attached => exact .pure _

namespace Access

variable {β S Q : Type} {A : Q → Type} {access : Access σ β S Q A}

theorem respects_cachedAt (f : Flavour) (key : Key) (u : CodeUnit β) :
    (access.cachedAt f key u).Respects R :=
  .of_same fun _ ↦ (ensures_cachedAt f key u).mono (fun _ _ h ↦ h.1) fun _ _ h ↦ h

/-- What is done only if a key is registered. -/
theorem respects_registered (key : Key) (error : BoundaryError) {act : Exec σ α}
    (hact : act.Respects R) :
    Respects R (do
      unless (← access.held).isRegistered key do fatal error
      act) := by
  intro w hw
  simp only [ensures_bind, ensures_held]
  cases (access.manager w.focus).isRegistered key with
  | true => exact hact w hw
  | false => exact hw

end Access

end Looking

namespace Tier

/-! ## Requests -/

section Requests

variable {β I S α : Type} {tier : Tier β I S} {R : World (Manager S) → World (Manager S) → Prop}
  {reach : Reach β I}

/-- An analysis that asks about what is within reach alone. -/
theorem respects_compute (hR : Onward R)
    (hadopt : ∀ value : Handed Int, (adopt value : Exec (Manager S) (Opaque Int)).Respects R)
    {answer : (q : Inquiry β I) → Exec (Manager S) q.Answer}
    (hanswer : ∀ q, reach.Has q → (answer q).Respects R) {u : CodeUnit β} (hu : reach.unit u)
    {analysis : Analysis S} (hconfined : reach.Confines tier.behaviour.toComputations analysis) :
    (tier.access.compute answer u analysis).Respects R := by
  cases analysis with
  | foreign entry context =>
    refine (Respects.run hR hanswer (hconfined u hu)).boundary.bind hR fun value ↦ ?_
    exact (hadopt value).bind hR fun _ ↦ .pure _
  | native entry => exact (Respects.run hR hanswer (hconfined u hu)).bind hR fun _ ↦ .pure _
  | attached inner => exact .pure _

/-- The answers to the questions of an analysis, where requests may nest so many times more. -/
def answersWithin (tier : Tier β I S) : Nat → (q : Inquiry β I) → Exec (Manager S) q.Answer
  | 0 => tier.answer fun _ _ ↦ throw .exhausted
  | depth + 1 => tier.answer (tier.fetchWithin depth)

theorem fetchWithin_eq (tier : Tier β I S) (depth : Nat) :
    tier.fetchWithin depth = tier.access.request (tier.answersWithin depth) := by
  cases depth <;> rfl

/-- About what is within reach, one request keeps to a relation if the answers that its analysis gets
do, and so does what is done on the attached manager. -/
structure Abides (tier : Tier β I S) (R : World (Manager S) → World (Manager S) → Prop)
    (reach : Reach β I) : Prop where
  onward : Onward R
  emit : ∀ event, (emit event : Exec (Manager S) Unit).Respects R
  withKey : ∀ {α : Type} {act : Exec (Manager S) α}, act.Respects R → ∀ key,
    (withKey tier.kind key act).Respects R
  onAttached : ∀ program, reach.program program → (onAttached (tier.within program)).Respects R
  requestAt : ∀ depth, (∀ q, reach.Has q → (tier.answersWithin depth q).Respects R) →
    ∀ f key u, reach.unit u → (tier.access.requestAt (tier.answersWithin depth) f key u).Respects R

namespace Abides

variable (h : tier.Abides R reach)

include h

theorem cached (f : Flavour) (u : CodeUnit β) : (tier.access.cached f u).Respects R :=
  (f.respects_resolve tier.kind).bind h.onward fun key ↦ Access.respects_cachedAt f key u

theorem foreignCached (u : CodeUnit β) (key : Key) :
    (tier.access.foreignCached u key).Respects R :=
  h.withKey (h.cached .foreign u) key

theorem boundaryCached (u : CodeUnit β) (key : Option Key) :
    (tier.access.boundaryCached u key).Respects R := by
  cases key with
  | none => exact .throw _
  | some key => exact (h.foreignCached u key).boundary

section Answers

variable {fetch : Fetch (Manager S) β} (hfetch : ∀ f u, reach.unit u → (fetch f u).Respects R)

include hfetch

theorem foreignResult {u : CodeUnit β} (hu : reach.unit u) (key : Key) :
    (tier.access.foreignResult fetch u key).Respects R :=
  h.withKey (hfetch .foreign u hu) key

theorem boundaryResult {u : CodeUnit β} (hu : reach.unit u) (key : Option Key) :
    (tier.access.boundaryResult fetch u key).Respects R := by
  cases key with
  | none => exact .throw _
  | some key => exact (Access.respects_registered key _ (h.foreignResult hfetch hu key)).boundary

omit h in
theorem boundaryAttached {u : CodeUnit β} (hu : reach.unit u) :
    (tier.access.boundaryAttached fetch u).Respects R :=
  (Access.respects_registered .proxy _ (hfetch .attached u hu)).boundary

theorem answer (q : Inquiry β I) (hq : reach.Has q) : (tier.answer fetch q).Respects R := by
  cases q with
  | say text => exact h.emit (.note text)
  | identities => exact fun _ hw ↦ hw
  | result u key => exact (h.boundaryResult hfetch hq key).map Opaque.content?
  | cached u key => exact (h.boundaryCached u key).map fun value ↦ value.bind Opaque.content?
  | native u index => exact hfetch (.native index) u hq
  | within u program =>
    exact (boundaryAttached hfetch hq.1).bind h.onward fun _ ↦ h.onAttached program hq.2

end Answers

theorem request {depth : Nat}
    (hanswer : ∀ q, reach.Has q → (tier.answersWithin depth q).Respects R) (f : Flavour)
    {u : CodeUnit β} (hu : reach.unit u) : (tier.fetchWithin depth f u).Respects R := by
  rw [fetchWithin_eq]
  exact (f.respects_resolve tier.kind).bind h.onward fun key ↦
    h.requestAt depth hanswer f key u hu

theorem answersWithin (depth : Nat) (q : Inquiry β I) (hq : reach.Has q) :
    (tier.answersWithin depth q).Respects R := by
  induction depth generalizing q with
  | zero => exact h.answer (fun _ _ _ ↦ .throw _) q hq
  | succ depth ih => exact h.answer (fun f _ hu ↦ h.request ih f hu) q hq

theorem fetchWithin (depth : Nat) (f : Flavour) {u : CodeUnit β} (hu : reach.unit u) :
    (tier.fetchWithin depth f u).Respects R :=
  h.request (h.answersWithin depth) f hu

theorem fetch (f : Flavour) {u : CodeUnit β} (hu : reach.unit u) : (tier.fetch f u).Respects R :=
  fun w hw ↦ h.fetchWithin w.focus.idle f hu w hw

/-- Code that asks about what is within reach. -/
theorem run {p : Program (Inquiry β I) Inquiry.Answer α} (hp : p.AsksOnly reach.Has) :
    Respects R (p.run (tier.answer tier.fetch)) :=
  .run h.onward (h.answer fun f _ hu ↦ h.fetch f hu) hp

end Abides

end Requests

/-! ## Invalidation -/

section Invalidation

variable {β I S : Type} {tier : Tier β I S} {R : World (Manager S) → World (Manager S) → Prop}
  {u : CodeUnit β} {preserved : Preserved}

theorem respects_notify (hR : Onward R)
    (hemit : ∀ event, (emit event : Exec (Manager S) Unit).Respects R)
    (hattached : (onAttached (tier.invalidateWithin u preserved)).Respects R) (key : Key)
    (analysis : Analysis S) : (tier.notify u preserved key analysis).Respects R := by
  cases analysis with
  | foreign entry context => exact hemit _
  | native entry => exact hemit _
  | attached inner => exact (hemit _).bind hR fun _ ↦ hattached

theorem respects_invalidateEach (hR : Onward R)
    (hforget : ∀ key, (forget u key : Exec (Manager S) Unit).Respects R)
    (hnotify : ∀ key analysis, (tier.notify u preserved key analysis).Respects R)
    (entries : List (Key × Registered S)) :
    (tier.invalidateEach u preserved entries).Respects R := by
  induction entries with
  | nil => exact .pure ()
  | cons entry rest ih =>
    obtain ⟨key, registered⟩ := entry
    rw [invalidateEach]
    cases preserved.contains key with
    | true => exact ih
    | false =>
      exact (hforget key).bind hR fun _ ↦ (hnotify key registered.analysis).bind hR fun _ ↦ ih

theorem respects_invalidate (hR : Onward R)
    (hforget : ∀ key, (forget u key : Exec (Manager S) Unit).Respects R)
    (hnotify : ∀ key analysis, (tier.notify u preserved key analysis).Respects R) :
    (tier.invalidate u preserved).Respects R := by
  intro w hw
  apply ensures_invalidate_of
  case hall => exact fun _ ↦ hw
  case honly => exact fun _ ↦ respects_invalidateEach hR hforget hnotify _ w hw

end Invalidation

/-! ## Runs of passes -/

section Passes

variable {β I S J : Type} [Owner S]

/-- Each pass of a run keeps to a relation, if its code is as `leaf` says and what an adapter holds
as `inner` says, and so does what happens between passes. -/
structure Paced (tier : Tier β I S) (R : World (Job β S) → World (Job β S) → Prop)
    (adapt : J → Exec (Job β S) Preserved)
    (leaf : (CodeUnit β → Edition β I (β × Preserved)) → Prop) (inner : J → Prop) : Prop where
  onward : Onward R
  trace : ∀ message, (trace message : Exec (Job β S) Unit).Respects R
  invalidateUnit : ∀ preserved, (tier.invalidateUnit preserved : Exec (Job β S) Unit).Respects R
  invoke : ∀ entry (context : Opaque String),
    leaf (fun u ↦ (fun r ↦ (r.1, .ofStatus r.2)) <$> tier.behaviour.pass entry context.content? u) →
      (tier.invoke entry context).Respects R
  invokeNative : ∀ entry, leaf (tier.behaviour.nativePass entry) →
    (tier.invokeNative entry).Respects R
  adapts : ∀ j, inner j → (adapt j).Respects R

namespace Paced

variable {tier : Tier β I S} {R : World (Job β S) → World (Job β S) → Prop}
  {adapt : J → Exec (Job β S) Preserved}
  {leaf : (CodeUnit β → Edition β I (β × Preserved)) → Prop} {inner : J → Prop}

theorem stage (h : tier.Paced R adapt leaf inner) (name : String)
    {pass : Exec (Job β S) Preserved} (hpass : pass.Respects R) :
    (tier.stage name pass).Respects R := by
  refine Respects.focus.bind h.onward fun job ↦ ?_
  refine (h.trace _).bind h.onward fun _ ↦ ?_
  refine hpass.bind h.onward fun preserved ↦ ?_
  exact (h.invalidateUnit preserved).bind h.onward fun _ ↦ .pure preserved

mutual

theorem runPass (h : tier.Paced R adapt leaf inner) (pass : Pass J)
    (hpass : pass.Every tier.behaviour leaf inner) : (tier.runPass adapt pass).Respects R := by
  cases pass with
  | foreign name entry context =>
    refine (h.invoke entry context hpass).bind h.onward fun status ↦ ?_
    exact (h.trace _).bind h.onward fun _ ↦ .pure _
  | native name entry => exact h.invokeNative entry hpass
  | group passes => exact h.runAll passes hpass
  | perFunction j => exact h.adapts j hpass

/-- Passes that run one after the other, however they nest. -/
theorem runAll (h : tier.Paced R adapt leaf inner) (passes : List (Pass J))
    (hpasses : Pass.EveryOf tier.behaviour leaf inner passes) :
    (tier.runAll adapt passes).Respects R := by
  cases passes with
  | nil => exact .pure _
  | cons pass rest =>
    rw [Tier.runAll]
    refine (h.stage pass.name (h.runPass pass hpasses.1)).bind h.onward fun preserved ↦ ?_
    exact (h.runAll rest hpasses.2).map fun others ↦ preserved.inter others

end

end Paced

end Passes

end Tier

end ForeignPasses
