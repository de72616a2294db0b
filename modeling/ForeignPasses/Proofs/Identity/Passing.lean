import ForeignPasses.Proofs.Exec.Ensures
import ForeignPasses.Proofs.Identity.Calls

/-!
# Slots hold what was passed

However calls nest and whichever kinds they mix, what is found in the slots is the key that was
passed to the innermost call of that kind. So performing calls with slots is the same as handing
the identities down, and the slots are left as they were found, also by a panic.
-/

namespace ForeignPasses

open Exec Calls

/-! ## Worlds with other slots -/

namespace Shared

def identities (s : Shared) : Identities := fun kind ↦ (s.slot kind).current

def withIdentities (s : Shared) (ids : Identities) : Shared :=
  { s with moduleSlot := ⟨ids .module⟩, functionSlot := ⟨ids .function⟩ }

@[simp] theorem identities_withIdentities (s : Shared) (ids : Identities) :
    (s.withIdentities ids).identities = ids := by
  funext kind
  cases kind <;> rfl

@[simp] theorem withIdentities_identities (s : Shared) : s.withIdentities s.identities = s := rfl

theorem setSlot_withIdentities (s : Shared) (ids : Identities) (kind : Kind) (key : Option Key) :
    (s.withIdentities ids).setSlot kind ⟨key⟩ =
      s.withIdentities (Function.update ids kind key) := by
  cases kind <;> simp [setSlot, withIdentities, Function.update]

end Shared

namespace Calls

variable {σ α β : Type}

def withIdentities (ids : Identities) (w : World σ) : World σ :=
  { w with shared := w.shared.withIdentities ids }

/-- The same end in another world. -/
def endIn (f : World σ → World σ) :
    EStateM.Result Halt (World σ) α → EStateM.Result Halt (World σ) α
  | .ok a w => .ok a (f w)
  | .error e w => .error e (f w)

/-- With some identities in the slots, an action does what another one does whatever is in them,
and leaves them there. -/
def Follows (ids : Identities) (act act' : Exec σ α) : Prop :=
  ∀ w, act (withIdentities ids w) = endIn (withIdentities ids) (act' w)

/-- An action that never looks at the slots and never changes them. -/
def Blind (act : Exec σ α) : Prop := ∀ ids, Follows ids act act

variable {ids : Identities}

theorem Follows.bind {act act' : Exec σ β} {f f' : β → Exec σ α} (h : Follows ids act act')
    (hf : ∀ b, Follows ids (f b) (f' b)) : Follows ids (act >>= f) (act' >>= f') := by
  intro w
  change EStateM.bind act f _ = endIn _ (EStateM.bind act' f' w)
  rw [EStateM.bind, EStateM.bind, h w]
  cases act' w with
  | ok b w' => exact hf b w'
  | error e w' => rfl

theorem Follows.map {act act' : Exec σ β} (f : β → α) (h : Follows ids act act') :
    Follows ids (f <$> act) (f <$> act') := by
  intro w
  change EStateM.map f act _ = endIn _ (EStateM.map f act' w)
  rw [EStateM.map, EStateM.map, h w]
  cases act' w <;> rfl

theorem Follows.boundary {act act' : Exec σ α} (h : Follows ids act act') :
    Follows ids (boundary act) (boundary act') := by
  intro w
  rw [Exec.boundary, Exec.boundary, h w]
  cases act' w with
  | ok a w' => rfl
  | error e w' => cases e <;> rfl

theorem Follows.ensuring {act act' : Exec σ α} {after : World σ → World σ}
    (h : Follows ids act act')
    (hafter : ∀ w, after (withIdentities ids w) = withIdentities ids (after w)) :
    Follows ids (act.ensuring after) (act'.ensuring after) := by
  intro w
  rw [Exec.ensuring, Exec.ensuring, h w]
  cases act' w with
  | ok a w' => exact congrArg (EStateM.Result.ok a) (hafter w')
  | error e w' => exact congrArg (EStateM.Result.error e) (hafter w')

theorem Follows.run {Q : Type} {A : Q → Type} {answer answer' : (q : Q) → Exec σ (A q)}
    (h : ∀ q, Follows ids (answer q) (answer' q)) (p : Program Q A α) :
    Follows ids (p.run answer) (p.run answer') := by
  induction p with
  | done a => exact fun _ ↦ rfl
  | ask q next ih => exact (h q).bind ih

theorem blind_pure (a : α) : Blind (pure a : Exec σ α) := fun _ _ ↦ rfl

theorem blind_throw (e : Halt) : Blind (throw e : Exec σ α) := fun _ _ ↦ rfl

theorem blind_emitAll (events : List Event) : Blind (emitAll events : Exec σ Unit) :=
  fun _ _ ↦ rfl

theorem blind_adopt (value : Handed α) : Blind (adopt value : Exec σ (Opaque α)) :=
  fun _ _ ↦ rfl

/-- Inside of a scope the key of the scope is current; it is closed however the action ends. -/
theorem follows_withKey {kind : Kind} {key : Key} {act act' : Exec Heap α}
    (h : Follows (ids.enter kind key) act act') :
    Follows ids (withKey kind key act) (announced key act') := by
  intro w
  let inside : World Heap := { w with shared := { w.shared with
    events := w.shared.events ++ [.log .trace ("entering key scope for " ++ key.name)] } }
  have henter : withKey kind key act (withIdentities ids w) =
      act.ensuring (fun w' ↦ { w' with shared := w'.shared.setSlot kind ⟨ids kind⟩ })
        (withIdentities (ids.enter kind key) inside) := by
    cases kind <;> rfl
  have hpass : announced key act' w = act' inside := rfl
  rw [henter, hpass, Exec.ensuring, h inside]
  have hleave (w' : World Heap) :
      { withIdentities (ids.enter kind key) w' with
        shared := (withIdentities (ids.enter kind key) w').shared.setSlot kind ⟨ids kind⟩ } =
      withIdentities ids w' := by
    simp only [withIdentities, Shared.setSlot_withIdentities]
    rw [Identities.enter, Function.update_idem, Function.update_eq_self]
  cases act' inside with
  | ok a w' => exact congrArg (EStateM.Result.ok a) (hleave w')
  | error e w' => exact congrArg (EStateM.Result.error e) (hleave w')

/-- Inside of a scope the identity of its kind resolves to the key of the scope. -/
theorem Follows.resolved {kind : Kind} {key : Key} (f f' : Key → Exec σ α)
    (h : Follows (ids.enter kind key) (f key) (f' key)) :
    Follows (ids.enter kind key) (identity kind >>= f) (f' key) := by
  intro w
  have hidentity : (identity kind : Exec σ Key) (withIdentities (ids.enter kind key) w) =
      .ok key (withIdentities (ids.enter kind key) w) := by
    cases kind <;> rfl
  change EStateM.bind (identity kind) f _ = _
  rw [EStateM.bind, hidentity]
  exact h w

/-! ## Managers -/

section Access

variable {β S Q : Type} {A : Q → Type} (access : Access σ β S Q A)

theorem blind_held : Blind access.held := fun _ _ ↦ rfl

theorem blind_modifyHeld (f : Manager S → Manager S) : Blind (access.modifyHeld f) :=
  fun _ _ ↦ rfl

theorem blind_expect (f : Flavour) (r : Result) : Blind (f.expect r : Exec σ f.Answer) := by
  intro ids w
  rw [Flavour.expect]
  cases f.receive r <;> rfl

theorem blind_registerAt [Owner S] (key : Key) (analysis : Analysis S) :
    Blind (access.registerAt key analysis) := by
  intro ids
  apply (blind_held access ids).bind
  intro m
  cases m.isRegistered key with
  | true => exact (blind_emitAll _ ids).bind fun _ ↦ blind_pure _ ids
  | false => exact (blind_modifyHeld access _ ids).bind fun _ ↦ blind_pure _ ids

theorem blind_cachedAt (f : Flavour) (key : Key) (u : CodeUnit β) :
    Blind (access.cachedAt f key u) := by
  intro ids
  apply (blind_held access ids).bind
  intro m
  cases m.results.find? (u.id, key) with
  | none => exact blind_pure _ ids
  | some r => exact (blind_expect f r ids).map some

theorem blind_keep (u : CodeUnit β) (key : Key) (r : Result) : Blind (access.keep u key r) := by
  intro ids
  apply (blind_held access ids).bind
  intro m
  exact (blind_modifyHeld access _ ids).bind fun _ ↦ blind_emitAll _ ids

theorem Follows.whileRunning (key : Key) {act act' : Exec σ α} (h : Follows ids act act') :
    Follows ids (access.whileRunning key act) (access.whileRunning key act') :=
  (blind_modifyHeld access _ ids).bind fun _ ↦ h.ensuring fun _ ↦ rfl

variable {answer answer' : (q : Q) → Exec σ (A q)}

theorem Follows.compute (h : ∀ q, Follows ids (answer q) (answer' q)) (u : CodeUnit β)
    (analysis : Analysis S) :
    Follows ids (access.compute answer u analysis) (access.compute answer' u analysis) := by
  cases analysis with
  | foreign entry context =>
    exact (Follows.run h _).boundary.bind fun value ↦
      (blind_adopt value ids).bind fun _ ↦ blind_pure _ ids
  | native entry => exact (Follows.run h _).bind fun _ ↦ blind_pure _ ids
  | attached inner => exact blind_pure _ ids

theorem Follows.requestAt (h : ∀ q, Follows ids (answer q) (answer' q)) (f : Flavour) (key : Key)
    (u : CodeUnit β) :
    Follows ids (access.requestAt answer f key u) (access.requestAt answer' f key u) := by
  apply (blind_held access ids).bind
  intro m
  dsimp only
  cases m.results.find? (u.id, key) with
  | some r => exact (blind_emitAll _ ids).bind fun _ ↦ blind_expect f r ids
  | none =>
    apply (blind_held access ids).bind
    intro m'
    cases m'.analyses.find? key with
    | none => exact blind_throw _ ids
    | some registered =>
      have hrunning := (Follows.compute access h u registered.analysis).whileRunning access key
      have hcomputed := hrunning.bind fun r ↦
        (blind_keep access u key r ids).bind fun _ ↦ blind_expect f r ids
      apply (blind_emitAll _ ids).bind
      intro _
      cases registered.running with
      | true => exact (blind_throw _ ids).bind fun _ ↦ hcomputed
      | false => exact hcomputed

end Access

/-! ## Calls -/

variable {analyses : Analyses}

theorem blind_registerPassed (kind : Kind) (place : Nat) (key : Key) (entry : Entry)
    (context : Opaque String) : Blind (registerPassed analyses kind place key entry context) := by
  intro ids
  apply (blind_emitAll _ ids).bind
  intro _
  apply (blind_registerAt _ key _ ids).bind
  intro registered
  exact (blind_emitAll _ ids).bind fun _ ↦ blind_pure registered ids

theorem blind_resultPassed {nested : Identities → Performer} (h : ∀ ids c, Blind (nested ids c))
    (ids : Identities) (kind : Kind) (place : Nat) (u : CodeUnit (Content kind)) (key : Key) :
    Blind (resultPassed analyses ids nested kind place u key) := by
  intro ids'
  apply (blind_emitAll _ ids').bind
  intro _
  exact .requestAt _ (fun c ↦ h _ c ids') .foreign key u

theorem blind_cachedPassed (kind : Kind) (place : Nat) (u : CodeUnit (Content kind)) (key : Key) :
    Blind (cachedPassed analyses kind place u key) := by
  intro ids
  apply (blind_emitAll _ ids).bind
  intro _
  exact blind_cachedAt _ .foreign key u ids

theorem follows_registerForeign (kind : Kind) (place : Nat) (key : Key) (entry : Entry)
    (context : Opaque String) :
    Follows ids ((access analyses kind place).registerForeign key entry context)
      (registerPassed analyses kind place key entry context) := by
  apply follows_withKey
  apply Follows.bind
  · exact Follows.resolved _ (fun key' ↦ (access analyses kind place).registerAt key' _)
      (blind_registerAt _ key _ _)
  · intro registered
    exact (blind_emitAll _ _).bind fun _ ↦ blind_pure registered _

theorem follows_foreignResult {nested : Performer} {nested' : Identities → Performer}
    (h : ∀ ids c, Follows ids (nested c) (nested' ids c)) (kind : Kind) (place : Nat)
    (u : CodeUnit (Content kind)) (key : Key) :
    Follows ids
      ((access analyses kind place).foreignResult ((access analyses kind place).request nested) u
        key)
      (resultPassed analyses ids nested' kind place u key) := by
  apply follows_withKey
  exact Follows.resolved _ (fun key' ↦ (access analyses kind place).requestAt _ .foreign key' u)
    (.requestAt _ (h _) .foreign key u)

theorem follows_foreignCached (kind : Kind) (place : Nat) (u : CodeUnit (Content kind))
    (key : Key) :
    Follows ids ((access analyses kind place).foreignCached u key)
      (cachedPassed analyses kind place u key) := by
  apply follows_withKey
  exact Follows.resolved _ (fun key' ↦ (access analyses kind place).cachedAt .foreign key' u)
    (blind_cachedAt _ .foreign key u _)

end Calls

end ForeignPasses
