import ForeignPasses.Exec.Registration

/-!
# What an action ensures

An action ends with a value or with a halt, and leaves a world either way. What it ensures is said
about both ends, and is taken apart along the way in which the action is put together.
-/

namespace ForeignPasses

/-- What a halt is beyond the boundary. -/
def Halt.crossed : Halt → Halt
  | panicked p => crashed p
  | e => e

namespace Exec

variable {σ τ α β : Type} {w : World σ} {post : α → World σ → Prop} {halted : Halt → World σ → Prop}

/-- Started in a world, an action ends in a value and a world with `post`, or in a halt and a world
with `halted`. -/
def Ensures (act : Exec σ α) (w : World σ) (post : α → World σ → Prop)
    (halted : Halt → World σ → Prop) : Prop :=
  match act w with
  | .ok a w' => post a w'
  | .error e w' => halted e w'

instance (act : Exec σ α) [∀ a w', Decidable (post a w')] [∀ e w', Decidable (halted e w')] :
    Decidable (act.Ensures w post halted) :=
  match hact : act w with
  | .ok a w' => decidable_of_iff (post a w') (by rw [Ensures, hact])
  | .error e w' => decidable_of_iff (halted e w') (by rw [Ensures, hact])

namespace Ensures

theorem mono {act : Exec σ α} {post' : α → World σ → Prop} {halted' : Halt → World σ → Prop}
    (h : act.Ensures w post halted) (hpost : ∀ a w', post a w' → post' a w')
    (hhalted : ∀ e w', halted e w' → halted' e w') : act.Ensures w post' halted' := by
  unfold Ensures at h ⊢
  cases hact : act w with
  | ok a w' =>
    rw [hact] at h
    exact hpost a w' h
  | error e w' =>
    rw [hact] at h
    exact hhalted e w' h

/-- More is known than needed of how the action returns. -/
theorem imp {act : Exec σ α} {post' : α → World σ → Prop} (h : act.Ensures w post halted)
    (hpost : ∀ a w', post a w' → post' a w') : act.Ensures w post' halted :=
  h.mono hpost fun _ _ h ↦ h

/-- Nothing needs to be known of how the action halts. -/
theorem relax {act : Exec σ α} {post' : α → World σ → Prop} (h : act.Ensures w post halted)
    (hpost : ∀ a w', post a w' → post' a w') : act.Ensures w post' fun _ _ ↦ True :=
  h.mono hpost fun _ _ _ ↦ True.intro

theorem and {act : Exec σ α} {post' : α → World σ → Prop} {halted' : Halt → World σ → Prop}
    (h : act.Ensures w post halted) (h' : act.Ensures w post' halted') :
    act.Ensures w (fun a w' ↦ post a w' ∧ post' a w') (fun e w' ↦ halted e w' ∧ halted' e w') := by
  unfold Ensures at h h' ⊢
  cases hact : act w with
  | ok a w' =>
    rw [hact] at h h'
    exact ⟨h, h'⟩
  | error e w' =>
    rw [hact] at h h'
    exact ⟨h, h'⟩

theorem of_ok {act : Exec σ α} {a : α} {w' : World σ} (h : act.Ensures w post halted)
    (hact : act w = .ok a w') : post a w' := by
  rw [Ensures, hact] at h
  exact h

theorem exists_ok {act : Exec σ α} (h : act.Ensures w post halted)
    (hhalted : ∀ e w', ¬halted e w') : ∃ a w', act w = .ok a w' ∧ post a w' := by
  unfold Ensures at h
  cases hact : act w with
  | ok a w' =>
    rw [hact] at h
    exact ⟨a, w', rfl, h⟩
  | error e w' =>
    rw [hact] at h
    exact absurd h (hhalted e w')

theorem of_error {act : Exec σ α} {e : Halt} {w' : World σ} (h : act.Ensures w post halted)
    (hact : act w = .error e w') : halted e w' := by
  rw [Ensures, hact] at h
  exact h

end Ensures

/-! ## Values, sequences and halts -/

@[simp] theorem ensures_pure (a : α) : (pure a : Exec σ α).Ensures w post halted ↔ post a w :=
  Iff.rfl

@[simp] theorem ensures_bind (act : Exec σ β) (f : β → Exec σ α) :
    (act >>= f).Ensures w post halted ↔
      act.Ensures w (fun b w' ↦ (f b).Ensures w' post halted) halted := by
  rw [Ensures, Ensures]
  change (match EStateM.bind act f w with
    | .ok a w' => post a w'
    | .error e w' => halted e w') ↔ _
  rw [EStateM.bind]
  cases act w <;> rfl

@[simp] theorem ensures_map (act : Exec σ β) (f : β → α) :
    (f <$> act).Ensures w post halted ↔ act.Ensures w (fun b w' ↦ post (f b) w') halted := by
  rw [Ensures, Ensures]
  change (match EStateM.map f act w with
    | .ok a w' => post a w'
    | .error e w' => halted e w') ↔ _
  rw [EStateM.map]
  cases act w <;> rfl

@[simp] theorem ensures_throw (e : Halt) :
    (throw e : Exec σ α).Ensures w post halted ↔ halted e w :=
  Iff.rfl

@[simp] theorem ensures_panic (p : Panic) :
    (panic p : Exec σ α).Ensures w post halted ↔ halted (.panicked p) w :=
  Iff.rfl

@[simp] theorem ensures_fatal (e : BoundaryError) :
    (fatal e : Exec σ α).Ensures w post halted ↔ halted (.fatal e) w :=
  Iff.rfl

/-! ## The focus and what is shared -/

@[simp] theorem ensures_focus {post : σ → World σ → Prop} :
    (focus : Exec σ σ).Ensures w post halted ↔ post w.focus w :=
  Iff.rfl

@[simp] theorem ensures_setFocus {post : Unit → World σ → Prop} (s : σ) :
    (setFocus s).Ensures w post halted ↔ post () { w with focus := s } :=
  Iff.rfl

@[simp] theorem ensures_modifyFocus {post : Unit → World σ → Prop} (f : σ → σ) :
    (modifyFocus f).Ensures w post halted ↔ post () { w with focus := f w.focus } :=
  Iff.rfl

@[simp] theorem ensures_shared {post : Shared → World σ → Prop} :
    (shared : Exec σ Shared).Ensures w post halted ↔ post w.shared w :=
  Iff.rfl

@[simp] theorem ensures_modifyShared {post : Unit → World σ → Prop} (f : Shared → Shared) :
    (modifyShared f : Exec σ Unit).Ensures w post halted ↔
      post () { w with shared := f w.shared } :=
  Iff.rfl

/-! ## Parts, scopes and frames -/

@[simp] theorem ensures_zoom (get : σ → τ) (put : σ → τ → σ) (act : Exec τ α) :
    (zoom get put act).Ensures w post halted ↔
      act.Ensures ⟨w.shared, get w.focus⟩ (fun a w' ↦ post a ⟨w'.shared, put w.focus w'.focus⟩)
        (fun e w' ↦ halted e ⟨w'.shared, put w.focus w'.focus⟩) := by
  unfold Ensures zoom
  cases act ⟨w.shared, get w.focus⟩ <;> rfl

@[simp] theorem ensures_ensuring (act : Exec σ α) (after : World σ → World σ) :
    (act.ensuring after).Ensures w post halted ↔
      act.Ensures w (fun a w' ↦ post a (after w')) (fun e w' ↦ halted e (after w')) := by
  unfold Ensures ensuring
  cases act w <;> rfl

@[simp] theorem ensures_boundary (act : Exec σ α) :
    (boundary act).Ensures w post halted ↔
      act.Ensures w post (fun e w' ↦ halted e.crossed w') := by
  unfold Ensures boundary
  cases act w with
  | ok a w' => rfl
  | error e w' => cases e <;> rfl

@[simp] theorem ensures_emitAll {post : Unit → World σ → Prop} (events : List Event) :
    (emitAll events : Exec σ Unit).Ensures w post halted ↔
      post () { w with shared := { w.shared with events := w.shared.events ++ events } } :=
  Iff.rfl

@[simp] theorem ensures_emit {post : Unit → World σ → Prop} (event : Event) :
    (emit event : Exec σ Unit).Ensures w post halted ↔
      post () { w with shared := { w.shared with events := w.shared.events ++ [event] } } :=
  Iff.rfl

@[simp] theorem ensures_debug {post : Unit → World σ → Prop} (message : String) :
    (debug message : Exec σ Unit).Ensures w post halted ↔
      post () { w with shared :=
        { w.shared with events := w.shared.events ++ [.log .debug message] } } :=
  Iff.rfl

@[simp] theorem ensures_trace {post : Unit → World σ → Prop} (message : String) :
    (trace message : Exec σ Unit).Ensures w post halted ↔
      post () { w with shared :=
        { w.shared with events := w.shared.events ++ [.log .trace message] } } :=
  Iff.rfl

@[simp] theorem ensures_release {post : Unit → World σ → Prop} (rs : List Release) :
    (release rs : Exec σ Unit).Ensures w post halted ↔
      post () { w with shared :=
        { w.shared with events := w.shared.events ++ rs.map .released } } :=
  Iff.rfl

@[simp] theorem ensures_discard [Owner τ] {post : Unit → World σ → Prop} (a : τ) :
    (Exec.discard a : Exec σ Unit).Ensures w post halted ↔
      post () { w with shared :=
        { w.shared with events := w.shared.events ++ (releases a).map .released } } :=
  Iff.rfl

/-- Inside of a scope its key is current, and what was current before is current again after it. -/
@[simp] theorem ensures_withKey (kind : Kind) (key : Key) (act : Exec σ α) :
    (withKey kind key act).Ensures w post halted ↔
      act.Ensures
        { w with shared := { w.shared.setSlot kind ⟨some key⟩ with
          events := (w.shared.setSlot kind ⟨some key⟩).events ++
            [.log .trace ("entering key scope for " ++ key.name)] } }
        (fun a w' ↦ post a { w' with shared := w'.shared.setSlot kind (w.shared.slot kind) })
        (fun e w' ↦
          halted e { w' with shared := w'.shared.setSlot kind (w.shared.slot kind) }) := by
  simp only [withKey, ensures_bind, ensures_shared, ensures_modifyShared, ensures_trace,
    ensures_ensuring]
  rfl

@[simp] theorem ensures_identity {post : Key → World σ → Prop} (kind : Kind) :
    (identity kind : Exec σ Key).Ensures w post halted ↔
      match (w.shared.slot kind).current with
      | some key => post key w
      | none => halted (.panicked (.noIdentity kind)) w := by
  simp only [identity, ensures_bind, ensures_shared]
  cases (w.shared.slot kind).current <;> rfl

theorem ensures_identity_of_current {post : Key → World σ → Prop} {kind : Kind} {key : Key}
    (hcurrent : (w.shared.slot kind).current = some key) :
    (identity kind : Exec σ Key).Ensures w post halted ↔ post key w := by
  rw [ensures_identity, hcurrent]

@[simp] theorem ensures_adopt {post : Opaque α → World σ → Prop} (value : Handed α) :
    (adopt value).Ensures w post halted ↔
      post (.ofRaw (value.toRaw w.shared.nextAddress))
        { w with shared := { w.shared with
          nextAddress := w.shared.nextAddress + 1
          events := w.shared.events ++
            (value.toRaw w.shared.nextAddress).addresses.map .adopted } } :=
  Iff.rfl

/-- Something happens in any case. -/
theorem Ensures.trivial (act : Exec σ α) (w : World σ) :
    act.Ensures w (fun a w' ↦ act w = .ok a w') (fun e w' ↦ act w = .error e w') := by
  unfold Ensures
  cases h : act w <;> rfl

end Exec

end ForeignPasses
