import ForeignPasses.Proofs.Exec.Ensures

/-!
# Actions that agree

Two actions, each in a world of its own, go the same way: both end with a value, or both end with
the same halt. What the values and the worlds have in common is said about both ends.
-/

namespace ForeignPasses.Exec

variable {σ τ σ' τ' α β γ δ : Type}

theorem bind_ok {act : Exec σ γ} {f : γ → Exec σ α} {c : γ} {w v : World σ}
    (h : act w = .ok c v) : (act >>= f) w = f c v := by
  change EStateM.bind act f w = f c v
  rw [EStateM.bind, h]

theorem bind_error {act : Exec σ γ} {f : γ → Exec σ α} {e : Halt} {w v : World σ}
    (h : act w = .error e v) : (act >>= f) w = .error e v := by
  change EStateM.bind act f w = .error e v
  rw [EStateM.bind, h]

/-- Both actions end with values and worlds as `post` says, or both end with one halt and worlds as
`halted` says. -/
inductive Agree (act : Exec σ α) (act' : Exec τ β) (w : World σ) (w' : World τ)
    (post : α → World σ → β → World τ → Prop) (halted : World σ → World τ → Prop) : Prop
  | ok {a : α} {v : World σ} {b : β} {v' : World τ} (hact : act w = .ok a v)
      (hact' : act' w' = .ok b v') (h : post a v b v')
  | error {e : Halt} {v : World σ} {v' : World τ} (hact : act w = .error e v)
      (hact' : act' w' = .error e v') (h : halted v v')

namespace Agree

variable {w : World σ} {w' : World τ} {post : α → World σ → β → World τ → Prop}
  {halted : World σ → World τ → Prop}

theorem mono {act : Exec σ α} {act' : Exec τ β}
    {post' : α → World σ → β → World τ → Prop} {halted' : World σ → World τ → Prop}
    (h : Agree act act' w w' post halted) (hpost : ∀ a v b v', post a v b v' → post' a v b v')
    (hhalted : ∀ v v', halted v v' → halted' v v') : Agree act act' w w' post' halted' := by
  cases h with
  | ok hact hact' h => exact .ok hact hact' (hpost _ _ _ _ h)
  | error hact hact' h => exact .error hact hact' (hhalted _ _ h)

theorem symm {act : Exec σ α} {act' : Exec τ β}
    (h : Agree act' act w' w (fun b v' a v ↦ post a v b v') fun v' v ↦ halted v v') :
    Agree act act' w w' post halted := by
  cases h with
  | ok hact' hact h => exact .ok hact hact' h
  | error hact' hact h => exact .error hact hact' h

theorem of_ok {act : Exec σ α} {act' : Exec τ β} {a : α} {v : World σ}
    (h : Agree act act' w w' post halted) (hact : act w = .ok a v) :
    ∃ b v', act' w' = .ok b v' ∧ post a v b v' := by
  cases h with
  | ok hact₁ hact' h =>
    obtain ⟨rfl, rfl⟩ := EStateM.Result.ok.inj (hact₁.symm.trans hact)
    exact ⟨_, _, hact', h⟩
  | error hact₁ _ _ => exact nomatch hact₁.symm.trans hact

/-! ## Values, sequences and halts -/

theorem pure {a : α} {b : β} (h : post a w b w') :
    Agree (Pure.pure a : Exec σ α) (Pure.pure b) w w' post halted :=
  .ok rfl rfl h

theorem throw (e : Halt) (h : halted w w') :
    Agree (throw e : Exec σ α) (throw e : Exec τ β) w w' post halted :=
  .error rfl rfl h

theorem bind {act : Exec σ γ} {act' : Exec τ δ} {f : γ → Exec σ α} {f' : δ → Exec τ β}
    (h : Agree act act' w w' (fun c v d v' ↦ Agree (f c) (f' d) v v' post halted) halted) :
    Agree (act >>= f) (act' >>= f') w w' post halted := by
  cases h with
  | error hact hact' h => exact .error (bind_error hact) (bind_error hact') h
  | ok hact hact' h =>
    cases h with
    | ok hf hf' h => exact .ok ((bind_ok hact).trans hf) ((bind_ok hact').trans hf') h
    | error hf hf' h => exact .error ((bind_ok hact).trans hf) ((bind_ok hact').trans hf') h

/-- Something happens first on one side alone, which cannot halt. -/
theorem first {act : Exec σ γ} {f : γ → Exec σ α} {act' : Exec τ β}
    (h : act.Ensures w (fun c v ↦ Agree (f c) act' v w' post halted) fun _ _ ↦ False) :
    Agree (act >>= f) act' w w' post halted := by
  obtain ⟨c, v, hact, h⟩ := h.exists_ok fun _ _ h ↦ h
  cases h with
  | ok hf hact' h => exact .ok ((bind_ok hact).trans hf) hact' h
  | error hf hact' h => exact .error ((bind_ok hact).trans hf) hact' h

/-- Something happens first on the other side alone, which cannot halt. -/
theorem second {act : Exec σ α} {act' : Exec τ γ} {f : γ → Exec τ β}
    (h : act'.Ensures w' (fun c v' ↦ Agree act (f c) w v' post halted) fun _ _ ↦ False) :
    Agree act (act' >>= f) w w' post halted :=
  symm (first (h.imp fun _ _ h ↦ symm h))

theorem shared {f : Shared → Exec σ α} {f' : Shared → Exec τ β}
    (h : Agree (f w.shared) (f' w'.shared) w w' post halted) :
    Agree (Exec.shared >>= f) (Exec.shared >>= f') w w' post halted :=
  bind (.ok rfl rfl h)

theorem focus {f : σ → Exec σ α} {f' : τ → Exec τ β}
    (h : Agree (f w.focus) (f' w'.focus) w w' post halted) :
    Agree (Exec.focus >>= f) (Exec.focus >>= f') w w' post halted :=
  bind (.ok rfl rfl h)

theorem map {act : Exec σ γ} {act' : Exec τ δ} {f : γ → α} {f' : δ → β}
    (h : Agree act act' w w' (fun c v d v' ↦ post (f c) v (f' d) v') halted) :
    Agree (f <$> act) (f' <$> act') w w' post halted := by
  rw [map_eq_pure_bind, map_eq_pure_bind]
  exact bind (h.mono (fun _ _ _ _ h ↦ pure h) fun _ _ h ↦ h)

/-- Only what one side returns is changed. -/
theorem mapLeft {act : Exec σ γ} {act' : Exec τ β} {f : γ → α}
    (h : Agree act act' w w' (fun c v b v' ↦ post (f c) v b v') halted) :
    Agree (f <$> act) act' w w' post halted := by
  rw [map_eq_pure_bind, ← bind_pure act']
  exact bind (h.mono (fun _ _ _ _ h ↦ pure h) fun _ _ h ↦ h)

/-! ## Parts, scopes and frames -/

theorem boundary {act : Exec σ α} {act' : Exec τ β} (h : Agree act act' w w' post halted) :
    Agree (boundary act) (boundary act') w w' post halted := by
  cases h with
  | ok hact hact' h => exact .ok (by rw [Exec.boundary, hact]) (by rw [Exec.boundary, hact']) h
  | @error e _ _ hact hact' h =>
    cases e <;>
      exact .error (by rw [Exec.boundary, hact]) (by rw [Exec.boundary, hact']) h

theorem ensuring {act : Exec σ α} {act' : Exec τ β} {after : World σ → World σ}
    {after' : World τ → World τ}
    (h : Agree act act' w w' (fun a v b v' ↦ post a (after v) b (after' v'))
      fun v v' ↦ halted (after v) (after' v')) :
    Agree (act.ensuring after) (act'.ensuring after') w w' post halted := by
  cases h with
  | ok hact hact' h => exact .ok (by rw [Exec.ensuring, hact]) (by rw [Exec.ensuring, hact']) h
  | error hact hact' h =>
    exact .error (by rw [Exec.ensuring, hact]) (by rw [Exec.ensuring, hact']) h

theorem zoom {get : σ → σ'} {put : σ → σ' → σ} {get' : τ → τ'} {put' : τ → τ' → τ}
    {act : Exec σ' α} {act' : Exec τ' β}
    (h : Agree act act' ⟨w.shared, get w.focus⟩ ⟨w'.shared, get' w'.focus⟩
      (fun a v b v' ↦ post a ⟨v.shared, put w.focus v.focus⟩ b ⟨v'.shared, put' w'.focus v'.focus⟩)
      fun v v' ↦ halted ⟨v.shared, put w.focus v.focus⟩ ⟨v'.shared, put' w'.focus v'.focus⟩) :
    Agree (zoom get put act) (Exec.zoom get' put' act') w w' post halted := by
  cases h with
  | ok hact hact' h => exact .ok (by rw [Exec.zoom, hact]) (by rw [Exec.zoom, hact']) h
  | error hact hact' h => exact .error (by rw [Exec.zoom, hact]) (by rw [Exec.zoom, hact']) h

end Agree

/-- An action ends with a value and leaves something in focus. -/
def EndsIn (act : Exec σ α) (w : World σ) (a : α) (s : σ) : Prop :=
  ∃ w', act w = .ok a w' ∧ w'.focus = s

theorem Ensures.endsIn {act : Exec σ α} {w : World σ} {a : α} {s : σ}
    (h : act.Ensures w (fun a' w' ↦ a' = a ∧ w'.focus = s) fun _ _ ↦ False) :
    act.EndsIn w a s := by
  obtain ⟨_, w', hact, rfl, hfocus⟩ := h.exists_ok fun _ _ h ↦ h
  exact ⟨w', hact, hfocus⟩

end ForeignPasses.Exec
