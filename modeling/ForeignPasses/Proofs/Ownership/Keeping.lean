import ForeignPasses.Program
import ForeignPasses.Proofs.Ownership.Ledger

/-!
# Actions that keep accounts

An action starts with some addresses in hand and ends with others. In between nothing is lost and
nothing is released twice; some of what was held stays where it is.
-/

namespace ForeignPasses

/-- An account from one moment to a later one: `kept` says what of the holding does not get less, as
long as nothing of that role is taken away. -/
structure Ledger (kept : Role → Prop) (b : Books) (h : Holding) (hand : Tally) (b' : Books)
    (h' : Holding) (hand' : Tally) : Prop where
  balance : ∀ x, b'.released x + h'.sum x + hand' x + b.adopted x =
    b.released x + h.sum x + hand x + b'.adopted x
  next_le : b.next ≤ b'.next
  fresh : ∀ x, b'.adopted x ≤ b.adopted x + span b.next b'.next x
  released_le : ∀ x, b.released x ≤ b'.released x
  lost_le : ∀ role, b.lost role ≤ b'.lost role
  kept : ∀ role, kept role → b'.lost role = b.lost role → ∀ x, h role x ≤ h' role x

namespace Ledger

variable {kept : Role → Prop} {b b' b'' : Books} {h h' h'' : Holding} {hand hand' hand'' : Tally}

theorem refl : Ledger kept b h hand b h hand where
  balance _ := rfl
  next_le := Nat.le_refl _
  fresh _ := Nat.le_add_right _ _
  released_le _ := Nat.le_refl _
  lost_le _ := Nat.le_refl _
  kept _ _ _ _ := Nat.le_refl _

theorem trans (hl : Ledger kept b h hand b' h' hand')
    (hl' : Ledger kept b' h' hand' b'' h'' hand'') : Ledger kept b h hand b'' h'' hand'' where
  balance x := by
    have hx := hl.balance x
    have hx' := hl'.balance x
    omega
  next_le := Nat.le_trans hl.next_le hl'.next_le
  fresh x := by
    have hx := hl.fresh x
    have hx' := hl'.fresh x
    have hspan := congrFun (span_add hl.next_le hl'.next_le) x
    simp only [Pi.add_apply] at hspan
    omega
  released_le x := Nat.le_trans (hl.released_le x) (hl'.released_le x)
  lost_le role := Nat.le_trans (hl.lost_le role) (hl'.lost_le role)
  kept role hrole hlost x := by
    have hle := hl.lost_le role
    have hle' := hl'.lost_le role
    have hx := hl.kept role hrole (by omega) x
    exact Nat.le_trans hx (hl'.kept role hrole (by omega) x)

/-- What is in hand anyway makes no difference. -/
theorem frame (hl : Ledger kept b h hand b' h' hand') (extra : Tally) :
    Ledger kept b h (hand + extra) b' h' (hand' + extra) where
  balance x := by
    have hx := hl.balance x
    simp only [Pi.add_apply]
    omega
  next_le := hl.next_le
  fresh := hl.fresh
  released_le := hl.released_le
  lost_le := hl.lost_le
  kept := hl.kept

theorem mono {kept' : Role → Prop} (hl : Ledger kept b h hand b' h' hand')
    (hkept : ∀ role, kept' role → kept role) : Ledger kept' b h hand b' h' hand' :=
  { hl with kept := fun role hrole ↦ hl.kept role (hkept role hrole) }

/-- The same account of something that what was held is a part of. -/
theorem whole (hl : Ledger kept b h hand b' h' hand') {w w' : Holding} (hwhole : w' + h = w + h') :
    Ledger kept b w hand b' w' hand' where
  balance x := by
    have hx := hl.balance x
    have hcontext := congrFun (congrFun hwhole .context) x
    have hresult := congrFun (congrFun hwhole .result) x
    simp only [Holding.sum, Pi.add_apply] at hx hcontext hresult ⊢
    omega
  next_le := hl.next_le
  fresh := hl.fresh
  released_le := hl.released_le
  lost_le := hl.lost_le
  kept role hrole hlost x := by
    have hx := hl.kept role hrole hlost x
    have hsum := congrFun (congrFun hwhole role) x
    simp only [Pi.add_apply] at hsum
    omega

end Ledger

variable {σ τ α β : Type} [Account σ] [Account τ]

/-- An account from one world to a later one. -/
def Settles (kept : Role → Prop) (w : World σ) (hand : Tally) (w' : World σ) (hand' : Tally) :
    Prop :=
  Ledger kept w.shared.books (holding w.focus) hand w'.shared.books (holding w'.focus) hand'

variable {kept : Role → Prop} {w w' w'' : World σ} {hand hand' hand'' extra : Tally}

theorem Settles.trans (h : Settles kept w hand w' hand') (h' : Settles kept w' hand' w'' hand'') :
    Settles kept w hand w'' hand'' :=
  Ledger.trans h h'

/-- Neither what is held nor the books have changed. -/
theorem Settles.of_eq (hfocus : holding w'.focus = holding w.focus)
    (hbooks : w'.shared.books = w.shared.books) : Settles kept w hand w' hand := by
  rw [Settles, hfocus, hbooks]
  exact .refl

/-- How an action may halt: a panic that unwinds finds accounts settled, if there may be any, and
whoever nests requests as deep as there are analyses is not cut short. -/
def Excused (panics : Prop) (settled : World σ → Prop) : Halt → World σ → Prop
  | .panicked _, w => panics ∧ settled w
  | .crashed _, _ => True
  | .fatal _, _ => True
  | .exhausted, _ => False

omit [Account σ] [Account τ] in
theorem Excused.mono {panics panics' : Prop} {settled : World σ → Prop} {settled' : World τ → Prop}
    {e : Halt} {v : World τ} (h : Excused panics settled e w) (hpanics : panics → panics')
    (hsettled : settled w → settled' v) : Excused panics' settled' e v := by
  cases e with
  | panicked p => exact ⟨hpanics h.1, hsettled h.2⟩
  | crashed p => trivial
  | fatal error => trivial
  | exhausted => exact h

omit [Account σ] [Account τ] in
theorem Excused.steady {panics : Prop} {settled : World σ → Prop} {settled' : World τ → Prop}
    {e : Halt} {v : World τ} (h : Excused False settled e w) : Excused panics settled' e v := by
  cases e with
  | panicked p => exact h.1.elim
  | crashed p => trivial
  | fatal error => trivial
  | exhausted => exact h

namespace Exec

variable {panics : Prop} {out mid : α → Tally}

/-- Started in one world with some addresses in hand, an action keeps account of them all. -/
def KeepsAt (kept : Role → Prop) (panics : Prop) (w : World σ) (hand : Tally) (act : Exec σ α)
    (out : α → Tally) : Prop :=
  act.Ensures w (fun a w' ↦ Settles kept w hand w' (out a))
    (Excused panics fun w' ↦ Settles kept w hand w' 0)

/-- An action keeps account wherever it is started. -/
def Keeps (kept : Role → Prop) (panics : Prop) (hand : Tally) (act : Exec σ α) (out : α → Tally) :
    Prop :=
  ∀ w, act.KeepsAt kept panics w hand out

theorem KeepsAt.mono {kept' : Role → Prop} {panics' : Prop} {act : Exec σ α}
    (h : act.KeepsAt kept panics w hand out) (hkept : ∀ role, kept' role → kept role)
    (hpanics : panics → panics') : act.KeepsAt kept' panics' w hand out :=
  Ensures.mono h (fun _ _ h ↦ Ledger.mono h hkept)
    fun _ _ h ↦ h.mono hpanics fun h ↦ Ledger.mono h hkept

/-- An account goes on with an action. -/
theorem KeepsAt.after {act : Exec σ α} (hact : act.KeepsAt kept panics w' hand' out)
    (h : Settles kept w hand w' hand') :
    act.Ensures w' (fun a w'' ↦ Settles kept w hand w'' (out a))
      (Excused panics fun w'' ↦ Settles kept w hand w'' 0) :=
  Ensures.mono hact (fun _ _ h' ↦ h.trans h') fun _ _ h' ↦ h'.mono id fun h' ↦ h.trans h'

theorem KeepsAt.bind {act : Exec σ β} {f : β → Exec σ α} {mid : β → Tally}
    (hact : act.KeepsAt kept panics w hand mid)
    (hf : ∀ b w', Settles kept w hand w' (mid b) → (f b).KeepsAt kept panics w' (mid b) out) :
    (act >>= f).KeepsAt kept panics w hand out := by
  unfold KeepsAt
  rw [ensures_bind]
  refine Ensures.mono hact ?_ fun _ _ h ↦ h
  intro b w' hsettles
  exact (hf b w' hsettles).after hsettles

namespace Keeps

theorem mono {kept' : Role → Prop} {panics' : Prop} {act : Exec σ α}
    (h : act.Keeps kept panics hand out) (hkept : ∀ role, kept' role → kept role)
    (hpanics : panics → panics') : act.Keeps kept' panics' hand out :=
  fun w ↦ (h w).mono hkept hpanics

/-- An action that does not unwind may stand where others would. -/
theorem steady {act : Exec σ α} (h : act.Keeps kept False hand out) :
    act.Keeps kept panics hand out :=
  h.mono (fun _ h ↦ h) False.elim

theorem bind {act : Exec σ β} {f : β → Exec σ α} {mid : β → Tally}
    (hact : act.Keeps kept panics hand mid) (hf : ∀ b, (f b).Keeps kept panics (mid b) out) :
    (act >>= f).Keeps kept panics hand out :=
  fun w ↦ (hact w).bind fun b w' _ ↦ hf b w'

theorem pure (a : α) (h : out a = hand) :
    (Pure.pure a : Exec σ α).Keeps kept panics hand out := by
  intro w
  change Settles kept w hand w (out a)
  rw [h]
  exact Ledger.refl

/-- What is in hand anyway makes no difference to an action that does not unwind. -/
theorem frame {act : Exec σ α} (h : act.Keeps kept False hand out) (extra : Tally) :
    act.Keeps kept False (hand + extra) fun a ↦ out a + extra :=
  fun w ↦ Ensures.mono (h w) (fun _ _ h ↦ Ledger.frame h extra) fun _ _ h ↦ h.steady

/-- The same of an action that has nothing to do with what is in hand. -/
theorem framed {act : Exec σ α} (h : act.Keeps kept False 0 fun _ ↦ 0) :
    act.Keeps kept False hand fun _ ↦ hand := by
  have hframe := h.frame hand
  simpa only [zero_add] using hframe

end Keeps

/-! ## Halts, events and values -/

theorem keeps_fatal (error : BoundaryError) :
    (fatal error : Exec σ α).Keeps kept panics hand out :=
  fun _ ↦ trivial

/-- A panic may unwind as long as nothing is in hand. -/
theorem keeps_panic (p : Panic) : (panic p : Exec σ α).Keeps kept True 0 out :=
  fun _ ↦ ⟨trivial, Ledger.refl⟩

theorem keeps_emit {e : Event} (h : e.Aside) :
    (emit e : Exec σ Unit).Keeps kept panics hand fun _ ↦ hand :=
  fun w ↦ (ensures_emit e).2 (Settles.of_eq rfl (books_aside w.shared h))

theorem keeps_note (text : String) :
    (note text : Exec σ Unit).Keeps kept panics hand fun _ ↦ hand :=
  keeps_emit trivial

theorem keeps_debug (message : String) :
    (debug message : Exec σ Unit).Keeps kept panics hand fun _ ↦ hand :=
  keeps_emit trivial

theorem keeps_trace (message : String) :
    (trace message : Exec σ Unit).Keeps kept panics hand fun _ ↦ hand :=
  keeps_emit trivial

theorem keeps_focus : (focus : Exec σ σ).Keeps kept panics hand fun _ ↦ hand :=
  fun _ ↦ Ledger.refl

theorem keeps_shared : (shared : Exec σ Shared).Keeps kept panics hand fun _ ↦ hand :=
  fun _ ↦ Ledger.refl

theorem keeps_freshUnit : (freshUnit : Exec σ UnitId).Keeps kept panics hand fun _ ↦ hand :=
  fun _ ↦ Settles.of_eq rfl rfl

theorem keeps_enter (kind : Kind) (line : String)
    (register : Registry → Except BoundaryError Registry) :
    (enter kind line register : Exec σ (Except BoundaryError Unit)).Keeps kept panics hand
      fun _ ↦ hand := by
  refine keeps_shared.bind fun s ↦ ?_
  cases register (s.registry kind) with
  | ok r =>
    have hset : (modifyShared (·.setRegistry kind r) : Exec σ Unit).Keeps kept panics hand
        fun _ ↦ hand := fun w ↦ Settles.of_eq rfl (books_setRegistry w.shared kind r)
    exact (keeps_debug line).bind fun _ ↦ hset.bind fun _ ↦ .pure _ rfl
  | error e => exact .pure _ rfl

theorem keeps_identity (kind : Kind) :
    (identity kind : Exec σ Key).Keeps kept True 0 fun _ ↦ 0 := by
  refine keeps_shared.bind fun s ↦ ?_
  cases (s.slot kind).current with
  | some key => exact .pure key rfl
  | none => exact keeps_panic _

/-- What is released is not in hand any more. -/
theorem keeps_release (rs : List Release) :
    (release rs : Exec σ Unit).Keeps kept panics (tally rs + hand) fun _ ↦ hand := by
  intro w
  rw [KeepsAt, ensures_release]
  constructor
  · intro x
    simp only [Shared.books, adoptions_append, adoptions_released, deletions_append,
      deletions_released, Pi.add_apply, Pi.zero_apply]
    omega
  · exact Nat.le_refl _
  · intro x
    simp [Shared.books]
  · intro x
    simp [Shared.books]
  · intro role
    simp [Shared.books]
  · intro role _ _ x
    exact Nat.le_refl _

theorem keeps_discard [Owner β] [Account β] [Accounted β] (b : β) :
    (discard b : Exec σ Unit).Keeps kept panics (held b + hand) fun _ ↦ hand := by
  rw [← tally_releases b]
  exact keeps_release (releases b)

/-- What is adopted is in hand. -/
theorem keeps_adopt (handed : Handed β) :
    (adopt handed : Exec σ (Opaque β)).Keeps kept panics hand fun value ↦
      tally value.drop + hand := by
  intro w
  rw [KeepsAt, ensures_adopt, Opaque.drop_ofRaw, tally_handed]
  constructor
  · intro x
    simp only [Shared.books, adoptions_append, adoptions_addresses, deletions_append,
      deletions_adopted, Pi.add_apply, Pi.zero_apply]
    omega
  · exact Nat.le_succ _
  · intro x
    simp only [Shared.books, adoptions_append, adoptions_addresses, Pi.add_apply]
    exact Nat.add_le_add_left (tally_handed_le_span handed _ x) _
  · intro x
    simp [Shared.books]
  · intro role
    simp [Shared.books]
  · intro role _ _ x
    exact Nat.le_refl _

/-! ## Frames, scopes and parts -/

/-- No panic unwinds a foreign frame. -/
theorem Keeps.boundary {act : Exec σ α} (h : act.Keeps kept panics hand out) :
    (boundary act).Keeps kept False hand out := by
  intro w
  rw [KeepsAt, ensures_boundary]
  refine Ensures.mono (h w) (fun _ _ h ↦ h) ?_
  intro e w' hexcused
  cases e with
  | panicked p => trivial
  | crashed p => trivial
  | fatal error => trivial
  | exhausted => exact hexcused

/-- What is in hand around a foreign frame stays there. -/
theorem Keeps.enclosed {act : Exec σ α} (h : act.Keeps kept panics 0 fun _ ↦ 0) :
    (Exec.boundary act).Keeps kept False hand fun _ ↦ hand :=
  h.boundary.framed

theorem KeepsAt.withKey {act : Exec σ α} {kind : Kind} {key : Key}
    (h : act.KeepsAt kept panics
      { w with shared := { w.shared.setSlot kind ⟨some key⟩ with
        events := (w.shared.setSlot kind ⟨some key⟩).events ++
          [.log .trace ("entering key scope for " ++ key.name)] } } hand out) :
    (withKey kind key act).KeepsAt kept panics w hand out := by
  rw [KeepsAt, ensures_withKey]
  have hopened : Settles kept w hand
      { w with shared := { w.shared.setSlot kind ⟨some key⟩ with
        events := (w.shared.setSlot kind ⟨some key⟩).events ++
          [.log .trace ("entering key scope for " ++ key.name)] } } hand :=
    Settles.of_eq rfl ((books_aside _ (Event.aside_log _ _)).trans (books_setSlot _ _ _))
  refine Ensures.mono h ?_ ?_
  · intro a w' hsettles
    exact hopened.trans (hsettles.trans (Settles.of_eq rfl (books_setSlot _ _ _)))
  · intro e w' hexcused
    refine hexcused.mono id fun hsettles ↦ ?_
    exact hopened.trans (hsettles.trans (Settles.of_eq rfl (books_setSlot _ _ _)))

theorem Keeps.withKey {act : Exec σ α} (h : act.Keeps kept panics hand out) (kind : Kind)
    (key : Key) : (withKey kind key act).Keeps kept panics hand out :=
  fun _ ↦ (h _).withKey

/-- Inside of a scope its key is found. -/
theorem Keeps.resolved {kind : Kind} {key : Key} {f : Key → Exec σ α}
    (h : (f key).Keeps kept panics hand out) :
    (Exec.withKey kind key (identity kind >>= f)).Keeps kept panics hand out := by
  intro w
  apply KeepsAt.withKey
  rw [KeepsAt, ensures_bind, ensures_identity]
  cases kind <;> exact h _

/-- The focus changes, and what is in hand with it. -/
theorem keepsAt_modifyFocus {f : σ → σ}
    (hbalance : ∀ x, held (f w.focus) x + hand' x = held w.focus x + hand x)
    (hkept : ∀ role, kept role → ∀ x, holding w.focus role x ≤ holding (f w.focus) role x) :
    (modifyFocus f).KeepsAt kept panics w hand fun _ ↦ hand' := by
  rw [KeepsAt, ensures_modifyFocus]
  constructor
  · intro x
    have hx := hbalance x
    simp only [held] at hx
    simp only
    omega
  · exact Nat.le_refl _
  · intro x
    exact Nat.le_add_right _ _
  · intro x
    exact Nat.le_refl _
  · intro role
    exact Nat.le_refl _
  · intro role hrole _
    exact hkept role hrole

/-- Working on a part of the focus. -/
theorem KeepsAt.zoom {get : σ → τ} {put : σ → τ → σ} {act : Exec τ α}
    (h : act.KeepsAt kept panics ⟨w.shared, get w.focus⟩ hand out)
    (hwhole : ∀ t, holding (put w.focus t) + holding (get w.focus) =
      holding w.focus + holding t) :
    (zoom get put act).KeepsAt kept panics w hand out := by
  rw [KeepsAt, ensures_zoom]
  refine Ensures.mono h ?_ ?_
  · intro a w' hsettles
    exact Ledger.whole hsettles (hwhole w'.focus)
  · intro e w' hexcused
    exact hexcused.mono id fun hsettles ↦ Ledger.whole hsettles (hwhole w'.focus)

/-- Working on something apart from the focus, which is in hand before and after. -/
theorem Keeps.apart {kept' : Role → Prop} {act : Exec τ α} (h : act.Keeps kept' False 0 fun _ ↦ 0)
    (part : α → τ) (hpart : ∀ v, act.Ensures v (fun a v' ↦ part a = v'.focus) fun _ _ ↦ True)
    (t : τ) :
    (zoom (fun _ ↦ t) (fun s _ ↦ s) act : Exec σ α).Keeps kept panics (held t + hand)
      fun a ↦ held (part a) + hand := by
  intro w
  rw [KeepsAt, ensures_zoom]
  refine ((h ⟨w.shared, t⟩).and (hpart _)).mono ?_ ?_
  · rintro a v ⟨hsettles, hfocus⟩
    constructor
    · intro x
      have hx := hsettles.balance x
      rw [hfocus]
      simp only [held, Pi.add_apply, Pi.zero_apply] at hx ⊢
      omega
    · exact hsettles.next_le
    · exact hsettles.fresh
    · exact hsettles.released_le
    · exact hsettles.lost_le
    · intro role _ _ x
      exact Nat.le_refl _
  · rintro e v ⟨hexcused, -⟩
    exact hexcused.steady

/-- A program keeps account if the answers to its questions do. -/
theorem Keeps.run {Q : Type} {A : Q → Type} {answer : (q : Q) → Exec σ (A q)}
    (hanswer : ∀ q, (answer q).Keeps kept panics hand fun _ ↦ hand) (p : Program Q A α) :
    Keeps kept panics hand (p.run answer) fun _ ↦ hand := by
  induction p with
  | done a => exact .pure a rfl
  | ask q next ih => exact (hanswer q).bind ih

end Exec

end ForeignPasses
