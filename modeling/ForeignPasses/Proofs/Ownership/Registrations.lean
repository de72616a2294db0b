import ForeignPasses.Manager.Register
import ForeignPasses.Proofs.Ownership.Requests

/-!
# Registering and invalidating keep accounts

An analysis that is registered is held by its manager, and one that is refused is released at once.
An invalidation releases results that analyses are told about, and nothing else.
-/

namespace ForeignPasses

open Exec

namespace Tier

variable {β I S : Type} [Account S] {tier : Tier β I S}

/-! ## Registering -/

section Registering

variable [Owner S] [Accounted S] {kept : Role → Prop}

theorem keeps_registerAt (key : Key) (analysis : Analysis S) :
    (tier.access.registerAt key analysis).Keeps kept False (held analysis) fun _ ↦ 0 := by
  intro w
  simp only [KeepsAt, Access.registerAt, ensures_bind, Access.ensures_held]
  cases hregistered : (tier.access.manager w.focus).isRegistered key with
  | true =>
    have hdiscard : (discard analysis : Exec (Manager S) Unit).Keeps kept False
        (held analysis + 0) fun _ ↦ 0 := keeps_discard analysis
    simp only [if_true, ensures_bind, ensures_pure]
    exact hdiscard w
  | false =>
    simp only [Bool.false_eq_true, if_false, ensures_bind, ensures_pure]
    have hinsert := w.focus.holding_insert_analysis hregistered analysis
    apply keepsAt_modifyFocus
    · intro x
      have hheld : held (tier.access.setManager w.focus
          { w.focus with analyses := w.focus.analyses.insert key ⟨analysis, false⟩ }) =
            held w.focus + held analysis := by
        change Holding.sum (holding ({ w.focus with analyses := _ } : Manager S)) = _
        rw [hinsert, Holding.sum_add]
        rfl
      exact congrFun hheld x
    · intro role _ x
      have hrole := congrFun (congrFun hinsert role) x
      exact hrole ▸ Nat.le_add_right _ _

theorem keeps_registerForeign (key : Key) (entry : Entry) (context : Opaque String) :
    (tier.access.registerForeign key entry context).Keeps kept False (tally context.drop)
      fun _ ↦ 0 := by
  rw [Access.registerForeign, Access.register, Flavour.resolve, bind_assoc]
  apply Keeps.resolved
  exact (keeps_registerAt key (.foreign entry context)).bind fun registered ↦
    (keeps_debug _).bind fun _ ↦ .pure registered rfl

theorem keeps_registerHanded (key : Key) (entry : Entry) (context : Handed String) :
    (adopt context >>= tier.access.registerForeign key entry).Keeps kept False 0 fun _ ↦ 0 :=
  (keeps_adopt context).bind fun context ↦ keeps_registerForeign key entry context

theorem keeps_boundaryRegister (key : Option Key) (entry : Entry) (context : Handed String) :
    (tier.access.boundaryRegister key entry context).Keeps kept False 0 fun _ ↦ 0 := by
  refine (keeps_adopt context).bind fun context ↦ ?_
  cases key with
  | none => exact keeps_fatal _
  | some key => exact (keeps_registerForeign key entry context).boundary

theorem keeps_registerNative (index : Nat) (entry : Entry) :
    (tier.registerNative index entry).Keeps kept False 0 fun _ ↦ 0 := by
  have hregister : (tier.access.registerAt (.numbered index) (.native entry)).Keeps kept False
      (held (Analysis.native entry : Analysis S)) fun _ ↦ 0 := keeps_registerAt _ _
  exact hregister

theorem keeps_attach (inner : S) : (tier.attach inner).Keeps kept False (held inner) fun _ ↦ 0 :=
  keeps_registerAt .proxy (.attached inner)

theorem keeps_registerAll (entries : List (Key × Entry)) :
    (tier.registerAll entries).Keeps kept False 0 fun _ ↦ 0 := by
  induction entries with
  | nil => exact .pure () rfl
  | cons e rest ih => exact (keeps_registerForeign e.1 e.2 .null).bind fun _ ↦ ih

theorem keeps_enrolRegistry : tier.enrolRegistry.Keeps kept False 0 fun _ ↦ 0 :=
  keeps_shared.bind fun _ ↦ keeps_registerAll _

theorem keeps_answerEnrol (q : Enrol) : (tier.answerEnrol q).Keeps kept False 0 fun _ ↦ 0 := by
  cases q with
  | say text => exact keeps_note text
  | register key entry context => exact keeps_boundaryRegister key entry context

end Registering

/-! ## Accepted or refused -/

/-- With a registration comes in what is handed over. It is accepted, and then the manager holds what
was given in addition; or it is refused, and then all that was given is released and the manager is
as it was. -/
structure Registers (handed : Tally) (given : Holding) (w : World (Manager S)) (registered : Bool)
    (w' : World (Manager S)) : Prop where
  adopted : adoptions w'.shared.events = adoptions w.shared.events + handed
  accepted : registered = true → holding w'.focus = holding w.focus + given ∧
    deletions w'.shared.events = deletions w.shared.events
  refused : registered = false → w'.focus = w.focus ∧
    deletions w'.shared.events = deletions w.shared.events + given.sum

section Registrations

variable [Owner S] [Accounted S] {w : World (Manager S)}

theorem registerAt_registers (key : Key) (analysis : Analysis S) :
    (tier.access.registerAt key analysis).Ensures w (Registers 0 (holding analysis) w)
      (fun _ _ ↦ False) := by
  simp only [Access.registerAt, ensures_bind, Access.ensures_held]
  cases hregistered : (tier.access.manager w.focus).isRegistered key with
  | true =>
    simp only [if_true, ensures_bind, ensures_pure, ensures_discard]
    refine ⟨?_, fun h ↦ absurd h Bool.false_ne_true, fun _ ↦ ⟨rfl, ?_⟩⟩
    · rw [adoptions_append, adoptions_released]
    · rw [deletions_append, deletions_released, tally_releases]
      rfl
  | false =>
    simp only [Bool.false_eq_true, if_false, ensures_bind, ensures_pure, Access.ensures_modifyHeld]
    exact ⟨(add_zero _).symm,
      fun _ ↦ ⟨w.focus.holding_insert_analysis hregistered analysis, rfl⟩,
      fun h ↦ absurd h.symm Bool.false_ne_true⟩

theorem attach_registers (inner : S) :
    (tier.attach inner).Ensures w (Registers 0 (holding inner) w) (fun _ _ ↦ False) :=
  registerAt_registers .proxy (.attached inner)

theorem registerForeign_registers (key : Key) (entry : Entry) (context : Opaque String) :
    (tier.access.registerForeign key entry context).Ensures w
      (Registers 0 (contexts (tally context.drop)) w) (fun _ _ ↦ False) := by
  have hevents (s : Shared) (slot : Slot) :
      (s.setSlot tier.access.kind slot).events = s.events := by
    cases tier.access.kind <;> rfl
  have hcurrent (s : Shared) (slot : Slot) (events : List Event) :
      ({ s.setSlot tier.access.kind slot with events } : Shared).slot tier.access.kind = slot := by
    cases tier.access.kind <;> rfl
  rw [Access.registerForeign, ensures_withKey]
  simp only [Access.register, Flavour.resolve, ensures_bind, ensures_identity, hcurrent]
  refine (registerAt_registers key (.foreign entry context)).mono ?_ fun _ _ h ↦ h
  rintro registered w' ⟨hadopted, haccepted, hrefused⟩
  have hgiven : holding (Analysis.foreign entry context : Analysis S) =
    contexts (tally context.drop) := rfl
  rw [hgiven] at haccepted hrefused
  simp only [ensures_debug, ensures_pure]
  constructor
  · simpa only [hevents, adoptions_append, adoptions_log, add_zero] using hadopted
  · simpa only [hevents, deletions_append, deletions_log, add_zero] using haccepted
  · simpa only [hevents, deletions_append, deletions_log, add_zero] using hrefused

omit [Owner S] [Accounted S] in
/-- What comes in before a registration is given to it. -/
theorem adopt_registers (context : Handed String) {register : Opaque String → Exec (Manager S) Bool}
    {halted : Halt → World (Manager S) → Prop}
    (h : ∀ value v, (register value).Ensures v (Registers 0 (contexts (tally value.drop)) v) halted) :
    (adopt context >>= register).Ensures w
      (Registers (context.toRaw w.shared.nextAddress).tally
        (contexts (context.toRaw w.shared.nextAddress).tally) w) halted := by
  rw [ensures_bind, ensures_adopt]
  refine (h _ _).mono ?_ fun _ _ h ↦ h
  rintro registered w' ⟨hadopted, haccepted, hrefused⟩
  simp only [Opaque.drop_ofRaw, tally_handed, adoptions_append, adoptions_addresses,
    deletions_append, deletions_adopted, add_zero] at hadopted haccepted hrefused
  exact ⟨hadopted, haccepted, hrefused⟩

theorem registerHanded_registers (key : Key) (entry : Entry) (context : Handed String) :
    (adopt context >>= tier.access.registerForeign key entry).Ensures w
      (Registers (context.toRaw w.shared.nextAddress).tally
        (contexts (context.toRaw w.shared.nextAddress).tally) w) (fun _ _ ↦ False) :=
  adopt_registers context fun value _ ↦ registerForeign_registers key entry value

theorem boundaryRegister_registers (key : Option Key) (entry : Entry) (context : Handed String) :
    (tier.access.boundaryRegister key entry context).Ensures w
      (Registers (context.toRaw w.shared.nextAddress).tally
        (contexts (context.toRaw w.shared.nextAddress).tally) w) (fun _ _ ↦ True) := by
  refine adopt_registers context fun value v ↦ ?_
  cases key with
  | none => trivial
  | some key =>
    simp only [ensures_boundary]
    exact (registerForeign_registers key entry value).mono (fun _ _ h ↦ h) fun _ _ _ ↦ trivial

/-- However an analysis is registered, the context that is handed over with it, or the manager that
is attached, is held or released when the registration returns. -/
structure Registrar (tier : Tier β I S) : Prop where
  handed : ∀ key entry (context : Handed String) w,
    (adopt context >>= tier.access.registerForeign key entry).Ensures w
      (Registers (context.toRaw w.shared.nextAddress).tally
        (contexts (context.toRaw w.shared.nextAddress).tally) w) fun _ _ ↦ False
  boundary : ∀ key entry (context : Handed String) w,
    (tier.access.boundaryRegister key entry context).Ensures w
      (Registers (context.toRaw w.shared.nextAddress).tally
        (contexts (context.toRaw w.shared.nextAddress).tally) w) fun _ _ ↦ True
  attach : ∀ inner w,
    (tier.attach inner).Ensures w (Registers 0 (holding inner) w) fun _ _ ↦ False

theorem registrar : tier.Registrar where
  handed key entry context _ := registerHanded_registers key entry context
  boundary key entry context _ := boundaryRegister_registers key entry context
  attach inner _ := attach_registers inner

end Registrations

/-! ## Invalidating -/

/-- A result is dropped and its analysis is told so. -/
theorem keeps_lose {panics : Prop} (u : CodeUnit β) (key : Key) (text : Option String) :
    (do
      forget u key
      emit (.invalidated u.id key text) : Exec (Manager S) Unit).Keeps Role.Any panics 0
        fun _ ↦ 0 := by
  intro w
  have herase := w.focus.holding_erase_result u.id key
  simp only [KeepsAt, forget, ensures_bind, ensures_focus, ensures_modifyFocus, ensures_discard,
    ensures_emit]
  have hadoptions : adoptions [.invalidated u.id key text] = 0 := rfl
  have hdeletions : deletions [.invalidated u.id key text] = 0 := rfl
  constructor
  · intro x
    have hx := congrFun (congrArg Holding.sum herase) x
    rw [Holding.sum_add, sum_resultAt] at hx
    simp only [Shared.books, adoptions_append, adoptions_released, deletions_append,
      deletions_released, hadoptions, hdeletions, Pi.add_apply, Pi.zero_apply] at hx ⊢
    omega
  · exact Nat.le_refl _
  · intro x
    simp [Shared.books, hadoptions]
  · intro x
    simp [Shared.books]
  · intro role
    simp [Shared.books]
  · intro role _ hlost x
    simp only [Shared.books, losses_append, losses_released, Pi.add_apply, Pi.zero_apply] at hlost
    have hrole := congrFun (congrFun herase role) x
    have hkept : losses [.invalidated u.id key text] role = 0 := by omega
    rw [Pi.add_apply, resultAt_of_kept hkept] at hrole
    exact Nat.le_of_eq hrole.symm

section Invalidation

variable (hwithin : ∀ u preserved,
  (tier.invalidateWithin u preserved).Keeps Role.Any True 0 fun _ ↦ 0)

include hwithin

theorem keeps_forget (u : CodeUnit β) (preserved : Preserved) (key : Key) (analysis : Analysis S) :
    (do
      forget u key
      tier.notify u preserved key analysis).Keeps Role.Any True 0 fun _ ↦ 0 := by
  cases analysis with
  | foreign entry context => exact keeps_lose u key none
  | native entry => exact keeps_lose u key _
  | attached inner =>
    have hlose : (do
        forget u key
        emit (.invalidated u.id key none)
        onAttached (tier.invalidateWithin u preserved)).Keeps Role.Any True 0 fun _ ↦ 0 := by
      rw [← bind_assoc]
      exact (keeps_lose u key none).bind fun _ ↦ keeps_onAttached (hwithin u preserved)
    exact hlose

theorem keeps_invalidateEach (u : CodeUnit β) (preserved : Preserved)
    (entries : List (Key × Registered S)) :
    (tier.invalidateEach u preserved entries).Keeps Role.Any True 0 fun _ ↦ 0 := by
  induction entries with
  | nil => exact .pure () rfl
  | cons e rest ih =>
    obtain ⟨key, registered⟩ := e
    rw [invalidateEach]
    cases preserved.contains key with
    | true => exact ih
    | false =>
      exact (keeps_forget hwithin u preserved key registered.analysis).bind fun _ ↦ ih

theorem keeps_invalidate (u : CodeUnit β) (preserved : Preserved) :
    (tier.invalidate u preserved).Keeps Role.Any True 0 fun _ ↦ 0 := by
  rw [invalidate]
  cases preserved.isAll with
  | true => exact .pure () rfl
  | false => exact keeps_focus.bind fun m ↦ keeps_invalidateEach hwithin u preserved _

end Invalidation

omit [Account S] in
theorem contextless_caching (t : Table (UnitId × Key) Result) {role : Role}
    (h : role.IsContext) : caching t role = 0 := by
  obtain rfl : role = .context := h
  rfl

/-- Clearing drops every result and no context. -/
theorem keeps_clear [Owner S] {panics : Prop} :
    (do
      let (cleared, rs) := (← focus).clear
      setFocus cleared
      release rs : Exec (Manager S) Unit).Keeps Role.IsContext panics 0 fun _ ↦ 0 := by
  intro w
  have hclear := w.focus.holding_clear
  simp only [KeepsAt, ensures_bind, ensures_focus, ensures_setFocus, ensures_release]
  constructor
  · intro x
    have hx := congrFun (congrArg Holding.sum hclear) x
    rw [Holding.sum_add, sum_caching] at hx
    simp only [Shared.books, adoptions_append, adoptions_released, deletions_append,
      deletions_released, Pi.add_apply, Pi.zero_apply] at hx ⊢
    change _ + tally (releases w.focus.results.values) x + _ + _ + _ = _
    omega
  · exact Nat.le_refl _
  · intro x
    simp [Shared.books]
  · intro x
    simp [Shared.books]
  · intro role
    simp [Shared.books]
  · intro role hrole _ x
    have hx := congrFun (congrFun hclear role) x
    rw [Pi.add_apply, contextless_caching _ hrole] at hx
    exact Nat.le_of_eq hx.symm

end Tier

namespace Code

variable (code : Code)

theorem keeps_functionInvalidateWithin (f : Function) (preserved : Preserved) :
    (code.functionTier.invalidateWithin f preserved).Keeps Role.Any True 0 fun _ ↦ 0 := by
  intro w
  change Settles Role.Any w 0 w 0
  exact Ledger.refl

theorem keeps_invalidateFunction (f : Function) (preserved : Preserved) :
    (code.functionTier.invalidate f preserved).Keeps Role.Any True 0 fun _ ↦ 0 :=
  Tier.keeps_invalidate code.keeps_functionInvalidateWithin f preserved

theorem keeps_invalidateFunctions (preserved : Preserved) (functions : Functions) :
    (invalidateFunctions code preserved functions).Keeps Role.Any True 0 fun _ ↦ 0 := by
  induction functions with
  | nil => exact .pure () rfl
  | cons f rest ih => exact (code.keeps_invalidateFunction f preserved).bind fun _ ↦ ih

theorem keeps_invalidateModule (m : Module) (preserved : Preserved) :
    (code.moduleTier.invalidate m preserved).Keeps Role.Any True 0 fun _ ↦ 0 :=
  Tier.keeps_invalidate (fun u preserved ↦ code.keeps_invalidateFunctions preserved u.content) m
    preserved

end Code

end ForeignPasses
