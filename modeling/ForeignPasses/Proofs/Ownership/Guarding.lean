import ForeignPasses.Session.Run
import ForeignPasses.Proofs.Ownership.Objects

/-!
# Steps that keep accounts

A step of a session keeps account of everything, and every object keeps what it holds unless the
step is there to take it away.
-/

namespace ForeignPasses

open Exec

/-- What a step may take away from objects. -/
abbrev Losses := ObjectId → Role → Prop

/-- Accounts are settled from one world to a later one, and nothing is taken away from an object
but what may be, and results that analyses were told about. -/
structure Guards (loses : Losses) (w : World Objects) (hand : Tally) (w' : World Objects)
    (hand' : Tally) : Prop where
  settles : Settles (fun _ ↦ False) w hand w' hand'
  stays : ∀ id role, ¬loses id role →
    losses w'.shared.events role = losses w.shared.events role →
      ∀ x, w.focus.holdingAt id role x ≤ w'.focus.holdingAt id role x

namespace Guards

variable {loses loses' : Losses} {w w' w'' : World Objects} {hand hand' hand'' : Tally}

theorem refl : Guards loses w hand w hand where
  settles := Ledger.refl
  stays _ _ _ _ _ := Nat.le_refl _

theorem trans (h : Guards loses w hand w' hand') (h' : Guards loses w' hand' w'' hand'') :
    Guards loses w hand w'' hand'' where
  settles := h.settles.trans h'.settles
  stays id role hloses hlost x := by
    have hle := h.settles.lost_le role
    have hle' := h'.settles.lost_le role
    simp only [Shared.books] at hle hle'
    have hx := h.stays id role hloses (by omega) x
    exact Nat.le_trans hx (h'.stays id role hloses (by omega) x)

theorem mono (h : Guards loses w hand w' hand')
    (hloses : ∀ id role, loses id role → loses' id role) : Guards loses' w hand w' hand' where
  settles := h.settles
  stays id role hnot := h.stays id role fun hl ↦ hnot (hloses id role hl)

/-- No object has changed. -/
theorem of_settles {kept : Role → Prop} (h : Settles kept w hand w' hand')
    (hfocus : w'.focus = w.focus) : Guards loses w hand w' hand' where
  settles := Ledger.mono h fun _ ↦ False.elim
  stays id role _ _ x := by rw [hfocus]

/-- The objects hold what they held. -/
theorem of_same (hsame : w.focus.Same w'.focus) (hshared : w'.shared = w.shared) :
    Guards loses w hand w' hand where
  settles := Settles.of_eq hsame.whole (by rw [hshared])
  stays id role _ _ x := by rw [hsame.parts]

/-- One object has changed, or a part of it. -/
theorem of_part {kept : Role → Prop} {id : ObjectId} {h h' : Holding} {s : Shared} {o : Objects}
    (hledger : Ledger kept w.shared.books h hand s.books h' hand')
    (hex : Exchanges id h h' w.focus o) (hkept : ∀ role, ¬loses id role → kept role) :
    Guards loses w hand ⟨s, o⟩ hand' where
  settles := (hledger.mono fun _ ↦ False.elim).whole hex.whole
  stays other role hloses hlost x := by
    by_cases hid : other = id
    · subst hid
      have hle := hledger.kept role (hkept role hloses) hlost x
      have hpart := congrFun (congrFun hex.part role) x
      simp only [Pi.add_apply] at hle hpart ⊢
      omega
    · rw [hex.others other hid]

end Guards

namespace Session

variable {α β τ : Type} {w w' : World Objects} {post : Except Refusal α → World Objects → Prop}
  {halted : Halt → World Objects → Prop}

/-! ## What a step ensures -/

/-- Started in a world, a step ends in an answer or a refusal and a world with `post`, or in a halt
and a world with `halted`. -/
def Ensures (act : Act α) (w : World Objects) (post : Except Refusal α → World Objects → Prop)
    (halted : Halt → World Objects → Prop) : Prop :=
  Exec.Ensures act.run w post halted

theorem ensures_bind (act : Act β) (f : β → Act α) :
    Ensures (act >>= f) w post halted ↔
      Ensures act w (fun r w' ↦ match r with
        | .ok b => Ensures (f b) w' post halted
        | .error refusal => post (.error refusal) w') halted := by
  rw [Ensures, ExceptT.run_bind, Exec.ensures_bind]
  constructor
  all_goals
    refine fun h ↦ Exec.Ensures.mono h ?_ fun _ _ h ↦ h
    intro r w' h
    cases r <;> exact h

theorem ensures_pure (a : α) : Ensures (pure a) w post halted ↔ post (.ok a) w := Iff.rfl

theorem ensures_lift (act : Exec Objects α) :
    Ensures (ExceptT.lift act) w post halted ↔
      Exec.Ensures act w (fun a w' ↦ post (.ok a) w') halted :=
  Exec.ensures_map act _

theorem ensures_objects {post : Except Refusal Objects → World Objects → Prop} :
    Ensures objects w post halted ↔ post (.ok w.focus) w :=
  Iff.rfl

theorem ensures_require (table : Objects → Table String α) (name : String) :
    Ensures (require table name) w post halted ↔
      match (table w.focus).find? name with
      | some a => post (.ok a) w
      | none => post (.error (.noSuch name)) w := by
  rw [require, ensures_bind, ensures_objects]
  change Ensures (match (table w.focus).find? name with
    | some a => pure a
    | none => throw (.noSuch name)) w post halted ↔ _
  cases (table w.focus).find? name <;> exact Iff.rfl

theorem ensures_modifyObjects {post : Except Refusal Unit → World Objects → Prop}
    (f : Objects → Objects) :
    Ensures (modifyObjects f) w post halted ↔ post (.ok ()) ⟨w.shared, f w.focus⟩ :=
  Iff.rfl

theorem ensures_take (part : String) (table : Objects → Table String α) (erase : Objects → Objects)
    (name : String) :
    Ensures (take part table erase name) w post halted ↔
      match (table w.focus).find? name with
      | some a => post (.ok a) ⟨w.shared, erase w.focus⟩
      | none => post (.error (.noSuch part)) w := by
  rw [take, ensures_bind, ensures_objects]
  change Ensures (match (table w.focus).find? name with
    | some a => do
      modifyObjects erase
      return a
    | none => throw (.noSuch part)) w post halted ↔ _
  cases (table w.focus).find? name <;> exact Iff.rfl

theorem ensures_on (a : τ) (put : τ → Objects → Objects) (act : Exec τ α) :
    Ensures (on a put act) w post halted ↔
      Exec.Ensures act ⟨w.shared, a⟩
        (fun b w' ↦ post (.ok b) ⟨w'.shared, put w'.focus w.focus⟩)
        (fun e w' ↦ halted e ⟨w'.shared, put w'.focus w.focus⟩) := by
  rw [on, ensures_lift, Exec.ensures_zoom]

theorem ensures_orDrop [Owner τ] (a : τ) (act : Act α) :
    Ensures (orDrop a act) w post halted ↔
      Ensures act w (fun r w' ↦ match r with
        | .ok b => post (.ok b) w'
        | .error refusal => post (.error refusal)
            ⟨{ w'.shared with events := w'.shared.events ++ (releases a).map .released },
              w'.focus⟩) halted := by
  rw [Ensures, orDrop, ExceptT.run_tryCatch, Exec.ensures_bind]
  constructor
  all_goals
    refine fun h ↦ Exec.Ensures.mono h ?_ fun _ _ h ↦ h
    intro r w' h
    cases r <;> exact h

/-! ## Steps that keep accounts -/

/-- What is in hand when a step goes on; a step that is refused has dropped all of it. -/
def inHand (out : α → Tally) : Except Refusal α → Tally
  | .ok a => out a
  | .error _ => 0

/-- Started in one world with some addresses in hand, a step keeps account of them all. -/
def GuardsAt (loses : Losses) (w : World Objects) (hand : Tally) (act : Act α) (out : α → Tally) :
    Prop :=
  Ensures act w (fun r w' ↦ Guards loses w hand w' (inHand out r))
    (Excused True fun w' ↦ Guards loses w hand w' 0)

namespace GuardsAt

variable {loses : Losses} {hand hand' : Tally} {out : α → Tally} {mid : β → Tally}

theorem after {act : Act α} (hact : GuardsAt loses w' hand' act out)
    (h : Guards loses w hand w' hand') :
    Ensures act w' (fun r w'' ↦ Guards loses w hand w'' (inHand out r))
      (Excused True fun w'' ↦ Guards loses w hand w'' 0) :=
  Exec.Ensures.mono hact (fun _ _ h' ↦ h.trans h') fun _ _ h' ↦ h'.mono id fun h' ↦ h.trans h'

/-- A step that goes on from what another one found. -/
theorem bind_of {found : β → World Objects → Prop} {act : Act β} {f : β → Act α}
    (hact : Ensures act w
      (fun r w' ↦ Guards loses w hand w' (inHand mid r) ∧ ∀ b, r = .ok b → found b w')
      (Excused True fun w' ↦ Guards loses w hand w' 0))
    (hf : ∀ b w', found b w' → GuardsAt loses w' (mid b) (f b) out) :
    GuardsAt loses w hand (act >>= f) out := by
  rw [GuardsAt, ensures_bind]
  refine Exec.Ensures.mono hact ?_ fun _ _ h ↦ h
  rintro r w' ⟨hguards, hfound⟩
  cases r with
  | ok b => exact (hf b w' (hfound b rfl)).after hguards
  | error refusal => exact hguards

theorem bind {act : Act β} {f : β → Act α} (hact : GuardsAt loses w hand act mid)
    (hf : ∀ b w', GuardsAt loses w' (mid b) (f b) out) : GuardsAt loses w hand (act >>= f) out := by
  have hany : Ensures act w
      (fun r w' ↦ Guards loses w hand w' (inHand mid r) ∧ ∀ b, r = .ok b → True)
      (Excused True fun w' ↦ Guards loses w hand w' 0) :=
    Exec.Ensures.mono hact (fun _ _ h ↦ ⟨h, fun _ _ ↦ trivial⟩) fun _ _ h ↦ h
  have hgoes (b : β) (w' : World Objects) (_ : True) := hf b w'
  exact bind_of hany hgoes

theorem pure (a : α) (h : out a = hand) : GuardsAt loses w hand (Pure.pure a) out := by
  change Guards loses w hand w (out a)
  rw [h]
  exact .refl

/-- What is refused has nothing in hand. -/
theorem throw (refusal : Refusal) : GuardsAt loses w 0 (throw refusal) out := Guards.refl

theorem require {table : Objects → Table String β} {name : String} {f : β → Act α}
    (hf : ∀ b, (table w.focus).find? name = some b → GuardsAt loses w 0 (f b) out) :
    GuardsAt loses w 0 (require table name >>= f) out := by
  rw [GuardsAt, ensures_bind, ensures_require]
  cases hfind : (table w.focus).find? name with
  | some b => exact hf b hfind
  | none => exact Guards.refl

theorem refuseWith {ε : Type} {r : Except ε β} {refusal : ε → Refusal} {f : β → Act α}
    (hf : ∀ b, GuardsAt loses w 0 (f b) out) :
    GuardsAt loses w 0 (refuseWith refusal r >>= f) out := by
  cases r with
  | ok b => exact hf b
  | error e => exact Guards.refl

/-- Something that leaves the objects alone. -/
theorem lift {kept : Role → Prop} {act : Exec Objects α}
    (h : act.KeepsAt kept True w hand out)
    (hstill : act.Ensures w (fun _ w' ↦ w'.focus = w.focus) fun _ w' ↦ w'.focus = w.focus) :
    GuardsAt loses w hand (ExceptT.lift act) out := by
  rw [GuardsAt, ensures_lift]
  refine (Exec.Ensures.and h hstill).mono ?_ ?_
  · rintro a w' ⟨hsettles, hfocus⟩
    exact .of_settles hsettles hfocus
  · rintro e w' ⟨hexcused, hfocus⟩
    exact hexcused.mono id fun hsettles ↦ .of_settles hsettles hfocus

/-- Work on a part of one object. -/
theorem on [Account τ] {kept : Role → Prop} {id : ObjectId} {a : τ} {put : τ → Objects → Objects}
    {act : Exec τ α} (h : act.KeepsAt kept True ⟨w.shared, a⟩ hand out)
    (hput : ∀ t, Exchanges id (holding a) (holding t) w.focus (put t w.focus))
    (hkept : ∀ role, ¬loses id role → kept role) : GuardsAt loses w hand (on a put act) out := by
  rw [GuardsAt, ensures_on]
  refine Exec.Ensures.mono h ?_ ?_
  · intro b w' hsettles
    exact .of_part hsettles (hput w'.focus) hkept
  · intro e w' hexcused
    exact hexcused.mono (fun h ↦ h) fun hsettles ↦ .of_part hsettles (hput w'.focus) hkept

/-! ### Objects that come and go -/

theorem objects {f : Objects → Act α} (h : GuardsAt loses w hand (f w.focus) out) :
    GuardsAt loses w hand (objects >>= f) out := by
  rw [GuardsAt, ensures_bind, ensures_objects]
  exact h

/-- One object is exchanged, with what is in hand. -/
theorem modify {id : ObjectId} {h h' : Holding} {f : Objects → Objects}
    (hex : Exchanges id h h' w.focus (f w.focus)) (hbalance : h'.sum + hand' = h.sum + hand)
    (hkept : ∀ role, ¬loses id role → ∀ x, h role x ≤ h' role x) :
    GuardsAt loses w hand (modifyObjects f) fun _ ↦ hand' := by
  have hledger : Ledger (fun role ↦ ¬loses id role) w.shared.books h hand w.shared.books h'
      hand' := by
    constructor
    · intro x
      have hx := congrFun hbalance x
      simp only [Pi.add_apply] at hx
      omega
    · exact Nat.le_refl _
    · intro x
      exact Nat.le_add_right _ _
    · intro x
      exact Nat.le_refl _
    · intro role
      exact Nat.le_refl _
    · intro role hrole _
      exact hkept role hrole
  rw [GuardsAt, ensures_modifyObjects]
  exact Guards.of_part hledger hex fun _ h ↦ h

/-- The objects change and hold what they held. -/
theorem modify_same {f : Objects → Objects} (hsame : w.focus.Same (f w.focus)) :
    GuardsAt loses w hand (modifyObjects f) fun _ ↦ hand :=
  Guards.of_same hsame rfl

theorem discardAll (rs : List Release) :
    GuardsAt loses w (tally rs + hand) (discardAll rs) fun _ ↦ hand := by
  have hrelease : (release rs : Exec Objects Unit).Keeps Role.Any True (tally rs + hand)
      fun _ ↦ hand := keeps_release rs
  exact lift (hrelease w) rfl

section Shelves

variable [Owner β] [Account β] [Accounted β] (shelf : Shelf β) (name : String)

theorem store (hloses : ∀ role, loses (shelf.sort, name) role) (b : β) :
    GuardsAt loses w (held b)
      (store shelf.table (fun name b o ↦ shelf.put o ((shelf.table o).insert name b)) name b)
      fun _ ↦ 0 := by
  apply objects
  have hmodify : GuardsAt loses w (held b)
      (modifyObjects fun o ↦ shelf.put o ((shelf.table o).insert name b))
      fun _ ↦ held ((shelf.table w.focus).find? name) + 0 :=
    modify (shelf.exchanges_insert w.focus name b) (by rw [add_zero, add_comm]; rfl)
      fun role h ↦ absurd (hloses role) h
  refine hmodify.bind fun _ w' ↦ ?_
  rw [← tally_releases]
  exact discardAll _

theorem remove (hloses : ∀ role, loses (shelf.sort, name) role) :
    GuardsAt loses w 0
      (remove shelf.table (fun o ↦ shelf.put o ((shelf.table o).erase name)) name)
      fun _ ↦ 0 := by
  apply objects
  have hmodify : GuardsAt loses w 0
      (modifyObjects fun o ↦ shelf.put o ((shelf.table o).erase name))
      fun _ ↦ held ((shelf.table w.focus).find? name) + 0 :=
    modify (shelf.exchanges_erase w.focus name) (by rw [add_zero, add_comm]; rfl)
      fun role h ↦ absurd (hloses role) h
  refine hmodify.bind fun _ w' ↦ ?_
  rw [← tally_releases]
  exact (discardAll _).bind fun _ w'' ↦ .pure _ rfl

omit [Owner β] [Accounted β] in
theorem take (part : String) (hloses : ∀ role, loses (shelf.sort, name) role) :
    GuardsAt loses w 0
      (take part shelf.table (fun o ↦ shelf.put o ((shelf.table o).erase name)) name) held := by
  apply objects
  cases hfind : (shelf.table w.focus).find? name with
  | none => exact .throw _
  | some b =>
    have hmodify : GuardsAt loses w 0
        (modifyObjects fun o ↦ shelf.put o ((shelf.table o).erase name)) fun _ ↦ held b := by
      refine modify (shelf.exchanges_erase w.focus name) ?_ fun role h ↦ absurd (hloses role) h
      rw [hfind, add_comm]
      rfl
    exact hmodify.bind fun _ w' ↦ .pure b rfl

end Shelves

/-- What was taken is dropped if the object that it was taken for is not there. -/
theorem orDrop [Owner τ] [Account τ] [Accounted τ] {a : τ} {table : Objects → Table String β}
    {name : String} {f : β → Act α}
    (hf : ∀ b, (table w.focus).find? name = some b → GuardsAt loses w (held a) (f b) out) :
    GuardsAt loses w (held a) (orDrop a (Session.require table name) >>= f) out := by
  rw [GuardsAt, ensures_bind, ensures_orDrop, ensures_require]
  cases hfind : (table w.focus).find? name with
  | some b => exact hf b hfind
  | none =>
    have hdiscard : (discard a : Exec Objects Unit).Keeps Role.Any False (held a + 0)
        fun _ ↦ 0 := keeps_discard a
    rw [add_zero] at hdiscard
    exact .of_settles (hdiscard w) rfl

/-! ### Subscriptions -/

theorem modify_subscriptions {t : Table String Subscription} {name : String}
    {f : Objects → Objects} (hf : f w.focus = { w.focus with subscriptions := t })
    (hbalance : tally (Objects.sharedReleases t.values) + hand' =
      tally (Objects.sharedReleases w.focus.subscriptions.values) + hand)
    (hothers : ∀ other, other ≠ name → t.find? other = w.focus.subscriptions.find? other)
    (hloses : ∀ role, loses (.subscription, name) role) :
    GuardsAt loses w hand (modifyObjects f) fun _ ↦ hand' := by
  rw [GuardsAt, ensures_modifyObjects, hf]
  have hkeeps : (modifyFocus fun _ ↦ { w.focus with subscriptions := t } :
      Exec Objects Unit).KeepsAt (fun _ ↦ False) True w hand fun _ ↦ hand' := by
    refine keepsAt_modifyFocus (fun x ↦ ?_) fun _ ↦ False.elim
    have hwhole := congrFun (congrArg Holding.sum (w.focus.holding_setSubscriptions t)) x
    have hx := congrFun hbalance x
    simp only [Objects.subscribed, Holding.sum_add, sum_contexts, Pi.add_apply, held] at hwhole hx ⊢
    omega
  constructor
  · exact hkeeps
  · intro id role hid _ x
    have hne : id ≠ (.subscription, name) := fun h ↦ hid (h ▸ hloses role)
    rw [w.focus.holdingAt_setSubscriptions hothers hne]

theorem bind_modify {f : Objects → Objects} {g : Unit → Act α}
    (hmodify : GuardsAt loses w hand (modifyObjects f) fun _ ↦ hand')
    (hg : GuardsAt loses ⟨w.shared, f w.focus⟩ hand' (g ()) out) :
    GuardsAt loses w hand (modifyObjects f >>= g) out := by
  rw [GuardsAt, ensures_bind]
  exact hg.after hmodify

/-- A context that others share is released with the last of them. -/
theorem storeSubscription {name : String} (hloses : ∀ role, loses (.subscription, name) role)
    (s : Subscription) :
    GuardsAt loses w
      (tally ((releases s).filter fun r ↦
        !(releases w.focus.subscriptions.values).contains r))
      (storeSubscription name s) fun _ ↦ 0 := by
  apply objects
  have hshared := Objects.tally_shared_insert w.focus.subscriptions name s
  refine bind_modify (modify_subscriptions rfl hshared ?_ hloses) ?_
  · intro other hother
    rw [Table.find?_insert, if_neg hother]
  · apply objects
    rw [← add_zero (tally _)]
    exact discardAll _

theorem removeSubscription {name : String} (hloses : ∀ role, loses (.subscription, name) role) :
    GuardsAt loses w 0 (removeSubscription name) fun _ ↦ 0 := by
  apply objects
  have hshared := Objects.tally_shared_erase w.focus.subscriptions name
  rw [← add_zero (tally (Objects.sharedReleases w.focus.subscriptions.values))] at hshared
  refine bind_modify (modify_subscriptions rfl hshared ?_ hloses) ?_
  · intro other hother
    rw [Table.find?_erase, if_neg hother]
  · rw [← add_zero (tally _)]
    exact (discardAll _).bind fun _ _ ↦ .pure _ rfl

end GuardsAt

end Session

end ForeignPasses
