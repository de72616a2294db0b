import ForeignPasses.Proofs.Ownership.Objects
import Mathlib.Data.List.Perm.Subperm

/-!
# Parts of what is held

What an object holds is a part of what all objects hold together, and the result for one unit and
one key is one of all results. So nothing is held anywhere that is not held by the session.
-/

namespace ForeignPasses

variable {α κ S : Type}

/-! ## Single results -/

/-- Each result counts among all results. -/
def Holding.Itemized (h : Holding) : Prop := ∀ unit key x, h (.entry unit key) x ≤ h .result x

theorem Holding.Itemized.add {h h' : Holding} (hh : h.Itemized) (hh' : h'.Itemized) :
    (h + h').Itemized :=
  fun unit key x ↦ Nat.add_le_add (hh unit key x) (hh' unit key x)

theorem itemized_zero : Holding.Itemized 0 := fun _ _ _ ↦ Nat.le_refl _

theorem itemized_contexts (t : Tally) : (contexts t).Itemized := fun _ _ _ ↦ Nat.le_refl _

theorem itemized_caching (t : Table (UnitId × Key) Result) : (caching t).Itemized := by
  intro unit key x
  have htotal := congrFun (t.total_eq (unit, key) fun r ↦ tally (releases r)) x
  have hfound : tally (releases (t.find? (unit, key))) =
      (t.find? (unit, key)).elim 0 fun r ↦ tally (releases r) := by
    cases t.find? (unit, key) <;> rfl
  rw [caching, caching, htotal, hfound]
  exact Nat.le_add_right _ _

section Containers

variable [Account α] (hitems : ∀ a : α, (holding a).Itemized)

include hitems

theorem itemized_list (l : List α) : (holding l).Itemized := by
  induction l with
  | nil => exact itemized_zero
  | cons a l ih =>
    rw [holding_cons]
    exact (hitems a).add ih

theorem itemized_table (t : Table κ α) : (holding t).Itemized := by
  rw [← holding_values]
  exact itemized_list hitems t.values

theorem itemized_option (o : Option α) : (holding o).Itemized := by
  cases o with
  | none => exact itemized_zero
  | some a => exact hitems a

end Containers

theorem itemized_manager [Account S] (hinner : ∀ s : S, (holding s).Itemized) (m : Manager S) :
    (holding m).Itemized := by
  have hanalysis (r : Registered S) : (holding r).Itemized := by
    obtain ⟨analysis, running⟩ := r
    cases analysis with
    | foreign entry context => exact itemized_contexts _
    | native entry => exact itemized_zero
    | attached inner => exact hinner inner
  rw [Manager.holding_eq]
  exact (itemized_table hanalysis m.analyses).add (itemized_caching m.results)

theorem itemized_functionManager (m : FunctionManager) : (holding m).Itemized :=
  itemized_manager (fun e ↦ e.elim) m

theorem itemized_pass {J : Type} [Owner J] (p : Pass J) : (holding p).Itemized :=
  itemized_contexts _

/-! ## Single objects -/

theorem Objects.itemized_holdingAt (o : Objects) (id : ObjectId) : (o.holdingAt id).Itemized := by
  obtain ⟨sort, name⟩ := id
  cases sort with
  | module => exact itemized_zero
  | function => exact itemized_zero
  | builder => exact itemized_option (fun _ ↦ itemized_contexts _) _
  | moduleManager => exact itemized_option (itemized_manager itemized_functionManager) _
  | functionManager => exact itemized_option itemized_functionManager _
  | modulePipeline => exact itemized_option (itemized_list itemized_pass) _
  | functionPipeline => exact itemized_option (itemized_list itemized_pass) _
  | subscription => exact itemized_contexts _

theorem Shelf.holdingAt_le [Account α] (shelf : Shelf α) (o : Objects) (name : String) (role : Role)
    (x : Option Nat) : o.holdingAt (shelf.sort, name) role x ≤ holding o role x := by
  have hwhole := congrFun (congrFun (shelf.holding_put o ∅) role) x
  have herase := congrFun (congrFun (holding_erase (shelf.table o) name) role) x
  rw [holding_empty, add_zero] at hwhole
  rw [shelf.holdingAt_eq]
  simp only [Pi.add_apply] at hwhole herase
  omega

namespace Objects

theorem holdingAt_subscription_le (o : Objects) (name : String) (role : Role) (x : Option Nat) :
    o.holdingAt (.subscription, name) role x ≤ holding o role x := by
  have hpart : o.holdingAt (.subscription, name) role x ≤ subscribed o.subscriptions role x := by
    cases role with
    | context =>
      have hsubset : releases (o.subscriptions.find? name) ⊆
          sharedReleases o.subscriptions.values :=
        fun r hr ↦ List.mem_eraseDups.2 (mem_releases_of_find? o.subscriptions name hr)
      have hsubperm := (nodup_releases_find? o.subscriptions name).subperm hsubset
      exact hsubperm.countP_le _
    | result => exact Nat.le_refl _
    | entry unit key => exact Nat.le_refl _
  rw [holding_eq]
  exact Nat.le_trans hpart (Nat.le_add_left _ _)

/-- What an object holds is a part of the whole. -/
theorem holdingAt_le (o : Objects) (id : ObjectId) (role : Role) (x : Option Nat) :
    o.holdingAt id role x ≤ holding o role x := by
  obtain ⟨sort, name⟩ := id
  cases sort with
  | module => exact Nat.zero_le _
  | function => exact Nat.zero_le _
  | builder => exact Shelf.builders.holdingAt_le o name role x
  | moduleManager => exact Shelf.moduleManagers.holdingAt_le o name role x
  | functionManager => exact Shelf.functionManagers.holdingAt_le o name role x
  | modulePipeline => exact Shelf.modulePipelines.holdingAt_le o name role x
  | functionPipeline => exact Shelf.functionPipelines.holdingAt_le o name role x
  | subscription => exact o.holdingAt_subscription_le name role x

/-- What an object holds in any role is held. -/
theorem holdingAt_le_held (o : Objects) (id : ObjectId) (role : Role) (x : Option Nat) :
    o.holdingAt id role x ≤ held o x := by
  have hcontext := o.holdingAt_le id .context x
  have hresult := o.holdingAt_le id .result x
  simp only [held, Holding.sum, Pi.add_apply]
  cases role with
  | context => omega
  | result => omega
  | entry unit key =>
    have hitem := o.itemized_holdingAt id unit key x
    omega

end Objects

end ForeignPasses
