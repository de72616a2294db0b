import ForeignPasses.Proofs.Manager.Computed
import ForeignPasses.Proofs.Manager.Stages

/-!
# What an invalidation drops

An invalidation drops the results of one unit under the registered keys that are not preserved, and
no others. Which analyses are registered and running stays the same.
-/

namespace ForeignPasses

open Exec

namespace Manager

variable {S : Type} {m m' m'' : Manager S} {id : UnitId}

theorem Grown.find?_eq (h : m.Grown [] m') (place : UnitId × Key) :
    m'.results.find? place = m.results.find? place := by
  rw [Table.find?, h.entries_eq, List.append_nil]
  rfl

/-- Some keys of a unit have lost their results. -/
structure Dropped (m : Manager S) (id : UnitId) (lost : Key → Bool) (m' : Manager S) : Prop where
  profile_eq : m'.profile = m.profile
  find?_eq : ∀ id' key, m'.results.find? (id', key) =
    if id' = id ∧ lost key = true then none else m.results.find? (id', key)

namespace Dropped

variable {lost lost' : Key → Bool}

theorem of_grown (h : m.Grown [] m') (hlost : ∀ key, lost key = false) : m.Dropped id lost m' where
  profile_eq := h.profile_eq
  find?_eq id' key := by simp [hlost, h.find?_eq]

theorem erase (m : Manager S) (id : UnitId) (key : Key) :
    m.Dropped id (· = key) { m with results := m.results.erase (id, key) } where
  profile_eq := rfl
  find?_eq id' k := by simp [Table.find?_erase]

theorem trans (h : m.Dropped id lost m') (h' : m'.Dropped id lost' m'') :
    m.Dropped id (fun key ↦ lost key || lost' key) m'' where
  profile_eq := h'.profile_eq.trans h.profile_eq
  find?_eq id' key := by
    rw [h'.find?_eq, h.find?_eq]
    by_cases hid : id' = id <;> cases lost key <;> cases lost' key <;> simp [hid]

theorem andGrown (h : m.Dropped id lost m') (h' : m'.Grown [] m'') : m.Dropped id lost m'' where
  profile_eq := h'.profile_eq.trans h.profile_eq
  find?_eq id' key := by rw [h'.find?_eq, h.find?_eq]

theorem congr (h : m.Dropped id lost m') (hlost : ∀ key, lost' key = lost key) :
    m.Dropped id lost' m' where
  profile_eq := h.profile_eq
  find?_eq id' key := by rw [h.find?_eq, hlost]

end Dropped

theorem isRegistered_eq_isSome_profile (m : Manager S) (key : Key) :
    m.isRegistered key = (m.profile.find? key).isSome := by
  rw [find?_profile, Option.isSome_map]
  rfl

theorem isRegistered_congr (h : m'.profile = m.profile) (key : Key) :
    m'.isRegistered key = m.isRegistered key := by
  rw [isRegistered_eq_isSome_profile, isRegistered_eq_isSome_profile, h]

theorem isRegistered_eq_decide (m : Manager S) (key : Key) :
    m.isRegistered key = decide (key ∈ m.analyses.entries.map Prod.fst) := by
  rw [Bool.eq_iff_iff, decide_eq_true_eq]
  exact Table.mem_keys.symm

end Manager

namespace Tier

variable {β I S : Type} {tier : Tier β I S}

/-- Whoever is told about an invalidation does nothing to the results. -/
theorem adds_notify (u : CodeUnit β) (preserved : Preserved) (key : Key) (analysis : Analysis S)
    (w : World (Manager S)) : Adds (tier.notify u preserved key analysis) w [] := by
  unfold Adds
  cases analysis with
  | foreign entry context => exact .refl
  | native entry => exact .refl
  | attached inner =>
    rw [notify, ensures_bind, ensures_emit]
    exact adds_onAttached (tier.invalidateWithin u preserved) _

theorem ensures_invalidateEach_dropped (u : CodeUnit β) (preserved : Preserved)
    (entries : List (Key × Registered S)) (w : World (Manager S)) :
    (tier.invalidateEach u preserved entries).Ensures w
      (fun _ w' ↦ w.focus.Dropped u.id
        (fun key ↦ decide (key ∈ entries.map Prod.fst) && !preserved.contains key) w'.focus)
      fun _ _ ↦ True := by
  induction entries generalizing w with
  | nil => exact .of_grown .refl (by simp)
  | cons e rest ih =>
    obtain ⟨key, registered⟩ := e
    apply ensures_invalidateEach_of
    case hkept =>
      intro hkey
      refine (ih w).relax ?_
      intro _ w' hdropped
      apply hdropped.congr
      intro k
      by_cases hk : k = key
      · simp [hk, hkey]
      · simp only [List.map_cons, List.mem_cons, hk, false_or]
    case hlost =>
      intro hkey
      refine Ensures.relax (adds_notify u preserved key registered.analysis _) ?_
      intro _ w₁ htold
      refine (ih w₁).relax ?_
      intro _ w₂ hrest
      have herased := (Manager.Dropped.erase w.focus u.id key).andGrown htold
      refine (herased.trans hrest).congr fun k ↦ ?_
      by_cases hk : k = key
      · simp [hk, hkey]
      · simp only [List.map_cons, List.mem_cons, hk, decide_false, Bool.false_or, false_or]

/-- An invalidation drops what is registered and not preserved. -/
theorem ensures_invalidate_dropped (u : CodeUnit β) (preserved : Preserved)
    (w : World (Manager S)) :
    (tier.invalidate u preserved).Ensures w
      (fun _ w' ↦ w.focus.Dropped u.id
        (fun key ↦ w.focus.isRegistered key && !preserved.contains key) w'.focus)
      fun _ _ ↦ True := by
  apply ensures_invalidate_of
  case hall =>
    rintro rfl
    exact .of_grown .refl (by simp [Preserved.contains])
  case honly =>
    intro _
    refine (ensures_invalidateEach_dropped u preserved _ w).relax ?_
    intro _ w' hdropped
    exact hdropped.congr fun key ↦ by rw [Manager.isRegistered_eq_decide]

end Tier

end ForeignPasses
