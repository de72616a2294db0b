import ForeignPasses.Proofs.Manager.Computed

/-!
# What can be recalled

The history of the results of a manager: computations that are completed, and invalidations. From it
can be told which results are still there.
-/

namespace ForeignPasses

/-- What may happen to results. -/
inductive Happening where
  | completed (place : UnitId × Key) (r : Result)
  | invalidated (id : UnitId) (preserved : Preserved)
  | cleared

namespace Happening

variable {past history history' : List Happening} {place : UnitId × Key} {r : Result}

def isCompleted : Happening → Bool
  | completed .. => true
  | _ => false

/-- The result in a place is lost if there is one. -/
def drops (place : UnitId × Key) : Happening → Bool
  | completed .. => false
  | invalidated id preserved => place.1 = id && !preserved.contains place.2
  | cleared => true

/-- What is known of a place after a happening, given what was known before. -/
def after (place : UnitId × Key) (known : Option Result) : Happening → Option Result
  | completed place' r => if place = place' then some r else known
  | invalidated id preserved => if (invalidated id preserved).drops place then none else known
  | cleared => none

/-- The result of the last computation for a place, if nothing has dropped it since. -/
def recalled (history : List Happening) (place : UnitId × Key) : Option Result :=
  history.foldl (after place) none

theorem recalled_append_singleton (history : List Happening) (happening : Happening)
    (place : UnitId × Key) :
    recalled (history ++ [happening]) place = happening.after place (recalled history place) := by
  rw [recalled, List.foldl_append]
  rfl

/-- What has been computed is known as long as nothing drops it. -/
theorem isSome_recalled {earlier between : List Happening}
    (hdrops : ∀ happening ∈ between, happening.drops place = false) :
    (recalled (earlier ++ completed place r :: between) place).isSome = true := by
  have hkept (known : Option Result) (hknown : known.isSome = true) :
      (between.foldl (after place) known).isSome = true := by
    induction between generalizing known with
    | nil => exact hknown
    | cons happening rest ih =>
      apply ih fun other hother ↦ hdrops other (List.mem_cons_of_mem happening hother)
      have hfirst := hdrops happening List.mem_cons_self
      cases happening with
      | completed place' r =>
        rw [after]
        split
        · rfl
        · exact hknown
      | invalidated id preserved => rwa [after, if_neg (by simp [hfirst])]
      | cleared => cases hfirst
  rw [recalled, List.foldl_append, List.foldl_cons, after, if_pos rfl]
  exact hkept (some r) rfl

/-- Whenever a computation for a place is completed, the one before it has been dropped. -/
def Once (past history : List Happening) : Prop :=
  ∀ before place r later, history = before ++ completed place r :: later →
    ∀ earlier r' between, past ++ before = earlier ++ completed place r' :: between →
      ∃ happening ∈ between, happening.drops place = true

/-- Computations are completed for places of which nothing is known. -/
def Sparing (past history : List Happening) : Prop :=
  ∀ before place r later, history = before ++ completed place r :: later →
    recalled (past ++ before) place = none

namespace Sparing

theorem once (h : Sparing past history) : Once past history := by
  intro before place r later hhistory earlier r' between hsplit
  have hnone := h before place r later hhistory
  rw [hsplit] at hnone
  by_contra hkept
  have hsome : (recalled (earlier ++ completed place r' :: between) place).isSome = true := by
    apply isSome_recalled
    intro happening hmem
    rw [← Bool.not_eq_true]
    exact fun hdrops ↦ hkept ⟨happening, hmem, hdrops⟩
  rw [hnone] at hsome
  cases hsome

theorem of_none_completed (h : ∀ happening ∈ history, happening.isCompleted = false) :
    Sparing past history := by
  intro before place r later hhistory
  have hcompleted := h (completed place r) (by simp [hhistory])
  cases hcompleted

theorem append (h : Sparing past history) (h' : Sparing (past ++ history) history') :
    Sparing past (history ++ history') := by
  intro before place r later hsplit
  rcases List.append_eq_append_iff.1 hsplit with ⟨rest, hbefore, hlater⟩ | ⟨rest, hhistory, hrest⟩
  · rw [hbefore, ← List.append_assoc]
    exact h' rest place r later hlater
  · cases rest with
    | nil =>
      rw [List.append_nil] at hhistory
      rw [← hhistory]
      have hnone := h' [] place r later hrest.symm
      rwa [List.append_nil] at hnone
    | cons first rest =>
      obtain ⟨rfl, -⟩ := List.cons_eq_cons.1 hrest
      exact h before place r rest hhistory

theorem singleton (hnone : recalled past place = none) (r : Result) :
    Sparing past [completed place r] := by
  intro before place' r' later hsplit
  cases before with
  | nil =>
    cases hsplit
    rwa [List.append_nil]
  | cons first before => simp at hsplit

end Sparing

/-- The happenings that go with new results. -/
def completions (new : Computed) : List Happening := new.map fun e ↦ completed e.1 e.2

/-- If some entries are what can be recalled, then they still are when another one has come in. -/
theorem mem_append_iff_recalled {old : Computed} (hfresh : ∀ r', (place, r') ∉ old)
    (hold : ∀ place r, (place, r) ∈ old ↔ recalled past place = some r) (r : Result)
    (place' : UnitId × Key) (r' : Result) : (place', r') ∈ old ++ [(place, r)] ↔
      recalled (past ++ [completed place r]) place' = some r' := by
  rw [recalled_append_singleton, after, List.mem_append, List.mem_singleton, Prod.mk.injEq]
  split
  · rename_i heq
    subst heq
    simp [hfresh r', eq_comm]
  · rename_i hne
    simp [hne, hold]

/-- The same when more of them have come in, for different places. All of them were missing
before. -/
theorem recalled_completions {old new : Computed} (hnodup : ((old ++ new).map Prod.fst).Nodup)
    (hold : ∀ place r, (place, r) ∈ old ↔ recalled past place = some r) :
    (∀ place r, (place, r) ∈ old ++ new ↔ recalled (past ++ completions new) place = some r) ∧
      Sparing past (completions new) := by
  induction new generalizing old past with
  | nil =>
    refine ⟨fun place r ↦ ?_, Sparing.of_none_completed fun _ h ↦ nomatch h⟩
    rw [List.append_nil, completions, List.map_nil, List.append_nil]
    exact hold place r
  | cons e rest ih =>
    obtain ⟨place', r'⟩ := e
    have hfresh (r : Result) : (place', r) ∉ old := by
      intro hmem
      rw [List.map_append, List.nodup_append] at hnodup
      exact hnodup.2.2 place' (List.mem_map_of_mem hmem) place' (by simp) rfl
    have hassoc : old ++ (place', r') :: rest = old ++ [(place', r')] ++ rest := by simp
    have hpast : past ++ completions ((place', r') :: rest) =
        past ++ [completed place' r'] ++ completions rest := by simp [completions]
    rw [hassoc] at hnodup
    obtain ⟨hrecall, hsparing⟩ := ih hnodup (mem_append_iff_recalled hfresh hold r')
    refine ⟨fun place r ↦ ?_, ?_⟩
    · rw [hassoc, hpast]
      exact hrecall place r
    · have hnone : recalled past place' = none :=
        Option.eq_none_iff_forall_ne_some.2 fun r hr ↦ hfresh r ((hold place' r).2 hr)
      exact (Sparing.singleton hnone r').append hsparing

end Happening

end ForeignPasses
