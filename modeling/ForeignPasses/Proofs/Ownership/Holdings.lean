import ForeignPasses.Manager.Basic
import ForeignPasses.Proofs.Ownership.Keeping
import ForeignPasses.Proofs.Ownership.Totals

/-!
# What managers hold

A container holds what its elements hold. A manager holds the contexts of its analyses and its
results, and all that the manager attached to it holds.
-/

namespace ForeignPasses

variable {κ α S : Type}

@[simp] theorem Holding.sum_zero : (0 : Holding).sum = 0 := rfl

@[simp] theorem Holding.sum_add (h h' : Holding) : (h + h').sum = h.sum + h'.sum := by
  unfold Holding.sum
  exact add_add_add_comm _ _ _ _

@[simp] theorem sum_contexts (t : Tally) : (contexts t).sum = t := add_zero t

@[simp] theorem sum_resultAt (unit : UnitId) (key : Key) (t : Tally) :
    (resultAt unit key t).sum = t :=
  zero_add t

@[simp] theorem resultAt_zero (unit : UnitId) (key : Key) : resultAt unit key 0 = 0 := by
  funext role
  cases role with
  | context => rfl
  | result => rfl
  | entry unit' key' => exact ite_self 0

@[simp] theorem contexts_zero : contexts 0 = 0 := by
  funext role
  cases role <;> rfl

theorem contexts_add (t t' : Tally) : contexts (t + t') = contexts t + contexts t' := by
  funext role
  cases role with
  | context => rfl
  | result => exact (add_zero (0 : Tally)).symm
  | entry unit key => exact (add_zero (0 : Tally)).symm

/-! ## Containers -/

section Containers

variable [Account α]

instance : Account (Option α) := ⟨fun o ↦ o.elim 0 holding⟩

instance : Account (List α) := ⟨fun l ↦ (l.map holding).sum⟩

instance : Account (Table κ α) := ⟨fun t ↦ t.total holding⟩

@[simp] theorem holding_none : holding (none : Option α) = 0 := rfl

@[simp] theorem holding_some (a : α) : holding (some a) = holding a := rfl

@[simp] theorem holding_nil : holding ([] : List α) = 0 := rfl

@[simp] theorem holding_cons (a : α) (l : List α) : holding (a :: l) = holding a + holding l :=
  List.sum_cons

@[simp] theorem holding_append (l l' : List α) : holding (l ++ l') = holding l + holding l' := by
  change ((l ++ l').map holding).sum = (l.map holding).sum + (l'.map holding).sum
  rw [List.map_append, List.sum_append]

@[simp] theorem holding_empty : holding (∅ : Table κ α) = 0 := rfl

theorem holding_values (t : Table κ α) : holding t.values = holding t := rfl

variable [DecidableEq κ] (t : Table κ α) (k : κ)

theorem holding_erase : holding (t.erase k) + holding (t.find? k) = holding t :=
  t.total_erase_add k holding

theorem holding_insert (a : α) :
    holding (t.insert k a) + holding (t.find? k) = holding t + holding a :=
  t.total_insert_add k a holding

theorem holding_modify (f : α → α) :
    holding (t.modify k f) + holding (t.find? k) = holding t + holding ((t.find? k).map f) :=
  t.total_modify_add k f holding

end Containers

section Dropping

@[simp] theorem releases_append [Owner α] (l l' : List α) :
    releases (l ++ l') = releases l ++ releases l' :=
  List.flatMap_append

variable [Owner α] [Account α] [Accounted α]

instance : Accounted (Option α) where
  tally_releases
    | none => rfl
    | some a => tally_releases a

instance : Accounted (List α) where
  tally_releases l := by
    induction l with
    | nil => rfl
    | cons a l ih =>
      change tally (releases a ++ releases l) = (holding (a :: l)).sum
      rw [tally_append, holding_cons, Holding.sum_add, tally_releases, ih]
      rfl

end Dropping

/-! ## Managers -/

/-- What cached results come to, all together and one by one. -/
def caching (t : Table (UnitId × Key) Result) : Holding
  | .context => 0
  | .result => t.total fun r ↦ tally (releases r)
  | .entry unit key => tally (releases (t.find? (unit, key)))

section Caching

variable (t : Table (UnitId × Key) Result) (unit : UnitId) (key : Key)

theorem caching_erase :
    caching (t.erase (unit, key)) + resultAt unit key (tally (releases (t.find? (unit, key)))) =
      caching t := by
  funext role
  cases role with
  | context => rfl
  | result =>
    have hfound : tally (releases (t.find? (unit, key))) =
        (t.find? (unit, key)).elim 0 fun r ↦ tally (releases r) := by
      cases t.find? (unit, key) <;> rfl
    change Table.total _ _ + tally (releases (t.find? (unit, key))) = Table.total _ t
    rw [hfound, Table.total_erase_add]
  | entry unit' key' =>
    simp only [Pi.add_apply, caching, resultAt, Table.find?_erase]
    split
    · rename_i heq
      rw [heq]
      exact zero_add _
    · exact add_zero _

theorem caching_insert (r : Result) :
    caching (t.insert (unit, key) r) +
        resultAt unit key (tally (releases (t.find? (unit, key)))) =
      caching t + resultAt unit key (tally (releases r)) := by
  have hplace : caching (t.insert (unit, key) r) =
      caching (t.erase (unit, key)) + resultAt unit key (tally (releases r)) := by
    have hinsert := caching_erase (t.insert (unit, key) r) unit key
    rw [Table.erase_insert, Table.find?_insert_self] at hinsert
    exact hinsert.symm
  rw [hplace, add_right_comm, caching_erase]

end Caching

@[simp] theorem sum_caching (t : Table (UnitId × Key) Result) :
    (caching t).sum = tally (releases t.values) := by
  have hvalues (l : List Result) :
      tally (releases l) = (l.map fun r ↦ tally (releases r)).sum := by
    induction l with
    | nil => rfl
    | cons r l ih =>
      rw [List.map_cons, List.sum_cons, ← ih]
      exact tally_append _ _
  rw [hvalues]
  exact zero_add _

variable [Account S]

instance : Account (Analysis S) where
  holding
    | .foreign _ context => contexts (tally context.drop)
    | .native _ => 0
    | .attached inner => holding inner

instance [Owner S] [Accounted S] : Accounted (Analysis S) where
  tally_releases
    | .foreign _ context => (sum_contexts (tally context.drop)).symm
    | .native _ => rfl
    | .attached inner => tally_releases inner

instance : Account (Registered S) := ⟨fun r ↦ holding r.analysis⟩

instance : Account (Manager S) := ⟨fun m ↦ holding m.analyses + caching m.results⟩

namespace Manager

variable (m : Manager S)

theorem holding_eq : holding m = holding m.analyses + caching m.results := rfl

@[simp] theorem holding_setRunning (key : Key) (running : Bool) :
    holding (m.setRunning key running) = holding m := by
  have hfound : holding ((m.analyses.find? key).map fun r ↦ { r with running }) =
      holding (m.analyses.find? key) := by
    cases m.analyses.find? key <;> rfl
  have hmodify := holding_modify m.analyses key fun r ↦ { r with running }
  rw [hfound] at hmodify
  have hanalyses := add_right_cancel hmodify
  rw [holding_eq, holding_eq, setRunning, hanalyses]

theorem holding_insert_result (unit : UnitId) (key : Key) (r : Result) :
    holding ({ m with results := m.results.insert (unit, key) r } : Manager S) +
        resultAt unit key (tally (releases (m.results.find? (unit, key)))) =
      holding m + resultAt unit key (tally (releases r)) := by
  rw [holding_eq, holding_eq, add_assoc, add_assoc, caching_insert]

theorem holding_erase_result (unit : UnitId) (key : Key) :
    holding ({ m with results := m.results.erase (unit, key) } : Manager S) +
        resultAt unit key (tally (releases (m.results.find? (unit, key)))) = holding m := by
  rw [holding_eq, holding_eq, add_assoc, caching_erase]

theorem holding_insert_analysis {key : Key} (h : m.isRegistered key = false) (a : Analysis S) :
    holding ({ m with analyses := m.analyses.insert key ⟨a, false⟩ } : Manager S) =
      holding m + holding a := by
  have hfind : m.analyses.find? key = none := by
    simpa [isRegistered, Table.contains] using h
  have hinsert := holding_insert m.analyses key ⟨a, false⟩
  rw [hfind, holding_none, add_zero] at hinsert
  rw [holding_eq, holding_eq, hinsert, add_right_comm]
  rfl

theorem holding_setAttached {inner : S} (h : m.attached? = some inner) (inner' : S) :
    holding (m.setAttached inner') + holding inner = holding m + holding inner' := by
  obtain ⟨running, hfind⟩ := find?_of_attached? h
  have hmodify := holding_modify m.analyses .proxy fun r ↦ { r with analysis := .attached inner' }
  rw [hfind] at hmodify
  have hanalyses : holding (m.setAttached inner').analyses + holding inner =
      holding m.analyses + holding inner' := hmodify
  calc holding (m.setAttached inner') + holding inner
    _ = holding (m.setAttached inner').analyses + holding inner + caching m.results :=
      add_right_comm _ _ _
    _ = holding m.analyses + holding inner' + caching m.results := by rw [hanalyses]
    _ = holding m + holding inner' := add_right_comm _ _ _

theorem holding_clear [Owner S] : holding m.clear.1 + caching m.results = holding m := by
  have hempty : caching ∅ = 0 := by
    funext role
    cases role <;> rfl
  change holding m.analyses + caching ∅ + caching m.results = _
  rw [hempty, add_zero]
  rfl

end Manager

instance [Owner S] [Accounted S] : Accounted (Manager S) where
  tally_releases m := by
    have hanalyses : tally (m.analyses.values.flatMap fun r ↦ releases r.analysis) =
        (holding m.analyses).sum := by
      rw [← holding_values]
      induction m.analyses.values with
      | nil => rfl
      | cons r l ih =>
        rw [List.flatMap_cons, tally_append, holding_cons, Holding.sum_add, tally_releases, ih]
        rfl
    change tally (_ ++ _) = (holding m).sum
    rw [tally_append, hanalyses, ← sum_caching, Manager.holding_eq, Holding.sum_add]

end ForeignPasses
