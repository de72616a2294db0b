import ForeignPasses.Session.Objects
import ForeignPasses.Proofs.Ownership.Builders
import Mathlib.Tactic.Abel

/-!
# What objects hold

A session holds what its objects hold. Subscriptions may share a context, which counts once. When
an object is put in the place of another, what the rest hold stays the same.
-/

namespace ForeignPasses

/-- An object by its sort and its name. -/
abbrev ObjectId := ObjectSort × String

namespace Objects

/-- What one object holds. Units hold nothing. -/
def holdingAt (o : Objects) : ObjectId → Holding
  | (.module, _) => 0
  | (.function, _) => 0
  | (.builder, name) => holding (o.builders.find? name)
  | (.moduleManager, name) => holding (o.moduleManagers.find? name)
  | (.functionManager, name) => holding (o.functionManagers.find? name)
  | (.modulePipeline, name) => holding (o.modulePipelines.find? name)
  | (.functionPipeline, name) => holding (o.functionPipelines.find? name)
  | (.subscription, name) => contexts (tally (releases (o.subscriptions.find? name)))

/-- What subscriptions hold together. -/
def subscribed (subscriptions : Table String Subscription) : Holding :=
  contexts (tally (sharedReleases subscriptions.values))

instance : Account Objects where
  holding o :=
    holding o.builders + holding o.moduleManagers + holding o.functionManagers +
      holding o.modulePipelines + holding o.functionPipelines + subscribed o.subscriptions

theorem holding_eq (o : Objects) : holding o = holding o.builders + holding o.moduleManagers +
    holding o.functionManagers + holding o.modulePipelines + holding o.functionPipelines +
      subscribed o.subscriptions :=
  rfl

instance : Accounted Objects where
  tally_releases o := by
    have hbuilders : tally (releases o.builders.values) = (holding o.builders).sum :=
      tally_releases o.builders.values
    have hmoduleManagers : tally (releases o.moduleManagers.values) =
        (holding o.moduleManagers).sum := tally_releases o.moduleManagers.values
    have hfunctionManagers : tally (releases o.functionManagers.values) =
        (holding o.functionManagers).sum := tally_releases o.functionManagers.values
    have hmodulePipelines : tally (releases o.modulePipelines.values) =
        (holding o.modulePipelines).sum := tally_releases o.modulePipelines.values
    have hfunctionPipelines : tally (releases o.functionPipelines.values) =
        (holding o.functionPipelines).sum := tally_releases o.functionPipelines.values
    change tally (_ ++ _ ++ _ ++ _ ++ _ ++ _) = Holding.sum (_ + _ + _ + _ + _ + subscribed _)
    simp only [tally_append, Holding.sum_add, hbuilders, hmoduleManagers, hfunctionManagers,
      hmodulePipelines, hfunctionPipelines, subscribed, sum_contexts]

end Objects

/-! ## One object in place of another -/

/-- The objects hold what they held. -/
structure Objects.Same (o o' : Objects) : Prop where
  whole : holding o' = holding o
  parts : ∀ id, o'.holdingAt id = o.holdingAt id

theorem Objects.same_setModules (o : Objects) (modules : Table String Module) :
    o.Same { o with modules } where
  whole := rfl
  parts := by
    rintro ⟨sort, name⟩
    cases sort <;> rfl

theorem Objects.same_setFunctions (o : Objects) (functions : Table String Function) :
    o.Same { o with functions } where
  whole := rfl
  parts := by
    rintro ⟨sort, name⟩
    cases sort <;> rfl

/-- One object holds `h'` in place of `h`, and the others hold what they held. -/
structure Exchanges (id : ObjectId) (h h' : Holding) (o o' : Objects) : Prop where
  whole : holding o' + h = holding o + h'
  part : o'.holdingAt id + h = o.holdingAt id + h'
  others : ∀ other, other ≠ id → o'.holdingAt other = o.holdingAt other

namespace Exchanges

variable {id : ObjectId} {h h' k k' : Holding} {o o' o'' : Objects}

/-- The same in terms of a part of the object. -/
theorem narrow (hex : Exchanges id h h' o o') (hpart : h' + k = h + k') :
    Exchanges id k k' o o' where
  whole := by
    apply add_right_cancel (b := h)
    calc holding o' + k + h
      _ = holding o' + h + k := add_right_comm _ _ _
      _ = holding o + (h' + k) := by rw [hex.whole, add_assoc]
      _ = holding o + k' + h := by rw [hpart, add_comm h, add_assoc]
  part := by
    apply add_right_cancel (b := h)
    calc o'.holdingAt id + k + h
      _ = o'.holdingAt id + h + k := add_right_comm _ _ _
      _ = o.holdingAt id + (h' + k) := by rw [hex.part, add_assoc]
      _ = o.holdingAt id + k' + h := by rw [hpart, add_comm h, add_assoc]
  others := hex.others

theorem trans_same (hex : Exchanges id h h' o o') (hsame : o'.Same o'') :
    Exchanges id h h' o o'' where
  whole := by rw [hsame.whole, hex.whole]
  part := by rw [hsame.parts, hex.part]
  others other hother := (hsame.parts other).trans (hex.others other hother)

end Exchanges

/-- A table of objects of one sort. -/
structure Shelf (α : Type) [Account α] where
  sort : ObjectSort
  table : Objects → Table String α
  put : Objects → Table String α → Objects
  holdingAt_eq : ∀ o name, o.holdingAt (sort, name) = holding ((table o).find? name)
  holding_put : ∀ o t, holding (put o t) + holding (table o) = holding o + holding t
  table_put : ∀ o t, table (put o t) = t
  holdingAt_put : ∀ o t id, id.1 ≠ sort → (put o t).holdingAt id = o.holdingAt id

namespace Shelf

variable {α : Type} [Account α] (shelf : Shelf α) (o : Objects) (name : String)

/-- Changing what is under one name. -/
theorem exchanges {h h' : Holding} {t : Table String α}
    (hwhole : holding t + h = holding (shelf.table o) + h')
    (hpart : holding (t.find? name) + h = holding ((shelf.table o).find? name) + h')
    (hothers : ∀ other, other ≠ name → t.find? other = (shelf.table o).find? other) :
    Exchanges (shelf.sort, name) h h' o (shelf.put o t) where
  whole := by
    apply add_right_cancel (b := holding (shelf.table o))
    calc holding (shelf.put o t) + h + holding (shelf.table o)
      _ = holding (shelf.put o t) + holding (shelf.table o) + h := add_right_comm _ _ _
      _ = holding o + holding t + h := by rw [shelf.holding_put]
      _ = holding o + (holding t + h) := add_assoc _ _ _
      _ = holding o + (holding (shelf.table o) + h') := by rw [hwhole]
      _ = holding o + h' + holding (shelf.table o) := by
        rw [add_comm (holding (shelf.table o)), add_assoc]
  part := by rw [shelf.holdingAt_eq, shelf.holdingAt_eq, shelf.table_put, hpart]
  others := by
    rintro ⟨sort, other⟩ hne
    by_cases hsort : sort = shelf.sort
    · subst hsort
      have hother : other ≠ name := fun h ↦ hne (by rw [h])
      rw [shelf.holdingAt_eq, shelf.holdingAt_eq, shelf.table_put, hothers other hother]
    · exact shelf.holdingAt_put o t _ hsort

theorem exchanges_insert (a : α) :
    Exchanges (shelf.sort, name) (holding ((shelf.table o).find? name)) (holding a) o
      (shelf.put o ((shelf.table o).insert name a)) := by
  apply shelf.exchanges
  · exact holding_insert _ _ _
  · rw [Table.find?_insert_self, holding_some, add_comm]
  · intro other hother
    rw [Table.find?_insert, if_neg hother]

theorem exchanges_erase :
    Exchanges (shelf.sort, name) (holding ((shelf.table o).find? name)) 0 o
      (shelf.put o ((shelf.table o).erase name)) := by
  apply shelf.exchanges
  · rw [holding_erase, add_zero]
  · rw [Table.find?_erase_self, holding_none, zero_add, add_zero]
  · intro other hother
    rw [Table.find?_erase, if_neg hother]

theorem exchanges_modify (f : α → α) :
    Exchanges (shelf.sort, name) (holding ((shelf.table o).find? name))
      (holding (((shelf.table o).find? name).map f)) o
      (shelf.put o ((shelf.table o).modify name f)) := by
  apply shelf.exchanges
  · exact holding_modify _ _ _
  · rw [Table.find?_modify, if_pos rfl, add_comm]
  · intro other hother
    rw [Table.find?_modify, if_neg hother]

variable {o name}

/-- Putting back what was found. -/
theorem exchanges_found {a : α} (h : (shelf.table o).find? name = some a) (t : α) :
    Exchanges (shelf.sort, name) (holding a) (holding t) o
      (shelf.put o ((shelf.table o).insert name t)) := by
  have hinsert := shelf.exchanges_insert o name t
  rwa [h, holding_some] at hinsert

/-! ## The tables of a session -/

def builders : Shelf Builder where
  sort := .builder
  table := Objects.builders
  put o t := { o with builders := t }
  holdingAt_eq _ _ := rfl
  holding_put o t := by
    simp only [Objects.holding_eq]
    abel
  table_put _ _ := rfl
  holdingAt_put := by
    rintro o t ⟨sort, name⟩ hne
    cases sort <;> first | rfl | exact absurd rfl hne

def moduleManagers : Shelf ModuleManager where
  sort := .moduleManager
  table := Objects.moduleManagers
  put o t := { o with moduleManagers := t }
  holdingAt_eq _ _ := rfl
  holding_put o t := by
    simp only [Objects.holding_eq]
    abel
  table_put _ _ := rfl
  holdingAt_put := by
    rintro o t ⟨sort, name⟩ hne
    cases sort <;> first | rfl | exact absurd rfl hne

def functionManagers : Shelf FunctionManager where
  sort := .functionManager
  table := Objects.functionManagers
  put o t := { o with functionManagers := t }
  holdingAt_eq _ _ := rfl
  holding_put o t := by
    simp only [Objects.holding_eq]
    abel
  table_put _ _ := rfl
  holdingAt_put := by
    rintro o t ⟨sort, name⟩ hne
    cases sort <;> first | rfl | exact absurd rfl hne

def modulePipelines : Shelf ModulePipeline where
  sort := .modulePipeline
  table := Objects.modulePipelines
  put o t := { o with modulePipelines := t }
  holdingAt_eq _ _ := rfl
  holding_put o t := by
    simp only [Objects.holding_eq]
    abel
  table_put _ _ := rfl
  holdingAt_put := by
    rintro o t ⟨sort, name⟩ hne
    cases sort <;> first | rfl | exact absurd rfl hne

def functionPipelines : Shelf FunctionPipeline where
  sort := .functionPipeline
  table := Objects.functionPipelines
  put o t := { o with functionPipelines := t }
  holdingAt_eq _ _ := rfl
  holding_put o t := by
    simp only [Objects.holding_eq]
    abel
  table_put _ _ := rfl
  holdingAt_put := by
    rintro o t ⟨sort, name⟩ hne
    cases sort <;> first | rfl | exact absurd rfl hne

end Shelf

/-! ## Subscriptions -/

theorem nodup_eraseDups (rs : List Release) : rs.eraseDups.Nodup := by
  induction h : rs.length using Nat.strong_induction_on generalizing rs with
  | _ n ih =>
    cases rs with
    | nil => exact List.nodup_nil
    | cons r rest =>
      rw [List.eraseDups_cons, List.nodup_cons]
      constructor
      · simp [List.mem_eraseDups]
      · refine ih _ ?_ _ rfl
        rw [← h]
        exact Nat.lt_succ_of_le (List.length_filter_le _ _)

theorem Subscription.nodup_releases (s : Subscription) : (releases s).Nodup := by
  obtain ⟨callback, ⟨⟨pointer, deleter⟩⟩⟩ := s
  cases pointer with
  | none => exact List.nodup_nil
  | some p =>
    cases deleter with
    | none => exact List.nodup_nil
    | some d => exact List.nodup_cons.2 ⟨List.not_mem_nil, List.nodup_nil⟩

namespace Objects

/-- Old releases that go and new ones that come, counted once each. -/
theorem tally_shared {old new gone come : List Release} (hgone : gone.Nodup) (hcome : come.Nodup)
    (hold : ∀ r ∈ gone, r ∈ old) (hnew : ∀ r ∈ come, r ∈ new)
    (hstay : ∀ r ∈ old, r ∈ new ∨ r ∈ gone) (hfrom : ∀ r ∈ new, r ∈ old ∨ r ∈ come) :
    tally new.eraseDups + tally (gone.filter fun r ↦ !new.contains r) =
      tally old.eraseDups + tally (come.filter fun r ↦ !old.contains r) := by
  have hperm : (new.eraseDups ++ gone.filter fun r ↦ !new.contains r).Perm
      (old.eraseDups ++ come.filter fun r ↦ !old.contains r) := by
    refine (List.perm_ext_iff_of_nodup ?_ ?_).2 fun r ↦ ?_
    · refine List.nodup_append.2 ⟨nodup_eraseDups _, hgone.filter _, ?_⟩
      rintro r hr _ hr' rfl
      simp_all [List.mem_eraseDups]
    · refine List.nodup_append.2 ⟨nodup_eraseDups _, hcome.filter _, ?_⟩
      rintro r hr _ hr' rfl
      simp_all [List.mem_eraseDups]
    · simp only [List.mem_append, List.mem_eraseDups, List.mem_filter, Bool.not_eq_true',
        List.contains_eq_mem, decide_eq_false_iff_not]
      grind
  rw [← tally_append, ← tally_append]
  exact funext fun x ↦ hperm.countP_eq _

theorem mem_releases_values {t : Table String Subscription} {r : Release} :
    r ∈ releases t.values ↔ ∃ name s, t.find? name = some s ∧ r ∈ releases s := by
  change r ∈ t.values.flatMap releases ↔ _
  rw [List.mem_flatMap]
  constructor
  · rintro ⟨s, hs, hr⟩
    obtain ⟨⟨name, s'⟩, he, rfl⟩ := List.mem_map.1 hs
    exact ⟨name, s', Table.mem_entries.1 he, hr⟩
  · rintro ⟨name, s, hfind, hr⟩
    exact ⟨s, List.mem_map.2 ⟨(name, s), Table.mem_entries.2 hfind, rfl⟩, hr⟩

section Tables

variable (t : Table String Subscription) (name : String)

theorem nodup_releases_find? : (releases (t.find? name)).Nodup := by
  cases t.find? name with
  | none => exact List.nodup_nil
  | some s => exact s.nodup_releases

theorem mem_releases_of_find? {r : Release} (h : r ∈ releases (t.find? name)) :
    r ∈ releases t.values := by
  cases hfind : t.find? name with
  | none =>
    rw [hfind] at h
    exact absurd h List.not_mem_nil
  | some s =>
    rw [hfind] at h
    exact mem_releases_values.2 ⟨name, s, hfind, h⟩

theorem tally_shared_insert (s : Subscription) :
    tally (sharedReleases (t.insert name s).values) +
        tally ((releases (t.find? name)).filter fun r ↦
          !(releases (t.insert name s).values).contains r) =
      tally (sharedReleases t.values) +
        tally ((releases s).filter fun r ↦ !(releases t.values).contains r) := by
  apply tally_shared (nodup_releases_find? t name) s.nodup_releases
  · exact fun r ↦ mem_releases_of_find? t name
  · intro r hr
    exact mem_releases_values.2 ⟨name, s, t.find?_insert_self name s, hr⟩
  · intro r hr
    obtain ⟨other, s', hfind, hs'⟩ := mem_releases_values.1 hr
    by_cases hname : other = name
    · subst hname
      exact .inr (by rwa [hfind])
    · refine .inl (mem_releases_values.2 ⟨other, s', ?_, hs'⟩)
      rw [Table.find?_insert, if_neg hname, hfind]
  · intro r hr
    obtain ⟨other, s', hfind, hs'⟩ := mem_releases_values.1 hr
    rw [Table.find?_insert] at hfind
    split at hfind
    · cases hfind
      exact .inr hs'
    · exact .inl (mem_releases_values.2 ⟨other, s', hfind, hs'⟩)

theorem tally_shared_erase :
    tally (sharedReleases (t.erase name).values) +
        tally ((releases (t.find? name)).filter fun r ↦
          !(releases (t.erase name).values).contains r) =
      tally (sharedReleases t.values) := by
  have hnothing : tally (([] : List Release).filter fun r ↦ !(releases t.values).contains r) = 0 :=
    rfl
  rw [← add_zero (tally (sharedReleases t.values)), ← hnothing]
  apply tally_shared (nodup_releases_find? t name) List.nodup_nil
  · exact fun r ↦ mem_releases_of_find? t name
  · exact fun r hr ↦ absurd hr List.not_mem_nil
  · intro r hr
    obtain ⟨other, s', hfind, hs'⟩ := mem_releases_values.1 hr
    by_cases hname : other = name
    · subst hname
      exact .inr (by rwa [hfind])
    · refine .inl (mem_releases_values.2 ⟨other, s', ?_, hs'⟩)
      rw [Table.find?_erase, if_neg hname, hfind]
  · intro r hr
    obtain ⟨other, s', hfind, hs'⟩ := mem_releases_values.1 hr
    exact .inl (mem_releases_values.2 ⟨other, s', Table.find?_of_find?_erase hfind, hs'⟩)

end Tables

/-- What subscriptions release is held. -/
theorem held_pos_of_mem {o : Objects} {r : Release} (h : r ∈ releases o.subscriptions.values) :
    0 < held o r.address := by
  have hmem : r ∈ releases o := List.mem_append_right _ (List.mem_eraseDups.2 h)
  rw [← tally_releases o]
  exact List.countP_pos_iff.2 ⟨r, hmem, decide_eq_true rfl⟩

theorem holding_setSubscriptions (o : Objects) (t : Table String Subscription) :
    holding { o with subscriptions := t } + subscribed o.subscriptions =
      holding o + subscribed t := by
  simp only [holding_eq]
  abel

theorem holdingAt_setSubscriptions (o : Objects) {t : Table String Subscription} {name : String}
    (hothers : ∀ other, other ≠ name → t.find? other = o.subscriptions.find? other) {id : ObjectId}
    (hid : id ≠ (.subscription, name)) :
    ({ o with subscriptions := t } : Objects).holdingAt id = o.holdingAt id := by
  obtain ⟨sort, other⟩ := id
  by_cases hsort : sort = .subscription
  · subst hsort
    have hother : other ≠ name := fun h ↦ hid (by rw [h])
    rw [holdingAt, holdingAt, hothers other hother]
  · cases sort <;> first | rfl | exact absurd rfl hsort

end Objects

end ForeignPasses
