import ForeignPasses.Table
import Mathlib.Algebra.BigOperators.Group.List.Basic
import Mathlib.Algebra.GroupWithZero.Nat

/-!
# Totals over tables

What the values of a table come to together, and how that changes with one of them.
-/

namespace ForeignPasses.Table

variable {κ α : Type} [DecidableEq κ] (t : Table κ α) (k : κ) (a : α) (g : α → α)

theorem erase_insert : (t.insert k a).erase k = t.erase k := by
  have hentries : ((t.insert k a).erase k).entries = (t.erase k).entries := by
    unfold insert erase
    split
    · simp only [modify, mapValues, List.filter_map]
      refine (List.map_congr_left ?_).trans (List.map_id _)
      intro e he
      have hne : e.1 ≠ k := by simpa using (List.mem_filter.1 he).2
      simp [hne]
    · simp
  rw [Table.mk.injEq]
  exact hentries

theorem erase_modify : (t.modify k g).erase k = t.erase k := by
  have hentries : ((t.modify k g).erase k).entries = (t.erase k).entries := by
    unfold modify mapValues erase
    simp only [List.filter_map]
    refine (List.map_congr_left ?_).trans (List.map_id _)
    intro e he
    have hne : e.1 ≠ k := by simpa using (List.mem_filter.1 he).2
    simp [hne]
  rw [Table.mk.injEq]
  exact hentries

/-- A change that is undone leaves no trace. -/
theorem modify_undo {a : α} {f g : α → α} (h : t.find? k = some a) (hundo : g (f a) = a) :
    (t.modify k f).modify k g = t := by
  rw [Table.mk.injEq]
  change (t.entries.map _).map _ = t.entries
  rw [List.map_map]
  refine (List.map_congr_left ?_).trans (List.map_id _)
  rintro ⟨j, c⟩ he
  by_cases hk : j = k
  · subst hk
    have hvalue : t.find? j = some c := mem_entries.1 he
    obtain rfl : c = a := Option.some.inj (hvalue.symm.trans h)
    simp [hundo]
  · simp [hk]

/-- A value that is put back leaves no trace. -/
theorem modify_back {a : α} (h : t.find? k = some a) (b : α) :
    (t.modify k fun _ ↦ b).modify k (fun _ ↦ a) = t :=
  t.modify_undo k h rfl

section Total

variable {M : Type} [AddCommMonoid M] (f : α → M)

/-- The sum over all values. -/
def total (f : α → M) (t : Table κ α) : M := (t.values.map f).sum

omit [DecidableEq κ] in
@[simp] theorem total_empty : total f (∅ : Table κ α) = 0 := rfl

private theorem sum_lookup (l : List (κ × α)) (hnodup : (l.map Prod.fst).Nodup) :
    ((l.map Prod.snd).map f).sum =
      (l.lookup k).elim 0 f + (((l.filter fun e ↦ e.1 ≠ k).map Prod.snd).map f).sum := by
  induction l with
  | nil => simp
  | cons e l ih =>
    obtain ⟨hfirst, hrest⟩ := List.nodup_cons.1 hnodup
    rw [List.filter_cons]
    by_cases hk : e.1 = k
    · subst hk
      have hall : (l.filter fun e' ↦ e'.1 ≠ e.1) = l := by
        rw [List.filter_eq_self]
        intro e' he'
        have hne : e'.1 ≠ e.1 := fun h ↦ hfirst (h ▸ List.mem_map_of_mem he')
        simpa using hne
      rw [hall, lookup_entry]
      simp
    · rw [if_pos (by simpa using hk), lookup_entry, if_neg (Ne.symm hk)]
      simp only [List.map_cons, List.sum_cons, ih hrest]
      exact add_left_comm _ _ _

/-- The value of one key counts for itself. -/
theorem total_eq : total f t = (t.find? k).elim 0 f + total f (t.erase k) :=
  sum_lookup k f t.entries t.nodup

theorem total_insert : total f (t.insert k a) = f a + total f (t.erase k) := by
  rw [total_eq (t.insert k a) k, find?_insert_self, erase_insert]
  rfl

theorem total_erase_add : total f (t.erase k) + (t.find? k).elim 0 f = total f t :=
  (add_comm _ _).trans (total_eq t k f).symm

theorem total_insert_add :
    total f (t.insert k a) + (t.find? k).elim 0 f = total f t + f a := by
  rw [total_insert, add_assoc, total_erase_add, add_comm]

theorem total_modify :
    total f (t.modify k g) = ((t.find? k).map g).elim 0 f + total f (t.erase k) := by
  rw [total_eq (t.modify k g) k, find?_modify, if_pos rfl, erase_modify]

theorem total_modify_add :
    total f (t.modify k g) + (t.find? k).elim 0 f = total f t + ((t.find? k).map g).elim 0 f := by
  rw [total_modify, add_assoc, total_erase_add, add_comm]

end Total

end ForeignPasses.Table
