/-!
# Finite tables

A table pairs distinct keys with values and keeps the order in which the keys came in. Every
operation is described by what `find?` answers afterwards.
-/

namespace ForeignPasses

/-- A finite map in order of first insertion. -/
structure Table (κ α : Type) where
  entries : List (κ × α)
  nodup : (entries.map Prod.fst).Nodup

namespace Table

variable {κ α β : Type}

instance : EmptyCollection (Table κ α) := ⟨⟨[], List.nodup_nil⟩⟩

instance : Inhabited (Table κ α) := ⟨∅⟩

def keys (t : Table κ α) : List κ := t.entries.map Prod.fst

def values (t : Table κ α) : List α := t.entries.map Prod.snd

def size (t : Table κ α) : Nat := t.entries.length

/-- Changes values and keeps the keys. -/
def mapValues (t : Table κ α) (f : κ → α → β) : Table κ β where
  entries := t.entries.map fun e ↦ (e.1, f e.1 e.2)
  nodup := by simpa [List.map_map, Function.comp_def] using t.nodup

theorem keys_nodup (t : Table κ α) : t.keys.Nodup := t.nodup

@[simp] theorem keys_empty : (∅ : Table κ α).keys = [] := rfl

@[simp] theorem keys_mapValues (t : Table κ α) (f : κ → α → β) : (t.mapValues f).keys = t.keys := by
  simp [keys, mapValues, List.map_map, Function.comp_def]

variable [DecidableEq κ]

def find? (t : Table κ α) (k : κ) : Option α := t.entries.lookup k

def contains (t : Table κ α) (k : κ) : Bool := (t.find? k).isSome

/-- Changes the value of one key, if the table has it. -/
def modify (t : Table κ α) (k : κ) (f : α → α) : Table κ α :=
  t.mapValues fun k' a ↦ if k' = k then f a else a

/-- Gives a key a value: an old key stays in its place, a new one comes last. -/
def insert (t : Table κ α) (k : κ) (a : α) : Table κ α :=
  if h : k ∈ t.keys then t.modify k fun _ ↦ a
  else
    { entries := t.entries ++ [(k, a)]
      nodup := by
        have hk : k ∉ t.entries.map Prod.fst := h
        rw [List.map_append, List.nodup_append]
        refine ⟨t.nodup, by simp, fun x hx y hy ↦ ?_⟩
        simp only [List.map_cons, List.map_nil, List.mem_singleton] at hy
        rintro rfl
        exact hk (hy ▸ hx) }

def erase (t : Table κ α) (k : κ) : Table κ α where
  entries := t.entries.filter fun e ↦ e.1 ≠ k
  nodup := t.nodup.sublist (List.filter_sublist.map Prod.fst)

/-! ## What a look-up finds -/

theorem lookup_entry (a k : κ) (x : α) (l : List (κ × α)) :
    ((a, x) :: l).lookup k = if k = a then some x else l.lookup k := by
  by_cases h : k = a
  · simp [h]
  · simp [List.lookup_cons, beq_eq_false_iff_ne.2 h, h]

private theorem lookup_isSome (l : List (κ × α)) (k : κ) :
    (l.lookup k).isSome ↔ k ∈ l.map Prod.fst := by
  induction l with
  | nil => simp
  | cons e l ih => rw [lookup_entry]; split <;> simp_all

private theorem mem_iff_lookup {l : List (κ × α)} (hnodup : (l.map Prod.fst).Nodup) (k : κ)
    (a : α) : (k, a) ∈ l ↔ l.lookup k = some a := by
  induction l with
  | nil => simp
  | cons e l ih =>
    obtain ⟨hfirst, hrest⟩ := List.nodup_cons.1 hnodup
    rw [List.mem_cons, lookup_entry, ih hrest]
    by_cases hk : k = e.1
    · subst hk
      have hnone : l.lookup e.1 = none := by
        cases hlookup : l.lookup e.1 with
        | none => rfl
        | some b => exact absurd ((lookup_isSome l e.1).1 (by rw [hlookup]; rfl)) hfirst
      simp [hnone, Prod.ext_iff, eq_comm]
    · simp [hk, Prod.ext_iff]

private theorem lookup_map (l : List (κ × α)) (f : κ → α → β) (k : κ) :
    (l.map fun e ↦ (e.1, f e.1 e.2)).lookup k = (l.lookup k).map (f k) := by
  induction l with
  | nil => rfl
  | cons e l ih => rw [List.map_cons, lookup_entry, lookup_entry, ih]; split <;> simp_all

private theorem lookup_filter (l : List (κ × α)) (k j : κ) :
    (l.filter fun e ↦ e.1 ≠ k).lookup j = if j = k then none else l.lookup j := by
  induction l with
  | nil => simp
  | cons e l ih =>
    rw [List.filter_cons, lookup_entry]
    split
    · rw [lookup_entry, ih]; grind
    · rw [ih]; grind

theorem mem_entries {t : Table κ α} {k : κ} {a : α} : (k, a) ∈ t.entries ↔ t.find? k = some a :=
  mem_iff_lookup t.nodup k a

@[simp] theorem find?_empty (k : κ) : (∅ : Table κ α).find? k = none := rfl

@[simp] theorem keys_modify (t : Table κ α) (k : κ) (f : α → α) : (t.modify k f).keys = t.keys :=
  t.keys_mapValues _

theorem mem_keys {t : Table κ α} {k : κ} : k ∈ t.keys ↔ (t.find? k).isSome :=
  (lookup_isSome t.entries k).symm

theorem find?_eq_none {t : Table κ α} {k : κ} : t.find? k = none ↔ k ∉ t.keys := by
  rw [mem_keys]; cases t.find? k <;> simp

theorem find?_mapValues (t : Table κ α) (f : κ → α → β) (k : κ) :
    (t.mapValues f).find? k = (t.find? k).map (f k) :=
  lookup_map t.entries f k

theorem find?_modify (t : Table κ α) (k j : κ) (f : α → α) :
    (t.modify k f).find? j = if j = k then (t.find? j).map f else t.find? j := by
  rw [modify, find?_mapValues]
  split <;> simp

theorem find?_insert (t : Table κ α) (k j : κ) (a : α) :
    (t.insert k a).find? j = if j = k then some a else t.find? j := by
  unfold insert
  split
  · rename_i h
    rw [find?_modify]
    split
    · obtain ⟨b, hb⟩ := Option.isSome_iff_exists.1 (mem_keys.1 h)
      simp_all
    · rfl
  · rename_i h
    have hnone : t.entries.lookup k = none := find?_eq_none.2 h
    unfold find?
    rw [List.lookup_append, lookup_entry]
    split
    · simp_all only [Option.none_or]
    · simp

@[simp] theorem find?_insert_self (t : Table κ α) (k : κ) (a : α) :
    (t.insert k a).find? k = some a := by
  simp [find?_insert]

theorem find?_erase (t : Table κ α) (k j : κ) :
    (t.erase k).find? j = if j = k then none else t.find? j :=
  lookup_filter t.entries k j

/-- What is there after another entry was dropped was there before. -/
theorem find?_of_find?_erase {t : Table κ α} {k j : κ} {a : α} (h : (t.erase k).find? j = some a) :
    t.find? j = some a := by
  rw [find?_erase] at h
  split at h
  · contradiction
  · exact h

@[simp] theorem find?_erase_self (t : Table κ α) (k : κ) : (t.erase k).find? k = none := by
  simp [find?_erase]

theorem keys_erase (t : Table κ α) (k : κ) : (t.erase k).keys = t.keys.filter (· ≠ k) := by
  simp [keys, erase, List.filter_map, Function.comp_def]

/-- A new entry comes last. -/
theorem entries_insert {t : Table κ α} {k : κ} (h : k ∉ t.keys) (a : α) :
    (t.insert k a).entries = t.entries ++ [(k, a)] := by
  rw [insert, dif_neg h]

theorem keys_insert (t : Table κ α) (k : κ) (a : α) :
    (t.insert k a).keys = if k ∈ t.keys then t.keys else t.keys ++ [k] := by
  unfold insert
  split
  · simp
  · simp [keys]

end Table

end ForeignPasses
