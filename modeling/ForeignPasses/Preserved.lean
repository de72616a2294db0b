import ForeignPasses.Key

/-!
# Preserved analyses

What a pass says about the results that were there before it ran: all of them stay valid, or those
of finitely many identities do. Finite sets are strictly increasing lists, so equal sets are equal
values.
-/

namespace ForeignPasses

/-- A finite set of identities in increasing order. -/
structure KeySet where
  keys : List Key
  sorted : keys.Pairwise fun i j ↦ i.before j
  deriving DecidableEq

namespace KeySet

def empty : KeySet := ⟨[], .nil⟩

def contains (s : KeySet) (k : Key) : Bool := k ∈ s.keys

def insertInto (k : Key) : List Key → List Key
  | [] => [k]
  | j :: rest =>
    if k = j then j :: rest
    else if k.before j then k :: j :: rest
    else j :: insertInto k rest

private theorem mem_insertInto {i k : Key} {l : List Key} :
    i ∈ insertInto k l ↔ i = k ∨ i ∈ l := by
  induction l with
  | nil => simp [insertInto]
  | cons j l ih => grind [insertInto]

private theorem sorted_insertInto {k : Key} {l : List Key}
    (h : l.Pairwise fun i j ↦ i.before j) :
    (insertInto k l).Pairwise fun i j ↦ i.before j := by
  induction l with
  | nil => simp [insertInto]
  | cons j l ih =>
    rw [List.pairwise_cons] at h
    rw [insertInto]
    split
    · exact List.pairwise_cons.2 h
    split
    · rename_i hk
      refine List.pairwise_cons.2 ⟨fun i hi ↦ ?_, List.pairwise_cons.2 h⟩
      rcases List.mem_cons.1 hi with rfl | hi
      · exact hk
      · exact Key.before_trans hk (h.1 i hi)
    · rename_i hne hk
      refine List.pairwise_cons.2 ⟨fun i hi ↦ ?_, ih h.2⟩
      rcases mem_insertInto.1 hi with rfl | hi
      · exact ((Key.before_trichotomy i j).resolve_left (by simpa using hk)).resolve_left hne
      · exact h.1 i hi

def insert (s : KeySet) (k : Key) : KeySet := ⟨insertInto k s.keys, sorted_insertInto s.sorted⟩

def inter (s t : KeySet) : KeySet := ⟨s.keys.filter t.contains, s.sorted.filter _⟩

def ofList (keys : List Key) : KeySet := keys.foldl insert empty

@[simp] theorem contains_empty (k : Key) : empty.contains k = false := by simp [contains, empty]

@[simp] theorem contains_insert (s : KeySet) (i k : Key) :
    (s.insert k).contains i = (decide (i = k) || s.contains i) := by
  simp [contains, insert, mem_insertInto]

@[simp] theorem contains_inter (s t : KeySet) (k : Key) :
    (s.inter t).contains k = (s.contains k && t.contains k) := by
  simp [contains, inter]

end KeySet

/-- What a foreign pass can say: it has no finer words. -/
inductive Status where
  | allPreserved
  | nonePreserved
  deriving DecidableEq, Repr

namespace Status

def all : List Status := [allPreserved, nonePreserved]

def name : Status → String
  | allPreserved => "AllPreserved"
  | nonePreserved => "NonePreserved"

def ofName? (name : String) : Option Status := all.find? (·.name = name)

end Status

/-- The identities whose results stay valid. -/
inductive Preserved where
  | all
  | only (keys : KeySet)
  deriving DecidableEq

namespace Preserved

def none : Preserved := only .empty

def isAll : Preserved → Bool
  | all => true
  | only _ => false

def contains : Preserved → Key → Bool
  | all, _ => true
  | only s, k => s.contains k

/-- Adds one identity. -/
def preserve : Preserved → Key → Preserved
  | all, _ => all
  | only s, k => only (s.insert k)

def inter : Preserved → Preserved → Preserved
  | all, q => q
  | p, all => p
  | only s, only t => only (s.inter t)

def ofKeys (keys : List Key) : Preserved := keys.foldl preserve none

def ofStatus : Status → Preserved
  | .allPreserved => all
  | .nonePreserved => none

/-- The names that are kept, a star for all of them. -/
def names : Preserved → List String
  | all => ["*"]
  | only s => s.keys.map Key.name

@[simp] theorem contains_none (k : Key) : none.contains k = false := KeySet.contains_empty k

@[simp] theorem contains_preserve (p : Preserved) (i k : Key) :
    (p.preserve k).contains i = (decide (i = k) || p.contains i) := by
  cases p <;> simp [preserve, contains]

@[simp] theorem contains_inter (p q : Preserved) (k : Key) :
    (p.inter q).contains k = (p.contains k && q.contains k) := by
  cases p <;> cases q <;> simp [inter, contains]

end Preserved

end ForeignPasses
