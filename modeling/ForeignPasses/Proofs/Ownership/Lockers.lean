import Mathlib.Data.List.Count
import Mathlib.Data.List.Induction
import Mathlib.Data.List.Nodup
import ForeignPasses.Opaque.Locker
import ForeignPasses.Proofs.Ownership.Ledger
import ForeignPasses.Proofs.Ownership.Totals

/-!
# Values in lockers

Deleters run for the values that acts displace, in the order of the acts, and for no others. What
comes in either stays at a place, or is displaced once, or is given up; when all places are dropped
in the end, everything has been released that was not given up for good.
-/

namespace ForeignPasses

namespace Locker

variable {β : Type} {l : Locker}

/-! ## What acts do with values -/

/-- The address at a place, if there is one. -/
def held (l : Locker) (place : String) : List Nat :=
  (l.owned.find? place).elim [] Opaque.addresses

/-- The address of a raw value, if there is one. -/
def aside (l : Locker) (name : String) : List Nat :=
  (l.raw.find? name).elim [] Raw.addresses

/-- The place whose value an act resets, overwrites or drops. -/
def Act.clears? (l : Locker) : Act → Option String
  | store place _ => some place
  | ofRaw place raw => if l.raw.contains raw then some place else none
  | toRaw .. => none
  | move target source => if l.owned.contains source ∧ target ≠ source then some target else none
  | swap .. => none
  | reset place => some place
  | drop place => some place

def displaced (l : Locker) (act : Act) : List Nat := (act.clears? l).elim [] l.held

def handedIn (l : Locker) : Act → List Nat
  | .store _ value => (value.toRaw l.next).addresses
  | _ => []

def givenUp (l : Locker) : Act → List Nat
  | .toRaw place _ => l.held place
  | _ => []

def takenBack (l : Locker) : Act → List Nat
  | .ofRaw _ raw => l.aside raw
  | _ => []

/-- What is said of each act in the state it finds, in order. -/
def collect (f : Locker → Act → List β) (l : Locker) : List Act → List β
  | [] => []
  | act :: rest => f l act ++ collect f (l.step act).1 rest

/-- The deleters that run in the course of acts. -/
def released (acts : List Act) : List Release := collect (fun l act ↦ (l.step act).2) {} acts

/-- The deleters that run until all places are dropped. -/
def releasedInAll (acts : List Act) : List Release :=
  released acts ++ releases (after {} acts).owned.values

/-- A value is given up at some time and not taken back from then on. -/
def GivenUp (acts : List Act) (a : Nat) : Prop :=
  ∃ before act rest, acts = before ++ act :: rest ∧ a ∈ givenUp (after {} before) act ∧
    a ∉ collect takenBack (after {} (before ++ [act])) rest

theorem after_append (l : Locker) (acts rest : List Act) :
    l.after (acts ++ rest) = (l.after acts).after rest := by
  induction acts generalizing l with
  | nil => rfl
  | cons act acts ih => exact ih (l.step act).1

theorem collect_append (f : Locker → Act → List β) (l : Locker) (acts rest : List Act) :
    collect f l (acts ++ rest) = collect f l acts ++ collect f (l.after acts) rest := by
  induction acts generalizing l with
  | nil => rfl
  | cons act acts ih =>
    change f l act ++ collect f (l.step act).1 (acts ++ rest) = _
    rw [ih, ← List.append_assoc]
    rfl

theorem collect_concat (f : Locker → Act → List β) (l : Locker) (acts : List Act) (act : Act) :
    collect f l (acts ++ [act]) = collect f l acts ++ f (l.after acts) act := by
  rw [collect_append]
  exact congrArg _ (List.append_nil _)

theorem held_take (l : Locker) (place place' : String) :
    (l.take place).held place' = if place' = place then [] else l.held place' := by
  rw [held, take, Table.find?_erase]
  split <;> rfl

theorem displaced_ofRaw {raw : String} {value : Raw String} (h : l.raw.find? raw = some value)
    (place : String) : displaced l (.ofRaw place raw) = l.held place := by
  simp [displaced, Act.clears?, Table.contains, h]

/-- A value that is moved to its own place displaces nothing. -/
theorem displaced_move {source : String} {value : Opaque String}
    (h : l.owned.find? source = some value) (target : String) :
    displaced l (.move target source) = (l.take source).held target := by
  rw [held_take]
  by_cases heq : target = source <;> simp [displaced, Act.clears?, Table.contains, h, heq]

/-! ## Deleters -/

/-- Every value that is not null has a deleter. -/
structure Sound (l : Locker) : Prop where
  owned : ∀ {place value}, l.owned.find? place = some value → value.raw.Sound
  raw : ∀ {name raw}, l.raw.find? name = some raw → raw.Sound

theorem sound_empty : Sound {} := ⟨(nomatch ·), (nomatch ·)⟩

namespace Sound

theorem put (h : l.Sound) (place : String) {value : Opaque String} (hvalue : value.raw.Sound) :
    (l.put place value).1.Sound := by
  refine ⟨fun {place' value'} hfind ↦ ?_, h.raw⟩
  rw [Locker.put, Table.find?_insert] at hfind
  split at hfind
  · cases hfind
    exact hvalue
  · exact h.owned hfind

theorem take (h : l.Sound) (place : String) : (l.take place).Sound :=
  ⟨fun hfind ↦ h.owned (Table.find?_of_find?_erase hfind), h.raw⟩

theorem setAside (h : l.Sound) (name : String) {raw : Raw String} (hraw : raw.Sound) :
    Sound { l with raw := l.raw.insert name raw } := by
  refine ⟨h.owned, fun {name' raw'} hfind ↦ ?_⟩
  rw [Table.find?_insert] at hfind
  split at hfind
  · cases hfind
    exact hraw
  · exact h.raw hfind

theorem fetch (h : l.Sound) (name : String) : Sound { l with raw := l.raw.erase name } :=
  ⟨h.owned, fun hfind ↦ h.raw (Table.find?_of_find?_erase hfind)⟩

theorem step (h : l.Sound) (act : Act) : (l.step act).1.Sound := by
  cases act with
  | store place value =>
    have hnext : Sound { l with next := l.next + 1 } := ⟨h.owned, h.raw⟩
    exact hnext.put place (value.sound_toRaw l.next)
  | ofRaw place raw =>
    rw [Locker.step]
    split
    · rename_i value hvalue
      exact (h.fetch raw).put place (h.raw hvalue)
    · exact h
  | toRaw place raw =>
    rw [Locker.step]
    split
    · rename_i value hvalue
      exact (h.take place).setAside raw (h.owned hvalue)
    · exact h
  | move target source =>
    rw [Locker.step]
    split
    · rename_i value hvalue
      exact (h.take source).put target (h.owned hvalue)
    · exact h
  | swap first second =>
    rw [Locker.step]
    split
    · rename_i x y hx hy
      exact (h.put first (h.owned hy)).put second (h.owned hx)
    · exact h
  | reset place =>
    rw [Locker.step]
    have hnull : (Opaque.null : Opaque String).raw.Sound := Handed.null.sound_toRaw 0
    split
    · exact h.put place hnull
    · exact h
  | drop place => exact h.take place

theorem after (h : l.Sound) (acts : List Act) : (l.after acts).Sound := by
  induction acts generalizing l with
  | nil => exact h
  | cons act acts ih => exact ih (h.step act)

theorem releases_find? (h : l.Sound) (place : String) :
    (releases (l.owned.find? place)).map Release.address = (l.held place).map some := by
  unfold held
  cases hfind : l.owned.find? place with
  | none => rfl
  | some value => exact (h.owned hfind).addresses_release

/-- An act runs the deleter of what it displaces. -/
theorem releases_step (h : l.Sound) (act : Act) :
    (l.step act).2.map Release.address = (displaced l act).map some := by
  cases act with
  | store place value => exact h.releases_find? place
  | ofRaw place raw =>
    cases hraw : l.raw.find? raw with
    | none => simp [Locker.step, displaced, Act.clears?, Table.contains, hraw]
    | some value =>
      rw [Locker.step, hraw, displaced_ofRaw hraw]
      exact h.releases_find? place
  | toRaw place raw =>
    rw [Locker.step]
    split <;> rfl
  | move target source =>
    cases hvalue : l.owned.find? source with
    | none => simp [Locker.step, displaced, Act.clears?, Table.contains, hvalue]
    | some value =>
      rw [Locker.step, hvalue, displaced_move hvalue]
      exact (h.take source).releases_find? target
  | swap first second =>
    rw [Locker.step]
    split <;> rfl
  | reset place =>
    rw [Locker.step]
    have hplace := h.releases_find? place
    split
    · rename_i value hvalue
      rwa [hvalue] at hplace
    · rename_i hnone
      rwa [hnone] at hplace
  | drop place => exact h.releases_find? place

theorem releases_collect (h : l.Sound) (acts : List Act) :
    (collect (fun l act ↦ (l.step act).2) l acts).map Release.address =
      (collect displaced l acts).map some := by
  induction acts generalizing l with
  | nil => rfl
  | cons act acts ih =>
    rw [collect, collect, List.map_append, List.map_append, h.releases_step act, ih (h.step act)]

theorem releases_values (h : l.Sound) :
    (releases l.owned.values).map Release.address =
      (l.owned.values.flatMap Opaque.addresses).map some := by
  change (l.owned.values.flatMap Opaque.drop).map _ = _
  rw [List.map_flatMap, List.map_flatMap]
  refine List.flatMap_congr fun value hvalue ↦ Raw.Sound.addresses_release ?_
  obtain ⟨⟨place, value'⟩, hentry, rfl⟩ := List.mem_map.1 hvalue
  exact h.owned (Table.mem_entries.1 hentry)

end Sound

/-! ## The balance -/

section Balance

variable (a : Nat)

/-- How often an address occurs among the places. -/
def inPlaces (l : Locker) : Nat := l.owned.total fun value ↦ value.addresses.count a

/-- How often an address occurs among the raw values. -/
def inRaw (l : Locker) : Nat := l.raw.total fun raw ↦ raw.addresses.count a

theorem count_held (l : Locker) (place : String) :
    (l.held place).count a = (l.owned.find? place).elim 0 fun value ↦ value.addresses.count a := by
  unfold held
  cases l.owned.find? place <;> rfl

theorem count_aside (l : Locker) (name : String) :
    (l.aside name).count a = (l.raw.find? name).elim 0 fun raw ↦ raw.addresses.count a := by
  unfold aside
  cases l.raw.find? name <;> rfl

theorem inPlaces_put (l : Locker) (place : String) (value : Opaque String) :
    (l.put place value).1.inPlaces a + (l.held place).count a =
      l.inPlaces a + value.addresses.count a := by
  rw [count_held]
  exact Table.total_insert_add ..

theorem inPlaces_take (l : Locker) (place : String) :
    (l.take place).inPlaces a + (l.held place).count a = l.inPlaces a := by
  rw [count_held]
  exact Table.total_erase_add ..

theorem inPlaces_eq_count (l : Locker) :
    l.inPlaces a = (l.owned.values.flatMap Opaque.addresses).count a := by
  rw [List.count_flatMap]
  rfl

theorem count_held_le (l : Locker) (place : String) : (l.held place).count a ≤ l.inPlaces a := by
  have htake := l.inPlaces_take a place
  omega

/-- A value leaves its place by being displaced or given up, and comes to one by being handed in or
taken back. -/
theorem inPlaces_step (l : Locker) (act : Act) :
    (l.step act).1.inPlaces a + (displaced l act).count a + (givenUp l act).count a =
      l.inPlaces a + (takenBack l act).count a + (handedIn l act).count a := by
  cases act with
  | store place value =>
    exact inPlaces_put a { l with next := l.next + 1 } place (.ofRaw (value.toRaw l.next))
  | ofRaw place raw =>
    cases hraw : l.raw.find? raw with
    | none =>
      simp [step, displaced, Act.clears?, Table.contains, givenUp, takenBack, handedIn, aside,
        hraw]
    | some value =>
      have haside : l.aside raw = value.addresses := by rw [aside, hraw]; rfl
      rw [step, hraw, displaced_ofRaw hraw, takenBack, haside]
      exact inPlaces_put a { l with raw := l.raw.erase raw } place (.ofRaw value)
  | toRaw place raw =>
    cases hvalue : l.owned.find? place with
    | none => simp [step, displaced, Act.clears?, givenUp, takenBack, handedIn, held, hvalue]
    | some value =>
      rw [step, hvalue]
      exact l.inPlaces_take a place
  | move target source =>
    cases hvalue : l.owned.find? source with
    | none =>
      simp [step, displaced, Act.clears?, Table.contains, givenUp, takenBack, handedIn, hvalue]
    | some value =>
      have htake := l.inPlaces_take a source
      have hput := (l.take source).inPlaces_put a target value
      have hsource : l.held source = value.addresses := by rw [held, hvalue]; rfl
      rw [hsource] at htake
      rw [step, hvalue, displaced_move hvalue]
      exact hput.trans htake
  | swap first second =>
    rw [step]
    split
    · rename_i x y hx hy
      have hfirst := l.inPlaces_put a first y
      have hsecond := (l.put first y).1.inPlaces_put a second x
      have hheld : l.held first = x.addresses := by rw [held, hx]; rfl
      have hheld' : (l.put first y).1.held second = y.addresses := by
        rw [held, put, Table.find?_insert]
        split
        · rfl
        · rw [hy]
          rfl
      rw [hheld] at hfirst
      rw [hheld'] at hsecond
      exact Nat.add_right_cancel (hsecond.trans hfirst)
    · rfl
  | reset place =>
    rw [step]
    split
    · exact l.inPlaces_put a place .null
    · rename_i hnone
      simp [displaced, Act.clears?, givenUp, takenBack, handedIn, held, hnone]
  | drop place => exact l.inPlaces_take a place

theorem inPlaces_after (l : Locker) (acts : List Act) :
    (l.after acts).inPlaces a + (collect displaced l acts).count a +
        (collect givenUp l acts).count a =
      l.inPlaces a + (collect takenBack l acts).count a + (collect handedIn l acts).count a := by
  induction acts generalizing l with
  | nil => rfl
  | cons act acts ih =>
    have hstep := l.inPlaces_step a act
    have hrest := ih (l.step act).1
    simp only [after, collect, List.count_append]
    omega

/-- Only what was given up can be taken back. -/
theorem inRaw_step (l : Locker) (act : Act) :
    (l.step act).1.inRaw a + (takenBack l act).count a ≤
      l.inRaw a + (givenUp l act).count a := by
  cases act with
  | store => exact Nat.le_refl _
  | ofRaw place raw =>
    have herase := l.raw.total_erase_add raw fun raw ↦ raw.addresses.count a
    rw [takenBack, count_aside, step]
    split
    · exact Nat.le_of_eq herase
    · rename_i hnone
      rw [hnone]
      exact Nat.le_refl _
  | toRaw place raw =>
    rw [givenUp, count_held, step]
    split
    · rename_i value hvalue
      have hinsert := l.raw.total_insert_add raw value.toRaw fun raw ↦ raw.addresses.count a
      rw [hvalue]
      exact Nat.le.intro hinsert
    · exact Nat.le_add_right _ _
  | move target source =>
    rw [step]
    split <;> exact Nat.le_refl _
  | swap first second =>
    rw [step]
    split <;> exact Nat.le_refl _
  | reset place =>
    rw [step]
    split <;> exact Nat.le_refl _
  | drop place => exact Nat.le_refl _

theorem inRaw_after (l : Locker) (acts : List Act) :
    (l.after acts).inRaw a + (collect takenBack l acts).count a ≤
      l.inRaw a + (collect givenUp l acts).count a := by
  induction acts generalizing l with
  | nil => exact Nat.le_refl _
  | cons act acts ih =>
    have hstep := l.inRaw_step a act
    have hrest := ih (l.step act).1
    simp only [after, collect, List.count_append]
    omega

/-- No address is handed in twice. -/
theorem handedIn_step (l : Locker) (act : Act) :
    (handedIn l act = [] ∧ l.next ≤ (l.step act).1.next) ∨
      handedIn l act = [l.next] ∧ l.next < (l.step act).1.next := by
  cases act with
  | store place value =>
    cases value with
    | null => exact .inl ⟨rfl, Nat.le_succ _⟩
    | nullWithDeleter => exact .inl ⟨rfl, Nat.le_succ _⟩
    | owned => exact .inr ⟨rfl, Nat.lt_succ_self _⟩
    | borrowed => exact .inr ⟨rfl, Nat.lt_succ_self _⟩
  | drop place => exact .inl ⟨rfl, Nat.le_refl _⟩
  | _ =>
    refine .inl ⟨rfl, ?_⟩
    rw [step]
    split <;> exact Nat.le_refl _

theorem handedIn_fresh (l : Locker) (acts : List Act) :
    (collect handedIn l acts).Nodup ∧ ∀ a ∈ collect handedIn l acts, l.next ≤ a := by
  induction acts generalizing l with
  | nil => exact ⟨.nil, fun a h ↦ nomatch h⟩
  | cons act acts ih =>
    obtain ⟨hnodup, hfresh⟩ := ih (l.step act).1
    rw [collect]
    rcases l.handedIn_step act with ⟨hnone, hle⟩ | ⟨hone, hlt⟩
    · rw [hnone]
      exact ⟨hnodup, fun a ha ↦ Nat.le_trans hle (hfresh a ha)⟩
    · rw [hone]
      refine ⟨List.nodup_cons.2 ⟨fun hmem ↦ ?_, hnodup⟩, fun a ha ↦ ?_⟩
      · exact absurd (hfresh _ hmem) (Nat.not_le_of_lt hlt)
      · rcases List.mem_cons.1 ha with rfl | ha
        · exact Nat.le_refl _
        · exact Nat.le_trans (Nat.le_of_lt hlt) (hfresh a ha)

end Balance

/-! ## Whole histories -/

section Histories

variable (acts : List Act) (a : Nat)

structure Balanced : Prop where
  places : (after {} acts).inPlaces a + (collect displaced {} acts).count a +
    (collect givenUp {} acts).count a =
      (collect takenBack {} acts).count a + (collect handedIn {} acts).count a
  taken_le : (collect takenBack {} acts).count a ≤ (collect givenUp {} acts).count a
  handed_le : (collect handedIn {} acts).count a ≤ 1

theorem balanced : Balanced acts a where
  places := by
    have hplaces := inPlaces_after a {} acts
    rwa [show inPlaces a {} = 0 from rfl, Nat.zero_add] at hplaces
  taken_le := by
    have hraw := inRaw_after a {} acts
    rw [show inRaw a {} = 0 from rfl] at hraw
    omega
  handed_le := List.nodup_iff_count_le_one.1 (handedIn_fresh {} acts).1 a

theorem givenUp_iff : GivenUp acts a ↔
    (collect takenBack {} acts).count a < (collect givenUp {} acts).count a := by
  constructor
  · rintro ⟨before, act, rest, rfl, hgiven, htaken⟩
    have hbefore := (balanced before a).taken_le
    have hgiven' := List.count_pos_iff.2 hgiven
    have htaken' := List.count_eq_zero.2 htaken
    have hact : takenBack (after {} before) act = [] := by
      cases act with
      | toRaw => rfl
      | _ => exact absurd hgiven List.not_mem_nil
    simp only [after_append, after] at htaken'
    simp only [collect_append, collect, List.count_append, hact, List.count_nil, htaken']
    omega
  · intro hlt
    induction acts using List.reverseRecOn with
    | nil => exact absurd hlt (Nat.lt_irrefl 0)
    | append_singleton acts act ih =>
      by_cases hgiven : a ∈ givenUp (after {} acts) act
      · exact ⟨acts, act, [], rfl, hgiven, List.not_mem_nil⟩
      · -- Nothing is out more than once, so a value that is taken back now is not out any longer.
        obtain ⟨hplaces, _, hhanded⟩ := balanced acts a
        have hgiven' := List.count_eq_zero.2 hgiven
        simp only [collect_concat, List.count_append, hgiven'] at hlt
        obtain ⟨before, act', rest, rfl, hgiven, htaken⟩ := ih (by omega)
        refine ⟨before, act', rest ++ [act], by simp, hgiven, ?_⟩
        have hnow : a ∉ takenBack (after {} (before ++ act' :: rest)) act := by
          rw [← List.count_eq_zero]
          omega
        rw [collect_concat, List.mem_append, ← after_append]
        simpa using ⟨htaken, by simpa using hnow⟩

theorem addresses_releasedInAll : (releasedInAll acts).map Release.address =
    (collect displaced {} acts ++ (after {} acts).owned.values.flatMap Opaque.addresses).map
      some := by
  rw [releasedInAll, List.map_append, List.map_append, (sound_empty.after acts).releases_values]
  exact congrArg (· ++ _) (sound_empty.releases_collect acts)

theorem tally_released :
    tally (released acts) (some a) = (collect displaced {} acts).count a := by
  rw [tally_eq_count, released, sound_empty.releases_collect]
  exact List.count_map_of_injective _ _ (fun _ _ ↦ Option.some.inj) a

theorem tally_releasedInAll : tally (releasedInAll acts) (some a) =
    (collect displaced {} acts).count a + (after {} acts).inPlaces a := by
  rw [tally_eq_count, addresses_releasedInAll, inPlaces_eq_count, ← List.count_append]
  exact List.count_map_of_injective _ _ (fun _ _ ↦ Option.some.inj) a

theorem values_are_released_once :
    (released acts).map Release.address = (collect displaced {} acts).map some ∧
      (∀ a, tally (released acts) (some a) ≤ 1) ∧
      (∀ a ∈ collect handedIn {} acts, ¬GivenUp acts a →
        tally (releasedInAll acts) (some a) = 1) ∧
      (∀ a, GivenUp acts a → tally (releasedInAll acts) (some a) = 0) ∧
      (∀ r ∈ releasedInAll acts, ∃ a ∈ collect handedIn {} acts, r.address = some a) ∧
      ∀ place, ∀ a ∈ (after {} acts).held place, tally (released acts) (some a) = 0 := by
  refine ⟨sound_empty.releases_collect acts, fun a ↦ ?once, fun a hmem hkept ↦ ?kept,
    fun a hgiven ↦ ?given, fun r hr ↦ ?null, fun place a hmem ↦ ?reading⟩
  case once =>
    obtain ⟨hplaces, htaken, hhanded⟩ := balanced acts a
    rw [tally_released]
    omega
  case kept =>
    obtain ⟨hplaces, htaken, hhanded⟩ := balanced acts a
    have hmem' := List.count_pos_iff.2 hmem
    have hback := mt (givenUp_iff acts a).2 hkept
    rw [tally_releasedInAll]
    omega
  case given =>
    obtain ⟨hplaces, _, hhanded⟩ := balanced acts a
    have hout := (givenUp_iff acts a).1 hgiven
    rw [tally_releasedInAll]
    omega
  case null =>
    have haddress := List.mem_map_of_mem (f := Release.address) hr
    rw [addresses_releasedInAll, List.mem_map] at haddress
    obtain ⟨a, hmem, hra⟩ := haddress
    obtain ⟨hplaces, htaken, _⟩ := balanced acts a
    have hmem' := List.count_pos_iff.2 hmem
    rw [List.count_append, ← inPlaces_eq_count] at hmem'
    exact ⟨a, List.count_pos_iff.1 (by omega), hra.symm⟩
  case reading =>
    obtain ⟨hplaces, htaken, hhanded⟩ := balanced acts a
    have hmem' := List.count_pos_iff.2 hmem
    have hle := (after {} acts).count_held_le a place
    rw [tally_released]
    omega

theorem a_value_comes_back_and_another_does_not :
    tally (releasedInAll [.store "a" (.owned "x" none), .toRaw "a" "r", .ofRaw "b" "r",
        .store "a" (.borrowed "y"), .toRaw "a" "r"]) (some 0) = 1 ∧
      tally (releasedInAll [.store "a" (.owned "x" none), .toRaw "a" "r", .ofRaw "b" "r",
        .store "a" (.borrowed "y"), .toRaw "a" "r"]) (some 1) = 0 := by
  obtain ⟨_, _, hkept, hgiven, _⟩ := values_are_released_once
    [.store "a" (.owned "x" none), .toRaw "a" "r", .ofRaw "b" "r", .store "a" (.borrowed "y"),
      .toRaw "a" "r"]
  refine ⟨hkept 0 (by decide) ?_, hgiven 1 ?_⟩
  · rw [givenUp_iff]
    decide
  · rw [givenUp_iff]
    decide

end Histories

end Locker

end ForeignPasses
