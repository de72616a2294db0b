import Mathlib.Data.List.InsertIdx
import Mathlib.Data.List.Sort
import ForeignPasses.Preserved.Registers

/-!
# Stored preserved sets

However a set of preserved analyses came about, its addresses are strictly increasing and the
marker is in it only by itself. So a set is determined by what it preserves, and the laws of
intersections are equations between stored values.
-/

namespace ForeignPasses

namespace Stored

/-! ## Searching -/

section Searching

variable {l : List Nat} {a : Nat}

/-- What a search may answer about a list. -/
inductive Locates (l : List Nat) (a : Nat) : Except Nat Nat → Prop where
  | found {place : Nat} (h : a ∈ l) : Locates l a (.ok place)
  | missing {before after : List Nat} (hl : l = before ++ after) (hbefore : ∀ b ∈ before, b < a)
      (hafter : ∀ b ∈ after, a < b) : Locates l a (.error before.length)

/-- The window is what is left to look at: smaller addresses lie before it, larger ones after. -/
theorem locates_searchFrom (hsorted : l.Pairwise (· < ·)) (low high : Nat)
    (hhigh : high ≤ l.length) (hle : low ≤ high)
    (hsmaller : ∀ i (hi : i < l.length), i < low → l[i] < a)
    (hlarger : ∀ i (hi : i < l.length), high ≤ i → a < l[i]) :
    Locates l a (searchFrom l a low high hhigh) := by
  rw [List.pairwise_iff_getElem] at hsorted
  fun_induction searchFrom l a low high hhigh with
  | case1 low high hhigh hlow middle hmiddle heq => exact .found (heq ▸ List.getElem_mem hmiddle)
  | case2 low high hhigh hlow middle hmiddle hne hlt ih =>
    refine ih (by omega) (fun i hi hlt' ↦ ?_) hlarger
    rcases Nat.lt_or_eq_of_le (Nat.le_of_lt_succ hlt') with hi' | rfl
    · exact Nat.lt_trans (hsorted i middle hi hmiddle hi') hlt
    · exact hlt
  | case3 low high hhigh hlow middle hmiddle hne hnlt ih =>
    have hgt : a < l[middle] := by omega
    refine ih (by omega) hsmaller fun i hi hle' ↦ ?_
    rcases Nat.lt_or_eq_of_le hle' with hi' | rfl
    · exact Nat.lt_trans hgt (hsorted middle i hmiddle hi hi')
    · exact hgt
  | case4 low high hhigh hlow =>
    have hlength : (l.take low).length = low := by simp; omega
    have hmissing : Locates l a (.error (l.take low).length) := by
      refine .missing (List.take_append_drop low l).symm (fun b hb ↦ ?_) fun b hb ↦ ?_
      · obtain ⟨i, hi, rfl⟩ := List.mem_take_iff_getElem.1 hb
        exact hsmaller i (by omega) (by omega)
      · obtain ⟨i, hi, rfl⟩ := List.mem_drop_iff_getElem.1 hb
        exact hlarger (low + i) (by omega) (by omega)
    rwa [hlength] at hmissing

theorem locates_search {s : Stored} (hsorted : s.addresses.Pairwise (· < ·)) (a : Nat) :
    Locates s.addresses a (s.search a) :=
  locates_searchFrom hsorted 0 _ (Nat.le_refl _) (Nat.zero_le _)
    (fun i _ hi ↦ absurd hi (Nat.not_lt_zero i)) fun i hi hle ↦ absurd hle (by omega)

theorem contains_iff {s : Stored} (hsorted : s.addresses.Pairwise (· < ·)) (a : Nat) :
    s.contains a ↔ a ∈ s.addresses := by
  unfold contains
  cases hsearch : s.search a with
  | ok place =>
    have hlocates := hsearch ▸ locates_search hsorted a
    cases hlocates with
    | found h => simpa [Except.toBool] using h
  | error place =>
    have hlocates := hsearch ▸ locates_search hsorted a
    cases hlocates with
    | missing hl hbefore hafter =>
      have hnot : a ∉ s.addresses := by
        rw [hl, List.mem_append]
        rintro (h | h)
        · exact Nat.lt_irrefl a (hbefore a h)
        · exact Nat.lt_irrefl a (hafter a h)
      simpa [Except.toBool] using hnot

theorem insertIdx_length (before after : List Nat) (a : Nat) :
    (before ++ after).insertIdx before.length a = before ++ a :: after := by
  induction before with
  | nil => rfl
  | cons b before ih => simp [ih]

/-- An insertion leaves the list as it is or puts the address where it belongs. -/
theorem insert_spec {s : Stored} (hsorted : s.addresses.Pairwise (· < ·)) (a : Nat) :
    (s.insert a).addresses.Pairwise (· < ·) ∧
      ∀ b, b ∈ (s.insert a).addresses ↔ b = a ∨ b ∈ s.addresses := by
  unfold insert
  cases hsearch : s.search a with
  | ok place =>
    have hlocates := hsearch ▸ locates_search hsorted a
    cases hlocates with
    | found h => exact ⟨hsorted, fun b ↦ by grind⟩
  | error place =>
    have hlocates := hsearch ▸ locates_search hsorted a
    cases hlocates with
    | @missing before after hl hbefore hafter =>
      obtain ⟨l⟩ := s
      subst hl
      simp only [insertIdx_length]
      refine ⟨?_, fun b ↦ by grind⟩
      obtain ⟨hsorted₁, hsorted₂, hacross⟩ := List.pairwise_append.1 hsorted
      refine List.pairwise_append.2 ⟨hsorted₁, List.pairwise_cons.2 ⟨hafter, hsorted₂⟩, ?_⟩
      intro b hb c hc
      rcases List.mem_cons.1 hc with rfl | hc
      · exact hbefore b hb
      · exact hacross b hb c hc

theorem foldl_insert_spec (l : List Nat) {s : Stored} (hsorted : s.addresses.Pairwise (· < ·)) :
    (l.foldl insert s).addresses.Pairwise (· < ·) ∧
      ∀ b, b ∈ (l.foldl insert s).addresses ↔ b ∈ l ∨ b ∈ s.addresses := by
  induction l generalizing s with
  | nil => exact ⟨hsorted, by simp⟩
  | cons a l ih =>
    obtain ⟨hinserted, hmem⟩ := insert_spec hsorted a
    obtain ⟨hfolded, hmem'⟩ := ih hinserted
    refine ⟨hfolded, fun b ↦ ?_⟩
    rw [List.foldl_cons, hmem', hmem, List.mem_cons]
    grind

end Searching

/-! ## Canonical lists -/

section Canonical

variable {marker : Nat} {s t : Stored}

structure Canonical (marker : Nat) (s : Stored) : Prop where
  sorted : s.addresses.Pairwise (· < ·)
  alone : marker ∈ s.addresses → s.addresses = [marker]

theorem isAll_iff : s.isAll marker ↔ s = all marker := by
  obtain ⟨l⟩ := s
  simp [isAll, all]

namespace Canonical

theorem isAll_iff_mem (hs : Canonical marker s) : s.isAll marker ↔ marker ∈ s.addresses := by
  refine ⟨fun h ↦ ?_, fun h ↦ ?_⟩
  · rw [isAll_iff.1 h, all]
    exact List.mem_singleton_self _
  · simpa [isAll] using hs.alone h

theorem isPreserved_iff (hs : Canonical marker s) (a : Nat) :
    s.isPreserved marker a ↔ s.isAll marker ∨ a ∈ s.addresses := by
  rw [isPreserved, Bool.or_eq_true, contains_iff hs.sorted]

protected theorem all : Canonical marker (all marker) :=
  ⟨List.pairwise_singleton _ _, fun _ ↦ rfl⟩

protected theorem none : Canonical marker none :=
  ⟨.nil, fun h ↦ absurd h List.not_mem_nil⟩

protected theorem ofStatus (status : Status) : Canonical marker (ofStatus marker status) := by
  cases status with
  | allPreserved => exact .all
  | nonePreserved => exact .none

protected theorem preserve (hs : Canonical marker s) {a : Nat} (ha : a ≠ marker) :
    Canonical marker (s.preserve marker a) := by
  unfold Stored.preserve
  split
  · exact hs
  · rename_i hall
    obtain ⟨hsorted, hmem⟩ := insert_spec hs.sorted a
    refine ⟨hsorted, fun h ↦ absurd (hs.isAll_iff_mem.2 ?_) hall⟩
    exact ((hmem marker).1 h).resolve_left ha.symm

/-- Off the marker, an intersection consists of the common addresses. -/
theorem inter_spec (ht : Canonical marker t) (hsall : ¬s.isAll marker)
    (htall : ¬t.isAll marker) :
    (s.inter marker t).addresses.Pairwise (· < ·) ∧
      ∀ a, a ∈ (s.inter marker t).addresses ↔ a ∈ s.addresses ∧ a ∈ t.addresses := by
  rw [Stored.inter, if_neg hsall, if_neg htall]
  obtain ⟨hsorted, hmem⟩ :=
    foldl_insert_spec (s.addresses.filter t.contains) (s := Stored.none) .nil
  refine ⟨hsorted, fun a ↦ ?_⟩
  rw [hmem, List.mem_filter, contains_iff ht.sorted]
  simp [Stored.none]

protected theorem inter (hs : Canonical marker s) (ht : Canonical marker t) :
    Canonical marker (s.inter marker t) := by
  by_cases hsall : s.isAll marker
  · rwa [Stored.inter, if_pos hsall]
  by_cases htall : t.isAll marker
  · rwa [Stored.inter, if_neg hsall, if_pos htall]
  obtain ⟨hsorted, hmem⟩ := ht.inter_spec hsall htall
  exact ⟨hsorted, fun h ↦ absurd (hs.isAll_iff_mem.2 ((hmem marker).1 h).1) hsall⟩

/-! ## What is preserved -/

theorem isAll_preserve (hs : Canonical marker s) {a : Nat} (ha : a ≠ marker) :
    (s.preserve marker a).isAll marker ↔ s.isAll marker := by
  by_cases hall : s.isAll marker
  · rw [Stored.preserve, if_pos hall]
  · rw [(hs.preserve ha).isAll_iff_mem, hs.isAll_iff_mem, Stored.preserve, if_neg hall,
      (insert_spec hs.sorted a).2, or_iff_right ha.symm]

theorem isPreserved_preserve (hs : Canonical marker s) {a : Nat} (ha : a ≠ marker) (b : Nat) :
    (s.preserve marker a).isPreserved marker b ↔ b = a ∨ s.isPreserved marker b := by
  rw [(hs.preserve ha).isPreserved_iff, hs.isPreserved_iff, hs.isAll_preserve ha]
  by_cases hall : s.isAll marker
  · simp [hall]
  · rw [Stored.preserve, if_neg hall, (insert_spec hs.sorted a).2]
    exact or_left_comm

theorem isAll_inter (hs : Canonical marker s) (ht : Canonical marker t) :
    (s.inter marker t).isAll marker ↔ s.isAll marker ∧ t.isAll marker := by
  by_cases hsall : s.isAll marker
  · rw [Stored.inter, if_pos hsall, and_iff_right hsall]
  by_cases htall : t.isAll marker
  · rw [Stored.inter, if_neg hsall, if_pos htall, and_iff_left htall]
  · rw [(hs.inter ht).isAll_iff_mem, (ht.inter_spec hsall htall).2, hs.isAll_iff_mem,
      ht.isAll_iff_mem]

theorem isPreserved_inter (hs : Canonical marker s) (ht : Canonical marker t) (a : Nat) :
    (s.inter marker t).isPreserved marker a ↔
      s.isPreserved marker a ∧ t.isPreserved marker a := by
  rw [(hs.inter ht).isPreserved_iff, hs.isPreserved_iff, ht.isPreserved_iff, hs.isAll_inter ht]
  by_cases hsall : s.isAll marker
  · rw [Stored.inter, if_pos hsall]
    simp [hsall]
  by_cases htall : t.isAll marker
  · rw [Stored.inter, if_neg hsall, if_pos htall]
    simp [hsall, htall]
  · rw [(ht.inter_spec hsall htall).2]
    simp [hsall, htall]

/-- The marker is not needed to tell values apart. -/
theorem ext (hs : Canonical marker s) (ht : Canonical marker t)
    (hall : s.isAll marker ↔ t.isAll marker)
    (hkept : ∀ a, a ≠ marker → (s.isPreserved marker a ↔ t.isPreserved marker a)) : s = t := by
  by_cases hsall : s.isAll marker
  · rw [isAll_iff.1 hsall, isAll_iff.1 (hall.1 hsall)]
  have htall : ¬t.isAll marker := fun h ↦ hsall (hall.2 h)
  have hmem (a : Nat) : a ∈ s.addresses ↔ a ∈ t.addresses := by
    by_cases ha : a = marker
    · rw [ha, ← hs.isAll_iff_mem, ← ht.isAll_iff_mem, hall]
    · have hiff := hkept a ha
      rwa [hs.isPreserved_iff, ht.isPreserved_iff, or_iff_right hsall, or_iff_right htall] at hiff
  have haddresses : s.addresses = t.addresses := hs.sorted.eq_of_mem_iff ht.sorted hmem
  obtain ⟨l⟩ := s
  obtain ⟨m⟩ := t
  exact congrArg Stored.mk haddresses

end Canonical

end Canonical

/-! ## The values of a program -/

/-- Values that come about from the constants, statuses, additions and intersections. -/
inductive Built (marker : Nat) : Stored → Prop where
  | all : Built marker (all marker)
  | none : Built marker none
  | ofStatus (status : Status) : Built marker (ofStatus marker status)
  | preserve {s : Stored} {a : Nat} (hs : Built marker s) (ha : a ≠ marker) :
      Built marker (s.preserve marker a)
  | inter {s t : Stored} (hs : Built marker s) (ht : Built marker t) :
      Built marker (s.inter marker t)

theorem Built.canonical {marker : Nat} {s : Stored} (h : Built marker s) : Canonical marker s := by
  induction h with
  | all => exact .all
  | none => exact .none
  | ofStatus status => exact .ofStatus status
  | preserve _ ha ih => exact ih.preserve ha
  | inter _ _ ihs iht => exact ihs.inter iht

section Laws

variable {marker : Nat} {s t u : Stored}

theorem inter_comm (hs : Canonical marker s) (ht : Canonical marker t) :
    s.inter marker t = t.inter marker s := by
  refine (hs.inter ht).ext (ht.inter hs) ?_ fun a _ ↦ ?_
  · rw [hs.isAll_inter ht, ht.isAll_inter hs, and_comm]
  · rw [hs.isPreserved_inter ht, ht.isPreserved_inter hs, and_comm]

theorem inter_assoc (hs : Canonical marker s) (ht : Canonical marker t) (hu : Canonical marker u) :
    (s.inter marker t).inter marker u = s.inter marker (t.inter marker u) := by
  have hst := hs.inter ht
  have htu := ht.inter hu
  refine (hst.inter hu).ext (hs.inter htu) ?_ fun a _ ↦ ?_
  · rw [hst.isAll_inter hu, hs.isAll_inter ht, hs.isAll_inter htu, ht.isAll_inter hu, and_assoc]
  · rw [hst.isPreserved_inter hu, hs.isPreserved_inter ht, hs.isPreserved_inter htu,
      ht.isPreserved_inter hu, and_assoc]

theorem inter_self (hs : Canonical marker s) : s.inter marker s = s := by
  refine (hs.inter hs).ext hs ?_ fun a _ ↦ ?_
  · rw [hs.isAll_inter hs, and_self]
  · rw [hs.isPreserved_inter hs, and_self]

theorem all_inter (s : Stored) : (all marker).inter marker s = s := by
  rw [inter, if_pos (isAll_iff.2 rfl)]

theorem none_inter (hs : Canonical marker s) : none.inter marker s = none := by
  have hnone (a : Nat) : ¬none.isPreserved marker a := by
    rw [Canonical.none.isPreserved_iff]
    simp [none, isAll]
  refine (Canonical.none.inter hs).ext .none ?_ fun a _ ↦ ?_
  · rw [Canonical.none.isAll_inter hs]
    simp [none, isAll]
  · rw [Canonical.none.isPreserved_inter hs]
    simp [hnone a]

theorem preserved_sets_form_a_lattice (hs : Built marker s) (ht : Built marker t)
    (hu : Built marker u) :
    Canonical marker s ∧
      (∀ a, a ≠ marker → ∀ b,
        (s.preserve marker a).isPreserved marker b ↔ b = a ∨ s.isPreserved marker b) ∧
      (s.isAll marker → ∀ a b, (s.preserve marker a).isPreserved marker b) ∧
      (∀ a, (s.inter marker t).isPreserved marker a ↔
        s.isPreserved marker a ∧ t.isPreserved marker a) ∧
      (s = t ↔ (s.isAll marker ↔ t.isAll marker) ∧
        ∀ a, a ≠ marker → (s.isPreserved marker a ↔ t.isPreserved marker a)) ∧
      s.inter marker t = t.inter marker s ∧
      (s.inter marker t).inter marker u = s.inter marker (t.inter marker u) ∧
      s.inter marker s = s ∧
      (all marker).inter marker s = s ∧ s.inter marker (all marker) = s ∧
      none.inter marker s = none ∧ s.inter marker none = none := by
  have hs := hs.canonical
  have ht := ht.canonical
  have hu := hu.canonical
  refine ⟨hs, fun a ha b ↦ hs.isPreserved_preserve ha b, fun hall a b ↦ ?_,
    hs.isPreserved_inter ht, ⟨fun h ↦ h ▸ ⟨.rfl, fun _ _ ↦ .rfl⟩, fun h ↦ hs.ext ht h.1 h.2⟩,
    inter_comm hs ht, inter_assoc hs ht hu, inter_self hs, all_inter s, ?_, none_inter hs, ?_⟩
  · rw [preserve, if_pos hall, isPreserved, hall, Bool.true_or]
  · rw [inter_comm hs .all, all_inter]
  · rw [inter_comm hs .none, none_inter hs]

theorem two_identities_form_a_lattice :
    ((none.preserve 1 3).preserve 1 0).addresses = [0, 3] ∧
      Canonical 1 ((none.preserve 1 3).preserve 1 0) ∧
      (((none.preserve 1 3).preserve 1 0).inter 1 (none.preserve 1 3)).inter 1 (all 1) =
        ((none.preserve 1 3).preserve 1 0).inter 1 ((none.preserve 1 3).inter 1 (all 1)) := by
  have hthree : Built 1 (none.preserve 1 3) := .preserve .none (by decide)
  have hboth : Built 1 ((none.preserve 1 3).preserve 1 0) := .preserve hthree (by decide)
  obtain ⟨hcanonical, _, _, _, _, _, hassoc, _⟩ :=
    preserved_sets_form_a_lattice hboth hthree .all
  exact ⟨by decide +kernel, hcanonical, hassoc⟩

end Laws

end Stored

/-! ## What stored sets stand for -/

namespace Preserved

variable {p q : Preserved}

theorem ext_contains (hall : p.isAll = q.isAll) (hkept : ∀ k, p.contains k = q.contains k) :
    p = q := by
  cases p with
  | all => cases q with
    | all => rfl
    | only t => exact absurd hall (by simp [isAll])
  | only s => cases q with
    | all => exact absurd hall (by simp [isAll])
    | only t =>
      have hmem (k : Key) : k ∈ s.keys ↔ k ∈ t.keys := by
        simpa [contains, KeySet.contains] using hkept k
      have : Std.Irrefl fun i j : Key ↦ i.before j = true := ⟨fun k ↦ by simp⟩
      have : Std.Antisymm fun i j : Key ↦ i.before j = true :=
        ⟨fun i j hij hji ↦ absurd (Key.before_trans hij hji) (by simp)⟩
      have hkeys : s.keys = t.keys := s.sorted.eq_of_mem_iff t.sorted hmem
      obtain ⟨keys, _⟩ := s
      subst hkeys
      rfl

@[simp] theorem isAll_preserve (p : Preserved) (k : Key) : (p.preserve k).isAll = p.isAll := by
  cases p <;> rfl

@[simp] theorem isAll_inter (p q : Preserved) : (p.inter q).isAll = (p.isAll && q.isAll) := by
  cases p <;> cases q <;> rfl

theorem foldl_preserve_spec (keys : List Key) (p : Preserved) :
    (keys.foldl preserve p).isAll = p.isAll ∧
      ∀ k, (keys.foldl preserve p).contains k = (decide (k ∈ keys) || p.contains k) := by
  induction keys generalizing p with
  | nil => simp
  | cons j keys ih =>
    obtain ⟨hall, hkept⟩ := ih (p.preserve j)
    refine ⟨hall.trans (isAll_preserve p j), fun k ↦ ?_⟩
    rw [List.foldl_cons, hkept, contains_preserve]
    simp [Bool.or_left_comm, Bool.or_assoc]

end Preserved

namespace Layout

open Stored (Canonical)

/-- A stored set has the addresses of what is preserved and no others. -/
structure Stands (layout : Layout) (s : Stored) (p : Preserved) : Prop where
  canonical : Canonical layout.marker s
  all : s.isAll layout.marker = p.isAll
  keeps (k : Key) : s.isPreserved layout.marker (layout.address k) = p.contains k
  owned : ∀ a ∈ s.addresses, a ≠ layout.marker → ∃ k, layout.address k = a

namespace Stands

variable {layout : Layout} {s t : Stored} {p q : Preserved}

theorem mem_iff (h : layout.Stands s p) (hall : p.isAll = false) (k : Key) :
    layout.address k ∈ s.addresses ↔ p.contains k := by
  rw [← h.keeps, h.canonical.isPreserved_iff, h.all, hall]
  simp

theorem read (h : layout.Stands s p) : layout.read s = p := by
  unfold Layout.read
  split
  · rename_i hsall
    refine Preserved.ext_contains (h.all ▸ hsall.symm) fun k ↦ ?_
    rw [← h.keeps, Stored.isPreserved, hsall]
    rfl
  · rename_i hsall
    have hall : p.isAll = false := by simpa [h.all] using hsall
    obtain ⟨hofKeys, hkept⟩ :=
      Preserved.foldl_preserve_spec (s.addresses.filterMap layout.owner?) .none
    refine Preserved.ext_contains (hofKeys.trans hall.symm) fun k ↦ ?_
    have hmem : k ∈ s.addresses.filterMap layout.owner? ↔ layout.address k ∈ s.addresses := by
      rw [List.mem_filterMap]
      constructor
      · rintro ⟨a, ha, howner⟩
        have hne : a ≠ layout.marker := by
          rintro rfl
          rw [layout.owner?_marker] at howner
          cases howner
        obtain ⟨j, rfl⟩ := h.owned a ha hne
        rw [layout.owner?_address, Option.some.injEq] at howner
        rwa [← howner]
      · exact fun hk ↦ ⟨layout.address k, hk, layout.owner?_address k⟩
    rw [Preserved.ofKeys, hkept, Preserved.contains_none, Bool.or_false, Bool.eq_iff_iff,
      decide_eq_true_iff, hmem, h.mem_iff hall]

theorem eq_iff (hs : layout.Stands s p) (ht : layout.Stands t q) : s = t ↔ p = q := by
  refine ⟨fun h ↦ ?_, fun h ↦ ?_⟩
  · rw [← hs.read, ← ht.read, h]
  · subst h
    refine hs.canonical.ext ht.canonical (by rw [hs.all, ht.all]) fun a ha ↦ ?_
    rw [hs.canonical.isPreserved_iff, ht.canonical.isPreserved_iff, hs.all, ht.all]
    refine or_congr_right' fun hall ↦ ?_
    have hall : p.isAll = false := by simpa using hall
    constructor
    · intro hmem
      obtain ⟨k, rfl⟩ := hs.owned a hmem ha
      exact (ht.mem_iff hall k).2 ((hs.mem_iff hall k).1 hmem)
    · intro hmem
      obtain ⟨k, rfl⟩ := ht.owned a hmem ha
      exact (hs.mem_iff hall k).2 ((ht.mem_iff hall k).1 hmem)

protected theorem everything : layout.Stands (.all layout.marker) .all where
  canonical := .all
  all := Stored.isAll_iff.2 rfl
  keeps k := by
    rw [Stored.isPreserved, Stored.isAll_iff.2 rfl]
    rfl
  owned a ha hne := absurd (List.mem_singleton.1 ha) hne

protected theorem nothing : layout.Stands .none .none where
  canonical := .none
  all := by simp [Stored.none, Stored.isAll, Preserved.none, Preserved.isAll]
  keeps k := by
    rw [Preserved.contains_none, ← Bool.not_eq_true, Canonical.none.isPreserved_iff]
    simp [Stored.none, Stored.isAll]
  owned a ha := absurd ha List.not_mem_nil

protected theorem ofStatus (status : Status) :
    layout.Stands (.ofStatus layout.marker status) (.ofStatus status) := by
  cases status with
  | allPreserved => exact .everything
  | nonePreserved => exact .nothing

protected theorem preserve (h : layout.Stands s p) (k : Key) :
    layout.Stands (s.preserve layout.marker (layout.address k)) (p.preserve k) := by
  have hne := layout.address_ne_marker k
  refine ⟨h.canonical.preserve hne, ?_, fun j ↦ ?_, fun a ha hmarker ↦ ?_⟩
  · rw [Preserved.isAll_preserve, ← h.all, Bool.eq_iff_iff, h.canonical.isAll_preserve hne]
  · have haddress : layout.address j = layout.address k ↔ j = k :=
      ⟨layout.address_injective, congrArg layout.address⟩
    rw [Bool.eq_iff_iff, h.canonical.isPreserved_preserve hne, h.keeps, haddress,
      Preserved.contains_preserve]
    simp
  · by_cases hall : s.isAll layout.marker
    · rw [Stored.preserve, if_pos hall] at ha
      exact h.owned a ha hmarker
    · rw [Stored.preserve, if_neg hall, (Stored.insert_spec h.canonical.sorted _).2] at ha
      exact ha.elim (fun ha ↦ ⟨k, ha.symm⟩) fun ha ↦ h.owned a ha hmarker

theorem foldl_preserve (keys : List Key) (h : layout.Stands s p) :
    layout.Stands ((keys.map layout.address).foldl (Stored.preserve layout.marker) s)
      (keys.foldl Preserved.preserve p) := by
  induction keys generalizing s p with
  | nil => exact h
  | cons k keys ih => exact ih (h.preserve k)

protected theorem inter (hs : layout.Stands s p) (ht : layout.Stands t q) :
    layout.Stands (s.inter layout.marker t) (p.inter q) := by
  refine ⟨hs.canonical.inter ht.canonical, ?_, fun k ↦ ?_, fun a ha hmarker ↦ ?_⟩
  · rw [Preserved.isAll_inter, ← hs.all, ← ht.all, Bool.eq_iff_iff,
      hs.canonical.isAll_inter ht.canonical, Bool.and_eq_true]
  · rw [Preserved.contains_inter, ← hs.keeps, ← ht.keeps, Bool.eq_iff_iff,
      hs.canonical.isPreserved_inter ht.canonical, Bool.and_eq_true]
  · by_cases hsall : s.isAll layout.marker
    · rw [Stored.inter, if_pos hsall] at ha
      exact ht.owned a ha hmarker
    by_cases htall : t.isAll layout.marker
    · rw [Stored.inter, if_neg hsall, if_pos htall] at ha
      exact hs.owned a ha hmarker
    · rw [(ht.canonical.inter_spec hsall htall).2] at ha
      exact hs.owned a ha.1 hmarker

end Stands

end Layout

/-! ## Registers -/

namespace Preserved

variable {layout layout' : Layout} {r r' : Registers}

/-- The same sets under each name, at two layouts. -/
def Alike (layout layout' : Layout) (r r' : Registers) : Prop :=
  ∀ name, ∃ p, layout.Stands (r.get name) p ∧ layout'.Stands (r'.get name) p

theorem Alike.store (h : Alike layout layout' r r') (name : String) {s s' : Stored}
    {p : Preserved} (hs : layout.Stands s p) (hs' : layout'.Stands s' p) :
    (r.store layout name s).2 = (r'.store layout' name s').2 ∧
      Alike layout layout' (r.store layout name s).1 (r'.store layout' name s').1 := by
  refine ⟨congrArg Answer.set (hs.read.trans hs'.read.symm), fun name' ↦ ?_⟩
  by_cases hname : name' = name
  · exact ⟨p, by simpa [Registers.get, Registers.store, hname] using ⟨hs, hs'⟩⟩
  · simpa [Registers.get, Registers.store, Table.find?_insert, hname] using h name'

theorem Alike.step (h : Alike layout layout' r r') (act : Act) :
    (r.step layout act).2 = (r'.step layout' act).2 ∧
      Alike layout layout' (r.step layout act).1 (r'.step layout' act).1 := by
  cases act with
  | all target => exact h.store target .everything .everything
  | none target => exact h.store target .nothing .nothing
  | status target status => exact h.store target (.ofStatus status) (.ofStatus status)
  | preserve target keys =>
    obtain ⟨p, hp, hp'⟩ := h target
    exact h.store target (hp.foldl_preserve keys) (hp'.foldl_preserve keys)
  | inter target left right =>
    obtain ⟨p, hp, hp'⟩ := h left
    obtain ⟨q, hq, hq'⟩ := h right
    exact h.store target (hp.inter hq) (hp'.inter hq')
  | contains source key =>
    obtain ⟨p, hp, hp'⟩ := h source
    exact ⟨congrArg Answer.truth ((hp.keeps key).trans (hp'.keeps key).symm), h⟩
  | equal left right =>
    obtain ⟨p, hp, hp'⟩ := h left
    obtain ⟨q, hq, hq'⟩ := h right
    have hiff := (hp.eq_iff hq).trans (hp'.eq_iff hq').symm
    exact ⟨congrArg Answer.truth (decide_eq_decide.2 hiff), h⟩

theorem Alike.transcriptAt (acts : List Act) (h : Alike layout layout' r r') :
    transcriptAt layout r acts = transcriptAt layout' r' acts := by
  induction acts generalizing r r' with
  | nil => rfl
  | cons act acts ih =>
    obtain ⟨hanswer, hnext⟩ := h.step act
    exact congrArg₂ List.cons hanswer (ih hnext)

/-- What is seen of preserved sets does not depend on where identities and the marker lie. -/
theorem transcriptAt_eq_transcript (layout : Layout) (acts : List Act) :
    transcriptAt layout ∅ acts = transcript ∅ acts :=
  Alike.transcriptAt acts fun _ ↦ ⟨none, .nothing, .nothing⟩

end Preserved

end ForeignPasses
