import ForeignPasses.Registry.Basic
import Mathlib.Data.List.Sort

/-!
# The order of names

Names are sorted by their characters. In UTF-8 the bytes that stand for two texts are in the same
order as the texts, so the names of a registry are listed in the order of their bytes.
-/

namespace ForeignPasses.Text

/-! ## Bytes of characters -/

/-- A smaller byte comes first, and of two equal ones those behind decide. -/
theorem cons_lt_cons {a b : Nat} (hb : b < 256) {s t : List UInt8}
    (h : a < b ∨ a = b ∧ s < t) : UInt8.ofNat a :: s < UInt8.ofNat b :: t := by
  rw [List.cons_lt_cons_iff]
  rcases h with h | ⟨rfl, h⟩
  · left
    rw [UInt8.lt_iff_toNat_lt, UInt8.toNat_ofNat', UInt8.toNat_ofNat']
    omega
  · exact .inr ⟨rfl, h⟩

section Trailing

variable {m n : Nat} (hlt : m < n) (s t : List UInt8)

include hlt

theorem lastByte_lt (heq : m / 64 = n / 64) :
    UInt8.ofNat (m % 64 + 128) :: s < UInt8.ofNat (n % 64 + 128) :: t :=
  cons_lt_cons (by omega) (.inl (by omega))

theorem lastTwoBytes_lt (heq : m / 4096 = n / 4096) :
    UInt8.ofNat (m / 64 % 64 + 128) :: UInt8.ofNat (m % 64 + 128) :: s <
      UInt8.ofNat (n / 64 % 64 + 128) :: UInt8.ofNat (n % 64 + 128) :: t := by
  apply cons_lt_cons (by omega)
  rcases Nat.lt_or_ge (m / 64) (n / 64) with hless | hmore
  · exact .inl (by omega)
  · exact .inr ⟨by omega, lastByte_lt hlt s t (by omega)⟩

theorem lastThreeBytes_lt (heq : m / 262144 = n / 262144) :
    UInt8.ofNat (m / 4096 % 64 + 128) :: UInt8.ofNat (m / 64 % 64 + 128) ::
        UInt8.ofNat (m % 64 + 128) :: s <
      UInt8.ofNat (n / 4096 % 64 + 128) :: UInt8.ofNat (n / 64 % 64 + 128) ::
        UInt8.ofNat (n % 64 + 128) :: t := by
  apply cons_lt_cons (by omega)
  rcases Nat.lt_or_ge (m / 4096) (n / 4096) with hless | hmore
  · exact .inl (by omega)
  · exact .inr ⟨by omega, lastTwoBytes_lt hlt s t (by omega)⟩

end Trailing

/-- A smaller character has smaller bytes, whatever follows. -/
theorem utf8EncodeChar_lt {c d : Char} (h : c < d) (s t : List UInt8) :
    String.utf8EncodeChar c ++ s < String.utf8EncodeChar d ++ t := by
  have hlt : c.val.toNat < d.val.toNat := h
  have hbound : d.val.toNat < 0x110000 := by
    rcases d.valid with h | h
    · omega
    · exact h.2
  unfold String.utf8EncodeChar
  generalize c.val.toNat = m at hlt
  generalize d.val.toNat = n at hlt hbound
  dsimp only
  split_ifs <;> try omega
  all_goals simp only [List.cons_append, List.nil_append]
  -- A character with more bytes has the larger first byte. Of two with as many, the first bytes
  -- hold the leading digits, and where these are equal the other bytes decide.
  case pos | pos | pos | neg => exact cons_lt_cons (by omega) (.inl (by omega))
  case pos =>
    apply cons_lt_cons (by omega)
    rcases Nat.lt_or_ge (m / 64) (n / 64) with hless | hmore
    · exact .inl (by omega)
    · exact .inr ⟨by omega, lastByte_lt hlt s t (by omega)⟩
  case pos | neg => exact cons_lt_cons (by omega) (.inl (by omega))
  case pos =>
    apply cons_lt_cons (by omega)
    rcases Nat.lt_or_ge (m / 4096) (n / 4096) with hless | hmore
    · exact .inl (by omega)
    · exact .inr ⟨by omega, lastTwoBytes_lt hlt s t (by omega)⟩
  case neg => exact cons_lt_cons (by omega) (.inl (by omega))
  case neg =>
    apply cons_lt_cons (by omega)
    rcases Nat.lt_or_ge (m / 262144) (n / 262144) with hless | hmore
    · exact .inl (by omega)
    · exact .inr ⟨by omega, lastThreeBytes_lt hlt s t (by omega)⟩

theorem flatMap_utf8EncodeChar_lt {s t : List Char} (h : s < t) :
    s.flatMap String.utf8EncodeChar < t.flatMap String.utf8EncodeChar := by
  induction s generalizing t with
  | nil =>
    cases t with
    | nil => exact absurd h (List.lt_irrefl [])
    | cons d t =>
      rw [List.flatMap_cons]
      cases hd : String.utf8EncodeChar d with
      | nil => exact absurd hd String.utf8EncodeChar_ne_nil
      | cons b rest => exact List.nil_lt_cons b _
  | cons c s ih =>
    cases t with
    | nil => exact absurd h (List.not_lt_nil _)
    | cons d t =>
      rw [List.flatMap_cons, List.flatMap_cons]
      rcases List.cons_lt_cons_iff.1 h with hfirst | ⟨rfl, hrest⟩
      · exact utf8EncodeChar_lt hfirst _ _
      · exact List.append_left_lt (ih hrest)

/-! ## Bytes of texts -/

/-- The bytes of a text in UTF-8. -/
def bytes (s : String) : List UInt8 := s.toUTF8.data.toList

theorem bytes_eq (s : String) : bytes s = s.toList.flatMap String.utf8EncodeChar := by
  have hencode : s.toByteArray = s.toList.utf8Encode := by
    rw [← String.toByteArray_ofList, String.ofList_toList]
  rw [bytes, String.toUTF8, hencode, List.utf8Encode]
  exact congrArg Array.toList List.data_toByteArray

/-- Bytes are in the order of the texts they stand for. -/
theorem bytes_lt_bytes {s t : String} (h : s < t) : bytes s < bytes t := by
  rw [bytes_eq, bytes_eq]
  exact flatMap_utf8EncodeChar_lt h

end ForeignPasses.Text

namespace ForeignPasses.Registry

theorem names_perm (r : Registry) : r.names.Perm r.passes.keys := List.mergeSort_perm _ _

/-- Names are listed in the order of their bytes, none of them twice. -/
theorem names_sorted (r : Registry) :
    r.names.Pairwise fun a b ↦ Text.bytes a < Text.bytes b := by
  have htrans (a b c : String) : decide (a ≤ b) → decide (b ≤ c) → decide (a ≤ c) := by
    simpa only [decide_eq_true_eq] using String.le_trans
  have htotal (a b : String) : decide (a ≤ b) || decide (b ≤ a) := by
    simpa only [Bool.or_eq_true, decide_eq_true_eq] using String.le_total a b
  have hle : r.names.Pairwise fun a b ↦ decide (a ≤ b) :=
    List.pairwise_mergeSort htrans htotal r.passes.keys
  have hne : r.names.Nodup := r.names_perm.nodup_iff.2 r.passes.keys_nodup
  refine (hle.and hne).imp ?_
  rintro a b ⟨hab, hdistinct⟩
  apply Text.bytes_lt_bytes
  by_contra hnot
  exact hdistinct (String.le_antisymm (of_decide_eq_true hab) (String.not_lt.1 hnot))

end ForeignPasses.Registry
