import ForeignPasses.Pipeline.Parser
import Mathlib.Data.List.TakeWhile

/-!
# The grammar of textual pipelines

Which lists of elements have a text, and what their texts are: elements stand between commas, the
children of an element in parentheses behind its name, and blanks around every name and around
every closing parenthesis. The statements here are about the characters at the ends of names; what
is read is compared with the grammar elsewhere.
-/

namespace ForeignPasses.Pipeline

open Text

/-- A run of blanks, possibly empty. -/
def IsBlankRun (cs : List Char) : Prop := ∀ c ∈ cs, isBlank c = true

/-- A name has a first and a last character, which are not blank, and no delimiter in it. -/
structure IsName (name : List Char) : Prop where
  ne_nil : name ≠ []
  first : ∀ c ∈ name.head?, isBlank c = false
  last : ∀ c ∈ name.getLast?, isBlank c = false
  plain : ∀ c ∈ name, isDelimiter c = false

/-- Lists of elements that have a text: they are not empty, their names are names, and children are
absent or have a text again. -/
inductive WellFormed : List Element → Prop where
  | leaf {name : String} (hname : IsName name.toList) : WellFormed [.mk name []]
  | group {name : String} {children : List Element} (hname : IsName name.toList)
      (hchildren : WellFormed children) : WellFormed [.mk name children]
  | more {e f : Element} {rest : List Element} (hfirst : WellFormed [e])
      (hrest : WellFormed (f :: rest)) : WellFormed (e :: f :: rest)

/-- The texts of a list of elements. -/
inductive Written : List Element → List Char → Prop where
  | leaf {name : String} {before after : List Char} (hbefore : IsBlankRun before)
      (hafter : IsBlankRun after) : Written [.mk name []] (before ++ name.toList ++ after)
  | group {name : String} {children : List Element} {before after inside ending behind : List Char}
      (hbefore : IsBlankRun before) (hafter : IsBlankRun after)
      (hinside : Written children inside) (hending : IsBlankRun ending)
      (hbehind : IsBlankRun behind) :
      Written [.mk name children]
        (before ++ name.toList ++ after ++ '(' :: inside ++ ending ++ ')' :: behind)
  | more {e f : Element} {rest : List Element} {first others : List Char}
      (hfirst : Written [e] first) (hrest : Written (f :: rest) others) :
      Written (e :: f :: rest) (first ++ ',' :: others)

namespace WellFormed

theorem isName {name : String} {children : List Element} (h : WellFormed [.mk name children]) :
    IsName name.toList := by
  cases h with
  | leaf hname => exact hname
  | group hname _ => exact hname

theorem children {name : String} {c : Element} {children : List Element}
    (h : WellFormed [.mk name (c :: children)]) : WellFormed (c :: children) := by
  cases h with
  | group _ hchildren => exact hchildren

theorem head {e : Element} {rest : List Element} (h : WellFormed (e :: rest)) : WellFormed [e] := by
  cases h with
  | leaf hname => exact .leaf hname
  | group hname hchildren => exact .group hname hchildren
  | more hfirst _ => exact hfirst

theorem tail {e f : Element} {rest : List Element} (h : WellFormed (e :: f :: rest)) :
    WellFormed (f :: rest) := by
  cases h with
  | more _ hrest => exact hrest

end WellFormed

/-! ## Blanks and delimiters -/

theorem IsBlankRun.nil : IsBlankRun [] := by
  intro c hc
  simp at hc

theorem IsBlankRun.append {cs ds : List Char} (hcs : IsBlankRun cs) (hds : IsBlankRun ds) :
    IsBlankRun (cs ++ ds) := by
  intro c hc
  rcases List.mem_append.1 hc with hc | hc
  · exact hcs c hc
  · exact hds c hc

theorem isBlank_eq_false_of_isDelimiter {c : Char} (h : isDelimiter c = true) :
    isBlank c = false := by
  simp only [isDelimiter, Bool.or_eq_true, beq_iff_eq] at h
  rcases h with (rfl | rfl) | rfl <;> decide

theorem isDelimiter_eq_false_of_isBlank {c : Char} (h : isBlank c = true) :
    isDelimiter c = false := by
  cases hdelimiter : isDelimiter c with
  | false => rfl
  | true =>
    rw [isBlank_eq_false_of_isDelimiter hdelimiter] at h
    contradiction

theorem isDelimiter_eq_false_iff {c : Char} :
    isDelimiter c = false ↔ c ≠ ',' ∧ c ≠ '(' ∧ c ≠ ')' := by
  simp [isDelimiter, and_assoc]

theorem IsBlankRun.plain {cs : List Char} (h : IsBlankRun cs) :
    ∀ c ∈ cs, isDelimiter c = false :=
  fun c hc ↦ isDelimiter_eq_false_of_isBlank (h c hc)

theorem isBlankRun_takeWhile (cs : List Char) : IsBlankRun (cs.takeWhile isBlank) :=
  fun _ hc ↦ List.mem_takeWhile_imp hc

/-- A text is the blanks at its front and what is left without them. -/
theorem takeWhile_append_skipBlank (cs : List Char) :
    cs.takeWhile isBlank ++ skipBlank cs = cs :=
  List.takeWhile_append_dropWhile

theorem skipBlank_append {cs : List Char} (h : IsBlankRun cs) (ds : List Char) :
    skipBlank (cs ++ ds) = skipBlank ds :=
  List.dropWhile_append_of_pos h

theorem skipBlank_of_head {cs : List Char} (h : ∀ c ∈ cs.head?, isBlank c = false) :
    skipBlank cs = cs := by
  cases cs with
  | nil => rfl
  | cons c cs => exact List.dropWhile_cons_of_neg (by simp [h c (by simp)])

theorem head_skipBlank (cs : List Char) : ∀ c ∈ (skipBlank cs).head?, isBlank c = false := by
  intro c hc
  have h := List.head?_dropWhile_not isBlank cs
  rw [skipBlank] at hc
  rw [Option.mem_def.1 hc] at h
  simpa using h

/-! ## Trimming -/

/-- The blanks at the end of a text that does not start with any. -/
def trailing (cs : List Char) : List Char := ((skipBlank cs).reverse.takeWhile isBlank).reverse

theorem isBlankRun_trailing (cs : List Char) : IsBlankRun (trailing cs) := by
  intro c hc
  exact isBlankRun_takeWhile _ c (List.mem_reverse.1 hc)

theorem trim_append_trailing (cs : List Char) : trim cs ++ trailing cs = skipBlank cs := by
  rw [trim, trailing, ← List.reverse_append, takeWhile_append_skipBlank, List.reverse_reverse]

/-- Every text is its trimmed part with blanks around it. -/
theorem takeWhile_append_trim_append_trailing (cs : List Char) :
    cs.takeWhile isBlank ++ trim cs ++ trailing cs = cs := by
  rw [List.append_assoc, trim_append_trailing, takeWhile_append_skipBlank]

theorem head_trim (cs : List Char) : ∀ c ∈ (trim cs).head?, isBlank c = false := by
  intro c hc
  have hhead : (trim cs ++ trailing cs).head? = some c := by
    rw [List.head?_append, Option.mem_def.1 hc, Option.some_or]
  rw [trim_append_trailing] at hhead
  exact head_skipBlank cs c hhead

theorem getLast_trim (cs : List Char) : ∀ c ∈ (trim cs).getLast?, isBlank c = false := by
  intro c hc
  rw [trim, List.getLast?_reverse] at hc
  exact head_skipBlank _ c hc

theorem mem_of_mem_trim {cs : List Char} {c : Char} (h : c ∈ trim cs) : c ∈ cs := by
  have hmem : c ∈ cs.takeWhile isBlank ++ trim cs ++ trailing cs := by simp [h]
  rwa [takeWhile_append_trim_append_trailing] at hmem

/-- What is left of a text without delimiters is a name, if anything is. -/
theorem isName_trim {cs : List Char} (hne : trim cs ≠ [])
    (hplain : ∀ c ∈ cs, isDelimiter c = false) :
    IsName (trim cs) where
  ne_nil := hne
  first := head_trim cs
  last := getLast_trim cs
  plain c hc := hplain c (mem_of_mem_trim hc)

/-- Blanks around a name go away when it is trimmed. -/
theorem trim_blanks_around {before name after : List Char} (hbefore : IsBlankRun before)
    (hname : IsName name) (hafter : IsBlankRun after) : trim (before ++ name ++ after) = name := by
  have hhead : ∀ c ∈ (name ++ after).head?, isBlank c = false := by
    intro c hc
    obtain ⟨d, name, rfl⟩ := List.exists_cons_of_ne_nil hname.ne_nil
    exact hname.first c hc
  have hlast : ∀ c ∈ name.reverse.head?, isBlank c = false := by
    intro c hc
    exact hname.last c (List.head?_reverse ▸ hc)
  have hblank : IsBlankRun after.reverse := by
    intro c hc
    exact hafter c (List.mem_reverse.1 hc)
  rw [trim, List.append_assoc, skipBlank_append hbefore, skipBlank_of_head hhead,
    List.reverse_append, skipBlank_append hblank, skipBlank_of_head hlast, List.reverse_reverse]

end ForeignPasses.Pipeline
