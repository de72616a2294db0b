import ForeignPasses.Proofs.Pipeline.Scanning
import Mathlib.Data.List.Induction

/-!
# Where errors of texts are

A text that is refused has a longest front from which an accepted text goes on. The error for a
parenthesis is at its end. The error for a name that is missing is at the beginning of the element,
and only blanks are between there and the end of that front.
-/

namespace ForeignPasses.Pipeline

open Text

/-! ## What a front shows -/

/-- The last character of a text that is not blank. -/
def lastVisible (text : List Char) : Option Char := (skipBlank text.reverse).head?

/-- How many parentheses are open behind one more character; one that closes nothing does not
count. -/
def openBehind (depth : Nat) (c : Char) : Nat :=
  if c = '(' then depth + 1 else if c = ')' then depth - 1 else depth

/-- How many parentheses a text leaves open. -/
def openParens (text : List Char) : Nat := text.foldl openBehind 0

theorem lastVisible_append_blank (text : List Char) {c : Char} (h : isBlank c = true) :
    lastVisible (text ++ [c]) = lastVisible text := by
  simp [lastVisible, skipBlank, h]

theorem lastVisible_append_visible (text : List Char) {c : Char} (h : isBlank c = false) :
    lastVisible (text ++ [c]) = some c := by
  simp [lastVisible, skipBlank, h]

theorem openParens_append (text : List Char) (c : Char) :
    openParens (text ++ [c]) = openBehind (openParens text) c := by
  simp [openParens]

namespace Scan

/-- The state of a scan can be read off the text behind which it stands. -/
structure Shows (s : Scan) (text : List Char) : Prop where
  depth : s.depth = openParens text
  fresh : s.place = .fresh ↔ text = [] ∨ text.getLast? = some ',' ∨ text.getLast? = some '('
  named : s.Named ↔ ∃ c, lastVisible text = some c ∧ c ≠ ',' ∧ c ≠ '('
  closed : s.place = .closed ↔ lastVisible text = some ')'

variable {s s' : Scan} {text : List Char} {c : Char}

theorem Shows.nil : Shows .initial [] where
  depth := rfl
  fresh := by simp [initial]
  named := by simp [initial, Named, lastVisible, skipBlank]
  closed := by simp [initial, lastVisible, skipBlank]

theorem Shows.blank (h : s.Shows text) (hblank : isBlank c = true) :
    Shows ⟨s.place.indent, s.depth⟩ (text ++ [c]) := by
  obtain ⟨hcomma, hopen, hclose⟩ :=
    isDelimiter_eq_false_iff.1 (isDelimiter_eq_false_of_isBlank hblank)
  have hnamed : Named ⟨s.place.indent, s.depth⟩ ↔ s.Named := by
    rcases s with ⟨_ | _ | _ | _, _⟩ <;> simp [Named, Place.indent]
  have hclosed : s.place.indent = .closed ↔ s.place = .closed := by
    rcases s with ⟨_ | _ | _ | _, _⟩ <;> simp [Place.indent]
  have hfresh : s.place.indent ≠ .fresh := by
    rcases s with ⟨_ | _ | _ | _, _⟩ <;> simp [Place.indent]
  constructor
  · rw [openParens_append, ← h.depth, openBehind, if_neg hopen, if_neg hclose]
  · simp [hfresh, hcomma, hopen]
  · rw [hnamed, h.named, lastVisible_append_blank text hblank]
  · rw [hclosed, h.closed, lastVisible_append_blank text hblank]

theorem Shows.visible (h : s.Shows text) (hblank : isBlank c = false)
    (hdepth : s'.depth = openBehind s.depth c) (hfresh : s'.place = .fresh ↔ c = ',' ∨ c = '(')
    (hnamed : s'.Named ↔ c ≠ ',' ∧ c ≠ '(') (hclosed : s'.place = .closed ↔ c = ')') :
    s'.Shows (text ++ [c]) := by
  have hvisible := lastVisible_append_visible text hblank
  constructor
  · rw [openParens_append, ← h.depth, hdepth]
  · simp [hfresh]
  · simp [hnamed, hvisible]
  · simp [hclosed, hvisible]

theorem Goes.shows (hgoes : Goes s c s') (h : s.Shows text) : s'.Shows (text ++ [c]) := by
  cases hgoes with
  | blank hblank => exact h.blank hblank
  | letter hblank hplain hplace =>
    obtain ⟨hcomma, hopen, hclose⟩ := isDelimiter_eq_false_iff.1 hplain
    apply h.visible hblank <;> simp [openBehind, Named, hcomma, hopen, hclose]
  | comma hnamed => apply h.visible (by decide) <;> simp [openBehind, Named]
  | opening depth => apply h.visible (by decide) <;> simp [openBehind, Named]
  | closing hnamed => apply h.visible (by decide) <;> simp [openBehind, Named]

theorem shows_of_run (h : initial.run text = some s) : s.Shows text := by
  induction text using List.reverseRecOn generalizing s with
  | nil =>
    obtain rfl := Option.some.inj h
    exact .nil
  | append_singleton text c ih =>
    rw [run_append, Option.bind_eq_some_iff] at h
    obtain ⟨s', hrun, hstep⟩ := h
    rw [run_cons, Option.bind_eq_some_iff] at hstep
    obtain ⟨s'', hstep, hnil⟩ := hstep
    obtain rfl := Option.some.inj hnil
    exact (Goes.of_step hstep).shows (ih hrun)

end Scan

/-! ## Viable texts are those that can be scanned -/

/-- Some accepted text goes on from this one. -/
def Viable (text : String) : Prop := ∃ more elements, parse (text ++ more) = .ok elements

/-- The longest viable front of a text has so many bytes. -/
def ViableUpTo (text : String) (size : Nat) : Prop :=
  ∃ front back, text = front ++ back ∧ front.utf8ByteSize = size ∧ Viable front ∧
    ∀ front' back', text = front' ++ back' → Viable front' → front'.utf8ByteSize ≤ size

theorem utf8ByteSize_eq_byteLength (text : String) :
    text.utf8ByteSize = byteLength text.toList := by
  rw [← String.ofList_toList (s := text), String.toList_ofList, String.utf8ByteSize,
    String.toByteArray_ofList]
  simp [byteLength, List.utf8Encode]

theorem exists_parse_ok_iff {text : String} : (∃ elements, parse text = .ok elements) ↔
    ∃ s, Scan.initial.run text.toList = some s ∧ s.Accepts := by
  rw [← exists_parseChars_ok_iff, parse]
  cases parseChars text.toList with
  | error stop => simp [Except.mapError]
  | ok elements => simp [Except.mapError]

theorem viable_iff {text : String} : Viable text ↔ ∃ s, Scan.initial.run text.toList = some s := by
  constructor
  · rintro ⟨more, hmore⟩
    obtain ⟨s, hrun, -⟩ := exists_parse_ok_iff.1 hmore
    rw [String.toList_append, Scan.run_append, Option.bind_eq_some_iff] at hrun
    obtain ⟨s', hfront, -⟩ := hrun
    exact ⟨s', hfront⟩
  · rintro ⟨s, hrun⟩
    obtain ⟨more, s', hmore, haccepts⟩ := s.exists_run_accepts
    refine ⟨String.ofList more, exists_parse_ok_iff.2 ⟨s', ?_, haccepts⟩⟩
    rw [String.toList_append, String.toList_ofList, Scan.run_append_of_eq hrun, hmore]

theorem Furthest.viableUpTo {s : Scan} {front back : String}
    (h : Furthest Scan.initial front.toList s back.toList) :
    ViableUpTo (front ++ back) front.utf8ByteSize := by
  refine ⟨front, back, rfl, rfl, viable_iff.2 ⟨s, h.run⟩, ?_⟩
  intro front' back' htext hviable
  obtain ⟨s', hrun⟩ := viable_iff.1 hviable
  have hlists : front'.toList ++ back'.toList = front.toList ++ back.toList := by
    rw [← String.toList_append, ← String.toList_append, htext]
  obtain ⟨more, hmore⟩ := h.of_run hrun hlists
  rw [utf8ByteSize_eq_byteLength, utf8ByteSize_eq_byteLength, ← hmore, byteLength_append]
  exact Nat.le_add_right _ _

/-! ## Errors -/

/-- An element begins behind a front: nothing is there, or a comma or an opening parenthesis. -/
def BeginsElement (front : String) : Prop :=
  front = "" ∨ front.toList.getLast? = some ',' ∨ front.toList.getLast? = some '('

theorem beginsElement_iff {front : String} {s : Scan}
    (h : Scan.initial.run front.toList = some s) : BeginsElement front ↔ s.place = .fresh := by
  rw [(Scan.shows_of_run h).fresh, BeginsElement, String.toList_eq_nil_iff]

/-- The blanks at the front of a text. -/
def indentation (text : String) : String := String.ofList (text.toList.takeWhile isBlank)

theorem parse_eq_error_iff {text : String} {error : Pipeline.Error} :
    parse text = .error error ↔
      ∃ stop, parseChars text.toList = .error stop ∧ stop.error text.toList = error := by
  rw [parse]
  cases parseChars text.toList with
  | error stop => simp [Except.mapError]
  | ok elements => simp [Except.mapError]

theorem Stop.error_append (before : List Char) (stop : Stop) :
    stop.error (before ++ stop.rest) =
      match stop with
      | .emptyName _ => .emptyName (byteLength before)
      | .unbalanced _ => .unbalancedParens (byteLength before) := by
  cases stop <;> simp [Stop.error, Stop.rest]

theorem Halts.of_parse {text : String} {error : Pipeline.Error} (h : parse text = .error error) :
    ∃ stop, Halts .initial text.toList stop ∧ stop.error text.toList = error := by
  obtain ⟨stop, hstop, herror⟩ := parse_eq_error_iff.1 h
  have hscanned := scanned_parseChars text.toList
  rw [hstop] at hscanned
  exact ⟨stop, hscanned, herror⟩

/-- An error is at the end of the longest viable front of the text, or, for a name that is missing,
in front of the blanks there; and a name is missing exactly where an element begins. -/
theorem parse_error_places {text : String} {error : Pipeline.Error}
    (h : parse text = .error error) :
    ∃ front back : String, text = front ++ back ∧
      String.Pos.Raw.IsValid text ⟨front.utf8ByteSize⟩ ∧
      ((error = .emptyName front.utf8ByteSize ∧ BeginsElement front ∧
          ViableUpTo text (front.utf8ByteSize + (indentation back).utf8ByteSize)) ∨
        (error = .unbalancedParens front.utf8ByteSize ∧ ¬ BeginsElement front ∧
          ViableUpTo text front.utf8ByteSize)) := by
  obtain ⟨stop, hhalts, rfl⟩ := Halts.of_parse h
  obtain ⟨before, s, htext, hfurthest, -, hstop⟩ := hhalts.furthest
  obtain ⟨front, rfl⟩ : ∃ front : String, before = front.toList :=
    ⟨String.ofList before, String.toList_ofList.symm⟩
  obtain ⟨back, hback⟩ : ∃ back : String, back.toList = stop.rest :=
    ⟨String.ofList stop.rest, String.toList_ofList⟩
  have hwhole : text = front ++ back := by
    rw [← String.toList_inj, String.toList_append, hback, htext]
  have hviable : ViableUpTo text (front ++ indentation back).utf8ByteSize := by
    have hsplit : text = front ++ indentation back ++ String.ofList (skipBlank stop.rest) := by
      rw [← String.toList_inj, String.toList_append, String.toList_append, indentation,
        String.toList_ofList, String.toList_ofList, hback, List.append_assoc,
        takeWhile_append_skipBlank, htext]
    rw [hsplit]
    apply Furthest.viableUpTo (s := s)
    rw [String.toList_append, indentation, String.toList_ofList, String.toList_ofList, hback]
    exact hfurthest
  have hvalid : String.Pos.Raw.IsValid text ⟨front.utf8ByteSize⟩ :=
    String.Pos.Raw.isValid_iff_exists_append.2 ⟨front, back, hwhole, rfl⟩
  refine ⟨front, back, hwhole, hvalid, ?_⟩
  rw [htext, Stop.error_append, ← utf8ByteSize_eq_byteLength]
  rw [String.utf8ByteSize_append] at hviable
  cases stop with
  | emptyName rest =>
    exact .inl ⟨rfl, (beginsElement_iff hstop.1).2 rfl, hviable⟩
  | unbalanced rest =>
    obtain ⟨hnamed, hblanks⟩ := hstop
    have hnone : indentation back = "" := by
      rw [indentation, hback, Stop.rest, hblanks, String.ofList_nil]
    have hrun : Scan.initial.run front.toList = some s := by
      have hrun := hfurthest.run
      rwa [Stop.rest, hblanks, List.append_nil] at hrun
    refine .inr ⟨rfl, ?_, by simpa [hnone] using hviable⟩
    rw [beginsElement_iff hrun]
    intro hfresh
    rcases hnamed with h | h <;> rw [h] at hfresh <;> contradiction

/-- The text is viable up to the blank in front of the comma. -/
theorem parse_error_places_blank :
    parse "é( ,b)" = .error (.emptyName 3) ∧
      ∃ front back : String, "é( ,b)" = front ++ back ∧
        String.Pos.Raw.IsValid "é( ,b)" ⟨front.utf8ByteSize⟩ ∧
        ((Error.emptyName 3 = .emptyName front.utf8ByteSize ∧ BeginsElement front ∧
            ViableUpTo "é( ,b)" (front.utf8ByteSize + (indentation back).utf8ByteSize)) ∨
          (Error.emptyName 3 = .unbalancedParens front.utf8ByteSize ∧ ¬ BeginsElement front ∧
            ViableUpTo "é( ,b)" front.utf8ByteSize)) := by
  have hparse : parse "é( ,b)" = .error (.emptyName 3) := by cbv
  exact ⟨hparse, parse_error_places hparse⟩

/-! ## Parentheses that are reported -/

/-- A parenthesis that closes nothing comes next. -/
def Stray (front back : String) : Prop :=
  back.toList.head? = some ')' ∧ openParens front.toList = 0

/-- The text is over, and a parenthesis is not closed. -/
def Missing (front back : String) : Prop := back = "" ∧ 0 < openParens front.toList

/-- Behind the children of an element comes something that cannot be there. -/
def Misplaced (front back : String) : Prop :=
  lastVisible front.toList = some ')' ∧
    ∃ c, back.toList.head? = some c ∧ isBlank c = false ∧ c ≠ ',' ∧ c ≠ ')'

/-- The element at the end of a front has a name. -/
def EndsNamed (front : String) : Prop :=
  ∃ c, lastVisible front.toList = some c ∧ c ≠ ',' ∧ c ≠ '('

theorem endsNamed_iff {front : String} {s : Scan} (h : Scan.initial.run front.toList = some s) :
    EndsNamed front ↔ s.Named :=
  (Scan.shows_of_run h).named.symm

/-- What cannot come behind an element that has a name. -/
theorem Scan.Named.step_eq_none_iff {s : Scan} {c : Char} (h : s.Named) :
    s.step c = none ↔ (c = ')' ∧ s.depth = 0) ∨
      (s.place = .closed ∧ isBlank c = false ∧ c ≠ ',' ∧ c ≠ ')') := by
  have hdelimit : s.delimit c = none ↔ (c = ')' ∧ s.depth = 0) ∨ (c ≠ ',' ∧ c ≠ ')') := by
    rcases s with ⟨place, depth | depth⟩ <;> by_cases hcomma : c = ',' <;>
      by_cases hclose : c = ')' <;> simp [delimit, hcomma, hclose]
  rcases s with ⟨place, depth⟩
  rcases h with rfl | rfl
  · by_cases hopen : c = '('
    · simp [step, hopen]
    cases hplain : isDelimiter c with
    | true =>
      have hends : c = ',' ∨ c = ')' := by simpa [isDelimiter, hopen] using hplain
      rcases hends with rfl | rfl <;> simp [step, isDelimiter, hdelimit]
    | false =>
      have hclose : c ≠ ')' := (isDelimiter_eq_false_iff.1 hplain).2.2
      simp [step, hopen, hplain, hclose]
  · cases hblank : isBlank c with
    | true =>
      have hplain := isDelimiter_eq_false_of_isBlank hblank
      have hclose : c ≠ ')' := (isDelimiter_eq_false_iff.1 hplain).2.2
      simp [step, hblank, hclose]
    | false => simp [step, hblank, hdelimit]

theorem Halts.eq_unbalanced {s : Scan} {text rest : List Char} {stop : Stop}
    (h : Halts s text (.unbalanced rest)) (h' : Halts s text stop) : stop = .unbalanced rest := by
  obtain ⟨before, s₁, htext, hfurthest, -, hnamed, hblanks⟩ := h.furthest
  obtain ⟨before', s₂, htext', hfurthest', -, hstop⟩ := h'.furthest
  have hwhole : before' ++ stop.rest.takeWhile isBlank ++ skipBlank stop.rest =
      before ++ (Stop.unbalanced rest).rest.takeWhile isBlank ++
        skipBlank (Stop.unbalanced rest).rest := by
    rw [List.append_assoc, takeWhile_append_skipBlank, ← htext', htext, List.append_assoc,
      takeWhile_append_skipBlank]
  obtain ⟨hfront, rfl, -⟩ := hfurthest.unique hfurthest' hwhole
  cases stop with
  | emptyName rest' => exact absurd hnamed hstop.2
  | unbalanced rest' =>
    obtain ⟨-, hblanks'⟩ := hstop
    obtain rfl : before' = before := by
      rwa [Stop.rest, Stop.rest, hblanks, hblanks', List.append_nil, List.append_nil] at hfront
    rw [htext, List.append_cancel_left_eq] at htext'
    exact congrArg Stop.unbalanced htext'.symm

theorem Halts.parseChars_eq {text rest : List Char} (h : Halts .initial text (.unbalanced rest)) :
    parseChars text = .error (.unbalanced rest) := by
  have hscanned := scanned_parseChars text
  cases hparse : parseChars text with
  | ok elements =>
    rw [hparse] at hscanned
    obtain ⟨s, hrun, haccepts⟩ := hscanned
    exact absurd haccepts (h.not_accepts hrun)
  | error stop =>
    rw [hparse] at hscanned
    rw [h.eq_unbalanced hscanned]

/-- Parentheses are reported at the end of a viable front if one of them is stray or missing, and
also if anything but a comma or another parenthesis comes behind one that closes. -/
theorem parse_eq_unbalancedParens_iff (text : String) (offset : Nat) :
    parse text = .error (.unbalancedParens offset) ↔
      ∃ front back, text = front ++ back ∧ front.utf8ByteSize = offset ∧ Viable front ∧
        EndsNamed front ∧ (Stray front back ∨ Missing front back ∨ Misplaced front back) := by
  constructor
  · intro h
    obtain ⟨stop, hhalts, herror⟩ := Halts.of_parse h
    cases hhalts with
    | emptyName => cases herror
    | @unbalanced before rest s htext hscan hnamed hopen hnext =>
      obtain ⟨front, rfl⟩ : ∃ front : String, before = front.toList :=
        ⟨String.ofList before, String.toList_ofList.symm⟩
      obtain ⟨back, rfl⟩ : ∃ back : String, rest = back.toList :=
        ⟨String.ofList rest, String.toList_ofList.symm⟩
      have hshows := Scan.shows_of_run hscan
      have hoffset : front.utf8ByteSize = offset := by
        have hat := Stop.error_append front.toList (.unbalanced back.toList)
        rw [Stop.rest, ← htext, herror, ← utf8ByteSize_eq_byteLength] at hat
        exact (Error.unbalancedParens.inj hat).symm
      refine ⟨front, back, ?_, hoffset, viable_iff.2 ⟨s, hscan⟩, (endsNamed_iff hscan).2 hnamed, ?_⟩
      · rw [← String.toList_inj, String.toList_append, htext]
      · cases hhead : back.toList.head? with
        | none =>
          have hnil := List.head?_eq_none_iff.1 hhead
          refine .inr (.inl ⟨String.toList_eq_nil_iff.1 hnil, ?_⟩)
          rw [← hshows.depth]
          exact hopen hnil
        | some c =>
          rcases hnamed.step_eq_none_iff.1 (hnext c hhead) with ⟨rfl, hdepth⟩ | ⟨hclosed, hc⟩
          · exact .inl ⟨hhead, hshows.depth ▸ hdepth⟩
          · exact .inr (.inr ⟨hshows.closed.1 hclosed, c, hhead, hc⟩)
  · rintro ⟨front, back, rfl, rfl, hviable, hends, hreason⟩
    obtain ⟨s, hscan⟩ := viable_iff.1 hviable
    have hshows := Scan.shows_of_run hscan
    have hnamed := (endsNamed_iff hscan).1 hends
    have hhalts : Halts .initial (front ++ back).toList (.unbalanced back.toList) := by
      refine .unbalanced String.toList_append hscan hnamed ?_ ?_
      · intro hnil
        rcases hreason with ⟨hhead, -⟩ | ⟨-, hdepth⟩ | ⟨-, c, hhead, -⟩
        · simp [hnil] at hhead
        · rwa [hshows.depth]
        · simp [hnil] at hhead
      · intro c hc
        rw [hnamed.step_eq_none_iff]
        rcases hreason with ⟨hhead, hdepth⟩ | ⟨rfl, -⟩ | ⟨hclosed, d, hhead, hd⟩
        · exact .inl ⟨Option.some.inj (hc.symm.trans hhead), hshows.depth ▸ hdepth⟩
        · contradiction
        · obtain rfl : c = d := Option.some.inj (hc.symm.trans hhead)
          exact .inr ⟨hshows.closed.2 hclosed, hd⟩
    rw [parse, hhalts.parseChars_eq, String.toList_append, utf8ByteSize_eq_byteLength]
    exact congrArg Except.error (Stop.error_append front.toList (.unbalanced back.toList))

/-- A text is split at an offset in one way. -/
theorem eq_of_append_eq {front back front' back' : String}
    (h : front ++ back = front' ++ back') (hsize : front.utf8ByteSize = front'.utf8ByteSize) :
    front = front' ∧ back = back' := by
  have hbytes : front.toByteArray ++ back.toByteArray =
      front'.toByteArray ++ back'.toByteArray := by
    rw [← String.toByteArray_append, ← String.toByteArray_append, h]
  obtain rfl := String.toByteArray_inj.1 (ByteArray.append_inj_left hbytes hsize)
  exact ⟨rfl, (String.append_right_inj front).1 h⟩

/-- All parentheses match, and still they are reported. -/
theorem parse_unbalancedParens_matching :
    parse "a(b)c" = .error (.unbalancedParens 4) ∧
      ¬ ∃ front back, "a(b)c" = front ++ back ∧ front.utf8ByteSize = 4 ∧
        (Stray front back ∨ Missing front back) := by
  refine ⟨by cbv, ?_⟩
  rintro ⟨front, back, htext, hsize, hreason⟩
  have hsplit : front ++ back = "a(b)" ++ "c" := htext.symm
  obtain ⟨rfl, rfl⟩ := eq_of_append_eq hsplit hsize
  rcases hreason with ⟨hhead, -⟩ | ⟨hnil, -⟩
  · exact absurd hhead (by decide)
  · exact absurd hnil (by decide)

end ForeignPasses.Pipeline
