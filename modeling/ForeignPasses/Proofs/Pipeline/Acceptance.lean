import ForeignPasses.Proofs.Pipeline.Grammar

/-!
# What is read is what the grammar writes

A text is read as a list of elements exactly if the list is well-formed and the text is one of its
texts. So every text has at most one reading, and every well-formed list can be written, with any
blanks that the grammar allows, and read back.
-/

namespace ForeignPasses.Pipeline

open Text

/-! ## Reading without bounds

The readers return a rest that is known to be shorter. What they read is described here without
that knowledge, one equation for each way in which they go on. -/

def readElement (text : List Char) : Except Stop (Element × List Char) :=
  (element text).map fun r ↦ (r.value, r.rest)

def readForest (text : List Char) : Except Stop (List Element × List Char) :=
  (forest text).map fun r ↦ (r.value, r.rest)

theorem readElement_emptyName {text : List Char} (hname : leadingName text = []) :
    readElement text = .error (.emptyName text) := by
  rw [readElement, element, dif_pos hname]
  rfl

theorem readElement_leaf {text : List Char} (hname : leadingName text ≠ [])
    (hafter : ∀ inside, skipBlank (afterName text) ≠ '(' :: inside) :
    readElement text =
      .ok (.mk (String.ofList (leadingName text)) [], skipBlank (afterName text)) := by
  rw [readElement, element, dif_neg hname]
  split
  · rename_i inside hinside
    exact absurd hinside (hafter inside)
  · rfl

theorem readElement_group {text inside : List Char} (hname : leadingName text ≠ [])
    (hafter : skipBlank (afterName text) = '(' :: inside) :
    readElement text = (do
      let (children, rest) ← readForest inside
      match skipBlank rest with
      | ')' :: behind => .ok (.mk (String.ofList (leadingName text)) children, behind)
      | stop => .error (.unbalanced stop)) := by
  rw [readElement, element, dif_neg hname]
  split
  · rename_i inside' hinside
    obtain rfl : inside' = inside := by
      rw [hafter] at hinside
      exact (List.cons.inj hinside).2.symm
    rw [readForest]
    cases forest inside' with
    | error stop => rfl
    | ok r =>
      dsimp only
      change Except.map _ _ = match skipBlank r.rest with
        | ')' :: behind =>
          Except.ok (Element.mk (String.ofList (leadingName text)) r.value, behind)
        | stop => Except.error (Stop.unbalanced stop)
      split
      · rename_i behind hbehind
        simp only [hbehind]
        rfl
      · rename_i hstop
        split
        · rename_i behind hbehind
          exact absurd hbehind (hstop behind)
        · rfl
  · rename_i hinside
    exact absurd hafter (hinside inside)

theorem readForest_eq (text : List Char) : readForest text = (do
    let (first, rest) ← readElement text
    match skipBlank rest with
    | ',' :: behind => (readForest behind).map fun r ↦ (first :: r.1, r.2)
    | stop => .ok ([first], stop)) := by
  rw [readForest, forest, readElement]
  cases element text with
  | error stop => rfl
  | ok r =>
    dsimp only
    change Except.map _ _ = match skipBlank r.rest with
      | ',' :: behind => (readForest behind).map fun s ↦ (r.value :: s.1, s.2)
      | stop => Except.ok ([r.value], stop)
    split
    · rename_i behind hbehind
      simp only [hbehind]
      rw [readForest]
      cases forest behind <;> rfl
    · rename_i hstop
      split
      · rename_i behind hbehind
        exact absurd hbehind (hstop behind)
      · rfl

theorem parseChars_eq (text : List Char) : parseChars text = (do
    let (elements, rest) ← readForest text
    match skipBlank rest with
    | [] => .ok elements
    | stop => .error (.unbalanced stop)) := by
  rw [parseChars, readForest]
  cases forest text <;> rfl

/-! ## What is read is written by the grammar -/

/-- Elements were read off the front of a text. -/
def Reads (text : List Char) (elements : List Element) (rest : List Char) : Prop :=
  ∃ front, text = front ++ rest ∧ WellFormed elements ∧ Written elements front

theorem leadingName_append_trailing (text : List Char) : ∃ before after, IsBlankRun before ∧
    IsBlankRun after ∧ text = before ++ leadingName text ++ after ++ afterName text := by
  let front := text.takeWhile (!isDelimiter ·)
  refine ⟨front.takeWhile isBlank, trailing front, isBlankRun_takeWhile _,
    isBlankRun_trailing _, ?_⟩
  rw [leadingName, takeWhile_append_trim_append_trailing, afterName,
    List.takeWhile_append_dropWhile]

theorem isName_leadingName {text : List Char} (h : leadingName text ≠ []) :
    IsName (leadingName text) := by
  apply isName_trim h
  intro c hc
  simpa using List.mem_takeWhile_imp hc

/-- The text after a name starts with a delimiter. -/
theorem head_afterName (text : List Char) :
    ∀ c ∈ (afterName text).head?, isDelimiter c = true := by
  intro c hc
  have h := List.head?_dropWhile_not (!isDelimiter ·) text
  rw [afterName] at hc
  rw [Option.mem_def.1 hc] at h
  simpa using h

/-- So it starts with no blank. -/
theorem skipBlank_afterName (text : List Char) : skipBlank (afterName text) = afterName text :=
  skipBlank_of_head fun c hc ↦ isBlank_eq_false_of_isDelimiter (head_afterName text c hc)

/-- Blanks behind the last element belong to its text. -/
theorem Written.append_blanks {elements : List Element} {text blanks : List Char}
    (h : Written elements text) (hblanks : IsBlankRun blanks) :
    Written elements (text ++ blanks) := by
  induction h with
  | leaf hbefore hafter =>
    rw [List.append_assoc]
    exact .leaf hbefore (hafter.append hblanks)
  | @group name children before after inside ending behind hbefore hafter hinside hending hbehind =>
    have hgroup : Written [.mk name children] (before ++ name.toList ++ after ++ '(' :: inside ++
        ending ++ ')' :: (behind ++ blanks)) :=
      .group hbefore hafter hinside hending (hbehind.append hblanks)
    simpa only [List.append_assoc, List.cons_append] using hgroup
  | more hfirst _ _ ih =>
    rw [List.append_assoc, List.cons_append]
    exact .more hfirst ih

/-- Reading may go on with the blanks behind what was read. -/
theorem Reads.skipBlank {text rest : List Char} {elements : List Element}
    (h : Reads text elements rest) : Reads text elements (skipBlank rest) := by
  obtain ⟨front, rfl, hformed, hwritten⟩ := h
  refine ⟨front ++ rest.takeWhile isBlank, ?_, hformed,
    hwritten.append_blanks (isBlankRun_takeWhile rest)⟩
  rw [List.append_assoc, takeWhile_append_skipBlank]

theorem Reads.more {text middle rest : List Char} {e : Element} {elements : List Element}
    (hfirst : Reads text [e] (',' :: middle)) (hrest : Reads middle elements rest) :
    Reads text (e :: elements) rest := by
  obtain ⟨first, rfl, hfirstFormed, hfirst⟩ := hfirst
  obtain ⟨others, rfl, hformed, hothers⟩ := hrest
  obtain ⟨f, elements, rfl⟩ : ∃ f others, elements = f :: others := by
    cases hformed <;> exact ⟨_, _, rfl⟩
  exact ⟨first ++ ',' :: others, by simp, .more hfirstFormed hformed, .more hfirst hothers⟩

theorem reads_leaf {text : List Char} (hname : leadingName text ≠ []) :
    Reads text [.mk (String.ofList (leadingName text)) []] (afterName text) := by
  obtain ⟨before, after, hbefore, hafter, htext⟩ := leadingName_append_trailing text
  have hisName : IsName (String.ofList (leadingName text)).toList := by
    rw [String.toList_ofList]
    exact isName_leadingName hname
  have hwritten : Written [.mk (String.ofList (leadingName text)) []]
      (before ++ (String.ofList (leadingName text)).toList ++ after) := .leaf hbefore hafter
  rw [String.toList_ofList] at hwritten
  exact ⟨before ++ leadingName text ++ after, htext, .leaf hisName, hwritten⟩

theorem reads_group {text inside behind : List Char} {children : List Element}
    (hname : leadingName text ≠ []) (hafter : afterName text = '(' :: inside)
    (hinside : Reads inside children (')' :: behind)) :
    Reads text [.mk (String.ofList (leadingName text)) children] behind := by
  obtain ⟨before, after, hbefore, hafterRun, htext⟩ := leadingName_append_trailing text
  obtain ⟨front, rfl, hformed, hwritten⟩ := hinside
  have hisName : IsName (String.ofList (leadingName text)).toList := by
    rw [String.toList_ofList]
    exact isName_leadingName hname
  have hgroup : Written [.mk (String.ofList (leadingName text)) children]
      (before ++ (String.ofList (leadingName text)).toList ++ after ++ '(' :: front ++ [] ++
        ')' :: []) := .group hbefore hafterRun hwritten .nil .nil
  rw [String.toList_ofList] at hgroup
  refine ⟨_, ?_, .group hisName hformed, hgroup⟩
  rw [hafter] at htext
  simpa using htext

/-! The readers call each other on shorter texts, and so do the proofs about them. -/

mutual

theorem reads_of_readElement {text rest : List Char} {e : Element}
    (h : readElement text = .ok (e, rest)) : Reads text [e] rest := by
  by_cases hname : leadingName text = []
  · rw [readElement_emptyName hname] at h
    contradiction
  by_cases hafter : ∃ inside, skipBlank (afterName text) = '(' :: inside
  · obtain ⟨inside, hinside⟩ := hafter
    have hopen : afterName text = '(' :: inside := skipBlank_afterName text ▸ hinside
    have hshorter : inside.length < text.length := by
      have hle := length_afterName_le text
      rw [hopen] at hle
      exact hle
    rw [readElement_group hname hinside] at h
    cases hforest : readForest inside with
    | error stop =>
      rw [hforest] at h
      contradiction
    | ok r =>
      obtain ⟨children, left⟩ := r
      have hchildren := (reads_of_readForest hforest).skipBlank
      rw [hforest] at h
      dsimp only [bind, Except.bind] at h
      split at h
      · rename_i behind hclose
        obtain ⟨rfl, rfl⟩ := Prod.mk.inj (Except.ok.inj h)
        rw [hclose] at hchildren
        exact reads_group hname hopen hchildren
      · contradiction
  · have hleaf : ∀ inside, skipBlank (afterName text) ≠ '(' :: inside := by
      intro inside hinside
      exact hafter ⟨inside, hinside⟩
    rw [readElement_leaf hname hleaf, skipBlank_afterName] at h
    obtain ⟨rfl, rfl⟩ := Prod.mk.inj (Except.ok.inj h)
    exact reads_leaf hname
termination_by (text.length, 0)

theorem reads_of_readForest {text rest : List Char} {elements : List Element}
    (h : readForest text = .ok (elements, rest)) : Reads text elements rest := by
  rw [readForest_eq] at h
  cases helement : readElement text with
  | error stop =>
    rw [helement] at h
    contradiction
  | ok r =>
    obtain ⟨first, left⟩ := r
    have hfirst := (reads_of_readElement helement).skipBlank
    rw [helement] at h
    dsimp only [bind, Except.bind] at h
    split at h
    · rename_i behind hmore
      rw [hmore] at hfirst
      have hshorter : behind.length < text.length := by
        obtain ⟨front, rfl, -, -⟩ := hfirst
        simp
        omega
      cases hforest : readForest behind with
      | error stop =>
        rw [hforest] at h
        contradiction
      | ok r =>
        obtain ⟨others, left'⟩ := r
        rw [hforest] at h
        obtain ⟨rfl, rfl⟩ := Prod.mk.inj (Except.ok.inj h)
        exact hfirst.more (reads_of_readForest hforest)
    · obtain ⟨rfl, rfl⟩ := Prod.mk.inj (Except.ok.inj h)
      exact hfirst
termination_by (text.length, 1)

end

/-! ## What the grammar writes is read back -/

section Front

variable {before name after rest : List Char} (hbefore : IsBlankRun before) (hname : IsName name)
  (hafter : IsBlankRun after)

include hbefore hname hafter

theorem plain_front : ∀ c ∈ before ++ name ++ after, (!isDelimiter c) = true := by
  intro c hc
  rw [Bool.not_eq_true']
  rcases List.mem_append.1 hc with hc | hc
  · rcases List.mem_append.1 hc with hc | hc
    · exact hbefore.plain c hc
    · exact hname.plain c hc
  · exact hafter.plain c hc

theorem afterName_front (hrest : ∀ c ∈ rest.head?, isDelimiter c = true) :
    afterName (before ++ name ++ after ++ rest) = rest := by
  rw [afterName, List.dropWhile_append_of_pos (plain_front hbefore hname hafter)]
  cases rest with
  | nil => rfl
  | cons c rest => exact List.dropWhile_cons_of_neg (by simp [hrest c (by simp)])

theorem leadingName_front (hrest : ∀ c ∈ rest.head?, isDelimiter c = true) :
    leadingName (before ++ name ++ after ++ rest) = name := by
  have htake : rest.takeWhile (!isDelimiter ·) = [] := by
    cases rest with
    | nil => rfl
    | cons c rest => exact List.takeWhile_cons_of_neg (by simp [hrest c (by simp)])
  rw [leadingName, List.takeWhile_append_of_pos (plain_front hbefore hname hafter), htake,
    List.append_nil, trim_blanks_around hbefore hname hafter]

end Front

/-- What may stand behind a list of elements: nothing, or the parenthesis that closes it. -/
inductive Ends : List Char → Prop where
  | nil : Ends []
  | close (behind : List Char) : Ends (')' :: behind)

/-- What may stand behind one element. -/
inductive EndsElement : List Char → Prop where
  | ends {rest : List Char} (h : Ends rest) : EndsElement rest
  | comma (behind : List Char) : EndsElement (',' :: behind)

theorem EndsElement.skipBlank {rest : List Char} (h : EndsElement rest) :
    skipBlank rest = rest := by
  rcases h with ⟨_ | behind⟩ | behind <;> rfl

theorem EndsElement.head {rest : List Char} (h : EndsElement rest) :
    ∀ c ∈ rest.head?, isDelimiter c = true := by
  rcases h with ⟨_ | behind⟩ | behind <;> simp [isDelimiter]

/-- A reader gets a value back from a text, whatever follows it, and leaves what follows, up to
blanks. -/
def ReadsBack {α : Type} (read : List Char → Except Stop (α × List Char)) (value : α)
    (text : List Char) (follows : List Char → Prop) : Prop :=
  ∀ blanks rest, IsBlankRun blanks → follows rest →
    ∃ back, read (text ++ blanks ++ rest) = .ok (value, back) ∧ skipBlank back = rest

theorem readsBack_leaf {name : String} {before after : List Char} (hname : IsName name.toList)
    (hbefore : IsBlankRun before) (hafter : IsBlankRun after) :
    ReadsBack readElement (.mk name []) (before ++ name.toList ++ after) EndsElement := by
  intro blanks rest hblanks hrest
  have hleading := leadingName_front hbefore hname (hafter.append hblanks) hrest.head
  have hbehind := afterName_front hbefore hname (hafter.append hblanks) hrest.head
  refine ⟨rest, ?_, hrest.skipBlank⟩
  rw [List.append_assoc _ after, readElement_leaf, hleading, hbehind, String.ofList_toList,
    hrest.skipBlank]
  · rw [hleading]
    exact hname.ne_nil
  · intro inside hinside
    rw [hbehind, hrest.skipBlank] at hinside
    subst hinside
    cases hrest with
    | ends h => cases h

theorem readsBack_group {name : String} {children : List Element}
    {before after inside ending behind : List Char} (hname : IsName name.toList)
    (hbefore : IsBlankRun before) (hafter : IsBlankRun after)
    (hinside : ReadsBack readForest children inside Ends) (hending : IsBlankRun ending)
    (hbehind : IsBlankRun behind) :
    ReadsBack readElement (.mk name children)
      (before ++ name.toList ++ after ++ '(' :: inside ++ ending ++ ')' :: behind) EndsElement := by
  intro blanks rest hblanks hrest
  let close := ')' :: (behind ++ blanks ++ rest)
  obtain ⟨back, hread, hback⟩ := hinside ending close hending (.close _)
  have hopen : ∀ c ∈ ('(' :: (inside ++ ending ++ close)).head?, isDelimiter c = true := by
    simp [isDelimiter]
  have hleading := leadingName_front hbefore hname hafter hopen
  have hafterName := afterName_front hbefore hname hafter hopen
  have htext : before ++ name.toList ++ after ++ '(' :: inside ++ ending ++ ')' :: behind ++
      blanks ++ rest = before ++ name.toList ++ after ++ '(' :: (inside ++ ending ++ close) := by
    simp [close]
  refine ⟨behind ++ blanks ++ rest, ?_, ?_⟩
  · rw [htext, readElement_group (by rw [hleading]; exact hname.ne_nil) (by rw [hafterName]; rfl),
      hread, hleading, String.ofList_toList]
    dsimp only [bind, Except.bind]
    rw [hback]
    rfl
  · rw [skipBlank_append (hbehind.append hblanks), hrest.skipBlank]

theorem ReadsBack.single {e : Element} {text : List Char}
    (helement : ReadsBack readElement e text EndsElement) : ReadsBack readForest [e] text Ends := by
  intro blanks rest hblanks hrest
  obtain ⟨back, hread, hback⟩ := helement blanks rest hblanks (.ends hrest)
  refine ⟨rest, ?_, (EndsElement.ends hrest).skipBlank⟩
  rw [readForest_eq, hread]
  dsimp only [bind, Except.bind]
  rw [hback]
  cases hrest <;> rfl

theorem ReadsBack.more {e : Element} {elements : List Element} {first others : List Char}
    (hfirst : ReadsBack readElement e first EndsElement)
    (hrest : ReadsBack readForest elements others Ends) :
    ReadsBack readForest (e :: elements) (first ++ ',' :: others) Ends := by
  intro blanks rest hblanks hends
  obtain ⟨back, hread, hback⟩ := hfirst [] (',' :: (others ++ blanks ++ rest)) .nil (.comma _)
  obtain ⟨left, hreadRest, hleft⟩ := hrest blanks rest hblanks hends
  have htext : first ++ ',' :: others ++ blanks ++ rest =
      first ++ [] ++ ',' :: (others ++ blanks ++ rest) := by
    simp
  refine ⟨left, ?_, hleft⟩
  rw [htext, readForest_eq, hread]
  dsimp only [bind, Except.bind]
  rw [hback]
  change Except.map _ (readForest _) = _
  rw [hreadRest]
  rfl

theorem Written.readsBack {elements : List Element} {text : List Char} (h : Written elements text)
    (hformed : WellFormed elements) :
    (∀ e, elements = [e] → ReadsBack readElement e text EndsElement) ∧
      ReadsBack readForest elements text Ends := by
  induction h with
  | leaf hbefore hafter =>
    have hleaf := readsBack_leaf hformed.isName hbefore hafter
    refine ⟨?_, hleaf.single⟩
    rintro _ ⟨⟩
    exact hleaf
  | @group _ children _ _ _ _ _ hbefore hafter hinside hending hbehind ih =>
    obtain ⟨c, rest, rfl⟩ : ∃ c rest, children = c :: rest := by
      cases hinside <;> exact ⟨_, _, rfl⟩
    have hgroup := readsBack_group hformed.isName hbefore hafter (ih hformed.children).2 hending
      hbehind
    refine ⟨?_, hgroup.single⟩
    rintro _ ⟨⟩
    exact hgroup
  | more _ _ ihFirst ihRest =>
    refine ⟨?_, ((ihFirst hformed.head).1 _ rfl).more (ihRest hformed.tail).2⟩
    rintro _ ⟨⟩

/-! ## Whole texts -/

theorem parseChars_eq_ok_iff {text : List Char} {elements : List Element} :
    parseChars text = .ok elements ↔ WellFormed elements ∧ Written elements text := by
  rw [parseChars_eq]
  constructor
  · intro h
    cases hforest : readForest text with
    | error stop =>
      rw [hforest] at h
      contradiction
    | ok r =>
      obtain ⟨elements', rest⟩ := r
      have hreads := (reads_of_readForest hforest).skipBlank
      rw [hforest] at h
      dsimp only [bind, Except.bind] at h
      split at h
      · rename_i hrest
        obtain rfl := Except.ok.inj h
        rw [hrest] at hreads
        obtain ⟨front, rfl, hformed, hwritten⟩ := hreads
        rw [List.append_nil]
        exact ⟨hformed, hwritten⟩
      · contradiction
  · rintro ⟨hformed, hwritten⟩
    obtain ⟨back, hread, hback⟩ := (hwritten.readsBack hformed).2 [] [] .nil .nil
    rw [List.append_nil, List.append_nil] at hread
    rw [hread]
    dsimp only [bind, Except.bind]
    rw [hback]

/-- A text is read as a list of elements exactly if the grammar writes the list that way. -/
theorem parse_eq_ok_iff_written (text : String) (elements : List Element) :
    parse text = .ok elements ↔ WellFormed elements ∧ Written elements text.toList := by
  rw [← parseChars_eq_ok_iff, parse]
  cases parseChars text.toList with
  | error stop => simp [Except.mapError]
  | ok elements' => simp [Except.mapError]

end ForeignPasses.Pipeline
