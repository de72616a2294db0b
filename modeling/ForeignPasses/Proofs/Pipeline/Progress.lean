import ForeignPasses.Proofs.Pipeline.Walking

/-!
# Walks that read come to an end

Wherever a cursor stands between two characters, the walks that read elements end, further on in
the text, with what the readers answer for the rest of it. An element is begun behind every comma
and every opening parenthesis that is passed, and one at the start.
-/

namespace ForeignPasses.Pipeline

open Text

variable {α β : Type}

/-! ## Readers in the steps of the walks -/

/-- Goes on in one of two ways, depending on whether a character comes next behind blanks. -/
def ifNext (c : Char) (rest : List Char) (ate not : List Char → β) : β :=
  match skipBlank rest with
  | [] => not []
  | next :: behind => if next = c then ate behind else not (next :: behind)

/-- Reads the parenthesis behind what has been read. -/
def readClosing (a : α) (rest : List Char) : Except Stop (α × List Char) :=
  ifNext ')' rest (fun behind ↦ .ok (a, behind)) (fun stop ↦ .error (.unbalanced stop))

/-- Reads the children of an element, if it has any. -/
def readChildren (rest : List Char) : Except Stop (List Element × List Char) :=
  ifNext '(' rest (fun inside ↦ readForest inside >>= fun r ↦ readClosing r.1 r.2)
    (fun stop ↦ .ok ([], stop))

/-- Reads elements behind commas. -/
def readOthers (rest : List Char) : Except Stop (List Element × List Char) :=
  ifNext ',' rest readForest (fun stop ↦ .ok ([], stop))

/-- Sees to it that only blanks are left. -/
def readEnding (a : α) (rest : List Char) : Except Stop (α × List Char) :=
  match skipBlank rest with
  | [] => .ok (a, [])
  | stop => .error (.unbalanced stop)

def readWhole (text : List Char) : Except Stop (List Element × List Char) :=
  readForest text >>= fun r ↦ readEnding r.1 r.2

section Readers

variable {c : Char} {text rest behind : List Char}

theorem ifNext_of_eq (h : skipBlank rest = c :: behind) (ate not : List Char → β) :
    ifNext c rest ate not = ate behind := by
  rw [ifNext, h]
  exact if_pos rfl

theorem ifNext_of_ne (h : ∀ behind, skipBlank rest ≠ c :: behind) (ate not : List Char → β) :
    ifNext c rest ate not = not (skipBlank rest) := by
  rw [ifNext]
  cases hrest : skipBlank rest with
  | nil => rfl
  | cons next behind =>
    have hne : next ≠ c := by
      rintro rfl
      exact h behind hrest
    exact if_neg hne

theorem apply_ifNext (f : α → β) (c : Char) (rest : List Char) (ate not : List Char → α) :
    f (ifNext c rest ate not) = ifNext c rest (fun behind ↦ f (ate behind))
      (fun stop ↦ f (not stop)) := by
  rw [ifNext, ifNext]
  cases skipBlank rest with
  | nil => rfl
  | cons next behind => exact apply_ite f _ _ _

theorem readClosing_eq (a : α) (rest : List Char) : readClosing a rest =
    match skipBlank rest with
    | ')' :: behind => .ok (a, behind)
    | stop => .error (.unbalanced stop) := by
  rw [readClosing]
  split
  · rename_i behind hbehind
    exact ifNext_of_eq hbehind _ _
  · rename_i hstop
    exact ifNext_of_ne hstop _ _

theorem readClosing_map (f : α → β) (a : α) (rest : List Char) :
    (readClosing a rest >>= fun r ↦ pure (f r.1, r.2)) = readClosing (f a) rest :=
  apply_ifNext (fun reading : Except Stop (α × List Char) ↦ reading >>= fun r ↦ pure (f r.1, r.2))
    ')' rest _ _

theorem readEnding_of_eq (a : α) (h : skipBlank rest = []) : readEnding a rest = .ok (a, []) := by
  rw [readEnding, h]

theorem readEnding_of_ne (a : α) (h : skipBlank rest ≠ []) :
    readEnding a rest = .error (.unbalanced (skipBlank rest)) := by
  rw [readEnding]
  split
  · contradiction
  · rfl

theorem readElement_eq (hname : leadingName text ≠ []) : readElement text =
    readChildren (afterName text) >>= fun r ↦
      pure (.mk (String.ofList (leadingName text)) r.1, r.2) := by
  by_cases h : ∃ inside, skipBlank (afterName text) = '(' :: inside
  · obtain ⟨inside, hinside⟩ := h
    rw [readElement_group hname hinside, readChildren, ifNext_of_eq hinside]
    cases readForest inside with
    | error stop => rfl
    | ok r =>
      exact (readClosing_eq _ r.2).symm.trans (readClosing_map (Element.mk _) r.1 r.2).symm
  · have hne : ∀ inside, skipBlank (afterName text) ≠ '(' :: inside := not_exists.1 h
    rw [readElement_leaf hname hne, readChildren, ifNext_of_ne hne]
    rfl

theorem readForest_eq_readOthers (text : List Char) : readForest text =
    readElement text >>= fun r ↦ readOthers r.2 >>= fun s ↦ pure (r.1 :: s.1, s.2) := by
  rw [readForest_eq]
  cases readElement text with
  | error stop => rfl
  | ok r =>
    obtain ⟨first, rest⟩ := r
    dsimp only [bind, Except.bind]
    split
    · rename_i behind hbehind
      rw [readOthers, ifNext_of_eq hbehind]
      cases readForest behind <;> rfl
    · rename_i hstop
      rw [readOthers, ifNext_of_ne hstop]
      rfl

theorem length_lt_of_readElement {e : Element} (h : readElement text = .ok (e, rest)) :
    rest.length < text.length := by
  rw [readElement] at h
  cases hread : element text with
  | error stop =>
    rw [hread] at h
    contradiction
  | ok r =>
    rw [hread] at h
    obtain ⟨-, rfl⟩ := Prod.mk.inj (Except.ok.inj h)
    exact r.shorter

end Readers

/-! ## Characters behind which an element begins -/

/-- The commas and opening parentheses of a text. -/
def beginnings (text : List Char) : Nat := text.countP fun c ↦ c == ',' || c == '('

theorem beginnings_append (front back : List Char) :
    beginnings (front ++ back) = beginnings front + beginnings back :=
  List.countP_append

theorem beginnings_dropWhile {p : Char → Bool} (hp : ∀ c, p c = true → isDelimiter c = false)
    (text : List Char) : beginnings (text.dropWhile p) = beginnings text := by
  induction text with
  | nil => rfl
  | cons c text ih =>
    cases hc : p c with
    | true =>
      obtain ⟨hcomma, hopen, -⟩ := isDelimiter_eq_false_iff.1 (hp c hc)
      rw [List.dropWhile_cons_of_pos hc, ih]
      simp [beginnings, hcomma, hopen]
    | false => rw [List.dropWhile_cons_of_neg (by simp [hc])]

theorem beginnings_skipBlank (text : List Char) :
    beginnings (skipBlank text) = beginnings text :=
  beginnings_dropWhile (fun _ ↦ isDelimiter_eq_false_of_isBlank) text

/-- What is behind a character that comes next. -/
theorem suffix_of_skipBlank_eq {text behind : List Char} {c : Char}
    (h : skipBlank text = c :: behind) : behind <:+ text :=
  (List.suffix_cons c behind).trans (h ▸ List.dropWhile_suffix _)

theorem length_lt_of_skipBlank_eq {text behind : List Char} {c : Char}
    (h : skipBlank text = c :: behind) : behind.length < text.length := by
  have hle := length_skipBlank_le text
  rw [h, List.length_cons] at hle
  exact hle

theorem beginnings_afterName (text : List Char) :
    beginnings (afterName text) = beginnings text :=
  beginnings_dropWhile (fun c hc ↦ by simpa using hc) text

/-! ## Walks that trace a reading -/

/-- The answer to what a reader takes off a rest of a text. -/
def answer (text : String) (reading : Except Stop (α × List Char)) : Except Error α :=
  (reading.map Prod.fst).mapError (Stop.error text.toList)

/-- Started in front of a rest of a text, a walk ends in front of a later one with what a reader
answers, and so many elements were begun on the way. If the reader gets through, the later rest is
what it leaves. -/
structure Trace (text : String) (walk : Walk α) (reading : Except Stop (α × List Char))
    (rest rest' : List Char) (calls : Nat) : Prop where
  run : ∀ begun, walk.runFrom (.before text rest begun) =
    some (answer text reading, .before text rest' (begun + calls))
  suffix : rest' <:+ rest
  left : ∀ a left, reading = .ok (a, left) → rest' = left

/-- A walk traces a reading, and begins an element behind every comma and every opening parenthesis
that it passes, and so many more. -/
def Traced (text : String) (walk : Walk α) (reading : Except Stop (α × List Char))
    (rest : List Char) (more : Nat) : Prop :=
  ∃ rest' calls, Trace text walk reading rest rest' calls ∧
    calls + beginnings rest' = beginnings rest + more

namespace Traced

variable {text : String} {rest : List Char} {more : Nat}

theorem pure (a : α) : Traced text (pure a) (.ok (a, rest)) rest 0 := by
  refine ⟨rest, 0, ⟨fun begun ↦ rfl, List.suffix_rfl, ?_⟩, by omega⟩
  rintro _ _ ⟨⟩
  rfl

theorem thrown (stop : Stop) :
    Traced text (throw (stop.error text.toList) : Walk α) (.error stop) rest 0 := by
  refine ⟨rest, 0, ⟨fun begun ↦ rfl, List.suffix_rfl, ?_⟩, by omega⟩
  rintro _ _ ⟨⟩

theorem unbalanced :
    Traced text (do throw (.unbalancedParens (← Walk.offset).byteIdx) : Walk α)
      (.error (.unbalanced rest)) rest 0 := by
  refine ⟨rest, 0, ⟨fun begun ↦ rfl, List.suffix_rfl, ?_⟩, by omega⟩
  rintro _ _ ⟨⟩

/-- First steps lead to a later rest, and the walk goes on from there. -/
theorem after {walk walk' : Walk α} {reading : Except Stop (α × List Char)} {rest' : List Char}
    {more' : Nat} (h : Traced text walk' reading rest' more')
    (hrun : ∀ begun, walk.runFrom (.before text rest begun) =
      walk'.runFrom (.before text rest' begun))
    (hsuffix : rest' <:+ rest) (hcount : beginnings rest' + more' = beginnings rest + more) :
    Traced text walk reading rest more := by
  obtain ⟨rest'', calls, htrace, hcalls⟩ := h
  refine ⟨rest'', calls, ⟨?_, htrace.suffix.trans hsuffix, htrace.left⟩, by omega⟩
  intro begun
  rw [hrun, htrace.run]

theorem begin {next : Unit → Walk α} {reading : Except Stop (α × List Char)}
    (h : Traced text (next ()) reading rest more) :
    Traced text (Walk.begin >>= next) reading rest (more + 1) := by
  obtain ⟨rest', calls, htrace, hcalls⟩ := h
  refine ⟨rest', 1 + calls, ⟨?_, htrace.suffix, htrace.left⟩, by omega⟩
  intro begun
  rw [Walk.runFrom_bind_ok Walk.runFrom_begin, ← Nat.add_assoc]
  exact htrace.run (begun + 1)

theorem bind {walk : Walk α} {next : α → Walk β} {reading : Except Stop (α × List Char)}
    {onward : α × List Char → Except Stop (β × List Char)} (h : Traced text walk reading rest more)
    (hnext : ∀ a left, reading = .ok (a, left) → left <:+ rest →
      Traced text (next a) (onward (a, left)) left 0) :
    Traced text (walk >>= next) (reading >>= onward) rest more := by
  obtain ⟨rest', calls, htrace, hcalls⟩ := h
  cases hreading : reading with
  | error stop =>
    refine ⟨rest', calls, ⟨?_, htrace.suffix, ?_⟩, hcalls⟩
    · intro begun
      rw [Walk.runFrom_bind, htrace.run, hreading]
      rfl
    · rintro _ _ ⟨⟩
  | ok r =>
    obtain ⟨a, left⟩ := r
    -- The second walk starts where the first reading stopped, so that the counts add up.
    obtain rfl := htrace.left a left hreading
    obtain ⟨rest'', calls', htrace', hcalls'⟩ := hnext a rest' hreading htrace.suffix
    refine ⟨rest'', calls + calls', ⟨?_, htrace'.suffix.trans htrace.suffix, htrace'.left⟩,
      by omega⟩
    intro begun
    rw [Walk.runFrom_bind, htrace.run, hreading]
    change (next a).runFrom _ = _
    rw [htrace'.run, Nat.add_assoc]
    rfl

end Traced

/-! ## The walks that read -/

section Reading

variable {text : String} {rest : List Char} {more : Nat}

/-- Going past a character owes an element if one begins there. -/
theorem traced_eat (h : rest <:+ text.toList) (c : Char) {ate not : Walk α}
    {onAte onNot : List Char → Except Stop (α × List Char)}
    (hate : ∀ behind, skipBlank rest = c :: behind →
      Traced text ate (onAte behind) behind (more + beginnings [c]))
    (hnot : Traced text not (onNot (skipBlank rest)) (skipBlank rest) more) :
    Traced text (Walk.eat text c >>= fun eaten ↦ if eaten = true then ate else not)
      (ifNext c rest onAte onNot) rest more := by
  have hcount := beginnings_skipBlank rest
  by_cases hnext : ∃ behind, skipBlank rest = c :: behind
  · obtain ⟨behind, hbehind⟩ := hnext
    rw [hbehind, ← List.singleton_append, beginnings_append] at hcount
    rw [ifNext_of_eq hbehind]
    refine (hate behind hbehind).after ?_ (suffix_of_skipBlank_eq hbehind) (by omega)
    intro begun
    rw [Walk.runFrom_bind_ok (Walk.runFrom_eat h hbehind)]
    rfl
  · have hne : ∀ behind, skipBlank rest ≠ c :: behind := not_exists.1 hnext
    rw [ifNext_of_ne hne]
    refine hnot.after ?_ (List.dropWhile_suffix _) (by omega)
    intro begun
    rw [Walk.runFrom_bind_ok (Walk.runFrom_eat_of_ne h hne)]
    rfl

theorem traced_closing (h : rest <:+ text.toList) (a : α) :
    Traced text (Walk.closing text a) (readClosing a rest) rest 0 :=
  traced_eat h ')' (fun _ _ ↦ .pure a) .unbalanced

theorem traced_children (h : rest <:+ text.toList)
    (hinside : ∀ inside, skipBlank rest = '(' :: inside →
      Traced text (Walk.pipeline text) (readForest inside) inside 1) :
    Traced text (Walk.children text) (readChildren rest) rest 0 := by
  rw [Walk.children]
  refine traced_eat h '(' ?_ (.pure [])
  intro inside hopen
  have hsuffix : inside <:+ text.toList := (suffix_of_skipBlank_eq hopen).trans h
  exact (hinside inside hopen).bind fun elements _ _ hleft ↦
    traced_closing (hleft.trans hsuffix) elements

theorem traced_element (h : rest <:+ text.toList)
    (hchildren : leadingName rest ≠ [] →
      Traced text (Walk.children text) (readChildren (afterName rest)) (afterName rest) 0) :
    Traced text (Walk.element text) (readElement rest) rest 1 := by
  have hnamed : Traced text (if leadingName rest = []
        then throw ((Stop.emptyName rest).error text.toList)
        else (Walk.children text).andThen fun inner ↦
          return .mk (String.ofList (leadingName rest)) inner)
      (readElement rest) (afterName rest) 0 := by
    by_cases hempty : leadingName rest = []
    · rw [if_pos hempty, readElement_emptyName hempty]
      exact .thrown (.emptyName rest)
    · rw [if_neg hempty, readElement_eq hempty]
      exact (hchildren hempty).bind fun inner _ _ _ ↦ .pure _
  rw [Walk.element]
  refine Traced.begin (hnamed.after ?_ (List.dropWhile_suffix _) ?_)
  · intro begun
    rw [Walk.runFrom_bind_ok Walk.runFrom_offset, Walk.runFrom_bind_ok (Walk.runFrom_word h)]
    rfl
  · rw [beginnings_afterName]

theorem traced_others (h : rest <:+ text.toList)
    (hmore : ∀ behind, skipBlank rest = ',' :: behind →
      Traced text (Walk.pipeline text) (readForest behind) behind 1) :
    Traced text (Walk.others text) (readOthers rest) rest 0 := by
  rw [Walk.others, ← Walk.pipeline]
  exact traced_eat h ',' hmore (.pure [])

/-! The walks call each other on shorter rests, and so do the proofs about them. -/

mutual

theorem traced_readElement {rest : List Char} (h : rest <:+ text.toList) :
    Traced text (Walk.element text) (readElement rest) rest 1 := by
  apply traced_element h
  intro hname
  have hshorter := length_afterName_lt hname
  exact traced_readChildren ((List.dropWhile_suffix _).trans h)
termination_by (rest.length, 1)

theorem traced_readChildren {rest : List Char} (h : rest <:+ text.toList) :
    Traced text (Walk.children text) (readChildren rest) rest 0 := by
  apply traced_children h
  intro inside hopen
  have hshorter := length_lt_of_skipBlank_eq hopen
  exact traced_readForest ((suffix_of_skipBlank_eq hopen).trans h)
termination_by (rest.length, 0)

theorem traced_readForest {rest : List Char} (h : rest <:+ text.toList) :
    Traced text (Walk.pipeline text) (readForest rest) rest 1 := by
  rw [Walk.pipeline, readForest_eq_readOthers]
  refine (traced_readElement h).bind fun first left hread hleft ↦ ?_
  have hshorter := length_lt_of_readElement hread
  exact (traced_readOthers (hleft.trans h)).bind fun elements _ _ _ ↦ .pure _
termination_by (rest.length, 2)

theorem traced_readOthers {rest : List Char} (h : rest <:+ text.toList) :
    Traced text (Walk.others text) (readOthers rest) rest 0 := by
  apply traced_others h
  intro behind hcomma
  have hshorter := length_lt_of_skipBlank_eq hcomma
  exact traced_readForest ((suffix_of_skipBlank_eq hcomma).trans h)
termination_by (rest.length, 0)

end

/-! ## Whole texts -/

theorem traced_ending (h : rest <:+ text.toList) (a : α) :
    Traced text (Walk.ending text a) (readEnding a rest) rest 0 := by
  have hcount := beginnings_skipBlank rest
  by_cases hend : skipBlank rest = []
  · rw [hend] at hcount
    rw [readEnding_of_eq a hend]
    exact (Traced.pure a).after (fun _ ↦ Walk.runFrom_ending h hend a) List.nil_suffix (by omega)
  · rw [readEnding_of_ne a hend]
    exact (Traced.thrown (.unbalanced (skipBlank rest))).after
      (fun _ ↦ Walk.runFrom_ending_of_ne h hend a) (List.dropWhile_suffix _) (by omega)

theorem traced_whole (text : String) :
    Traced text (Walk.whole text) (readWhole text.toList) text.toList 1 :=
  (traced_readForest List.suffix_rfl).bind fun elements _ _ hleft ↦
    traced_ending hleft elements

theorem answer_readWhole (text : String) : answer text (readWhole text.toList) = parse text := by
  rw [parse, parseChars_eq, readWhole]
  cases readForest text.toList with
  | error stop => rfl
  | ok r =>
    dsimp only [bind, Except.bind]
    cases hend : skipBlank r.2 with
    | nil =>
      rw [readEnding_of_eq r.1 hend]
      rfl
    | cons c behind =>
      have hne : skipBlank r.2 ≠ [] := hend ▸ List.cons_ne_nil c behind
      rw [readEnding_of_ne r.1 hne, hend]
      rfl

end Reading

/-! ## Progress -/

/-- Started at a place between two characters, a walk ends at such a place that is no further back,
with the answer to a reading of what is left there. It has begun an element at the start, and one
behind every comma and every opening parenthesis that it has passed. -/
structure Arrives {text : String} (walk : Walk α) (read : List Char → Except Stop (α × List Char))
    (start stop : text.Pos) (outcome : Except Error α) (calls : Nat) : Prop where
  run : ∀ begun, walk.runFrom ⟨start.offset, begun⟩ =
    some (outcome, ⟨stop.offset, begun + calls⟩)
  answers : outcome = answer text (read (remaining start))
  left : ∀ a left, read (remaining start) = .ok (a, left) → remaining stop = left
  onward : start ≤ stop
  count : calls + beginnings (remaining stop) = beginnings (remaining start) + 1

theorem Traced.arrives {text : String} {walk : Walk α}
    {read : List Char → Except Stop (α × List Char)} {start : text.Pos}
    (h : Traced text walk (read (remaining start)) (remaining start) 1) :
    ∃ stop outcome calls, Arrives walk read start stop outcome calls := by
  obtain ⟨rest, calls, htrace, hcalls⟩ := h
  obtain ⟨stop, rfl⟩ := exists_remaining_eq (htrace.suffix.trans (remaining_suffix start))
  refine ⟨stop, _, calls, ⟨?_, rfl, htrace.left, le_of_remaining_suffix htrace.suffix, hcalls⟩⟩
  intro begun
  rw [← before_remaining, htrace.run, before_remaining]

/-- Wherever it starts between two characters, a walk that reads comes to an end, and further on if
it has read an element. So does the walk over a whole text, where at most one more element is begun
than there are commas and opening parentheses. -/
theorem walks_make_progress (text : String) :
    (∀ start : text.Pos, ∃ stop outcome calls,
      Arrives (Walk.element text) readElement start stop outcome calls ∧
        ∀ e, outcome = .ok e → start < stop) ∧
    (∀ start : text.Pos, ∃ stop outcome calls,
      Arrives (Walk.pipeline text) readForest start stop outcome calls) ∧
    ∃ (stop : text.Pos) (calls : Nat),
      (Walk.whole text).runFrom ⟨text.startPos.offset, 0⟩ =
        some (parse text, ⟨stop.offset, calls⟩) ∧
      calls ≤ beginnings text.toList + 1 := by
  refine ⟨?_, ?_, ?_⟩
  · intro start
    obtain ⟨stop, outcome, calls, harrives⟩ :=
      Traced.arrives (traced_readElement (remaining_suffix start))
    refine ⟨stop, outcome, calls, harrives, ?_⟩
    rintro e rfl
    have hanswers := harrives.answers
    cases hread : readElement (remaining start) with
    | error reason =>
      rw [hread] at hanswers
      contradiction
    | ok r =>
      have hlength := length_lt_of_readElement hread
      rw [← harrives.left _ _ hread] at hlength
      have hne : start ≠ stop := by
        rintro rfl
        exact lt_irrefl _ hlength
      exact String.Pos.lt_of_le_of_ne harrives.onward hne
  · intro start
    exact Traced.arrives (traced_readForest (remaining_suffix start))
  · have htraced := traced_whole text
    rw [← remaining_startPos text] at htraced
    obtain ⟨stop, outcome, calls, harrives⟩ := Traced.arrives htraced
    refine ⟨stop, calls, ?_, ?_⟩
    · rw [harrives.run, harrives.answers, remaining_startPos, answer_readWhole, Nat.zero_add]
    · have hcount := harrives.count
      rw [remaining_startPos] at hcount
      omega

end ForeignPasses.Pipeline
