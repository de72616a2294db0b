import ForeignPasses.Proofs.Pipeline.Acceptance

/-!
# Scanning texts character by character

Which texts can still become texts of the grammar is decided from left to right, by where the text
stands in its current element and by how many parentheses are open. The readers are followed by this
scan: it accepts what they read, and it gets stuck where they stop, up to blanks in front of a
missing name.
-/

namespace ForeignPasses.Pipeline

open Text

/-- Where a text stands in its current element. -/
inductive Place where
  /-- Nothing of the element is there. -/
  | fresh
  /-- Only blanks are there. -/
  | indented
  | name
  /-- The children are there, and perhaps blanks. -/
  | closed
  deriving DecidableEq, Repr

/-- A blank is noticed in front of a name only. -/
def Place.indent : Place → Place
  | .fresh => .indented
  | place => place

/-- What has to be known of a text in order to go on with it. -/
structure Scan where
  place : Place
  /-- How many parentheses are open. -/
  depth : Nat
  deriving DecidableEq, Repr

namespace Scan

/-- An element ends with a comma or a parenthesis that closes one around it. -/
def delimit (s : Scan) (c : Char) : Option Scan :=
  if c = ',' then some ⟨.fresh, s.depth⟩
  else if c = ')' then
    match s.depth with
    | 0 => none
    | depth + 1 => some ⟨.closed, depth⟩
  else none

/-- Goes on by one character, unless no text of the grammar does. -/
def step (s : Scan) (c : Char) : Option Scan :=
  match s.place with
  | .fresh | .indented =>
    if isBlank c then some ⟨.indented, s.depth⟩
    else if isDelimiter c then none
    else some ⟨.name, s.depth⟩
  | .name =>
    if c = '(' then some ⟨.fresh, s.depth + 1⟩
    else if isDelimiter c then s.delimit c
    else some s
  | .closed => if isBlank c then some s else s.delimit c

def run (s : Scan) (text : List Char) : Option Scan := text.foldlM step s

/-- The current element has a name, so it may end. -/
def Named (s : Scan) : Prop := s.place = .name ∨ s.place = .closed

@[simp] theorem run_nil (s : Scan) : s.run [] = some s := rfl

@[simp] theorem run_cons (s : Scan) (c : Char) (text : List Char) :
    s.run (c :: text) = (s.step c).bind (·.run text) := by
  rw [run, List.foldlM_cons]
  rfl

theorem run_append (s : Scan) (front back : List Char) :
    s.run (front ++ back) = (s.run front).bind (·.run back) := by
  rw [run, List.foldlM_append]
  rfl

theorem run_append_of_eq {s s' : Scan} {front : List Char} (h : s.run front = some s')
    (back : List Char) : s.run (front ++ back) = s'.run back := by
  rw [run_append, h, Option.bind_some]

theorem named_name (depth : Nat) : Named ⟨.name, depth⟩ := .inl rfl

theorem named_closed (depth : Nat) : Named ⟨.closed, depth⟩ := .inr rfl

theorem Named.step_comma {s : Scan} (h : s.Named) : s.step ',' = some ⟨.fresh, s.depth⟩ := by
  rcases s with ⟨place, depth⟩
  rcases h with rfl | rfl <;> rfl

theorem Named.step_close {s : Scan} {depth : Nat} (h : s.Named) (hdepth : s.depth = depth + 1) :
    s.step ')' = some ⟨.closed, depth⟩ := by
  rcases s with ⟨place, _⟩
  subst hdepth
  rcases h with rfl | rfl <;> rfl

theorem Named.step_stray {s : Scan} (h : s.Named) (hdepth : s.depth = 0) : s.step ')' = none := by
  rcases s with ⟨place, _⟩
  subst hdepth
  rcases h with rfl | rfl <;> rfl

theorem Named.step_blank {s : Scan} {c : Char} (h : s.Named) (hc : isBlank c = true) :
    s.step c = some s := by
  rcases s with ⟨place, depth⟩
  have hplain := isDelimiter_eq_false_of_isBlank hc
  have hopen : c ≠ '(' := (isDelimiter_eq_false_iff.1 hplain).2.1
  rcases h with rfl | rfl <;> simp [step, hc, hplain, hopen]

/-- Behind the children of an element only blanks, a comma or a closing parenthesis go on. -/
theorem step_closed_eq_none {depth : Nat} {c : Char} (hblank : isBlank c = false)
    (hcomma : c ≠ ',') (hclose : c ≠ ')') : step ⟨.closed, depth⟩ c = none := by
  simp [step, hblank, delimit, hcomma, hclose]

/-- The ways to go on by one character. -/
inductive Goes : Scan → Char → Scan → Prop where
  | blank {s : Scan} {c : Char} (hblank : isBlank c = true) : Goes s c ⟨s.place.indent, s.depth⟩
  | letter {s : Scan} {c : Char} (hblank : isBlank c = false) (hplain : isDelimiter c = false)
      (hplace : s.place ≠ .closed) : Goes s c ⟨.name, s.depth⟩
  | comma {s : Scan} (hnamed : s.Named) : Goes s ',' ⟨.fresh, s.depth⟩
  | opening (depth : Nat) : Goes ⟨.name, depth⟩ '(' ⟨.fresh, depth + 1⟩
  | closing {place : Place} {depth : Nat} (hnamed : Named ⟨place, depth + 1⟩) :
      Goes ⟨place, depth + 1⟩ ')' ⟨.closed, depth⟩

theorem Goes.of_delimit {s s' : Scan} {c : Char} (hnamed : s.Named) (h : s.delimit c = some s') :
    Goes s c s' := by
  rw [delimit] at h
  split at h
  · rename_i hcomma
    obtain rfl := Option.some.inj h
    subst hcomma
    exact .comma hnamed
  split at h
  · rename_i hclose
    subst hclose
    rcases s with ⟨place, depth | depth⟩
    · contradiction
    · obtain rfl := Option.some.inj h
      exact .closing hnamed
  · contradiction

theorem Goes.of_step {s s' : Scan} {c : Char} (h : s.step c = some s') : Goes s c s' := by
  rcases s with ⟨place, depth⟩
  cases hblank : isBlank c with
  | true =>
    have hs' : s' = ⟨place.indent, depth⟩ := by
      cases place with
      | fresh | indented => simp_all [step, Place.indent]
      | name =>
        rw [(named_name depth).step_blank hblank] at h
        exact (Option.some.inj h).symm
      | closed =>
        rw [(named_closed depth).step_blank hblank] at h
        exact (Option.some.inj h).symm
    subst hs'
    exact .blank hblank
  | false =>
    cases place with
    | fresh | indented =>
      cases hplain : isDelimiter c with
      | true => simp [step, hblank, hplain] at h
      | false =>
        obtain rfl : s' = ⟨.name, depth⟩ := by simpa [step, hblank, hplain, eq_comm] using h
        exact .letter hblank hplain (by simp)
    | name =>
      by_cases hopen : c = '('
      · subst hopen
        obtain rfl : s' = ⟨.fresh, depth + 1⟩ := by simpa [step, eq_comm] using h
        exact .opening depth
      cases hplain : isDelimiter c with
      | true =>
        simp only [step, if_neg hopen, if_pos hplain] at h
        exact .of_delimit (named_name depth) h
      | false =>
        obtain rfl : s' = ⟨.name, depth⟩ := by simpa [step, hopen, hplain, eq_comm] using h
        exact .letter hblank hplain (by simp)
    | closed =>
      simp only [step, hblank, if_neg Bool.false_ne_true] at h
      exact .of_delimit (named_closed depth) h

/-! ## Names and blanks -/

theorem Named.run_blanks {s : Scan} (h : s.Named) {blanks : List Char}
    (hblanks : IsBlankRun blanks) : s.run blanks = some s := by
  induction blanks with
  | nil => rfl
  | cons c blanks ih =>
    rw [run_cons, h.step_blank (hblanks c (by simp)), Option.bind_some]
    exact ih fun d hd ↦ hblanks d (by simp [hd])

theorem run_indented {depth : Nat} {blanks : List Char} (hblanks : IsBlankRun blanks) :
    run ⟨.indented, depth⟩ blanks = some ⟨.indented, depth⟩ := by
  induction blanks with
  | nil => rfl
  | cons c blanks ih =>
    have hc : step ⟨.indented, depth⟩ c = some ⟨.indented, depth⟩ := by
      simp [step, hblanks c (by simp)]
    rw [run_cons, hc, Option.bind_some]
    exact ih fun d hd ↦ hblanks d (by simp [hd])

/-- Blanks leave a fresh element without a name. -/
theorem run_fresh_blanks (depth : Nat) {blanks : List Char} (hblanks : IsBlankRun blanks) :
    ∃ place, run ⟨.fresh, depth⟩ blanks = some ⟨place, depth⟩ ∧
      (place = .fresh ∨ place = .indented) := by
  cases blanks with
  | nil => exact ⟨.fresh, rfl, .inl rfl⟩
  | cons c blanks =>
    refine ⟨.indented, ?_, .inr rfl⟩
    have hc : step ⟨.fresh, depth⟩ c = some ⟨.indented, depth⟩ := by
      simp [step, hblanks c (by simp)]
    rw [run_cons, hc, Option.bind_some]
    exact run_indented fun d hd ↦ hblanks d (by simp [hd])

theorem run_name {depth : Nat} {text : List Char} (hplain : ∀ c ∈ text, isDelimiter c = false) :
    run ⟨.name, depth⟩ text = some ⟨.name, depth⟩ := by
  induction text with
  | nil => rfl
  | cons c text ih =>
    have hc := hplain c (by simp)
    have hopen : c ≠ '(' := (isDelimiter_eq_false_iff.1 hc).2.1
    have hstep : step ⟨.name, depth⟩ c = some ⟨.name, depth⟩ := by
      simp [step, hc, hopen]
    rw [run_cons, hstep, Option.bind_some]
    exact ih fun d hd ↦ hplain d (by simp [hd])

/-- A name with blanks around it is scanned as a name. -/
theorem run_front {depth : Nat} {before name after : List Char} (hbefore : IsBlankRun before)
    (hname : IsName name) (hafter : IsBlankRun after) :
    run ⟨.fresh, depth⟩ (before ++ name ++ after) = some ⟨.name, depth⟩ := by
  obtain ⟨place, hrun, hplace⟩ := run_fresh_blanks depth hbefore
  obtain ⟨c, rest, rfl⟩ := List.exists_cons_of_ne_nil hname.ne_nil
  have hc : step ⟨place, depth⟩ c = some ⟨.name, depth⟩ := by
    have hblank := hname.first c rfl
    have hplain := hname.plain c (by simp)
    rcases hplace with rfl | rfl <;> simp [step, hblank, hplain]
  rw [List.append_assoc, run_append_of_eq hrun, List.cons_append, run_cons, hc, Option.bind_some]
  apply run_name
  intro d hd
  rcases List.mem_append.1 hd with hd | hd
  · exact hname.plain d (by simp [hd])
  · exact hafter.plain d hd

end Scan

/-! ## Where the readers go on and where they stop -/

/-- A front was read, up to a rest: the current element may end there, and at the next character
that is not blank it must, with one of those that end it. -/
structure Passes (ends : List Char) (s : Scan) (front : List Char) (s' : Scan)
    (rest : List Char) : Prop where
  run : s.run front = some s'
  named : s'.Named
  depth : s'.depth = s.depth
  next : ∀ c ∈ (skipBlank rest).head?, c ∉ ends → s'.step c = none

/-- How a text can stop a reader. In front of a missing name the scan stands at the beginning of an
element, and nothing but blanks goes on; otherwise the current element has a name, and nothing goes
on, except that at the end of the text something is still open. -/
inductive Halts (s : Scan) (text : List Char) : Stop → Prop where
  | emptyName {before rest : List Char} {depth : Nat} (htext : text = before ++ rest)
      (hscan : s.run before = some ⟨.fresh, depth⟩)
      (hnext : ∀ c ∈ (skipBlank rest).head?, isDelimiter c = true) : Halts s text (.emptyName rest)
  | unbalanced {before rest : List Char} {s' : Scan} (htext : text = before ++ rest)
      (hscan : s.run before = some s') (hnamed : s'.Named) (hopen : rest = [] → 0 < s'.depth)
      (hnext : ∀ c ∈ rest.head?, s'.step c = none) : Halts s text (.unbalanced rest)

/-- What comes of reading, as the scan sees it. -/
def Scanned {α : Type} (ends : List Char) (s : Scan) (text : List Char) :
    Except Stop (α × List Char) → Prop
  | .ok (_, rest) => ∃ front s', text = front ++ rest ∧ Passes ends s front s' rest
  | .error stop => Halts s text stop

section

variable {ends front rest : List Char} {s s' : Scan}

theorem Passes.skip (h : Passes ends s front s' rest) :
    Passes ends s (front ++ rest.takeWhile isBlank) s' (skipBlank rest) where
  run := by
    rw [Scan.run_append_of_eq h.run]
    exact h.named.run_blanks (isBlankRun_takeWhile rest)
  named := h.named
  depth := h.depth
  next := by
    rw [skipBlank_skipBlank]
    exact h.next

/-- The reader goes on past a character that ends the element, and so does the scan. -/
theorem Passes.past {c : Char} {behind : List Char} {s'' : Scan} (h : Passes ends s front s' rest)
    (hrest : skipBlank rest = c :: behind) (hstep : s'.step c = some s'') :
    ∃ front', front ++ rest = front' ++ behind ∧ s.run front' = some s'' := by
  refine ⟨front ++ rest.takeWhile isBlank ++ [c], ?_, ?_⟩
  · rw [List.append_assoc _ [c], List.singleton_append, ← hrest, List.append_assoc,
      takeWhile_append_skipBlank]
  · rw [Scan.run_append_of_eq h.skip.run, Scan.run_cons, hstep, Option.bind_some, Scan.run_nil]

theorem Halts.prepend {text : List Char} {stop : Stop} (h : Halts s' text stop)
    (hfront : s.run front = some s') : Halts s (front ++ text) stop := by
  cases h with
  | @emptyName before rest depth htext hscan hnext =>
    have hwhole : front ++ text = front ++ before ++ rest := by rw [htext, List.append_assoc]
    have hrun : s.run (front ++ before) = some ⟨.fresh, depth⟩ := by
      rw [Scan.run_append_of_eq hfront, hscan]
    exact .emptyName hwhole hrun hnext
  | @unbalanced before rest s'' htext hscan hnamed hopen hnext =>
    have hwhole : front ++ text = front ++ before ++ rest := by rw [htext, List.append_assoc]
    have hrun : s.run (front ++ before) = some s'' := by
      rw [Scan.run_append_of_eq hfront, hscan]
    exact .unbalanced hwhole hrun hnamed hopen hnext

/-- A rest that the text cannot go on with stops the reader. -/
theorem Passes.halts (h : Passes ends s front s' rest)
    (hends : ∀ c ∈ (skipBlank rest).head?, c ∈ ends → s'.step c = none)
    (hopen : skipBlank rest = [] → 0 < s.depth) :
    Halts s (front ++ rest) (.unbalanced (skipBlank rest)) := by
  have htext : front ++ rest = front ++ rest.takeWhile isBlank ++ skipBlank rest := by
    rw [List.append_assoc, takeWhile_append_skipBlank]
  refine .unbalanced htext h.skip.run h.named ?_ ?_
  · rw [h.depth]
    exact hopen
  · intro c hc
    by_cases hmem : c ∈ ends
    · exact hends c hc hmem
    · exact h.next c hc hmem

end

/-- In front of a missing name nothing but blanks goes on. -/
theorem head_skipBlank_of_leadingName {text : List Char} (h : leadingName text = []) :
    ∀ c ∈ (skipBlank text).head?, isDelimiter c = true := by
  obtain ⟨before, after, hbefore, hafter, htext⟩ := leadingName_append_trailing text
  rw [h, List.append_nil] at htext
  rw [htext, skipBlank_append (hbefore.append hafter), skipBlank_afterName]
  exact head_afterName text

section Readers

variable {text : List Char} {depth : Nat}

theorem scanned_leaf (hname : leadingName text ≠ [])
    (hafter : ∀ inside, skipBlank (afterName text) ≠ '(' :: inside) :
    Scanned [',', ')'] ⟨.fresh, depth⟩ text (readElement text) := by
  obtain ⟨before, after, hbefore, hafterRun, htext⟩ := leadingName_append_trailing text
  rw [readElement_leaf hname hafter, skipBlank_afterName]
  refine ⟨_, _, htext, Scan.run_front hbefore (isName_leadingName hname) hafterRun,
    Scan.named_name depth, rfl, ?_⟩
  intro c hc hends
  rw [skipBlank_afterName] at hc
  obtain ⟨inside, hinside⟩ := List.head?_eq_some_iff.1 hc
  have hdelimiter := head_afterName text c hc
  simp only [isDelimiter, Bool.or_eq_true, beq_iff_eq] at hdelimiter
  obtain rfl : c = '(' := by
    rcases hdelimiter with (rfl | rfl) | rfl
    · simp at hends
    · rfl
    · simp at hends
  exact absurd (by rw [skipBlank_afterName, hinside]) (hafter inside)

theorem scanned_group {inside : List Char} (hname : leadingName text ≠ [])
    (hafter : afterName text = '(' :: inside)
    (hinside : Scanned [')'] ⟨.fresh, depth + 1⟩ inside (readForest inside)) :
    Scanned [',', ')'] ⟨.fresh, depth⟩ text (readElement text) := by
  obtain ⟨before, after, hbefore, hafterRun, htext⟩ := leadingName_append_trailing text
  have hopen : Scan.run ⟨.fresh, depth⟩ (before ++ leadingName text ++ after ++ ['(']) =
      some ⟨.fresh, depth + 1⟩ := by
    rw [Scan.run_append_of_eq (Scan.run_front hbefore (isName_leadingName hname) hafterRun)]
    rfl
  have hwhole : text = before ++ leadingName text ++ after ++ ['('] ++ inside := by
    rw [List.append_assoc _ ['('], List.singleton_append, ← hafter]
    exact htext
  rw [readElement_group hname (by rw [skipBlank_afterName, hafter])]
  generalize before ++ leadingName text ++ after ++ ['('] = front at hopen hwhole
  subst hwhole
  cases hforest : readForest inside with
  | error stop =>
    rw [hforest] at hinside
    exact hinside.prepend hopen
  | ok r =>
    obtain ⟨children, rest⟩ := r
    rw [hforest] at hinside
    obtain ⟨front', s', rfl, hpasses⟩ := hinside
    dsimp only [bind, Except.bind]
    split
    · rename_i behind hclose
      have hstep := hpasses.named.step_close hpasses.depth
      obtain ⟨back, hback, hrun⟩ := hpasses.past hclose hstep
      refine ⟨front ++ back, ⟨.closed, depth⟩, ?_, ?_, Scan.named_closed depth, rfl, ?_⟩
      · rw [hback, List.append_assoc]
      · rw [Scan.run_append_of_eq hopen, hrun]
      · intro c hc hends
        rw [List.mem_cons, List.mem_singleton, not_or] at hends
        exact Scan.step_closed_eq_none (head_skipBlank behind c hc) hends.1 hends.2
    · rename_i hclose
      refine (hpasses.halts ?_ ?_).prepend hopen
      · intro c hc hmem
        obtain ⟨behind, hbehind⟩ := List.head?_eq_some_iff.1 hc
        rw [List.mem_singleton.1 hmem] at hbehind
        exact absurd hbehind (hclose behind)
      · intro _
        exact Nat.succ_pos depth

/-- Elements are read as long as commas follow. -/
theorem scanned_forest (helement : Scanned [',', ')'] ⟨.fresh, depth⟩ text (readElement text))
    (hmore : ∀ behind, behind.length < text.length →
      Scanned [')'] ⟨.fresh, depth⟩ behind (readForest behind)) :
    Scanned [')'] ⟨.fresh, depth⟩ text (readForest text) := by
  rw [readForest_eq]
  cases hread : readElement text with
  | error stop =>
    rw [hread] at helement
    exact helement
  | ok r =>
    obtain ⟨first, rest⟩ := r
    rw [hread] at helement
    obtain ⟨front, s', rfl, hpasses⟩ := helement
    dsimp only [bind, Except.bind]
    split
    · rename_i behind hcomma
      obtain ⟨front', hfront, hrun⟩ := hpasses.past hcomma hpasses.named.step_comma
      rw [hpasses.depth] at hrun
      have hshorter : behind.length < (front ++ rest).length := by
        have hle := length_skipBlank_le rest
        rw [hcomma, List.length_cons] at hle
        rw [List.length_append]
        omega
      have hbehind := hmore behind hshorter
      rw [hfront]
      cases hothers : readForest behind with
      | error stop =>
        rw [hothers] at hbehind
        exact hbehind.prepend hrun
      | ok r =>
        obtain ⟨others, rest'⟩ := r
        rw [hothers] at hbehind
        obtain ⟨back, s'', rfl, hback⟩ := hbehind
        refine ⟨front' ++ back, s'', (List.append_assoc ..).symm, ?_, hback.named, hback.depth,
          hback.next⟩
        rw [Scan.run_append_of_eq hrun, hback.run]
    · rename_i hcomma
      refine ⟨_, _, ?_, hpasses.skip.run, hpasses.named, hpasses.depth, ?_⟩
      · rw [List.append_assoc, takeWhile_append_skipBlank]
      · intro c hc hends
        rw [skipBlank_skipBlank] at hc
        apply hpasses.next c hc
        intro hmem
        obtain ⟨behind, hbehind⟩ := List.head?_eq_some_iff.1 hc
        rcases List.mem_cons.1 hmem with rfl | hclose
        · exact hcomma behind hbehind
        · exact hends hclose

end Readers

/-! The readers call each other on shorter texts, and so do the proofs about them. -/

mutual

theorem scanned_readElement (text : List Char) (depth : Nat) :
    Scanned [',', ')'] ⟨.fresh, depth⟩ text (readElement text) := by
  by_cases hname : leadingName text = []
  · rw [readElement_emptyName hname]
    exact .emptyName (List.nil_append text).symm rfl (head_skipBlank_of_leadingName hname)
  by_cases hopen : ∃ inside, skipBlank (afterName text) = '(' :: inside
  · obtain ⟨inside, hinside⟩ := hopen
    have hafter : afterName text = '(' :: inside := skipBlank_afterName text ▸ hinside
    have hshorter : inside.length < text.length := by
      have hle := length_afterName_le text
      rw [hafter] at hle
      exact hle
    exact scanned_group hname hafter (scanned_readForest inside (depth + 1))
  · exact scanned_leaf hname fun inside hinside ↦ hopen ⟨inside, hinside⟩
termination_by (text.length, 0)

theorem scanned_readForest (text : List Char) (depth : Nat) :
    Scanned [')'] ⟨.fresh, depth⟩ text (readForest text) :=
  scanned_forest (scanned_readElement text depth) fun behind _ ↦ scanned_readForest behind depth
termination_by (text.length, 1)

end

/-! ## Whole texts -/

/-- The scan of nothing. -/
def Scan.initial : Scan := ⟨.fresh, 0⟩

/-- A text may end here: the current element may end, and nothing is open. -/
def Scan.Accepts (s : Scan) : Prop := s.Named ∧ s.depth = 0

theorem scanned_parseChars (text : List Char) :
    match parseChars text with
    | .ok _ => ∃ s, Scan.initial.run text = some s ∧ s.Accepts
    | .error stop => Halts Scan.initial text stop := by
  have hscanned := scanned_readForest text 0
  rw [parseChars_eq]
  cases hread : readForest text with
  | error stop =>
    rw [hread] at hscanned
    exact hscanned
  | ok r =>
    obtain ⟨elements, rest⟩ := r
    rw [hread] at hscanned
    obtain ⟨front, s', rfl, hpasses⟩ := hscanned
    dsimp only [bind, Except.bind]
    cases hrest : skipBlank rest with
    | nil =>
      refine ⟨s', ?_, hpasses.named, hpasses.depth⟩
      have hskip := hpasses.skip.run
      rw [← takeWhile_append_skipBlank rest, hrest, List.append_nil]
      exact hskip
    | cons c behind =>
      have hhalts : Halts Scan.initial (front ++ rest) (.unbalanced (skipBlank rest)) := by
        refine hpasses.halts ?_ ?_
        · intro d _ hmem
          rw [List.mem_singleton.1 hmem]
          exact hpasses.named.step_stray hpasses.depth
        · intro hnil
          rw [hrest] at hnil
          contradiction
      rwa [hrest] at hhalts

/-- The text from the stop on. -/
def Stop.rest : Stop → List Char
  | .emptyName rest => rest
  | .unbalanced rest => rest

/-- A front is as far as a scan gets. -/
structure Furthest (s : Scan) (front : List Char) (s' : Scan) (back : List Char) : Prop where
  run : s.run front = some s'
  next : ∀ c ∈ back.head?, s'.step c = none

theorem Furthest.of_run {s s' s'' : Scan} {front back front' back' : List Char}
    (h : Furthest s front s' back) (hrun : s.run front' = some s'')
    (htext : front' ++ back' = front ++ back) : front' <+: front := by
  have hfront' : front' <+: front ++ back := ⟨back', htext⟩
  rcases List.prefix_or_prefix_of_prefix hfront' (List.prefix_append front back) with hle | hge
  · exact hle
  obtain ⟨more, rfl⟩ := hge
  cases more with
  | nil => simp
  | cons c more =>
    -- The scan would have gone on with the first character of the back.
    have hback : back.head? = some c := by
      rw [List.append_assoc, List.append_cancel_left_eq] at htext
      rw [← htext]
      rfl
    rw [Scan.run_append_of_eq h.run, Scan.run_cons, h.next c hback] at hrun
    contradiction

theorem Furthest.unique {s s' s'' : Scan} {front back front' back' : List Char}
    (h : Furthest s front s' back) (h' : Furthest s front' s'' back')
    (htext : front' ++ back' = front ++ back) : front' = front ∧ s'' = s' ∧ back' = back := by
  have heq : front' = front :=
    (h.of_run h'.run htext).eq_of_length_le (h'.of_run h.run htext.symm).length_le
  subst heq
  refine ⟨rfl, ?_, List.append_cancel_left htext⟩
  exact Option.some.inj (h'.run.symm.trans h.run)

/-- A reader stops in front of the blanks behind which the scan is stuck; there are none if the
current element has a name. -/
theorem Halts.furthest {s : Scan} {text : List Char} {stop : Stop} (h : Halts s text stop) :
    ∃ before s', text = before ++ stop.rest ∧
      Furthest s (before ++ stop.rest.takeWhile isBlank) s' (skipBlank stop.rest) ∧
      (skipBlank stop.rest = [] → ¬ s'.Accepts) ∧
      match stop with
      | .emptyName _ => s.run before = some ⟨.fresh, s'.depth⟩ ∧ ¬ s'.Named
      | .unbalanced rest => s'.Named ∧ rest.takeWhile isBlank = [] := by
  cases h with
  | @emptyName before rest depth htext hscan hnext =>
    obtain ⟨place, hblanks, hplace⟩ := Scan.run_fresh_blanks depth
      (isBlankRun_takeWhile rest)
    have hnamed : ¬ Scan.Named ⟨place, depth⟩ := by
      rintro (h | h) <;> rcases hplace with rfl | rfl <;> cases h
    refine ⟨before, ⟨place, depth⟩, htext, ⟨?_, ?_⟩, fun _ h ↦ hnamed h.1, hscan, hnamed⟩
    · rw [Scan.run_append_of_eq hscan]
      exact hblanks
    · intro c hc
      have hdelimiter := hnext c hc
      have hblank := head_skipBlank rest c hc
      rcases hplace with rfl | rfl <;> simp [Scan.step, hblank, hdelimiter]
  | @unbalanced before rest s' htext hscan hnamed hopen hnext =>
    have hskip : skipBlank rest = rest := by
      apply skipBlank_of_head
      intro c hc
      by_contra hblank
      have hstep := hnamed.step_blank (Bool.of_not_eq_false hblank)
      rw [hnext c hc] at hstep
      contradiction
    have hblanks : rest.takeWhile isBlank = [] := by
      have hrest := takeWhile_append_skipBlank rest
      rwa [hskip, List.append_left_eq_self] at hrest
    refine ⟨before, s', htext, ⟨?_, ?_⟩, ?_, hnamed, hblanks⟩
    · rw [Stop.rest, hblanks, List.append_nil]
      exact hscan
    · rw [Stop.rest, hskip]
      exact hnext
    · rw [Stop.rest, hskip]
      intro hnil haccepts
      exact absurd haccepts.2 (hopen hnil).ne'

/-- Where reading stops, the text may not end. -/
theorem Halts.not_accepts {s s' : Scan} {text : List Char} {stop : Stop} (h : Halts s text stop)
    (hrun : s.run text = some s') : ¬ s'.Accepts := by
  obtain ⟨before, s'', htext, hfurthest, hend, -⟩ := h.furthest
  have hwhole : text = before ++ stop.rest.takeWhile isBlank ++ skipBlank stop.rest := by
    rw [List.append_assoc, takeWhile_append_skipBlank, htext]
  have hnil : Furthest s text s' [] := ⟨hrun, by simp⟩
  obtain ⟨-, rfl, hback⟩ := hfurthest.unique hnil (by rw [List.append_nil, ← hwhole])
  exact hend hback.symm

/-- Every text that can be gone on with can be ended: by a name, if one is missing, and a
parenthesis for each one that is open. -/
theorem Scan.exists_run_accepts (s : Scan) : ∃ more s', s.run more = some s' ∧ s'.Accepts := by
  have hnamed : ∀ depth (s : Scan), s.depth = depth → s.Named →
      ∃ s', s.run (List.replicate depth ')') = some s' ∧ s'.Accepts := by
    intro depth
    induction depth with
    | zero => exact fun s hdepth h ↦ ⟨s, rfl, h, hdepth⟩
    | succ depth ih =>
      intro s hdepth h
      rw [List.replicate_succ, run_cons, h.step_close hdepth, Option.bind_some]
      exact ih ⟨.closed, depth⟩ rfl (named_closed depth)
  rcases s with ⟨place, depth⟩
  cases place with
  | fresh | indented =>
    obtain ⟨s', hrun, haccepts⟩ := hnamed depth ⟨.name, depth⟩ rfl (named_name depth)
    exact ⟨'a' :: List.replicate depth ')', s', hrun, haccepts⟩
  | name =>
    exact ⟨_, hnamed depth ⟨.name, depth⟩ rfl (named_name depth)⟩
  | closed =>
    exact ⟨_, hnamed depth ⟨.closed, depth⟩ rfl (named_closed depth)⟩

theorem exists_parseChars_ok_iff {text : List Char} :
    (∃ elements, parseChars text = .ok elements) ↔
      ∃ s, Scan.initial.run text = some s ∧ s.Accepts := by
  have hscanned := scanned_parseChars text
  constructor
  · rintro ⟨elements, h⟩
    rw [h] at hscanned
    exact hscanned
  · rintro ⟨s, hrun, haccepts⟩
    cases h : parseChars text with
    | ok elements => exact ⟨elements, rfl⟩
    | error stop =>
      rw [h] at hscanned
      exact absurd haccepts (hscanned.not_accepts hrun)

end ForeignPasses.Pipeline
