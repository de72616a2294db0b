import ForeignPasses.Pipeline.Element
import ForeignPasses.Text.Blank
import ForeignPasses.Text.Reading

/-!
# Reading textual pipelines

A pipeline is a list of elements between commas. An element is a name, and its children in
parentheses if it has any. Blanks may stand around names and before and after a closing
parenthesis; inside a name they are kept.
-/

namespace ForeignPasses.Pipeline

open Text

/-- The characters that end a name. -/
def isDelimiter (c : Char) : Bool := c == ',' || c == '(' || c == ')'

/-- Where reading stopped: the text from there on. -/
inductive Stop where
  | emptyName (rest : List Char)
  | unbalanced (rest : List Char)
  deriving DecidableEq, Repr

/-- The name at the front of a text, without the blanks around it. -/
def leadingName (text : List Char) : List Char := trim (text.takeWhile (!isDelimiter ·))

/-- The text from the first delimiter on. -/
def afterName (text : List Char) : List Char := text.dropWhile (!isDelimiter ·)

theorem length_afterName_le (text : List Char) : (afterName text).length ≤ text.length :=
  (List.dropWhile_sublist _).length_le

theorem length_afterName_lt {text : List Char} (h : leadingName text ≠ []) :
    (afterName text).length < text.length := by
  have hsum : (text.takeWhile (!isDelimiter ·)).length + (afterName text).length = text.length := by
    rw [← List.length_append, afterName, List.takeWhile_append_dropWhile]
  have hne : text.takeWhile (!isDelimiter ·) ≠ [] := by
    intro hnil
    exact h (by simp [leadingName, hnil, trim, skipBlank])
  have := List.length_pos_iff.2 hne
  omega

mutual

/-- Reads one element. -/
def element (text : List Char) : Except Stop (Reading text Element) :=
  if hname : leadingName text = [] then .error (.emptyName text)
  else
    match hafter : skipBlank (afterName text) with
    | '(' :: inside =>
      have : inside.length < text.length := by
        have := length_skipBlank_le (afterName text)
        have := length_afterName_le text
        simp_all
        omega
      match forest inside with
      | .error stop => .error stop
      | .ok ⟨children, rest, hrest⟩ =>
        match hclose : skipBlank rest with
        | ')' :: rest' =>
          .ok ⟨⟨String.ofList (leadingName text), children⟩, rest', by
            have := length_skipBlank_le rest
            simp_all
            omega⟩
        | stop => .error (.unbalanced stop)
    | rest =>
      .ok ⟨⟨String.ofList (leadingName text), []⟩, rest, by
        have := length_skipBlank_le (afterName text)
        have := length_afterName_lt hname
        simp_all
        omega⟩
termination_by (text.length, 0)

/-- Reads elements as long as commas follow. -/
def forest (text : List Char) : Except Stop (Reading text (List Element)) :=
  match element text with
  | .error stop => .error stop
  | .ok ⟨first, rest, hrest⟩ =>
    match hmore : skipBlank rest with
    | ',' :: rest' =>
      have : rest'.length < text.length := by
        have := length_skipBlank_le rest
        simp_all
        omega
      match forest rest' with
      | .error stop => .error stop
      | .ok ⟨others, rest'', hothers⟩ => .ok ⟨first :: others, rest'', by omega⟩
    | rest' =>
      .ok ⟨[first], rest', by
        have := length_skipBlank_le rest
        simp_all
        omega⟩
termination_by (text.length, 1)

end

/-- The error for a stop in a text: its offset is the number of bytes read so far. -/
def Stop.error (text : List Char) : Stop → Pipeline.Error
  | .emptyName rest => .emptyName (byteLength text - byteLength rest)
  | .unbalanced rest => .unbalancedParens (byteLength text - byteLength rest)

/-- Reads a whole text. Only a stray closing parenthesis, or something after one, can be left. -/
def parseChars (text : List Char) : Except Stop (List Element) :=
  match forest text with
  | .error stop => .error stop
  | .ok reading =>
    match skipBlank reading.rest with
    | [] => .ok reading.value
    | rest => .error (.unbalanced rest)

def parse (text : String) : Except Pipeline.Error (List Element) :=
  (parseChars text.toList).mapError (Stop.error text.toList)

end ForeignPasses.Pipeline
