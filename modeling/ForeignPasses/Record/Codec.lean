import ForeignPasses.Level
import ForeignPasses.Pipeline.Element
import ForeignPasses.Preserved
import ForeignPasses.Record.Value

/-!
# Records

The written forms of efforts, levels, statuses and pipeline elements. A record is an object with
each of its fields once, in any order, among others that are not looked at, or an array of its
fields in their order. An enumeration is the name of the case, alone or as the field of an object
that holds nothing.
-/

namespace ForeignPasses

namespace Record

/-- The values of the named fields, each of which must be there exactly once. -/
def fieldsOf? (names : List String) : Value → Option (List Value)
  | .array items => if items.length = names.length then some items else none
  | .object fields =>
    if fields.all (·.1.isSome) then
      names.mapM fun name ↦
        match fields.filter (·.1 = some name) with
        | [(_, v)] => some v
        | _ => none
    else none
  | _ => none

def word? : Value → Option UInt32
  | .natural n => if n < UInt32.size then some (UInt32.ofNat n) else none
  | _ => none

def text? : Value → Option String
  | .text t => t
  | _ => none

def case? : Value → Option String
  | .text t => t
  | .object [(name, .null)] => name
  | _ => none

/-- How many arrays and objects may be inside each other. -/
def maxNesting : Nat := 127

end Record

open Record

namespace Effort

def ofValue? (v : Value) : Option Effort := do
  match ← fieldsOf? ["speedup", "size"] v with
  | [speedup, size] => return ⟨← word? speedup, ← word? size⟩
  | _ => none

def write (e : Effort) : String :=
  "\x7b\"speedup\":" ++ toString e.speedup ++ ",\"size\":" ++ toString e.size ++ "\x7d"

end Effort

namespace Level

def ofValue? (v : Value) : Option Level := (case? v).bind ofName?

def write (l : Level) : String := writeText l.name

end Level

namespace Status

def ofValue? (v : Value) : Option Status := (case? v).bind ofName?

def write (s : Status) : String := writeText s.name

end Status

namespace Element

/-- Each element takes two levels of nesting, its own and that of the list of its children. -/
def ofValue? : Nat → Value → Option Element
  | nesting + 2, v => do
    match ← fieldsOf? ["name", "inner"] v with
    | [name, .array children] => return ⟨← text? name, ← children.mapM (ofValue? nesting)⟩
    | _ => none
  | _, _ => none

mutual

def write : Element → String
  | mk name children =>
    "\x7b\"name\":" ++ writeText name ++ ",\"inner\":[" ++ writeAll children ++ "]\x7d"

def writeAll : List Element → String
  | [] => ""
  | [e] => e.write
  | e :: rest => e.write ++ "," ++ writeAll rest

end

end Element

namespace Record

/-- The sorts of records. -/
inductive Schema where
  | effort
  | level
  | status
  | element
  deriving DecidableEq, Repr

/-- Reads a record and writes it in its one canonical form. -/
def normalize? (schema : Schema) (text : String) : Option String := do
  let v ← read? text
  match schema with
  | .effort => (Effort.ofValue? v).map Effort.write
  | .level => (Level.ofValue? v).map Level.write
  | .status => (Status.ofValue? v).map Status.write
  | .element => (Element.ofValue? maxNesting v).map Element.write

end Record

end ForeignPasses
