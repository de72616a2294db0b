/-!
# Pipeline elements

A textual pipeline names passes in order. An element with children stands for a group; without
children it is a plain name.
-/

namespace ForeignPasses

inductive Element where
  | mk (name : String) (children : List Element)
  deriving Repr

namespace Element

def name : Element → String
  | mk name _ => name

def children : Element → List Element
  | mk _ children => children

mutual

/-- Every element with its depth, a parent before its children. -/
def preorder (depth : Nat) : Element → List (Nat × String)
  | mk name children => (depth, name) :: forestPreorder (depth + 1) children

def forestPreorder (depth : Nat) : List Element → List (Nat × String)
  | [] => []
  | e :: rest => e.preorder depth ++ forestPreorder depth rest

end

end Element

/-- Why a textual pipeline is refused; offsets count bytes of UTF-8. -/
inductive Pipeline.Error where
  | emptyName (offset : Nat)
  | unbalancedParens (offset : Nat)
  | unknownPass (name : String)
  deriving DecidableEq, Repr

namespace Pipeline.Error

def name : Pipeline.Error → String
  | emptyName _ => "EmptyName"
  | unbalancedParens _ => "UnbalancedParens"
  | unknownPass _ => "UnknownPass"

def message : Pipeline.Error → String
  | emptyName offset => "expected a pass name at offset " ++ toString offset
  | unbalancedParens offset => "unbalanced parentheses at offset " ++ toString offset
  | unknownPass name => "unknown pass name `" ++ name ++ "`"

end Pipeline.Error

end ForeignPasses
