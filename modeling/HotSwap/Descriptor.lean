/-! # Types in descriptors

A field descriptor is the text of a type, and a method descriptor the text of the
types of the parameters and of the result. This module holds the types and their
texts; `HotSwap.Descriptor.Parser` reads the texts. -/

namespace HotSwap

/-- A primitive type. -/
inductive BaseType
  | byte | char | double | float | int | long | short | boolean
  deriving DecidableEq, Repr

namespace BaseType

def letter : BaseType → Char
  | byte => 'B'
  | char => 'C'
  | double => 'D'
  | float => 'F'
  | int => 'I'
  | long => 'J'
  | short => 'S'
  | boolean => 'Z'

/-- The local variable slots that a value takes. -/
def width : BaseType → Nat
  | double | long => 2
  | _ => 1

end BaseType

/-- A type that is not an array. -/
inductive ElementType
  | base (type : BaseType)
  | object (name : String)
  deriving DecidableEq, Repr

namespace ElementType

def render : ElementType → List Char
  | base type => [type.letter]
  | object name => 'L' :: name.toList ++ [';']

def width : ElementType → Nat
  | base type => type.width
  | object _ => 1

/-- The name of a class has at least one character, and none that ends it. -/
def WellNamed : ElementType → Prop
  | base _ => True
  | object name => name.toList ≠ [] ∧ ';' ∉ name.toList

end ElementType

/-- A type of values: an array of some number of dimensions, or no array if that is zero. -/
structure FieldType where
  dimensions : Nat
  element : ElementType
  deriving DecidableEq, Repr

namespace FieldType

/-- One bracket for each dimension, and the element type. -/
def render (type : FieldType) : List Char :=
  List.replicate type.dimensions '[' ++ type.element.render

/-- The local variable slots that a value takes. An array is a reference, whatever it holds. -/
def width (type : FieldType) : Nat :=
  if type.dimensions = 0 then type.element.width else 1

end FieldType

/-- The types of a method's parameters and of its result, of which there may be none. -/
structure MethodType where
  parameters : List FieldType
  result : Option FieldType
  deriving DecidableEq, Repr

namespace MethodType

def render (type : MethodType) : List Char :=
  '(' :: type.parameters.flatMap FieldType.render ++ ')' ::
    match type.result with
    | none => ['V']
    | some result => result.render

/-- The local variable slots that the parameters take, without the receiver. -/
def parameterWidth (type : MethodType) : Nat :=
  type.parameters.foldr (fun parameter total => parameter.width + total) 0

end MethodType

end HotSwap
