import LeoFront.Source.Span

namespace LeoFront

structure Identifier where
  name : String
  span : Span
  deriving DecidableEq

inductive IntegerWidth where
  | bits8 | bits16 | bits32 | bits64 | bits128
  deriving DecidableEq

structure IntegerType where
  signed : Bool
  width : IntegerWidth
  deriving DecidableEq

inductive Primitive where
  | address | boolean | field | group | scalar | string
  | integer (type : IntegerType)
  deriving DecidableEq

inductive Ty where
  | primitive (type : Primitive)
  | named (identifier : Identifier)
  /-- What stands for a type that was left out; it equals no type. -/
  | unresolved
  deriving DecidableEq

def IntegerWidth.text : IntegerWidth → String
  | .bits8 => "8"
  | .bits16 => "16"
  | .bits32 => "32"
  | .bits64 => "64"
  | .bits128 => "128"

def IntegerType.text (type : IntegerType) : String :=
  (if type.signed then "i" else "u") ++ type.width.text

def Primitive.text : Primitive → String
  | .address => "address"
  | .boolean => "bool"
  | .field => "field"
  | .group => "group"
  | .scalar => "scalar"
  | .string => "string"
  | .integer type => type.text

def Ty.text : Ty → String
  | .primitive type => type.text
  | .named identifier => identifier.name
  | .unresolved => "error"

/-- Whether two types have the same constructor and name, wherever they were written. An unresolved
type is flat-equal to nothing, itself included. -/
def Ty.eqFlat : Ty → Ty → Bool
  | .primitive left, .primitive right => left = right
  | .named left, .named right => left.name = right.name
  | _, _ => false

end LeoFront
