/-! C types as they are declared: builtins, pointers, qualifiers, typedefs and tagged types. -/

namespace LoanScope

inductive Builtin where
  | void | bool | char | signedChar | unsignedChar | short | unsignedShort | int | unsignedInt
  | long | unsignedLong | longLong | unsignedLongLong | float | double | longDouble
deriving DecidableEq, Repr

namespace Builtin

def all : List Builtin :=
  [void, bool, char, signedChar, unsignedChar, short, unsignedShort, int, unsignedInt, long,
    unsignedLong, longLong, unsignedLongLong, float, double, longDouble]

/-- The name in C. -/
def spelling : Builtin → String
  | void => "void"
  | bool => "_Bool"
  | char => "char"
  | signedChar => "signed char"
  | unsignedChar => "unsigned char"
  | short => "short"
  | unsignedShort => "unsigned short"
  | int => "int"
  | unsignedInt => "unsigned int"
  | long => "long"
  | unsignedLong => "unsigned long"
  | longLong => "long long"
  | unsignedLongLong => "unsigned long long"
  | float => "float"
  | double => "double"
  | longDouble => "long double"

/-- The name in a fixture. -/
def name : Builtin → String
  | void => "void"
  | bool => "bool"
  | char => "char"
  | signedChar => "signed_char"
  | unsignedChar => "unsigned_char"
  | short => "short"
  | unsignedShort => "unsigned_short"
  | int => "int"
  | unsignedInt => "unsigned_int"
  | long => "long"
  | unsignedLong => "unsigned_long"
  | longLong => "long_long"
  | unsignedLongLong => "unsigned_long_long"
  | float => "float"
  | double => "double"
  | longDouble => "long_double"

def ofName? (s : String) : Option Builtin := all.find? (·.name = s)

end Builtin

/-- The keyword of a tagged type. -/
inductive TagKeyword where
  | struct | union | enum
deriving DecidableEq, Repr

namespace TagKeyword

def all : List TagKeyword := [struct, union, enum]

def name : TagKeyword → String
  | struct => "struct"
  | union => "union"
  | enum => "enum"

def ofName? (s : String) : Option TagKeyword := all.find? (·.name = s)

end TagKeyword

structure Qualifiers where
  isConst : Bool
  isRestrict : Bool
  isVolatile : Bool
deriving DecidableEq, Repr

namespace Qualifiers

def none : Qualifiers := ⟨false, false, false⟩

instance : Inhabited Qualifiers := ⟨none⟩

/-- All qualifiers of either. -/
def merge (p q : Qualifiers) : Qualifiers :=
  ⟨p.isConst || q.isConst, p.isRestrict || q.isRestrict, p.isVolatile || q.isVolatile⟩

end Qualifiers

inductive CType where
  | builtin (kind : Builtin)
  | pointer (pointee : CType)
  | qualified (qualifiers : Qualifiers) (inner : CType)
  | typedef (name : String) (underlying : CType)
  | elaborated (keyword : TagKeyword) (name : String)
deriving DecidableEq, Repr

namespace CType

/-- Names in the order of reading, a typedef's own name before what it stands for. -/
def names : CType → List String
  | builtin _ => []
  | pointer pointee => pointee.names
  | qualified _ inner => inner.names
  | typedef name underlying => name :: underlying.names
  | elaborated _ name => [name]

/-- The text of a type under the qualifiers written around it. Typedefs are seen through, and
`volatile` is left out. -/
def describeUnder (quals : Qualifiers) : CType → String
  | builtin kind => (if quals.isConst then "const " else "") ++ kind.spelling
  | pointer pointee =>
      pointee.describeUnder .none ++ " *" ++ (if quals.isConst then " const" else "") ++
        (if quals.isRestrict then " restrict" else "")
  | qualified qualifiers inner => inner.describeUnder (quals.merge qualifiers)
  | typedef _ underlying => underlying.describeUnder quals
  | elaborated keyword name =>
      (if quals.isConst then "const " else "") ++ keyword.name ++ " " ++ name

def describe (t : CType) : String := t.describeUnder .none

end CType

end LoanScope
