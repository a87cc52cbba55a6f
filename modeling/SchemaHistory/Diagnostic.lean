import SchemaHistory.Source.Position

/-! # Diagnostics

A schema is rejected by one diagnostic: its cause and, where there is one, the place it is about.
A cause carries the data that its message and its details show, and belongs to one category, whose
code never changes.  Names are values, as declarations have them. -/
set_option autoImplicit false
namespace SchemaHistory

/-- What a whole number stands for in the schema language. -/
inductive NumberRole
  | version
  | discriminant
  | arraySize
  deriving DecidableEq, Repr

/-- The items that a version header may stand in front of. -/
inductive HeaderOwner
  | type
  | field
  | variant
  deriving DecidableEq, Repr

/-- What the schema language asks for where something else stands. -/
inductive Expected
  | symbol (c : Char)
  | separator (close : Char)
  | typeKeyword
  | specifier
  | typeName
  | fieldName
  | variantName
  | typeExpr
  | number (role : NumberRole)
  deriving DecidableEq, Repr

inductive TextFault
  | unexpectedCharacter (l : Letter)
  | unexpectedToken (expected : Expected) (found : Text)
  | numberTooLarge (role : NumberRole)
  | secondHeader (owner : HeaderOwner)
  | emptyHeader
  | thirdSpecifier
  | addAfterRem
  | repeatedAdd
  | repeatedRem
  deriving DecidableEq, Repr

inductive Cause
  | text (fault : TextFault)
  | addBelowOne
  | remNotAfterAdd
  | remBelowTwo
  | addBeforeContainer
  | addAfterContainer
  | remAfterContainer
  | aboveLimit (version limit : Int)
  | sharedName (name : Json)
  | mixedShapes (enumName variantName : Json)
  | discriminantOrder (enumName variantName : Json) (version : Int)
  | emptyVersion (version : Int)
  | missingType (name : Json) (version : Int)
  | bareNode
  | referenceToValue
  | referenceToExpression
  | bareAny
  deriving DecidableEq, Repr

structure Diagnostic where
  cause : Cause
  position : Option Position
  deriving DecidableEq, Repr

inductive Category
  | syntaxError
  | malformedVersion
  | containment
  | versionLimit
  | nameOverlap
  | emptyVersion
  | enumShape
  | enumDiscriminant
  | danglingReference
  | referenceKind
  deriving DecidableEq, Repr

def Category.code : Category → String
  | .syntaxError => "SYNTAX_ERROR"
  | .malformedVersion => "MALFORMED_VERSION"
  | .containment => "CONTAINMENT_VIOLATION"
  | .versionLimit => "VERSION_LIMIT_EXCEEDED"
  | .nameOverlap => "NAME_OVERLAP"
  | .emptyVersion => "EMPTY_VERSION"
  | .enumShape => "ENUM_SHAPE_CONFLICT"
  | .enumDiscriminant => "ENUM_DISCRIMINANT_ORDER"
  | .danglingReference => "DANGLING_REFERENCE"
  | .referenceKind => "REFERENCE_KIND_MISMATCH"

def NumberRole.text : NumberRole → Text
  | .version => "version literal"
  | .discriminant => "enum int literal"
  | .arraySize => "array size literal"

def HeaderOwner.text : HeaderOwner → Text
  | .type => "type def (struct, node or enum)"
  | .field => "struct field"
  | .variant => "enum variant"

def Expected.text : Expected → Text
  | .symbol c => "'" ++ Text.ofLetter (.char c) ++ "'"
  | .separator close => "',' or '" ++ Text.ofLetter (.char close) ++ "'"
  | .typeKeyword => "'struct', 'node' or 'enum'"
  | .specifier => "'add' or 'rem'"
  | .typeName => "type name"
  | .fieldName => "field name"
  | .variantName => "variant name"
  | .typeExpr => "a type"
  | .number role => role.text

def TextFault.message : TextFault → Text
  | .unexpectedCharacter l => "unexpected character '" ++ Text.ofLetter l ++ "'"
  | .unexpectedToken expected found => "expected " ++ expected.text ++ ", found '" ++ found ++ "'"
  | .numberTooLarge role => "invalid " ++ role.text
  | .secondHeader owner => "expected a " ++ owner.text ++ " after the version header"
  | .emptyHeader => "version header must contain at least one of 'add' or 'rem'"
  | .thirdSpecifier =>
    "version header can contain at most two specifiers: an 'add' specifier, and a 'rem' specifier"
  | .addAfterRem => "'add' specifier must come before 'rem' specifier"
  | .repeatedAdd => "version header can only contain one 'add' specifier"
  | .repeatedRem => "version header can only contain one 'rem' specifier"

namespace Cause

def category : Cause → Category
  | .text _ => .syntaxError
  | .addBelowOne => .malformedVersion
  | .remNotAfterAdd => .malformedVersion
  | .remBelowTwo => .malformedVersion
  | .addBeforeContainer => .containment
  | .addAfterContainer => .containment
  | .remAfterContainer => .containment
  | .aboveLimit _ _ => .versionLimit
  | .sharedName _ => .nameOverlap
  | .mixedShapes _ _ => .enumShape
  | .discriminantOrder _ _ _ => .enumDiscriminant
  | .emptyVersion _ => .emptyVersion
  | .missingType _ _ => .danglingReference
  | .bareNode => .referenceKind
  | .referenceToValue => .referenceKind
  | .referenceToExpression => .referenceKind
  | .bareAny => .referenceKind

def message : Cause → Text
  | .text fault => fault.message
  | .addBelowOne => "add value must be at least 1"
  | .remNotAfterAdd => "rem value is less than or equal to the add value"
  | .remBelowTwo => "rem value must be at least 2"
  | .addBeforeContainer => "add value is less than the container type's add value"
  | .addAfterContainer => "add value is greater than or equal to the container type's rem value"
  | .remAfterContainer => "rem value is greater than the container type's rem value"
  | .aboveLimit version limit =>
    "version " ++ Text.ofInt version ++ " exceeds the maximum of " ++ Text.ofInt limit
  | .sharedName name =>
    "'" ++ name.shown ++ "' overlaps with a previously defined item. " ++
      "Items that share the same name must exist in different versions"
  | .mixedShapes enumName _ =>
    "Enum '" ++ enumName.shown ++ "' cannot have variants with both integer values, " ++
      "and tuple or struct values"
  | .discriminantOrder _ _ version =>
    "Enum discriminant must be greater than the last discriminant " ++
      "value + any increment values (version " ++ Text.ofInt version ++ ")"
  | .emptyVersion version => "version " ++ Text.ofInt version ++ " is empty"
  | .missingType name version =>
    "type '" ++ name.shown ++ "' does not exist in version " ++ Text.ofInt version
  | .bareNode => "node types must be enclosed by a ref type"
  | .referenceToValue => "only node types may be enclosed by a ref type"
  | .referenceToExpression => "expected node type"
  | .bareAny => "any types must be enclosed by a ref type"

/-- The data of a cause under fixed names; most causes have none. -/
def details : Cause → List (Text × Json)
  | .aboveLimit _ limit => [("max_version", .int limit)]
  | .sharedName name => [("name", name)]
  | .mixedShapes enumName variantName => [("enum", enumName), ("variant", variantName)]
  | .discriminantOrder enumName variantName version =>
    [("enum", enumName), ("variant", variantName), ("version", .int version)]
  | .emptyVersion version => [("version", .int version)]
  | .missingType name version => [("name", name), ("version", .int version)]
  | _ => []

end Cause

/-- The message behind the place that it is about. -/
def Diagnostic.text (d : Diagnostic) : Text := locator d.position ++ d.cause.message

end SchemaHistory
