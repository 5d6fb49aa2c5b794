import Wireform.Text.Integer

/-!
# What can go wrong with a declaration
-/

namespace Wireform

/-- What a source text has wrong at one place. -/
inductive Complaint where
  | expected (text : String)
  | expectedIdent
  | expectedDecl
  | expectedDeclWord
  | expectedTableWord
  | expectedSingle
  | expectedType
  | nestedTypes (limit : Nat)
  | unknownEscape
  | unterminatedString
  | unexpectedChar
  | reservedType
  | reservedField
  | reservedMember
  | takesTypes (ctor : String)
  | takesOneType (ctor : String)
  | takesKeyAndValue
  | takesTextAndType
  | unknownCtor (ctor : String)
deriving DecidableEq

def Complaint.message : Complaint → String
  | .expected text => "expected `" ++ text ++ "`"
  | .expectedIdent => "expected an identifier"
  | .expectedDecl => "expected a declaration"
  | .expectedDeclWord => "expected `struct`, `sum`, `alias` or `table`"
  | .expectedTableWord => "expected `ob`, `hom`, `attrtype` or `attr`"
  | .expectedSingle => "expected a single declaration"
  | .expectedType => "expected a type"
  | .nestedTypes limit => "type nested deeper than " ++ Text.ofNat limit ++ " levels"
  | .unknownEscape => "unknown escape in string literal"
  | .unterminatedString => "unterminated string literal"
  | .unexpectedChar => "unexpected character"
  | .reservedType => "reserved type name cannot be declared"
  | .reservedField => "reserved field name"
  | .reservedMember => "reserved table name"
  | .takesTypes ctor => "`" ++ ctor ++ "` takes types, not strings"
  | .takesOneType ctor => "`" ++ ctor ++ "` takes exactly one type"
  | .takesKeyAndValue => "`Map` takes a key type and a value type"
  | .takesTextAndType => "`Annot` takes a description string and a type"
  | .unknownCtor ctor => "unknown type constructor `" ++ ctor ++ "`"

/-- What a name can be declared twice as. -/
inductive Duplicated where
  | import
  | declaration
  | field
  | tableMember
deriving DecidableEq

def Duplicated.text : Duplicated → String
  | .import => "import"
  | .declaration => "declaration"
  | .field => "field"
  | .tableMember => "table member"

inductive SourceError where
  /-- The byte offset, the text found there, and what is wrong with it. -/
  | parse (offset : Nat) (fragment : String) (why : Complaint)
  | unresolved (name : String)
  | unknownImport (name : String)
  /-- A path through more than one import. -/
  | longPath (segments : List String)
  | duplicate (what : Duplicated) (name : String)
  | aliasCycle (name : String)
deriving DecidableEq

def SourceError.message : SourceError → String
  | .parse offset fragment why =>
    "parse error at byte " ++ Text.ofNat offset ++ ": " ++ why.message ++
      " (near `" ++ fragment ++ "`)"
  | .unresolved name => "cannot resolve `" ++ name ++ "`"
  | .unknownImport name => "module `" ++ name ++ "` is not available for import"
  | .longPath segments =>
    "unsupported: reference `" ++ ".".intercalate segments ++ "` goes through more than one import"
  | .duplicate what name => "duplicate " ++ what.text ++ " `" ++ name ++ "`"
  | .aliasCycle name => "alias `" ++ name ++ "` expands to itself"

end Wireform
