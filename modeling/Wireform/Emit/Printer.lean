import Wireform.Emit.Plan
import Wireform.Text.Lines

/-!
# Generated source as text

Each item is a type with its equality, its writer and its reader, all from the same list of
fields. Paths are absolute, so that no declared name can shadow them.
-/

namespace Wireform.Emit

/-! ### Spelling -/

def runtime : String := "__rt"

def resultPath : String := "::std::result::Result"

def stringPath : String := "::std::string::String"

def openBrace : String := "\x7b"

def closeBrace : String := "\x7d"

def primText : Prim → String
  | .i32 => "i32"
  | .u32 => "u32"
  | .i64 => "i64"
  | .u64 => "u64"
  | .f64 => "f64"
  | .boolean => "bool"
  | .str => stringPath
  | .ident => runtime ++ "::Symbol"
  | .binary => runtime ++ "::Bytes"

/-- A tuple of one element needs its comma. -/
def tupleText : List String → String
  | [t] => "(" ++ t ++ ",)"
  | ts => "(" ++ ", ".intercalate ts ++ ")"

mutual

def FieldTy.text : FieldTy → String
  | .prim p => primText p
  | .optional t => "::std::option::Option<" ++ t.text ++ ">"
  | .list t => "::std::vec::Vec<" ++ t.text ++ ">"
  | .object t => runtime ++ "::IndexMap<" ++ stringPath ++ ", " ++ t.text ++ ">"
  | .map k v => runtime ++ "::OrderedMap<" ++ k.text ++ ", " ++ v.text ++ ">"
  | .tuple elems => tupleText (texts elems)
  | .boxed t => "::std::boxed::Box<" ++ t.text ++ ">"
  | .declared name => identifier name
  | .imported m name => "super::" ++ identifier m ++ "::" ++ identifier name
  | .auxiliary name => name

def texts : List FieldTy → List String
  | [] => []
  | t :: ts => t.text :: texts ts

end

/-- Lines of text, each ended. -/
def block (ls : List String) : String := String.join (ls.map (· ++ "\n"))

def docLines (indent : String) (docs : List String) : List String :=
  docs.flatMap fun doc => (Text.lines doc).map fun line => indent ++ "/// " ++ line

/-- Lines with `head` before them and a closing brace after. -/
def braced (indent head : String) (body : List String) : List String :=
  (indent ++ head ++ " " ++ openBrace) :: body ++ [indent ++ closeBrace]

/-! ### Parts that items share -/

def equalityFor (name : String) (body : List String) : List String :=
  braced "" ("impl ::std::cmp::PartialEq for " ++ identifier name) body

def writerFor (name : String) (body : List String) : List String :=
  braced "" ("impl " ++ runtime ++ "::ToJson for " ++ identifier name)
    (braced "    " ("fn to_json(&self) -> " ++ resultPath ++ "<" ++ runtime ++ "::Json, " ++ runtime ++
      "::CodecError>") body)

def readerFor (name : String) (body : List String) : List String :=
  braced "" ("impl " ++ runtime ++ "::FromJson for " ++ identifier name)
    (braced "    " ("fn expected() -> " ++ stringPath)
        ["        " ++ stringPath ++ "::from(" ++ Text.quote name ++ ")"] ++
      [""] ++
      braced "    " ("fn read_json(json: &" ++ runtime ++ "::Json, cx: &mut " ++ runtime ++
        "::ReadCx) -> " ++ resultPath ++ "<Self, " ++ runtime ++ "::CodecError>") body)

/-! ### Records -/

def recordType (name : String) (docs : List String) (fields : List Field) : List String :=
  docLines "" docs ++ ["#[derive(Debug, Clone)]"] ++
    braced "" ("pub struct " ++ identifier name) (fields.flatMap fun f =>
      docLines "    " f.docs ++ ["    pub " ++ identifier f.key ++ ": " ++ f.ty.text ++ ","])

/-- The conjunction of the fields, one to a line. -/
def conjuncts : List Field → List String
  | [] => ["        true"]
  | f :: fs =>
    let one (f : Field) : String :=
      "self." ++ identifier f.key ++ " == other." ++ identifier f.key
    ("        " ++ one f) :: fs.map fun f => "            && " ++ one f

def recordEquality (name : String) (fields : List Field) : List String :=
  let other := if fields.isEmpty then "_other" else "other"
  equalityFor name (braced "    " ("fn eq(&self, " ++ other ++ ": &Self) -> bool") (conjuncts fields))

def recordWriter (name : String) (tag : Option (String × String)) (fields : List Field) :
    List String :=
  let build := match tag with
    | some (_, tag) => "tagged(" ++ Text.quote tag ++ ", ["
    | none => "object(["
  writerFor name
    (["        " ++ resultPath ++ "::Ok(" ++ runtime ++ "::" ++ build] ++
      fields.map (fun f => "            (" ++ Text.quote f.key ++ ", " ++ runtime ++
        "::ToJson::to_json(&self." ++ identifier f.key ++ ")?),") ++
      ["        ]))"])

def recordFieldsReader : List Field → List String
  | [] => ["        cx.nested(|_| " ++ resultPath ++ "::Ok(Self " ++ openBrace ++ closeBrace ++ "))"]
  | fields =>
    ["        cx.nested(|cx| " ++ resultPath ++ "::Ok(Self " ++ openBrace] ++
      fields.map (fun f => "            " ++ identifier f.key ++ ": " ++ runtime ++ "::field(obj, " ++
        Text.quote f.key ++ ", cx)?,") ++
      ["        " ++ closeBrace ++ "))"]

def recordReader (name : String) (tag : Option (String × String)) (fields : List Field) :
    List String :=
  let tagCheck := match tag with
    | some (sum, tag) => ["        " ++ runtime ++ "::expect_tag(json, " ++ Text.quote sum ++ ", " ++
        Text.quote tag ++ ")?;"]
    | none => []
  let keys := ", ".intercalate (fields.map fun f => Text.quote f.key)
  readerFor name
    (tagCheck ++
      ["        " ++ (if fields.isEmpty then "" else "let obj = ") ++ runtime ++
        "::expect_record(json, " ++ Text.quote name ++ ", " ++
        (if tag.isSome then "true" else "false") ++ ", &[" ++ keys ++ "])?;"] ++
      recordFieldsReader fields)

/-! ### Sums -/

def enumType (name : String) (docs : List String) (arms : List (String × String)) : List String :=
  docLines "" docs ++ ["#[derive(Debug, Clone)]"] ++
    braced "" ("pub enum " ++ identifier name)
      (arms.map fun (tag, item) => "    " ++ identifier tag ++ "(" ++ identifier item ++ "),")

def enumEquality (name : String) (arms : List (String × String)) : List String :=
  equalityFor name
    ("    #[allow(unreachable_patterns)]" ::
      braced "    " "fn eq(&self, other: &Self) -> bool"
        (braced "        " "match (self, other)"
          (arms.map (fun (tag, _) => "            (Self::" ++ identifier tag ++ "(a), Self::" ++
              identifier tag ++ "(b)) => a == b,") ++
            ["            _ => false,"])))

def enumWriter (name : String) (arms : List (String × String)) : List String :=
  writerFor name
    (braced "        " "match self"
      (arms.map fun (tag, _) => "            Self::" ++ identifier tag ++ "(v) => " ++ runtime ++
        "::ToJson::to_json(v),"))

def enumReader (name : String) (arms : List (String × String)) : List String :=
  readerFor name
    (["        let tag = " ++ runtime ++ "::discriminator(json, " ++ Text.quote name ++ ")?;"] ++
      arms.flatMap (fun (tag, item) =>
        braced "        " ("if tag == " ++ Text.quote tag)
          ["            return <" ++ identifier item ++ " as " ++ runtime ++
            "::FromJson>::read_json(json, cx).map(Self::" ++ identifier tag ++ ");"]) ++
      ["        " ++ resultPath ++ "::Err(" ++ runtime ++ "::CodecError::UnknownTag " ++ openBrace,
        "            sum: " ++ stringPath ++ "::from(" ++ Text.quote name ++ "),",
        "            tag: " ++ stringPath ++ "::from(tag),",
        "        " ++ closeBrace ++ ")"])

/-! ### Aliases and tables -/

def synonymType (name : String) (docs : List String) (t : FieldTy) : List String :=
  docLines "" docs ++ ["pub type " ++ identifier name ++ " = " ++ t.text ++ ";"]

def wrapperType (name : String) (docs : List String) (t : FieldTy) : List String :=
  docLines "" docs ++ ["#[derive(Debug, Clone, PartialEq)]",
    "pub struct " ++ identifier name ++ "(pub " ++ t.text ++ ");"]

def wrapperWriter (name : String) : List String :=
  writerFor name ["        " ++ runtime ++ "::ToJson::to_json(&self.0)"]

def wrapperReader (name : String) : List String :=
  readerFor name
    ["        cx.nested(|cx| " ++ runtime ++ "::FromJson::read_json(json, cx).map(Self))"]

def nameList (names : List String) : String := ", ".intercalate (names.map Text.quote)

def arrowList (arrows : List Arrow) : String :=
  ", ".intercalate (arrows.map fun a =>
    "(" ++ Text.quote a.name ++ ", " ++ Text.quote a.dom ++ ", " ++ Text.quote a.codom ++ ")")

def tableType (name : String) : List String :=
  ["#[derive(Debug, Clone, Copy, PartialEq, Eq)]", "pub struct " ++ identifier name ++ ";"]

def tableNames (name : String) (spec : TableSpec) : List String :=
  let names := "&'static [&'static str] = &["
  let arrows := "&'static [(&'static str, &'static str, &'static str)] = &["
  braced "" ("impl " ++ identifier name)
    ["    pub const OBJECTS: " ++ names ++ nameList spec.objects ++ "];",
      "    /// (name, domain, codomain)",
      "    pub const HOMS: " ++ arrows ++ arrowList spec.homs ++ "];",
      "    pub const ATTR_TYPES: " ++ names ++ nameList spec.attrTypes.keys ++ "];",
      "    /// (name, domain, attribute type)",
      "    pub const ATTRS: " ++ arrows ++ arrowList spec.attrs ++ "];"]

/-! ### Files -/

/-- The type of an item, then what is implemented for it. -/
def Item.parts : Item → List (List String)
  | .record name tag docs fields =>
    [recordType name docs fields, recordEquality name fields, recordWriter name tag fields,
      recordReader name tag fields]
  | .enum name docs arms =>
    [enumType name docs arms, enumEquality name arms, enumWriter name arms, enumReader name arms]
  | .synonym name docs t => [synonymType name docs t]
  | .wrapper name docs t => [wrapperType name docs t, wrapperWriter name, wrapperReader name]
  | .table name spec => [tableType name, tableNames name spec]

/-- A blank line stands before every part. -/
def Item.text (item : Item) : String := String.join (item.parts.map fun part => block ("" :: part))

def header (m : Module) : String :=
  block ["// Generated by json-shapes from module `" ++ m.name ++ "`. Do not edit.", "",
    "#![allow(dead_code, non_camel_case_types, clippy::all)]", "",
    "use ::json_shapes::native as " ++ runtime ++ ";"]

def text (m : Module) : String := header m ++ String.join ((items m).map Item.text)

def fileName (m : Module) : String := m.name ++ ".rs"

end Wireform.Emit
