import ModelFormula.Text.Blank
import ModelFormula.Schema.Basic

/-! # Field declarations

A column is declared as `name:type`. The name ends at the first colon, and blanks around both
parts are ignored.
-/

namespace ModelFormula

inductive DeclarationError
  | noColon (text : String)
  | noName (text : String)
  | type (error : SchemaError)
  deriving DecidableEq, Repr

def DeclarationError.message : DeclarationError → String
  | noColon text => s!"expected name:type, got '{text}'"
  | noName text => s!"empty field name in '{text}'"
  | type error => error.message

namespace Field

def ofDeclaration (text : String) : Except DeclarationError Field :=
  match text.toList.dropWhile (· != ':') with
  | [] => .error (.noColon text)
  | _ :: type =>
    match Text.trim (text.toList.takeWhile (· != ':')) with
    | [] => .error (.noName text)
    | name =>
      match DataType.ofString (String.ofList type) with
      | .error e => .error (.type e)
      | .ok type => .ok { name := String.ofList name, type }

def declaration (field : Field) : String := field.name ++ ":" ++ field.type.render

end Field

end ModelFormula
