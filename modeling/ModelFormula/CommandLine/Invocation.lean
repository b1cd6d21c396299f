import ModelFormula.CommandLine.Option
import ModelFormula.CommandLine.Declaration
import ModelFormula.CommandLine.Command

/-! # Invocations

Arguments are a command, its options and the text of a formula. Reading them stops at the first
that is refused.
-/

namespace ModelFormula

inductive UsageError
  | badField (value : String) (error : DeclarationError)
  | badEncoding (value : String) (error : UnknownEncoding)
  | noCommand
  | unknownCommand (name : String)
  | unexpected (argument : String)
  | noValue (option : OptionKind)
  | repeated (option : OptionKind)
  /-- The formula or the fields are missing. -/
  | incomplete
  deriving DecidableEq, Repr

def OptionKind.complaint (option : OptionKind) (value reason : String) : String :=
  s!"invalid value '{value}' for '{option.usage}': " ++ reason

def UsageError.message : UsageError → String
  | badField value error => OptionKind.field.complaint value error.message
  | badEncoding value error => OptionKind.encoding.complaint value error.message
  | noCommand => "a command is required: expand, schema or columns"
  | unknownCommand name => s!"unrecognized subcommand '{name}'"
  | unexpected argument => s!"unexpected argument '{argument}' found"
  | noValue option => s!"a value is required for '{option.usage}' but none was supplied"
  | repeated option => s!"the argument '{option.usage}' cannot be used multiple times"
  | incomplete => "the following required arguments were not provided:"

/-- What has been read from the arguments so far. -/
structure Request where
  fields : List Field := []
  encoding : Option Encoding := none
  output : Option String := none
  formula : Option String := none

namespace Request

def set (r : Request) (kind : OptionKind) (value : String) : Except UsageError Request :=
  match kind with
  | .field =>
    match Field.ofDeclaration value with
    | .error e => .error (.badField value e)
    | .ok field => .ok { r with fields := r.fields ++ [field] }
  | .encoding =>
    if r.encoding.isSome then .error (.repeated kind)
    else match Encoding.ofString value with
      | .error e => .error (.badEncoding value e)
      | .ok encoding => .ok { r with encoding := some encoding }
  | .output =>
    if r.output.isSome then .error (.repeated kind) else .ok { r with output := some value }

/-- Takes in a plain text, which is the formula. -/
def setFormula (r : Request) (text : String) : Except UsageError Request :=
  if r.formula.isSome then .error (.unexpected text) else .ok { r with formula := some text }

/-- Reads the arguments after the command; after `--` there are plain texts only. -/
def read (kinds : List OptionKind) (r : Request) : List String → Except UsageError Request
  | [] => .ok r
  | "--" :: texts => texts.foldlM setFormula r
  | argument :: rest =>
    match Argument.ofString kinds argument, rest with
    | .option kind (some value), rest => do read kinds (← r.set kind value) rest
    | .option kind none, value :: rest => do read kinds (← r.set kind value) rest
    | .option kind none, [] => .error (.noValue kind)
    | .plain text, rest => do read kinds (← r.setFormula text) rest
    | .unknown text, _ => .error (.unexpected text)

end Request

structure Invocation where
  command : Command
  fields : List Field
  formula : String
  output : Option String

namespace Invocation

/-- A request is complete with a formula and at least one field. -/
def ofRequest (command : Command) (r : Request) : Except UsageError Invocation :=
  match r.formula, r.fields with
  | some formula, field :: fields =>
    .ok { command, fields := field :: fields, formula, output := r.output }
  | _, _ => .error .incomplete

/-- Reads all arguments. Only `columns` takes an encoding. -/
def ofArguments : List String → Except UsageError Invocation
  | [] => .error .noCommand
  | "expand" :: arguments => do
    ofRequest .expand (← Request.read [.field, .output] {} arguments)
  | "schema" :: arguments => do
    ofRequest .schema (← Request.read [.field, .output] {} arguments)
  | "columns" :: arguments => do
    let r ← Request.read [.field, .encoding, .output] {} arguments
    ofRequest (.columns (r.encoding.getD default)) r
  | name :: _ => .error (.unknownCommand name)

end Invocation

end ModelFormula
