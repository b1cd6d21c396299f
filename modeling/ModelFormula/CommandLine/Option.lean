/-! # Options

The options of the command line, and how one argument is told to be an option, an option with
its value, or a plain text.
-/

namespace ModelFormula

inductive OptionKind
  | field | encoding | output
  deriving DecidableEq, Repr

namespace OptionKind

def long : OptionKind → String
  | field => "--field"
  | encoding => "--encoding"
  | output => "--output"

def short : OptionKind → Char
  | field => 'f'
  | encoding => 'e'
  | output => 'o'

def usage : OptionKind → String
  | field => "--field <FIELDS>"
  | encoding => "--encoding <ENCODING>"
  | output => "--output <OUTPUT>"

/-- The long option among `kinds` that a text writes, with the value after an equals sign. -/
def ofLong? (kinds : List OptionKind) (text : List Char) :
    Option (OptionKind × Option String) :=
  kinds.findSome? fun kind =>
    match kind.long.toList.isPrefixOf? text with
    | some [] => some (kind, none)
    | some ('=' :: value) => some (kind, some (String.ofList value))
    | _ => none

/-- The value that is written together with a short option; an equals sign may come first. -/
def attached? : List Char → Option String
  | [] => none
  | '=' :: value => some (String.ofList value)
  | value => some (String.ofList value)

end OptionKind

inductive Argument
  | option (kind : OptionKind) (value : Option String)
  | plain (text : String)
  /-- An option that there is not. -/
  | unknown (text : String)
  deriving DecidableEq, Repr

namespace Argument

/-- Reads an argument where the options in `kinds` are allowed. A single dash is a plain text. -/
def ofString (kinds : List OptionKind) (text : String) : Argument :=
  match text.toList with
  | '-' :: '-' :: rest =>
    match OptionKind.ofLong? kinds ('-' :: '-' :: rest) with
    | some (kind, value) => option kind value
    | none => unknown (String.ofList ('-' :: '-' :: rest.takeWhile (· != '=')))
  | '-' :: c :: rest =>
    match kinds.find? fun kind => kind.short == c with
    | some kind => option kind (OptionKind.attached? rest)
    | none => unknown (String.ofList ['-', c])
  | _ => plain text

end Argument

end ModelFormula
