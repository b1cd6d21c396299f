import ModelFormula.Text.Blank
import ModelFormula.Formula.Basic

/-! # Reading a formula

The grammar, with gaps of space, tab, carriage return and line feed between any two tokens:

* a formula is an optional term, `~`, and one or more signed items; the first sign may be left out;
* an item is `0`, `1` or a term, where neither digit is followed by a character of a name;
* a term is `.`, or factors joined by `::`, or factors joined by `&&`;
* a factor is a name, or a name and a term in parentheses;
* a name is a plain identifier, or any text without backticks between two of them.

Items are read into edits: `1` stands for the intercept and `0` for its opposite. A response or an
argument that turns out to be the wildcard or a crossing is misplaced, and the text is refused
there without trying anything else.
-/

namespace ModelFormula

inductive ParseFault
  /-- The wildcard or a crossing as a response or an argument. -/
  | misplaced
  /-- The text ends where a term or `~` has to come. -/
  | endOfText
  /-- Text is left over after a whole formula. -/
  | leftover (rest : String)
  /-- Something else stands where a term or `~` has to come. -/
  | noTerm (rest : String)
  deriving DecidableEq, Repr

/-- A fault and its place, in bytes from the start of the text. -/
structure ParseError where
  position : Nat
  fault : ParseFault
  deriving DecidableEq, Repr

namespace ParseFault

def message : ParseFault → String
  | misplaced => "a wildcard or crossing cannot be a response or a function argument"
  | endOfText => "unexpected end of formula"
  | leftover rest => s!"unexpected input '{rest}'"
  | noTerm rest => s!"expected a term near '{rest}'"

end ParseFault

def ParseError.message (e : ParseError) : String :=
  s!"failed to parse formula at offset {e.position}: " ++ e.fault.message

namespace Formula

inductive Outcome (α : Type)
  | ok (value : α) (rest : List Char)
  /-- The part is not here; something else may be. -/
  | miss
  /-- A misplaced term begins at the given text, and nothing else may be tried. -/
  | misplaced (place : List Char)
  deriving DecidableEq, Repr

/-- The blanks between the tokens of a formula. -/
def isGap (c : Char) : Bool := c == ' ' || c == '\t' || c == '\r' || c == '\n'

def skipGap (cs : List Char) : List Char := cs.dropWhile isGap

/-- Passes over a single character that no character of a name follows. -/
def literal? (c : Char) : List Char → Option (List Char)
  | [] => none
  | d :: rest => if d = c ∧ rest.head?.any isNamePart = false then some rest else none

/-- Reads a name between backticks; the opening one has been passed. -/
def quotedRest? (cs : List Char) : Option (String × List Char) :=
  match cs.takeWhile (· != quoteMark), cs.dropWhile (· != quoteMark) with
  | [], _ | _, [] => none
  | name, _ :: rest => some (String.ofList name, rest)

def name? : List Char → Option (String × List Char)
  | [] => none
  | c :: cs =>
    if c = quoteMark then quotedRest? cs
    else if isNameStart c then
      some (String.ofList (c :: cs.takeWhile isNamePart), cs.dropWhile isNamePart)
    else none

def argument (nested : List Char → Outcome Term) (cs : List Char) : Outcome Term :=
  match skipGap cs with
  | '(' :: inside =>
    match nested (skipGap inside) with
    | .ok arg after =>
      match skipGap after with
      | ')' :: rest => .ok arg rest
      | _ => .miss
    | .miss => .miss
    | .misplaced place => .misplaced place
  | _ => .miss

/-- Reads a column or a function. What follows a name and is no argument is left alone. -/
def factor (nested : List Char → Outcome Term) (cs : List Char) : Outcome Term :=
  match name? cs with
  | none => .miss
  | some (name, rest) =>
    match argument nested rest with
    | .ok arg rest => .ok (.function name arg) rest
    | .miss => .ok (.variable name) rest
    | .misplaced place => .misplaced place

/-- Reads as many factors as follow, each after `symbol`; `fuel` bounds their number. -/
def chain (symbol : List Char) (factor : List Char → Outcome Term) :
    Nat → List Char → Outcome (List Term)
  | 0, cs => .ok [] cs
  | fuel + 1, cs =>
    match symbol.isPrefixOf? (skipGap cs) with
    | none => .ok [] cs
    | some after =>
      match factor (skipGap after) with
      | .ok term rest =>
        match chain symbol factor fuel rest with
        | .ok terms rest => .ok (term :: terms) rest
        | .miss => .ok [term] rest
        | .misplaced place => .misplaced place
      | .miss => .ok [] cs
      | .misplaced place => .misplaced place

/-- Reads the factors of an interaction or a crossing, of which the first has been read. -/
def operands (factor : List Char → Outcome Term) (first : Term) (cs : List Char) :
    Outcome Term :=
  match chain [':', ':'] factor cs.length cs with
  | .ok (term :: terms) rest => .ok (.interactionOf (first :: term :: terms)) rest
  | .misplaced place => .misplaced place
  | _ =>
    match chain ['&', '&'] factor cs.length cs with
    | .ok (term :: terms) rest => .ok (.crossingOf (first :: term :: terms)) rest
    | .misplaced place => .misplaced place
    | _ => .ok first cs

def termOf (factor : List Char → Outcome Term) (cs : List Char) : Outcome Term :=
  match literal? '.' cs with
  | some rest => .ok .dot rest
  | none =>
    match factor cs with
    | .ok first rest => operands factor first rest
    | .miss => .miss
    | .misplaced place => .misplaced place

/-- Refuses a placeholder, at the place where it begins. -/
def Outcome.placed (cs : List Char) : Outcome Term → Outcome Term
  | .ok term rest => if term.isPlaceholder then .misplaced cs else .ok term rest
  | .miss => .miss
  | .misplaced place => .misplaced place

/-- Reads a response or an argument; `depth` bounds the nesting of parentheses. -/
def nested : Nat → List Char → Outcome Term
  | 0, _ => .miss
  | depth + 1, cs => (termOf (factor (nested depth)) cs).placed cs

inductive Sign
  | plus | minus
  deriving DecidableEq, Repr

namespace Sign

def edit : Sign → Term → Edit
  | plus, term => .add term
  | minus, term => .remove term

def opposite : Sign → Sign
  | plus => minus
  | minus => plus

end Sign

def sign? : List Char → Option (Sign × List Char)
  | '+' :: rest => some (.plus, rest)
  | '-' :: rest => some (.minus, rest)
  | _ => none

/-- Reads an item, as the edit that it is under a sign. -/
def item (depth : Nat) (sign : Sign) (cs : List Char) : Outcome Edit :=
  match literal? '0' cs, literal? '1' cs with
  | some rest, _ => .ok (sign.opposite.edit .intercept) rest
  | none, some rest => .ok (sign.edit .intercept) rest
  | none, none =>
    match termOf (factor (nested depth)) cs with
    | .ok term rest => .ok (sign.edit term) rest
    | .miss => .miss
    | .misplaced place => .misplaced place

/-- Reads as many signed items as follow; `fuel` bounds their number. -/
def items (depth : Nat) : Nat → List Char → Outcome (List Edit)
  | 0, cs => .ok [] cs
  | fuel + 1, cs =>
    match sign? (skipGap cs) with
    | none => .ok [] cs
    | some (sign, after) =>
      match item depth sign (skipGap after) with
      | .ok edit rest =>
        match items depth fuel rest with
        | .ok edits rest => .ok (edit :: edits) rest
        | .miss => .ok [edit] rest
        | .misplaced place => .misplaced place
      | .miss => .ok [] cs
      | .misplaced place => .misplaced place

/-- The number of bytes of a text in UTF-8. -/
def byteSize : List Char → Nat
  | [] => 0
  | c :: cs => c.utf8Size + byteSize cs

theorem byteSize_append (cs ds : List Char) : byteSize (cs ++ ds) = byteSize cs + byteSize ds := by
  induction cs with
  | nil => simp [byteSize]
  | cons c cs ih => simp [byteSize, ih, Nat.add_assoc]

/-- The error for a text that is refused where `rest` begins. -/
def refusal (cs rest : List Char) (fault : ParseFault) : ParseError :=
  ⟨byteSize cs - byteSize rest, fault⟩

/-- The error for a text in which nothing useful is found where `rest` begins. -/
def stopped (cs rest : List Char) (fault : String → ParseFault) : ParseError :=
  refusal cs rest
    (if rest.all Text.isBlank then .endOfText else fault (String.ofList (Text.trimEnd rest)))

def firstItem (depth : Nat) (cs : List Char) : List Char × Outcome Edit :=
  match sign? cs with
  | some (sign, rest) => (skipGap rest, item depth sign (skipGap rest))
  | none => (cs, item depth .plus cs)

def rightSide (cs rest : List Char) : Except ParseError (List Edit) :=
  match firstItem cs.length (skipGap rest) with
  | (start, .miss) => .error (stopped cs start .noTerm)
  | (_, .misplaced place) => .error (refusal cs place .misplaced)
  | (_, .ok edit rest) =>
    match items cs.length rest.length rest with
    | .misplaced place => .error (refusal cs place .misplaced)
    | .miss => .error (stopped cs rest .leftover)
    | .ok edits rest =>
      match skipGap rest with
      | [] => .ok (edit :: edits)
      | rest => .error (stopped cs rest .leftover)

def tilde (cs rest : List Char) : Except ParseError (List Edit) :=
  match rest with
  | '~' :: rest => rightSide cs rest
  | rest => .error (stopped cs rest .noTerm)

def script (cs : List Char) : Except ParseError (Option Term × List Edit) :=
  match nested cs.length (skipGap cs) with
  | .ok term rest => (tilde cs (skipGap rest)).map (some term, ·)
  | .miss => (tilde cs (skipGap cs)).map (none, ·)
  | .misplaced place => .error (refusal cs place .misplaced)

/-- The formula that a text writes: its edits run from the empty right side. -/
def parse (text : String) : Except ParseError Formula :=
  (script text.toList).map fun (response, edits) => (ofResponse response).run edits

end Formula

end ModelFormula
