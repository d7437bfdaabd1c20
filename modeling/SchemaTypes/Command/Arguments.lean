import SchemaTypes.Text.Blank

/-!
# Command line arguments

One operand, the document, and options in any order. An option may be written with its value after
an equals sign, and abbreviated as long as it stays clear which option is meant. Two dashes end the
options; as a value after an equals sign they count as no value at all. Negative numbers and words
with a space are operands even if they start with a dash, but the letter h after one dash is set
aside for help.
-/

namespace SchemaTypes.Command

/-- The options of the command. -/
inductive Opt where
  | name
  | api
  | schema
  | status
  | unused
  | output
deriving DecidableEq

namespace Opt

/-- How an option is written. -/
def spelling : Opt → Text
  | name => "--name"
  | api => "--openapi"
  | schema => "--jsonschema"
  | status => "--filter-status"
  | unused => "--generate-unused-schemas"
  | output => "--output"

/-- All options. -/
def all : List Opt := [name, api, schema, status, unused, output]

/-- Whether an option takes a value. -/
def takesValue : Opt → Bool
  | name => true
  | status => true
  | output => true
  | _ => false

end Opt

/-- What a word of the command line is. -/
inductive Word where
  | operand (s : Text)
  | option (o : Opt) (value : Option Text)
  | unknown

/-- Whether a character is a decimal digit. -/
def isDecimal (c : CodePoint) : Bool := (Text.decimalValue? c).isSome

/-- Whether a text is a non-empty row of decimal digits. -/
def isWhole (cs : List CodePoint) : Bool := !cs.isEmpty && cs.all isDecimal

/-- Drop one line feed at the end of a text. -/
def dropLineFeed (cs : List CodePoint) : List CodePoint :=
  if cs.getLast? = some '\n' then cs.dropLast else cs

/-- Whether a text is a negative number, with or without a fraction, and at most one line feed
after it. -/
def isNegativeNumber : List CodePoint → Bool
  | '-' :: rest =>
    let magnitude := dropLineFeed rest
    match magnitude.dropWhile isDecimal with
    | '.' :: digits => isWhole digits
    | _ => isWhole magnitude
  | _ => false

/-- The text before the first equals sign, and the text after it if there is one. -/
def splitValue (cs : List CodePoint) : List CodePoint × Option Text :=
  let before := cs.takeWhile (· ≠ ('=' : CodePoint))
  match cs.drop before.length with
  | [] => (before, none)
  | _ :: value => (before, some (Text.ofList value))

/-- The option that a word starting with two dashes means, by its whole spelling or by its
beginning. -/
def optionOf? (cs : List CodePoint) : Option Word :=
  let (given, value) := splitValue cs
  match Opt.all.find? fun o => o.spelling.toList = given with
  | some o => some (.option o value)
  | none =>
    match Opt.all.filter fun o => given.isPrefixOf o.spelling.toList with
    | [] => none
    | [o] => some (.option o value)
    | _ => some .unknown

/-- Tell what a word before the end of the options is. -/
def wordOf (s : Text) : Word :=
  match s.toList with
  | '-' :: c :: rest =>
    match (if c = '-' then optionOf? ('-' :: c :: rest) else none) with
    | some word => word
    | none =>
      if c = 'h' then .unknown
      else if isNegativeNumber ('-' :: c :: rest) || rest.contains ' ' || c = ' ' then .operand s
      else .unknown
  | _ => .operand s

/-- Where the generated source goes. -/
inductive Destination where
  /-- It is printed. -/
  | console
  /-- It is written to a file. -/
  | file (path : Text)
  /-- It was to be written to a file that was left out. -/
  | missing

/-- What the command is asked to do. A status code may have been left out. -/
structure Invocation where
  document : Option Text
  name : Option Text
  isApi : Option Bool
  statuses : List (Option Int)
  unused : Bool
  output : Destination

namespace Invocation

/-- Nothing asked for yet. -/
def empty : Invocation := ⟨none, none, none, [], false, .console⟩

/-- Take a value of an option. -/
def withValue (inv : Invocation) (o : Opt) (value : Text) : Option Invocation :=
  match o with
  | .name => some { inv with name := some value }
  | .output => some { inv with output := .file value }
  | .status => do
    let code ← Text.readInteger? value
    some { inv with statuses := inv.statuses ++ [some code] }
  | _ => none

/-- Take an option whose value was left out: a name is given up, the others count as missing. -/
def withoutValue (inv : Invocation) (o : Opt) : Option Invocation :=
  match o with
  | .name => some { inv with name := none }
  | .output => some { inv with output := .missing }
  | .status => some { inv with statuses := inv.statuses ++ [none] }
  | _ => none

/-- Take an option with the text after its equals sign. -/
def withAttached (inv : Invocation) (o : Opt) (value : Text) : Option Invocation :=
  if value = "--" then inv.withoutValue o else inv.withValue o value

/-- Fix the kind of document, which may be given once only. -/
def withKind (inv : Invocation) (isApi : Bool) : Option Invocation :=
  if inv.isApi = some (!isApi) then none else some { inv with isApi := some isApi }

/-- Take an option without a value. -/
def withFlag (inv : Invocation) (o : Opt) : Option Invocation :=
  match o with
  | .api => inv.withKind true
  | .schema => inv.withKind false
  | .unused => some { inv with unused := true }
  | _ => none

/-- Take the operand. -/
def withDocument (inv : Invocation) (document : Text) : Option Invocation :=
  match inv.document with
  | none => some { inv with document := some document }
  | some _ => none

/-- Take the words after the end of the options. If the operand is given before, nothing may
follow, and the end of the options stands right after it. -/
def withOperands (inv : Invocation) (afterDocument : Bool) (operands : List Text) :
    Option Invocation :=
  match operands with
  | [] => if afterDocument then some inv else none
  | [document] => inv.withDocument document
  | _ => none

/-- Take the words of a command line in order. -/
def take (inv : Invocation) (afterDocument : Bool) : List Text → Option Invocation
  | [] => some inv
  | s :: rest =>
    if s = "--" then inv.withOperands afterDocument rest
    else
      match wordOf s with
      | .unknown => none
      | .operand s => do (← inv.withDocument s).take true rest
      | .option o (some value) => do
        if o.takesValue then (← inv.withAttached o value).take false rest else none
      | .option o none =>
        if o.takesValue then
          match rest with
          | value :: rest =>
            if value = "--" then none
            else
              match wordOf value with
              | .operand value => do (← inv.withValue o value).take false rest
              | _ => none
          | [] => none
        else do (← inv.withFlag o).take false rest

/-- Read a command line. -/
def ofArguments (arguments : List Text) : Option Invocation := do
  let inv ← empty.take false arguments
  if inv.document.isSome then some inv else none

end Invocation

end SchemaTypes.Command
