import SchemaTypes.Fault
import SchemaTypes.Pointer
import SchemaTypes.Text.Blank

/-!
# Options for API documents

A filter on response statuses narrows the outputs of operations to certain codes. Schemas that no
operation reaches are declared only on demand. Both options are read from a mapping, where each
has two spellings; the first one that is there counts.
-/

namespace SchemaTypes.Api

/-- Which statuses take part in outputs, all of them without a filter, and whether unreached
schemas are declared. -/
structure Options where
  statuses : Option (List Int)
  unused : Bool

/-- No filter, and only schemas that are reached. -/
def Options.default : Options := ⟨none, false⟩

/-- Read a status code; `none` if the value stands for no integer. -/
def readStatus : Value → Except Malformed (Option Int)
  | .scalar (.int n) => .ok (some n)
  | .scalar (.bool b) => .ok (some (if b then 1 else 0))
  | .scalar (.float (.infinite _)) => .error .infiniteStatus
  | .scalar (.float x) => .ok x.truncate?
  | .scalar (.text s) => .ok (Text.readInteger? s)
  | _ => .ok none

/-- Read status codes in order; `none` at the first value that stands for no integer. -/
def readStatuses : List Value → Except Malformed (Option (List Int))
  | [] => .ok (some [])
  | v :: rest => do
    match (← readStatus v) with
    | none => return none
    | some code => return (← readStatuses rest).map (code :: ·)

/-- Read a filter on statuses. -/
def readFilter (value : Value) : Except Fault (List Int) := do
  let codes ← match value.items with
    | .ok items => Fault.ofMalformed (readStatuses items)
    | .error _ => pure none
  match codes with
  | some statuses => return statuses
  | none =>
    let reason := "status codes must be integers, got " ++ value.inspect
    throw (.schema (.invalidField reason "filterStatuses") none)

/-- The value of the first spelling of an option that is there, or null. -/
def optionValue (members : Members) (first second : Text) : Value :=
  (members.field? first).getD (members.fieldOrNull second)

/-- Read options from a mapping. -/
def Options.ofValue (value : Value) : Except Fault Options := do
  let members ← Fault.ofMalformed value.members
  let filter := optionValue members "filterStatuses" "filter_statuses"
  let unused := optionValue members "generateUnusedSchemas" "generate_unused_schemas"
  let statuses ← if filter.isNull then pure none else some <$> readFilter filter
  return ⟨statuses, unused.isPresent⟩

/-- Whether a response status takes part in outputs. With a filter only numerals do. -/
def Options.includes (options : Options) (status : Text) : Except Malformed Bool :=
  match options.statuses with
  | none => .ok true
  | some codes => do
    match (← numeral? status) with
    | some code => return codes.contains (code : Int)
    | none => return false

end SchemaTypes.Api
