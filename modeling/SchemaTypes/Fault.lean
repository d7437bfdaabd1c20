import SchemaTypes.Document.Excerpt

/-!
# Faults

Work on a document stops with a fault of one of two kinds. A schema fault says what the document
asks for that cannot be given, together with the place where it was met; its message is for the
user. A malformed value, by contrast, has no message: the document does not follow the format.
-/

namespace SchemaTypes

/-- What a document asks for that cannot be given. -/
inductive SchemaFault where
  /-- The document cannot be read. -/
  | unreadable (reason : Text)
  /-- A field of the document or of the options does not hold what it must. -/
  | invalidField (reason : Text) (field : Text)
  /-- A schema has none of the recognised shapes. -/
  | unsupportedSchema (schema : Value) (reason : Text)
  /-- A schema names a type that is not known. -/
  | unsupportedType (tag : Value)
  /-- An enumeration holds a value that is no scalar. -/
  | unsupportedEnum (values : Value)
  /-- A reference addresses nothing. -/
  | unresolved (ref : Text)

namespace SchemaFault

/-- What is wrong, in words. An empty reason or field is left out. -/
def reason : SchemaFault → Text
  | unreadable reason => reason
  | invalidField reason field =>
    if field = "" then reason else "Field '" ++ field ++ "': " ++ reason
  | unsupportedSchema schema reason =>
    "Unsupported schema " ++ schema.excerpt ++
      (if reason = "" then "" else " (" ++ reason ++ ")" : Text)
  | unsupportedType tag => "Unsupported type '" ++ tag.display ++ "'"
  | unsupportedEnum values => "Unsupported enum " ++ values.excerpt
  | unresolved ref => "Reference '" ++ ref ++ "' does not resolve"

/-- The message for a fault met at a place. -/
def message (fault : SchemaFault) : Option Text → Text
  | none => fault.reason
  | some path => if path = "" then fault.reason else "[" ++ path ++ "] " ++ fault.reason

end SchemaFault

/-- Why work on a document stopped. -/
inductive Fault where
  | schema (fault : SchemaFault) (path : Option Text)
  | malformed (cause : Malformed)

/-- Lift a malformed value to a fault. -/
def Fault.ofMalformed {α : Type} : Except Malformed α → Except Fault α
  | .ok a => .ok a
  | .error cause => .error (.malformed cause)

end SchemaTypes
