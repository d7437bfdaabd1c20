import SchemaTypes.Text.Basic

/-!
# Malformed documents

A document may hold a value of one kind where only another kind makes sense, and so may a file or a
command line. Such a use has no answer of its own: it stops the work with one of the causes below,
each naming what was asked for.
-/

namespace SchemaTypes

/-- Why something cannot be used the way it is used. -/
inductive Malformed where
  /-- Members were asked of a value that is no object. -/
  | notObject
  /-- Membership was asked of a value that holds nothing. -/
  | notContainer
  /-- Items were asked of a value that has none. -/
  | notIterable
  /-- A list or an object was used as a key. -/
  | compoundKey
  /-- A name was to be made from a value that is no text. -/
  | nameNotText
  /-- A path segment that is no text was used on a list or in a reference. -/
  | segmentNotText
  /-- A property name or a part of a reference that is no text was to be printed. -/
  | unprintableName
  /-- An integer with too many digits was to be printed. -/
  | overlongInteger
  /-- An object was to be made from items that are no pairs. -/
  | notPairs
  /-- A numeral holds a digit that belongs to no decimal system. -/
  | unplacedDigit
  /-- An infinite number was used as a status code. -/
  | infiniteStatus
  /-- A declaration was looked up by no name at all. -/
  | emptyLookup
  /-- A shared parameter is referred to by a path without segments. -/
  | noSegments
  /-- A reference is pending that was never discovered. -/
  | undiscovered
  /-- A file does not hold UTF-8. -/
  | invalidEncoding
  /-- A number is written with the mark of its base and no digits. -/
  | noDigits
  /-- An escape stands for a number that is no code point. -/
  | noCodePoint
  /-- An escape stands for a number beyond 31 bits. -/
  | codeTooLarge
  /-- A path or a source text holds a surrogate that cannot be encoded. -/
  | unencodable
  /-- A path holds a null character. -/
  | nullInPath
  /-- A status option was given nothing. -/
  | missingStatus
  /-- An output option was given nothing. -/
  | missingOutput
deriving DecidableEq

/-- What was asked for, in words. -/
def Malformed.words : Malformed → String
  | notObject => "members of a value that is no object"
  | notContainer => "membership in a value that holds nothing"
  | notIterable => "items of a value that has none"
  | compoundKey => "a list or an object as a key"
  | nameNotText => "a name from a value that is no text"
  | segmentNotText => "a path segment that is no text"
  | unprintableName => "a printed name that is no text"
  | overlongInteger => "a printed integer with too many digits"
  | notPairs => "an object from items that are no pairs"
  | unplacedDigit => "a number from a digit without a decimal value"
  | infiniteStatus => "an infinite status code"
  | emptyLookup => "a declaration without a name"
  | noSegments => "a shared parameter at a path without segments"
  | undiscovered => "a reference that was never discovered"
  | invalidEncoding => "text from bytes that are no UTF-8"
  | noDigits => "a number without digits"
  | noCodePoint => "a character from a number that is no code point"
  | codeTooLarge => "a character from a number beyond 31 bits"
  | unencodable => "bytes from a text with a surrogate"
  | nullInPath => "a path with a null character"
  | missingStatus => "a status code that is left out"
  | missingOutput => "an output path that is left out"

/-- Why a YAML text cannot be read: it is no YAML, for a reason in words, or it is and asks for a
number or a character that there is none of. -/
inductive Yaml.ReadFault where
  | invalid (reason : Text)
  | malformed (cause : Malformed)

end SchemaTypes
