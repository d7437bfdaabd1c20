import SchemaTypes.Text.Join

/-!
# Names

Three ways to make a name from a text. An identifier drops every run of separators before a letter
and raises that letter, as well as a letter at the start. Camel case and slugs split a text into
words of ASCII letters and digits, at every other character and where the case turns, and put the
words together again.
-/

namespace SchemaTypes.Name

/-- Letters of an identifier: the ASCII letters and the four characters that a comparison without
case takes for one of them. -/
def isLetter (c : CodePoint) : Bool :=
  c.isAlpha || c = '\u0130' || c = '\u0131' || c = '\u017f' || c = '\u212a'

/-- Characters between the letters and digits of an identifier. -/
def isSeparator (c : CodePoint) : Bool := !isLetter c && !c.isDigit

/-- The upper-case form of a letter. -/
def raise (c : CodePoint) : CodePoint :=
  if c = '\u0131' then 'I' else if c = '\u017f' then 'S' else c.toUpper

/-- Drop every run of separators that stands before a letter and raise the letter. `run` holds the
separators passed since the last letter or digit, latest first. -/
def dropSeparators (run : List CodePoint) : List CodePoint → List CodePoint
  | [] => run.reverse
  | c :: rest =>
    if isSeparator c then dropSeparators (c :: run) rest
    else if isLetter c then (if run.isEmpty then c else raise c) :: dropSeparators [] rest
    else run.reverse ++ c :: dropSeparators [] rest

/-- The characters of the identifier made from a text. -/
def identifierChars : List CodePoint → List CodePoint
  | [] => []
  | c :: rest =>
    if isLetter c then raise c :: dropSeparators [] rest else dropSeparators [] (c :: rest)

/-- The identifier made from a text. -/
def identifier (s : Text) : Text := Text.ofList (identifierChars s.toList)

/-- Put an underscore between two characters at which `turns` holds. -/
def markTurns (turns : CodePoint → CodePoint → List CodePoint → Bool) : List CodePoint → List CodePoint
  | [] => []
  | [c] => [c]
  | c :: d :: rest =>
    if turns c d rest then c :: '_' :: markTurns turns (d :: rest)
    else c :: markTurns turns (d :: rest)

/-- The case rises from a lower-case letter or a digit to an upper-case letter. -/
def rises (c d : CodePoint) (_ : List CodePoint) : Bool := (c.isLower || c.isDigit) && d.isUpper

/-- The case falls after the second of two upper-case letters, which begins the next word. -/
def falls (c d : CodePoint) (rest : List CodePoint) : Bool :=
  c.isUpper && d.isUpper &&
    match rest with
    | e :: _ => e.isLower
    | [] => false

/-- Cut a list at every character that is no ASCII letter or digit, dropping empty pieces. -/
def pieces : List CodePoint → List (List CodePoint)
  | [] => []
  | c :: rest =>
    if c.isAlphanum then
      match rest with
      | d :: _ => if d.isAlphanum then Text.consPiece c (pieces rest) else [c] :: pieces rest
      | [] => [[c]]
    else pieces rest

/-- The words of a text. -/
def words (s : Text) : List (List CodePoint) := pieces (markTurns falls (markTurns rises s.toList))

/-- A word in lower case. -/
def lowered (word : List CodePoint) : List CodePoint := word.map CodePoint.toLower

/-- A word in lower case but for its first letter. -/
def capitalized : List CodePoint → List CodePoint
  | [] => []
  | c :: rest => c.toUpper :: lowered rest

/-- The words of a text in one, each but the first capitalised. -/
def camelCase (s : Text) : Text :=
  match words s with
  | [] => ""
  | first :: rest => Text.ofList (lowered first ++ (rest.map capitalized).flatten)

/-- The words of a text in lower case with underscores between them, if there are any. -/
def slug? (s : Text) : Option Text :=
  match words s with
  | [] => none
  | ws => some (Text.joinWith "_" (ws.map fun word => Text.ofList (lowered word)))

/-- The words of a text in lower case with underscores between them, or the fallback if there are
none. -/
def slug (s fallback : Text) : Text := (slug? s).getD fallback

end SchemaTypes.Name
