import SchemaTypes.Document.Yaml.Cursor
import SchemaTypes.Document.Yaml.Node
import SchemaTypes.Text.Digit

/-!
# Reading YAML

The part of YAML that documents are written in: block mappings and sequences by indentation, flow
collections in brackets and braces, plain and quoted scalars, comments, and one document per text.
A text outside of it has no reading.

Every reader takes the text at a cursor and returns what it read with the cursor after it. The
first argument of a reader that may call itself bounds the number of nested calls; four times the
length of the text is enough, since at most that many calls pass over one character.
-/

namespace SchemaTypes.Yaml

/-- Fail at a text that is no YAML. -/
def invalid {α : Type} : Except ReadFault α := .error notYaml

/-! ## Line ends inside scalars -/

/-- What line ends inside a scalar become. A line feed at the start is dropped if more line ends
follow, and is a space otherwise; the line ends that stay are kept in order. -/
def folded : List CodePoint → List CodePoint
  | [] => []
  | c :: rest => if c ≠ '\n' then c :: rest else if rest.isEmpty then [' '] else rest

/-- Whether a line end is ahead. -/
def breakAhead (cursor : Cursor) : Bool := (cursor.rest.head?.map isBreak).getD false

/-! ## Plain scalars -/

/-- Whether a plain scalar may start with this text. -/
def startsPlain (flow : Bool) : List CodePoint → Bool
  | [] => false
  | c :: rest =>
    !(c = ' ' || c = '\t' || isBreak c || (Text.toList "-?:,[]\x7b\x7d#&*!|>'\"%@\x60").contains c) ||
      (!blankAhead rest && (c = '-' || (!flow && (c = '?' || c = ':'))))

/-- Whether a plain scalar ends before this text. -/
def endsPlain (flow : Bool) : List CodePoint → Bool
  | [] => true
  | c :: rest =>
    c = ' ' || c = '\t' || isBreak c ||
      (c = ':' && (blankAhead rest || (flow && (Text.toList ",[]\x7b\x7d").contains (rest.headD ' ')))) ||
      (flow && (Text.toList ",?[]\x7b\x7d").contains c)

/-- The characters of a plain scalar up to the next blank or its end. -/
def plainRun (flow : Bool) : List CodePoint → List CodePoint
  | [] => []
  | c :: rest => if endsPlain flow (c :: rest) then [] else c :: plainRun flow rest

/-- Pass over the spaces and line ends ahead and collect the line ends. -/
def skipBreaks : Nat → Cursor → List CodePoint × Cursor
  | 0, cursor => ([], cursor)
  | bound + 1, cursor =>
    match cursor.rest with
    | c :: _ =>
      if isBreak c then
        let (breaks, after) := skipBreaks bound cursor.next
        (breakChar c :: breaks, after)
      else if c = ' ' then skipBreaks bound cursor.next
      else ([], cursor)
    | [] => ([], cursor)

/-- Read a plain scalar inside a block of the given indentation. It goes on over line ends as long
as the lines are indented further than the block. `sofar` holds what was read up to `final`, in
order, and `gap` stands between that and what follows at the cursor. -/
def readPlainFrom (flow : Bool) (indent : Int) :
    Nat → Cursor → (gap sofar : List CodePoint) → (final : Cursor) → List CodePoint × Cursor
  | 0, _, _, sofar, final => (sofar, final)
  | bound + 1, cursor, gap, sofar, final =>
    match plainRun flow cursor.rest with
    | [] => (sofar, final)
    | run =>
      let read := sofar ++ gap ++ run
      let after := cursor.skip run.length
      let spaces := after.rest.takeWhile (· = (' ' : CodePoint))
      let (breaks, next) := skipBreaks after.rest.length (after.skip spaces.length)
      let stops := (spaces.isEmpty && breaks.isEmpty) || next.rest.head? = some '#' ||
        (!breaks.isEmpty && next.atEnd) || (!flow && (next.column : Int) ≤ indent)
      let between := if breaks.isEmpty then spaces else folded breaks
      if stops then (read, after) else readPlainFrom flow indent bound next between read after

/-- Read a plain scalar. -/
def readPlain (flow : Bool) (indent : Int) (cursor : Cursor) : Node × Cursor :=
  let (cs, after) := readPlainFrom flow indent cursor.rest.length cursor [] [] cursor
  (.plain (Text.ofList cs), after)

/-! ## Quoted scalars -/

/-- The character that an escape in double quotes stands for. -/
def escapes : List (CodePoint × CodePoint) :=
  [('0', '\x00'), ('a', '\x07'), ('b', '\x08'), ('t', '\t'), ('\t', '\t'), ('n', '\n'),
   ('v', '\x0b'), ('f', '\x0c'), ('r', '\r'), ('e', '\x1b'), (' ', ' '), ('"', '"'), ('\\', '\\'),
   ('/', '/'), ('N', '\u0085'), ('_', '\u00a0'), ('L', '\u2028'), ('P', '\u2029')]

/-- The escapes in double quotes that are followed by the code of a character, and its length. -/
def codeEscapes : List (CodePoint × Nat) := [('x', 2), ('u', 4), ('U', 8)]

/-- The code point of a code, which must be one. -/
def codeChar (n : Nat) : Except ReadFault CodePoint :=
  if Nat.pow 2 31 ≤ n then .error (.malformed .codeTooLarge)
  else if 0x10ffff < n then .error (.malformed .noCodePoint)
  else .ok (.ofNat n)

/-- Read the code of a character, of a given number of hexadecimal digits. -/
def readCode (length : Nat) (cs : List CodePoint) : Except ReadFault CodePoint :=
  if cs.length < length then invalid
  else
    match (cs.take length).foldlM (fun n d => (Json.hexValue? d).map (n * 16 + ·)) 0 with
    | some n => codeChar n
    | none => invalid

/-- Read an escape in double quotes; the text is what follows the backslash. The result is the
character and the length of the escape. -/
def readEscape : List CodePoint → Except ReadFault (CodePoint × Nat)
  | [] => invalid
  | c :: rest =>
    match escapes.find? fun e => e.1 = c, codeEscapes.find? fun e => e.1 = c with
    | some (_, d), _ => .ok (d, 2)
    | none, some (_, length) => do return (← readCode length rest, length + 2)
    | none, none => invalid

/-- Pass over the spaces, tabs and line ends ahead and collect the line ends. No line inside quotes
may separate documents. -/
def skipQuotedBreaks : Nat → Cursor → Except ReadFault (List CodePoint × Cursor)
  | 0, cursor => .ok ([], cursor)
  | bound + 1, cursor =>
    if cursor.atEnd then invalid
    else
      match cursor.rest with
      | c :: _ =>
        if isBreak c then do
          let (breaks, after) ← skipQuotedBreaks bound cursor.next
          return (breakChar c :: breaks, after)
        else if c = ' ' || c = '\t' then skipQuotedBreaks bound cursor.next
        else .ok ([], cursor)
      | [] => invalid

/-- Read the rest of a scalar in the given quotes. `sofar` holds what was read, latest first. -/
def readQuotedFrom (quote : CodePoint) : Nat → Cursor → List CodePoint → Except ReadFault (Text × Cursor)
  | 0, _, _ => invalid
  | bound + 1, cursor, sofar =>
    match cursor.rest with
    | [] => invalid
    | c :: rest =>
      if c = quote then
        if quote = '\'' && rest.head? = some '\'' then
          readQuotedFrom quote bound (cursor.skip 2) ('\'' :: sofar)
        else .ok (Text.ofList sofar.reverse, cursor.skip 1)
      else if quote = '"' && c = '\\' then
        if breakAhead (cursor.skip 1) then do
          let (breaks, next) ← skipQuotedBreaks rest.length (cursor.skip 1)
          readQuotedFrom quote bound next ((breaks.drop 1).reverse ++ sofar)
        else do
          let (d, length) ← readEscape rest
          readQuotedFrom quote bound (cursor.skip length) (d :: sofar)
      else if c = ' ' || c = '\t' || isBreak c then do
        let blanks := cursor.rest.takeWhile fun d : CodePoint => d = ' ' || d = '\t'
        let after := cursor.skip blanks.length
        if breakAhead after then
          let (breaks, next) ← skipQuotedBreaks after.rest.length after
          readQuotedFrom quote bound next ((folded breaks).reverse ++ sofar)
        else readQuotedFrom quote bound after (blanks.reverse ++ sofar)
      else readQuotedFrom quote bound (cursor.skip 1) (c :: sofar)

/-- Read a scalar, quoted or plain. -/
def readScalar (flow : Bool) (indent : Int) (cursor : Cursor) : Except ReadFault (Node × Cursor) :=
  match cursor.rest with
  | [] => invalid
  | c :: _ =>
    if c = '"' || c = '\'' then do
      let (s, after) ← readQuotedFrom c cursor.rest.length (cursor.skip 1) []
      return (.quoted s, after)
    else if startsPlain flow cursor.rest then .ok (readPlain flow indent cursor)
    else invalid

/-! ## Flow collections -/

/-- The greatest distance from the start of a key to the colon after it. -/
def keyLimit : Nat := 1024

/-- Whether a colon is near enough to the start of a key: on the same line, not too far away. -/
def closesKey (start colon : Cursor) : Bool :=
  colon.line = start.line && colon.offset ≤ start.offset + keyLimit

mutual

/-- Read a node inside a flow collection, or a scalar or flow collection inside a block of the
given indentation. -/
def readInline : Nat → Bool → Int → Cursor → Except ReadFault (Node × Cursor)
  | 0, _, _, _ => invalid
  | bound + 1, flow, indent, cursor =>
    match cursor.rest with
    | '[' :: _ => do
      let (items, after) ← readFlowItems bound (cursor.skip 1).nextPart []
      return (.sequence items, after)
    | '\x7b' :: _ => do
      let (members, after) ← readFlowMembers bound (cursor.skip 1).nextPart []
      return (.mapping members, after)
    | _ => readScalar flow indent cursor

/-- Read what follows a key that started at the given cursor: a colon and a value, which may be
left out, or nothing. -/
def readFlowValue : Nat → Cursor → Cursor → Except ReadFault (Option Node × Cursor)
  | 0, _, _ => invalid
  | bound + 1, start, cursor =>
    let next := cursor.nextPart
    if next.atEnd then invalid
    else
      match next.rest with
      | ':' :: _ =>
        if !closesKey start next then invalid
        else
          let value := (next.skip 1).nextPart
          if value.atEnd then invalid
          else if (Text.toList ",]\x7d").contains (value.rest.headD ' ') then .ok (some .empty, value)
          else do
            let (node, after) ← readInline bound true (-1) value
            return (some node, after.nextPart)
      | _ => .ok (none, next)

/-- Read the items of a flow sequence and its end. An item may be a single member. -/
def readFlowItems : Nat → Cursor → List Node → Except ReadFault (List Node × Cursor)
  | 0, _, _ => invalid
  | bound + 1, cursor, sofar =>
    if cursor.atEnd then invalid
    else if cursor.rest.head? = some ']' then .ok (sofar, cursor.skip 1)
    else do
      let (first, afterFirst) ← readInline bound true (-1) cursor
      let (second, next) ← readFlowValue bound cursor afterFirst
      let item := match second with
        | none => first
        | some value => .mapping [(first, value)]
      match next.rest with
      | ',' :: _ => readFlowItems bound (next.skip 1).nextPart (sofar ++ [item])
      | ']' :: _ => return (sofar ++ [item], next.skip 1)
      | _ => invalid

/-- Read the members of a flow mapping and its end. A key may stand without a value. -/
def readFlowMembers : Nat → Cursor → List (Node × Node) →
    Except ReadFault (List (Node × Node) × Cursor)
  | 0, _, _ => invalid
  | bound + 1, cursor, sofar =>
    if cursor.atEnd then invalid
    else if cursor.rest.head? = some '\x7d' then .ok (sofar, cursor.skip 1)
    else do
      let (key, afterKey) ← readInline bound true (-1) cursor
      let (value, next) ← readFlowValue bound cursor afterKey
      let members := sofar ++ [(key, value.getD .empty)]
      match next.rest with
      | ',' :: _ => readFlowMembers bound (next.skip 1).nextPart members
      | '\x7d' :: _ => return (members, next.skip 1)
      | _ => invalid

end

/-! ## Block collections -/

/-- Read a key and the colon after it, if that is what stands here. -/
def readKey? (bound : Nat) (indent : Int) (cursor : Cursor) :
    Except ReadFault (Option (Node × Cursor)) :=
  match readInline bound false indent cursor with
  | .error (.invalid _) => .ok none
  | .error fault => .error fault
  | .ok (key, after) =>
    let colon := after.skipSpaces
    if closesKey cursor colon && colon.rest.head? = some ':' && blankAhead (colon.rest.drop 1) then
      .ok (some (key, colon.skip 1))
    else .ok none

/-- Whether an item of a block sequence starts here. -/
def startsItem (cursor : Cursor) : Bool :=
  cursor.rest.head? = some '-' && blankAhead (cursor.rest.drop 1)

/-- Go on to the next part, which must not be on the same line. -/
def endOfLine (cursor : Cursor) : Except ReadFault Cursor :=
  let next := cursor.nextPart
  if next.rest.isEmpty || next.line ≠ cursor.line then .ok next else invalid

mutual

/-- Read the node that starts here, inside a block of the given indentation. -/
def readBlock : Nat → Int → Cursor → Except ReadFault (Node × Cursor)
  | 0, _, _ => invalid
  | bound + 1, indent, cursor =>
    if startsItem cursor then do
      let (items, after) ← readBlockItems bound cursor.column false cursor []
      return (.sequence items, after)
    else do
      match (← readKey? bound indent cursor) with
      | some _ =>
        let (members, after) ← readBlockMembers bound cursor.column cursor []
        return (.mapping members, after)
      | none =>
        let (node, after) ← readInline bound false indent cursor
        return (node, ← endOfLine after)
termination_by structural bound => bound

/-- Read the items of a block sequence in the given column. A sequence that shares its column with
the mapping around it ends at the next key. -/
def readBlockItems : Nat → Nat → Bool → Cursor → List Node →
    Except ReadFault (List Node × Cursor)
  | 0, _, _, _, _ => invalid
  | bound + 1, column, shared, cursor, sofar => do
    let start := (cursor.skip 1).nextPart
    let (item, next) ←
      if start.atEnd || start.column ≤ column then .ok (Node.empty, start)
      else readBlock bound column start
    let items := sofar ++ [item]
    if next.atEnd || next.column < column then .ok (items, next)
    else if column < next.column then invalid
    else if startsItem next then readBlockItems bound column shared next items
    else if shared then .ok (items, next)
    else invalid
termination_by structural bound => bound

/-- Read the value of a member of a block mapping in the given column, after its key on the given
line. The value may be missing. -/
def readBlockValue : Nat → Nat → Nat → Cursor → Except ReadFault (Node × Cursor)
  | 0, _, _, _ => invalid
  | bound + 1, column, line, cursor =>
    let start := cursor.nextPart
    if start.atEnd then .ok (.empty, start)
    else if start.line = line then do
      let (node, after) ← readInline bound false column start
      return (node, ← endOfLine after)
    else if column < start.column then readBlock bound column start
    else if start.column = column && startsItem start then do
      let (items, after) ← readBlockItems bound column true start []
      return (.sequence items, after)
    else .ok (.empty, start)
termination_by structural bound => bound

/-- Read the members of a block mapping in the given column. -/
def readBlockMembers : Nat → Nat → Cursor → List (Node × Node) →
    Except ReadFault (List (Node × Node) × Cursor)
  | 0, _, _, _ => invalid
  | bound + 1, column, cursor, sofar => do
    match (← readKey? bound column cursor) with
    | none => invalid
    | some (key, afterKey) =>
      let (value, next) ← readBlockValue bound column cursor.line afterKey
      let members := sofar ++ [(key, value)]
      if next.atEnd || next.column < column then return (members, next)
      else if column < next.column then invalid
      else readBlockMembers bound column next members
termination_by structural bound => bound

end

/-! ## Documents -/

/-- Pass over the marks that close a document, at most `bound` of them. -/
def skipEndMarks : Nat → Cursor → Cursor
  | 0, cursor => cursor
  | bound + 1, cursor =>
    if cursor.atMark '.' then skipEndMarks bound (cursor.skip 3).nextPart else cursor

/-- Read the node of a document that was opened by a mark. On the line of the mark there is no
block collection. -/
def readOpened (bound : Nat) (mark : Cursor) : Except ReadFault (Node × Cursor) :=
  let start := (mark.skip 3).nextPart
  if start.atEnd then .ok (.empty, start)
  else if start.line = mark.line then do
    let (node, after) ← readInline bound false (-1) start
    return (node, ← endOfLine after)
  else readBlock bound (-1) start

/-- Read the node of a document. -/
def readDocument (bound : Nat) (cursor : Cursor) : Except ReadFault (Node × Cursor) :=
  let first := cursor.nextPart
  if first.rest.isEmpty then .ok (.empty, first)
  else if first.atMark '-' then readOpened bound first
  else if first.atMark '.' then invalid
  else readBlock bound (-1) first

/-- Drop a mark of the byte order. -/
def dropByteOrderMark : List CodePoint → List CodePoint
  | '\ufeff' :: rest => rest
  | cs => cs

/-- Read a whole text as one node. -/
def readNode (text : List CodePoint) : Except ReadFault Node := do
  if text.all fun c => Text.inRanges allowed c.toNat then
    let (node, after) ← readDocument (4 * text.length + 4) (.start (dropByteOrderMark text))
    if (skipEndMarks text.length after).rest.isEmpty then return node else invalid
  else invalid

/-- Read a whole text as one document. -/
def read (text : List CodePoint) : Except ReadFault Value := do (← readNode text).read

end SchemaTypes.Yaml
