import SchemaTypes.Namespace.Source
import SchemaTypes.Proofs.TypeExpr.Layout

/-!
# The source text line by line

The source of a namespace comes about from the inside out: the text of every namespace is trimmed and
indented as a whole before it is put into the text around it, so a line is indented once for every
namespace that it stands in. The same text is emitted line by line from the outside in, each line
behind as many blanks as its depth asks for.

The two agree if no namespace inside another is empty, whose block would be indented to a line of
blanks, and if no name that is printed as it is holds a line end, which would be indented too.
-/

namespace SchemaTypes

open Text

/-- Whether neither the name of a declaration nor a name in its type that is printed as it is holds a
line end. -/
def Declaration.namesOnOneLine (d : Declaration) : Bool :=
  isOneLine d.name.display && d.type.namesOnOneLine

/-- The statement of a declaration whose names are on one line is solid. -/
theorem Declaration.solid_print {d : Declaration} (h : d.namesOnOneLine = true) :
    Solid d.print.toList := by
  rw [namesOnOneLine, Bool.and_eq_true] at h
  have hopen : OneLine (Text.ofString (if d.exported then "export" else "declare") ++ " type ").toList := by
    cases d.exported <;> decide
  have hname := hopen.append (oneLine_of_isOneLine h.1)
  have htype : LaidOut (d.type.print 0).toList := TypeExpr.laidOut_print d.type h.2 (Int.le_refl 0)
  have hequals : LaidOut (" = " : Text).toList := OneLine.laidOut (by decide)
  have hend : LaidOut (";" : Text).toList := OneLine.laidOut (by decide)
  refine ⟨?_, ?_, ';', ?_, by decide⟩
  · simp only [print, Text.toList_append] at hname ⊢
    exact ((hname.laidOut.append hequals).append htype).append hend
  · rw [print]
    cases d.exported
    · exact ⟨'d', by simp, by decide⟩
    · exact ⟨'e', by simp, by decide⟩
  · rw [print, Text.toList_append]
    exact List.getLast?_concat

namespace Namespace

mutual

/-- Whether no name inside a namespace that is printed as it is holds a line end. -/
def namesOnOneLine : Namespace → Bool
  | ⟨_, declarations, children⟩ =>
    declarations.all Declaration.namesOnOneLine && allOnOneLine children

/-- Whether no such name in and inside a list of namespaces holds a line end. -/
def allOnOneLine : List Namespace → Bool
  | [] => true
  | node :: rest => isOneLine node.name.display && namesOnOneLine node && allOnOneLine rest

end

mutual

/-- Whether every namespace inside a namespace holds a declaration or another namespace. -/
def filledInside : Namespace → Bool
  | ⟨_, _, children⟩ => allFilled children

/-- Whether a list of namespaces and all namespaces inside them hold something. -/
def allFilled : List Namespace → Bool
  | [] => true
  | node :: rest =>
    (!node.declarations.isEmpty || !node.children.isEmpty) && filledInside node && allFilled rest

end

/-- A line behind four blanks for every namespace around it. -/
def indented (depth : Nat) (line : Text) : Text := repeated (4 * depth) " " ++ line

/-- The line that opens a namespace, without the line feed at its end. -/
def openingLine (outermost : Bool) (name : Text) : Text :=
  (if outermost then "declare" else "export") ++ " namespace " ++ name ++ " \x7b"

/-- What the source of a namespace is made of, with the number of namespaces around it. -/
inductive Item where
  | declaration (depth : Nat) (d : Declaration)
  | opening (depth : Nat) (name : Value)
  | closing (depth : Nat)

namespace Item

/-- The lines of an item. -/
def lines : Item → List Text
  | declaration depth d => (lineTexts d.print).map (indented depth)
  | opening depth name => [indented depth (openingLine (depth = 0) name.display)]
  | closing depth => [indented depth "\x7d"]

/-- The declaration that an item is. -/
def declaration? : Item → Option Declaration
  | declaration _ d => some d
  | _ => none

end Item

mutual

/-- The items of a namespace: its declarations, and then the namespaces inside it. -/
def items (depth : Nat) : Namespace → List Item
  | ⟨_, declarations, children⟩ => declarations.map (Item.declaration depth) ++ itemsAll depth children

/-- The items of a list of namespaces. -/
def itemsAll (depth : Nat) : List Namespace → List Item
  | [] => []
  | node :: rest =>
    .opening depth node.name :: (items (depth + 1) node ++ .closing depth :: itemsAll depth rest)

end

/-- The lines of a namespace, emitted one after the other. -/
def emit (depth : Nat) (node : Namespace) : List Text := (items depth node).flatMap Item.lines

/-- What holds of a namespace as soon as it holds of the namespaces inside it holds of every one. -/
@[elab_as_elim]
theorem induction_children {motive : Namespace → Prop}
    (h : ∀ name declarations children, (∀ child ∈ children, motive child) →
      motive ⟨name, declarations, children⟩) (node : Namespace) : motive node := by
  induction hsize : sizeOf node using Nat.strongRecOn generalizing node with
  | ind size ih =>
    obtain ⟨name, declarations, children⟩ := node
    refine h name declarations children fun child hchild => ih (sizeOf child) ?_ child rfl
    have hlt := List.sizeOf_lt_of_mem hchild
    rw [← hsize, Namespace.mk.sizeOf_spec]
    omega

/-- The names in several namespaces are on one line if those of each of them are. -/
theorem allOnOneLine_eq (children : List Namespace) :
    allOnOneLine children =
      children.all fun child => isOneLine child.name.display && child.namesOnOneLine := by
  induction children with
  | nil => simp [allOnOneLine]
  | cons child rest ih => rw [allOnOneLine, ih, List.all_cons]

/-- Several namespaces are filled if each of them is. -/
theorem allFilled_eq (children : List Namespace) :
    allFilled children = children.all fun child =>
      (!child.declarations.isEmpty || !child.children.isEmpty) && child.filledInside := by
  induction children with
  | nil => simp [allFilled]
  | cons child rest ih => rw [allFilled, ih, List.all_cons]

/-- The items of several namespaces follow one another. -/
theorem itemsAll_eq (depth : Nat) (children : List Namespace) :
    itemsAll depth children = children.flatMap fun child =>
      .opening depth child.name :: (items (depth + 1) child ++ [.closing depth]) := by
  induction children with
  | nil => simp [itemsAll]
  | cons child rest ih =>
    rw [itemsAll, ih, List.flatMap_cons]
    simp

/-- A namespace emits the lines of its declarations, and then for every namespace inside it the line
that opens it, its own lines and the line that closes it. -/
theorem emit_eq (depth : Nat) (name : Value) (declarations : List Declaration)
    (children : List Namespace) :
    emit depth ⟨name, declarations, children⟩ =
      declarations.flatMap (fun d => (Item.declaration depth d).lines) ++
        children.flatMap fun child =>
          (Item.opening depth child.name).lines ++ emit (depth + 1) child ++ (Item.closing depth).lines := by
  rw [emit, items, itemsAll_eq, List.flatMap_append, List.flatMap_map, List.flatMap_assoc]
  simp [emit]

/-- The declarations among the items are those of the namespace, in their order. -/
theorem filterMap_items (depth : Nat) (path : List Value) (node : Namespace) :
    (items depth node).filterMap Item.declaration? = (entriesUnder path node).map (·.2) := by
  induction node using induction_children generalizing depth path with
  | h name declarations children ih =>
    have hchildren : (itemsAll depth children).filterMap Item.declaration? =
        (entriesUnderAll (extendPath path name) children).map (·.2) := by
      induction children with
      | nil => simp [itemsAll, entriesUnderAll]
      | cons child rest ihrest =>
        obtain ⟨hchild, hrest⟩ := List.forall_mem_cons.mp ih
        rw [itemsAll, entriesUnderAll, List.filterMap_cons_none rfl, List.filterMap_append,
          List.filterMap_cons_none rfl, List.map_append, hchild, ihrest hrest]
    have hown : (declarations.map (Item.declaration depth)).filterMap Item.declaration? = declarations := by
      rw [List.filterMap_map]
      exact List.filterMap_some
    rw [items, entriesUnder, List.filterMap_append, hown, hchildren, List.map_append, List.map_map]
    simp [Function.comp_def]

/-- The text of a namespace inside another, with the lines that open and close it. -/
def block (outermost : Bool) (node : Namespace) : Text :=
  opening outermost node.name.display ++ indentBlock (body false node) ++ "\n\x7d"

/-- The texts that follow one another in a namespace. -/
def pieces (outermost : Bool) (node : Namespace) : List Text :=
  node.declarations.map Declaration.print ++ node.children.map (block outermost)

/-- The text of a namespace is that of its pieces, with a line feed behind each of them. -/
theorem toList_body (outermost : Bool) (node : Namespace) :
    (body outermost node).toList =
      (pieces outermost node).flatMap fun piece => piece.toList ++ [('\n' : CodePoint)] := by
  obtain ⟨name, declarations, children⟩ := node
  have hblocks : (blocks outermost children).toList =
      (children.map (block outermost)).flatMap fun piece => piece.toList ++ [('\n' : CodePoint)] := by
    induction children with
    | nil => simp [blocks]
    | cons child rest ih =>
      rw [blocks, Text.toList_append, ih, List.map_cons, List.flatMap_cons, block]
      simp
  rw [body, Text.toList_append, hblocks, toList_joinWith_empty, pieces, List.flatMap_append]
  simp [List.flatMap_map]

/-- The text of a namespace is trimmed to its pieces with line feeds between them. -/
theorem trim_body {outermost : Bool} {node : Namespace}
    (h : ∀ piece ∈ pieces outermost node, Solid piece.toList) :
    trim (body outermost node).toList = (joinWith "\n" (pieces outermost node)).toList := by
  rw [toList_body]
  by_cases hne : pieces outermost node = []
  · rw [hne]
    rfl
  · rw [flatMap_newline hne, (Solid.join hne h).trim_newline]

/-- Lines none of which is empty are all indented. -/
theorem indentLines_eq {ls : List (List CodePoint)} (h : ∀ line ∈ ls, line ≠ []) :
    indentLines ls = ls.map fun line => "    " ++ Text.ofList line := by
  have hrest {rest : List (List CodePoint)} (h : ∀ line ∈ rest, line ≠ []) :
      indentRest rest = rest.map fun line => "    " ++ Text.ofList line := by
    induction rest with
    | nil => rfl
    | cons line rest ih =>
      obtain ⟨hline, hothers⟩ := List.forall_mem_cons.mp h
      rw [indentRest, if_neg (by simpa using hline), ih hothers, List.map_cons]
  cases ls with
  | nil => rfl
  | cons line rest => rw [indentLines, hrest (List.forall_mem_cons.mp h).2, List.map_cons]

/-- A text that is not empty is indented line by line. -/
theorem indentBlock_body {outermost : Bool} {node : Namespace} (hne : pieces outermost node ≠ [])
    (h : ∀ piece ∈ pieces outermost node, Solid piece.toList) :
    indentBlock (body outermost node) =
      joinWith "\n" (((pieces outermost node).flatMap lineTexts).map (("    " : Text) ++ ·)) := by
  have hsolid := Solid.join hne h
  have hparts : ∀ piece ∈ pieces outermost node, LaidOut piece.toList ∧ StartsLine piece.toList :=
    fun piece hpiece => ⟨(h piece hpiece).laidOut, (h piece hpiece).startsLine⟩
  have hlines : lines (trim (body outermost node).toList ++ [('\n' : CodePoint)]) =
      (pieces outermost node).flatMap fun piece => lines piece.toList := by
    rw [trim_body h, hsolid.laidOut.lines_append_newline hsolid.startsLine.ne_nil, lines_joinWith hparts]
    exact List.append_nil _
  have hfull : ∀ line ∈ (pieces outermost node).flatMap fun piece => lines piece.toList, line ≠ [] := by
    intro line hline
    obtain ⟨piece, hpiece, hmem⟩ := List.mem_flatMap.mp hline
    exact (h piece hpiece).laidOut.lines_ne_nil.2 (h piece hpiece).startsLine line hmem
  rw [indentBlock, hlines, indentLines_eq hfull]
  simp only [List.map_flatMap, lineTexts, List.map_map]
  rfl

/-- The lines of a block, each indented by one step but the first and the last. -/
def blockLines (outermost : Bool) (node : Namespace) : List Text :=
  openingLine outermost node.name.display ::
    (((pieces false node).flatMap lineTexts).map (("    " : Text) ++ ·) ++ [("\x7d" : Text)])

section Block

variable {outermost : Bool} {node : Namespace} (hname : isOneLine node.name.display = true)
  (hne : pieces false node ≠ []) (h : ∀ piece ∈ pieces false node, Solid piece.toList)

include hname in
/-- The line that opens a namespace is one line if its name is. -/
theorem oneLine_openingLine : OneLine (openingLine outermost node.name.display).toList := by
  have hopen : OneLine (Text.ofString (if outermost then "declare" else "export") ++ " namespace ").toList := by
    cases outermost <;> decide
  rw [openingLine, Text.toList_append, Text.toList_append]
  exact (hopen.append (oneLine_of_isOneLine hname)).append (by decide)

include hname in
/-- No line of a block holds a line end, and none is empty. -/
theorem mem_blockLines {line : Text} (hline : line ∈ blockLines outermost node) :
    OneLine line.toList ∧ line.toList ≠ [] := by
  simp only [blockLines, List.mem_cons, List.mem_append, List.mem_map, List.mem_flatMap,
    List.not_mem_nil, or_false] at hline
  obtain rfl | ⟨inner, ⟨piece, -, hinner⟩, rfl⟩ | rfl := hline
  · exact ⟨oneLine_openingLine hname, by simp [openingLine]⟩
  · obtain ⟨cs, hcs, rfl⟩ := List.mem_map.mp hinner
    have hone : OneLine (Text.ofList cs).toList := by
      rw [Text.toList_ofList]
      exact oneLine_of_mem_lines hcs
    rw [Text.toList_append]
    exact ⟨OneLine.append (by decide) hone, by simp⟩
  · exact ⟨by decide, by decide⟩

include hname in
/-- Every line of a block is laid out and starts a line. -/
theorem laidOut_of_mem_blockLines :
    ∀ line ∈ blockLines outermost node, LaidOut line.toList ∧ StartsLine line.toList := by
  intro line hline
  obtain ⟨hone, hfull⟩ := mem_blockLines hname hline
  exact ⟨hone.laidOut, hone.startsLine hfull⟩

include hne h in
/-- A block is made of its lines. -/
theorem block_eq : block outermost node = joinWith "\n" (blockLines outermost node) := by
  have hlines : ((pieces false node).flatMap lineTexts).map (("    " : Text) ++ ·) ≠ [] := by
    obtain ⟨piece, hpiece⟩ := List.exists_mem_of_ne_nil _ hne
    have hfirst := lines_ne_nil (h piece hpiece).startsLine.ne_nil
    intro hnil
    have hnone := List.flatMap_eq_nil_iff.mp (List.map_eq_nil_iff.mp hnil) piece hpiece
    exact hfirst (List.map_eq_nil_iff.mp hnone)
  rw [block, indentBlock_body hne h, blockLines, joinWith_cons (by simp), joinWith_concat hlines]
  simp only [opening, openingLine, Text.append_assoc]
  rfl

include hname hne h

/-- The lines of a block are those it is made of. -/
theorem lineTexts_block : lineTexts (block outermost node) = blockLines outermost node := by
  have hlines : ∀ line ∈ blockLines outermost node, lineTexts line = [line] := by
    intro line hline
    obtain ⟨hone, hfull⟩ := mem_blockLines hname hline
    rw [lineTexts, hone.lines_eq hfull, List.map_singleton, Text.ofList_toList]
  rw [block_eq hne h, lineTexts, lines_joinWith (laidOut_of_mem_blockLines hname), List.map_flatMap]
  calc (blockLines outermost node).flatMap lineTexts
    _ = (blockLines outermost node).flatMap fun line => [line] := by
      rw [List.flatMap_def, List.map_congr_left hlines, ← List.flatMap_def]
    _ = blockLines outermost node := List.flatMap_singleton' _

/-- A block is solid. -/
theorem solid_block : Solid (block outermost node).toList := by
  refine ⟨?_, ?_, '\x7d', ?_, by decide⟩
  · rw [block_eq hne h]
    exact (laidOut_joinWith (laidOut_of_mem_blockLines hname)).1
  · rw [block, opening]
    cases outermost
    · exact ⟨'e', by simp, by decide⟩
    · exact ⟨'d', by simp, by decide⟩
  · simp [block]

end Block

/-- A line that is indented by one step stands one namespace deeper. -/
theorem indented_append (depth : Nat) (line : Text) :
    indented depth ("    " ++ line) = indented (depth + 1) line := by
  rw [indented, indented, Nat.mul_succ, repeated_add, Text.append_assoc]
  rfl

/-- A block emits the line that opens it, the lines of the namespace and the line that closes it, if
the lines of the pieces are those of the namespace one step further in. -/
theorem emit_block {depth : Nat} {node : Namespace} (hname : isOneLine node.name.display = true)
    (hne : pieces false node ≠ []) (hsolid : ∀ piece ∈ pieces false node, Solid piece.toList)
    (hemit : ((pieces false node).flatMap lineTexts).map (indented (depth + 1)) = emit (depth + 1) node) :
    (lineTexts (block (depth = 0) node)).map (indented depth) =
      (Item.opening depth node.name).lines ++ emit (depth + 1) node ++ (Item.closing depth).lines := by
  have hinner : (((pieces false node).flatMap lineTexts).map (("    " : Text) ++ ·)).map (indented depth) =
      emit (depth + 1) node := by
    rw [← hemit, List.map_map]
    exact List.map_congr_left fun line _ => indented_append depth line
  rw [lineTexts_block hname hne hsolid, blockLines, List.map_cons, List.map_append, hinner]
  rfl

/-- The pieces of a namespace are solid, and indented by its depth they have the lines that are
emitted for it. -/
theorem emit_pieces (node : Namespace) (hnames : node.namesOnOneLine = true)
    (hfilled : node.filledInside = true) (depth : Nat) :
    (∀ piece ∈ pieces (depth = 0) node, Solid piece.toList) ∧
      ((pieces (depth = 0) node).flatMap lineTexts).map (indented depth) = emit depth node := by
  induction node using induction_children generalizing depth with
  | h name declarations children ih =>
    simp only [namesOnOneLine, allOnOneLine_eq, Bool.and_eq_true, List.all_eq_true] at hnames
    simp only [filledInside, allFilled_eq, Bool.and_eq_true, List.all_eq_true] at hfilled
    -- Inside a namespace all namespaces are exported, at whatever depth it stands.
    have hinside : decide (depth + 1 = 0) = false := by simp
    have hchild : ∀ child ∈ children, Solid (block (depth = 0) child).toList ∧
        (lineTexts (block (depth = 0) child)).map (indented depth) =
          (Item.opening depth child.name).lines ++ emit (depth + 1) child ++ (Item.closing depth).lines := by
      intro child hmem
      obtain ⟨hname, hinner⟩ := hnames.2 child hmem
      obtain ⟨hfull, hdeep⟩ := hfilled child hmem
      obtain ⟨hsolid, hemit⟩ := ih child hmem hinner hdeep (depth + 1)
      rw [hinside] at hsolid hemit
      have hne : pieces false child ≠ [] := by
        intro hnil
        obtain ⟨hnone, hempty⟩ := List.append_eq_nil_iff.mp hnil
        rw [List.map_eq_nil_iff.mp hnone, List.map_eq_nil_iff.mp hempty] at hfull
        exact Bool.false_ne_true hfull
      exact ⟨solid_block hname hne hsolid, emit_block hname hne hsolid hemit⟩
    constructor
    · rw [pieces, List.forall_mem_append, List.forall_mem_map, List.forall_mem_map]
      exact ⟨fun d hd => Declaration.solid_print (hnames.1 d hd), fun child hmem => (hchild child hmem).1⟩
    · have hblocks := List.map_congr_left fun child hmem => (hchild child hmem).2
      simp only [emit_eq, pieces, List.flatMap_append, List.map_append, List.flatMap_map, List.map_flatMap]
      rw [List.flatMap_def (l := children), hblocks, ← List.flatMap_def]
      simp only [Item.lines]

/-- Without namespaces around it a line is not indented. -/
theorem map_indented_zero (ls : List Text) : ls.map (indented 0) = ls := by
  have hid : indented 0 = id := funext fun line => Text.empty_append
  rw [hid, List.map_id]

/-- The source of a namespace is emitted line by line: the header and an empty line unless the header
is empty, every line of a declaration behind four blanks for each namespace around it, and for every
namespace inside another the line that opens it, its own lines and the line that closes it. The
declarations come in the order of the namespace, each of them once. -/
theorem source_eq_emit (header : Text) (tree : Namespace) (hfilled : tree.filledInside = true)
    (hnames : tree.namesOnOneLine = true) :
    tree.source? header =
        tree.obstacle?.elim
          (.ok ((if header = "" then "" else header ++ "\n\n" : Text) ++ joinWith "\n" (tree.emit 0) ++ "\n"))
          .error ∧
      (tree.items 0).filterMap Item.declaration? = tree.entries.map (·.2) := by
  refine ⟨?_, filterMap_items 0 [] tree⟩
  obtain ⟨hsolid, hemit⟩ := emit_pieces tree hnames hfilled 0
  have htop : decide (0 = 0) = true := rfl
  rw [htop] at hsolid hemit
  rw [map_indented_zero] at hemit
  have hparts : ∀ piece ∈ pieces true tree, LaidOut piece.toList ∧ StartsLine piece.toList :=
    fun piece hpiece => ⟨(hsolid piece hpiece).laidOut, (hsolid piece hpiece).startsLine⟩
  have hbody : Text.ofList (trim (body true tree).toList) = joinWith "\n" (tree.emit 0) :=
    calc Text.ofList (trim (body true tree).toList)
      _ = Text.ofList (joinWith "\n" (pieces true tree)).toList := by rw [trim_body hsolid]
      _ = joinWith "\n" ((lines (joinWith "\n" (pieces true tree)).toList).map Text.ofList) :=
        (laidOut_joinWith hparts).1.joinWith_lines.symm
      _ = joinWith "\n" ((pieces true tree).flatMap lineTexts) := by
        rw [lines_joinWith hparts, List.map_flatMap]
        rfl
      _ = joinWith "\n" (tree.emit 0) := by rw [hemit]
  rw [source?, source, hbody]
  cases tree.obstacle? <;> rfl

/-- A declaration at the top level, one in a namespace and two in a namespace inside it. -/
def shapes : Namespace :=
  ⟨.text "", [⟨.text "Id", .string, false⟩],
    [⟨.text "shapes", [⟨.text "Any", .reference [.text "shapes", .text "round", .text "Circle"], true⟩],
      [⟨.text "round", [
        ⟨.text "Circle", .object [
          ⟨.text "radius", .number, true, false⟩,
          ⟨.text "at", .object [⟨.text "x-y", .number, false, true⟩] none, true, false⟩] none, true⟩,
        ⟨.text "Arc", .any, true⟩], []⟩]⟩]⟩

/-- The members of an object type that is two namespaces deep are indented by three steps, and those
of a type inside it by four. -/
theorem source_eq_emit_shapes :
    shapes.filledInside = true ∧ shapes.namesOnOneLine = true ∧
      shapes.source? "// shapes" = .ok (joinWith "\n" [
        "// shapes",
        "",
        "declare type Id = string;",
        "declare namespace shapes \x7b",
        "    export type Any = shapes.round.Circle;",
        "    export namespace round \x7b",
        "        export type Circle = \x7b",
        "            radius: number;",
        "            at: \x7b",
        "                readonly \"x-y\"?: number;",
        "            \x7d;",
        "        \x7d;",
        "        export type Arc = any;",
        "    \x7d",
        "\x7d",
        ""]) ∧
      ((shapes.items 0).filterMap Item.declaration?).map (·.name) =
        [.text "Id", .text "Any", .text "Circle", .text "Arc"] := by
  have hfilled : shapes.filledInside = true := by decide +kernel
  have hnames : shapes.namesOnOneLine = true := by decide +kernel
  have hprintable : shapes.obstacle? = none := Option.isNone_iff_eq_none.mp (by decide +kernel)
  obtain ⟨hsource, hdeclarations⟩ := source_eq_emit "// shapes" shapes hfilled hnames
  refine ⟨hfilled, hnames, ?_, ?_⟩
  · rw [hsource, hprintable]
    exact congrArg Except.ok (by decide +kernel)
  · rw [hdeclarations]
    rfl

end Namespace

end SchemaTypes
