import SchemaTypes.Proofs.BreadthFirst
import SchemaTypes.Proofs.Namespace.Lookup

/-!
# Namespaces group entries

Entries arrive one after the other, and each goes into the namespaces that its path names, which are made
when they are first needed. The namespaces that result are the ones that sorting all entries at once would
give: a namespace has the entries whose path ends there as its own declarations, and one namespace inside
for every name that the other paths go on with, in the order in which these names first occur. Everything
else about them follows: that no entry is lost or listed twice, that entries of one namespace stay in order,
and that no namespace is made in vain.

Listing goes by names, and a namespace without a name adds nothing to the path of its declarations. Hence
the names are assumed not to be empty wherever paths are listed. A look-up needs no such assumption.
-/

namespace SchemaTypes

namespace Namespace

open BreadthFirst

/-- A declaration together with the names of the namespaces around it. -/
abbrev Placed := List Text × Declaration

/-- Where a declaration with a path goes: into the namespaces named by all segments but the last. -/
def placedBy (naming : Naming) (result : List Text × Declaration) : Placed :=
  (result.1.dropLast.map naming.ofText, result.2)

/-- The declarations that go into the namespace at a path, in order. -/
def declarationsAt (names : List Text) (items : List Placed) : List Declaration :=
  (items.filter fun item => item.1 = names).map (·.2)

/-- What goes into the namespace at a path or further in, with the names that are left. -/
def within (names : List Text) (items : List Placed) : List Placed :=
  items.filterMap fun item => (item.1.dropPrefix? names).map (·, item.2)

/-- The names of the outermost namespaces that declarations go into, in the order of their first use. -/
def outermost (items : List Placed) : List Text := (items.filterMap (·.1.head?)).eraseDups

/-- Put declarations into namespaces, one after the other. -/
def fill (node : Namespace) (items : List Placed) : Namespace :=
  items.foldl (fun inner item => insertAt item.2 (item.1.map .text) inner) node

/-- Declarations with paths are put where their paths say. -/
theorem place_eq_fill (naming : Naming) (node : Namespace) (results : List (List Text × Declaration)) :
    place naming node results = fill node (results.map (placedBy naming)) := by
  rw [fill, List.foldl_map]
  rfl

/-- Filling a namespace keeps its name. -/
theorem fill_name (node : Namespace) (items : List Placed) : (fill node items).name = node.name := by
  induction items generalizing node with
  | nil => rfl
  | cons item rest ih => rw [fill, List.foldl_cons, ← fill, ih, insertAt_name]

/-- What arrives last is put there last. -/
theorem fill_concat (node : Namespace) (items : List Placed) (names : List Text) (d : Declaration) :
    fill node (items ++ [(names, d)]) = insertAt d (names.map .text) (fill node items) := by
  rw [fill, List.foldl_concat, ← fill]

/-- What arrives last in a namespace is listed last there. -/
theorem declarationsAt_concat (names path : List Text) (d : Declaration) (items : List Placed) :
    declarationsAt names (items ++ [(path, d)]) =
      declarationsAt names items ++ if path = names then [d] else [] := by
  by_cases h : path = names <;> simp [declarationsAt, h]

/-- What stays at the top is within no namespace. -/
theorem within_concat_nil (name : Text) (d : Declaration) (items : List Placed) :
    within [name] (items ++ [([], d)]) = within [name] items := by
  simp [within, List.dropPrefix?]

/-- What arrives last goes last into the namespace that it names first. -/
theorem within_concat_cons (name first : Text) (rest : List Text) (d : Declaration)
    (items : List Placed) :
    within [name] (items ++ [(first :: rest, d)]) =
      within [name] items ++ if name = first then [(rest, d)] else [] := by
  by_cases h : name = first <;> simp [within, List.dropPrefix?, h, Ne.symm]

/-- What stays at the top needs no namespace. -/
theorem outermost_concat_nil (d : Declaration) (items : List Placed) :
    outermost (items ++ [([], d)]) = outermost items := by
  rw [outermost, List.filterMap_append]
  exact congrArg List.eraseDups (List.append_nil _)

/-- A namespace that is not there yet is made at the end. -/
theorem outermost_concat_cons (first : Text) (rest : List Text) (d : Declaration)
    (items : List Placed) :
    outermost (items ++ [(first :: rest, d)]) =
      if first ∈ outermost items then outermost items else outermost items ++ [first] := by
  have hmem : first ∈ outermost items ↔ first ∈ items.filterMap (·.1.head?) := List.mem_eraseDups
  simp only [hmem]
  rw [outermost, List.filterMap_append]
  exact eraseDups_concat _ first

/-- Something is within each outermost namespace. -/
theorem mem_outermost_iff {name : Text} {items : List Placed} :
    name ∈ outermost items ↔ within [name] items ≠ [] := by
  rw [outermost, List.mem_eraseDups, List.mem_filterMap, Ne, within, List.filterMap_eq_nil_iff]
  push Not
  constructor
  · rintro ⟨⟨path, d⟩, hitem, hhead⟩
    cases path with
    | nil => cases hhead
    | cons first rest =>
      cases hhead
      exact ⟨_, hitem, by simp [List.dropPrefix?]⟩
  · rintro ⟨⟨path, d⟩, hitem, hsome⟩
    refine ⟨_, hitem, ?_⟩
    cases path with
    | nil => simp [List.dropPrefix?] at hsome
    | cons first rest =>
      by_cases h : first = name
      · rw [h]; rfl
      · simp [List.dropPrefix?, h] at hsome

/-- Namespaces of different names are changed one at a time, and one of another name is made at the end. -/
theorem updateChild_map {names : List Text} (hnames : names.Nodup) {make : Text → Namespace}
    (hmake : ∀ name, (make name).name = .text name) (first : Text) (change : Namespace → Namespace) :
    updateChild (.text first) change (names.map make) =
      if first ∈ names then names.map fun name => if name = first then change (make name) else make name
      else names.map make ++ [change (empty (.text first))] := by
  induction names with
  | nil => rfl
  | cons name rest ih =>
    obtain ⟨hfresh, hrest⟩ := List.nodup_cons.mp hnames
    rw [List.map_cons, updateChild, hmake, Value.text_same_text, ih hrest]
    by_cases h : name = first
    · subst h
      have hsame : rest.map (fun other => if other = name then change (make other) else make other) =
          rest.map make := by
        refine List.map_congr_left fun other hother => if_neg ?_
        rintro rfl
        exact hfresh hother
      simp [hsame]
    · by_cases hmem : first ∈ rest
      · simp [h, hmem]
      · simp [h, hmem, Ne.symm h]

/-- The namespaces directly inside one that holds some declarations. -/
def groups (items : List Placed) : List Namespace :=
  (outermost items).map fun name => fill (empty (.text name)) (within [name] items)

/-- What stays at the top changes no namespace inside. -/
theorem groups_concat_nil (d : Declaration) (items : List Placed) :
    groups (items ++ [([], d)]) = groups items := by
  simp only [groups, outermost_concat_nil, within_concat_nil]

/-- What goes further in changes the namespace that it names first, which may be new. -/
theorem groups_concat_cons (first : Text) (rest : List Text) (d : Declaration)
    (items : List Placed) :
    groups (items ++ [(first :: rest, d)]) =
      updateChild (.text first) (insertAt d (rest.map .text)) (groups items) := by
  have hstep (name : Text) :
      fill (empty (.text name)) (within [name] (items ++ [(first :: rest, d)])) =
        if name = first then insertAt d (rest.map .text) (fill (empty (.text name)) (within [name] items))
        else fill (empty (.text name)) (within [name] items) := by
    rw [within_concat_cons]
    split_ifs
    · exact fill_concat _ _ _ _
    · rw [List.append_nil]
  have hnames : (outermost items).Nodup := eraseDups_nodup _
  rw [groups, groups, updateChild_map hnames (fun name => fill_name _ _), outermost_concat_cons]
  simp only [hstep]
  by_cases hmem : first ∈ outermost items
  · rw [if_pos hmem, if_pos hmem]
  · have hempty : within [first] items = [] := not_not.mp fun h => hmem (mem_outermost_iff.mpr h)
    rw [if_neg hmem, if_neg hmem, List.map_append, List.map_singleton, if_pos rfl, hempty]
    refine congrArg (· ++ _) (List.map_congr_left fun name hname => if_neg ?_)
    rintro rfl
    exact hmem hname

/-- Namespaces filled one declaration at a time are those of all declarations sorted at once. -/
theorem fill_empty (name : Value) (items : List Placed) :
    fill (empty name) items = ⟨name, declarationsAt [] items, groups items⟩ := by
  induction items using List.reverseRecOn with
  | nil => rfl
  | append_singleton items item ih =>
    obtain ⟨names, d⟩ := item
    rw [fill_concat, ih, declarationsAt_concat]
    cases names with
    | nil => rw [groups_concat_nil, if_pos rfl]; rfl
    | cons first rest =>
      rw [groups_concat_cons, if_neg (List.cons_ne_nil first rest), List.append_nil]
      rfl

/-- What goes into a namespace goes there within the outermost one on its path. -/
theorem declarationsAt_cons (first : Text) (rest : List Text) (items : List Placed) :
    declarationsAt (first :: rest) items = declarationsAt rest (within [first] items) := by
  induction items using List.reverseRecOn with
  | nil => rfl
  | append_singleton items item ih =>
    obtain ⟨names, d⟩ := item
    rw [declarationsAt_concat, ih]
    cases names with
    | nil => rw [within_concat_nil, if_neg (List.cons_ne_nil first rest).symm, List.append_nil]
    | cons name others =>
      rw [within_concat_cons]
      by_cases h : first = name
      · subst h
        simp [declarationsAt_concat]
      · rw [if_neg h, if_neg (by simp [Ne.symm h]), List.append_nil, List.append_nil]

/-- What is within a namespace is within the outermost one on its path. -/
theorem within_cons (first : Text) (rest : List Text) (items : List Placed) :
    within (first :: rest) items = within rest (within [first] items) := by
  rw [within, within, within, List.filterMap_filterMap]
  refine List.filterMap_congr fun item _ => ?_
  obtain ⟨names, d⟩ := item
  cases names with
  | nil => rfl
  | cons name others => by_cases h : name = first <;> simp [List.dropPrefix?, h]

/-- Everything is within the namespace itself. -/
theorem within_nil (items : List Placed) : within [] items = items := by
  rw [within]
  exact (List.filterMap_congr fun item _ => by rw [List.dropPrefix?_nil]; rfl).trans List.filterMap_some

section Listing

/-- Put declarations one namespace further in. -/
def nested (name : Text) (items : List Placed) : List Placed :=
  items.map fun item => (name :: item.1, item.2)

/-- The declarations of two lists come one after the other. -/
theorem declarationsAt_append (names : List Text) (first second : List Placed) :
    declarationsAt names (first ++ second) = declarationsAt names first ++ declarationsAt names second := by
  rw [declarationsAt, List.filter_append, List.map_append]
  rfl

/-- Nothing that is further in stays at the top. -/
theorem declarationsAt_nil_nested (name : Text) (items : List Placed) :
    declarationsAt [] (nested name items) = [] := by
  simp [declarationsAt, nested, List.filter_map, Function.comp_def]

/-- What is one namespace further in is found in this namespace alone. -/
theorem declarationsAt_cons_nested (first name : Text) (rest : List Text) (items : List Placed) :
    declarationsAt (first :: rest) (nested name items) =
      if name = first then declarationsAt rest items else [] := by
  by_cases h : name = first <;> simp [declarationsAt, nested, List.filter_map, Function.comp_def, h]

/-- The declarations of several lists come one after the other. -/
theorem declarationsAt_flatMap (path names : List Text) (lists : Text → List Placed) :
    declarationsAt path (names.flatMap lists) = names.flatMap fun name => declarationsAt path (lists name) := by
  induction names with
  | nil => rfl
  | cons name rest ih => rw [List.flatMap_cons, declarationsAt_append, ih, List.flatMap_cons]

/-- Of lists for different names, the one for a given name is left. -/
theorem flatMap_ite_eq {α : Type} {names : List Text} (hnames : names.Nodup) (first : Text)
    (lists : Text → List α) :
    (names.flatMap fun name => if name = first then lists name else []) =
      if first ∈ names then lists first else [] := by
  induction names with
  | nil => rfl
  | cons name rest ih =>
    obtain ⟨hfresh, hrest⟩ := List.nodup_cons.mp hnames
    rw [List.flatMap_cons, ih hrest]
    by_cases h : name = first
    · subst h
      simp [hfresh]
    · simp [h, Ne.symm h]

/-- Several namespaces are listed one after the other. -/
theorem entriesUnderAll_eq (path : List Value) (nodes : List Namespace) :
    entriesUnderAll path nodes = nodes.flatMap (entriesUnder path) := by
  induction nodes with
  | nil => rfl
  | cons node rest ih => rw [entriesUnderAll, ih, List.flatMap_cons]

/-- What is listed below a path: each declaration with the names of its namespaces. -/
def listedUnder (path : List Value) (items : List Placed) : List (List Value × Declaration) :=
  items.map fun item => (path ++ item.1.map .text, item.2)

/-- No name of a namespace is empty. -/
def AllNamed (items : List Placed) : Prop := ∀ item ∈ items, ("" : Text) ∉ item.1

/-- What is within a namespace comes from a longer path. -/
theorem exists_of_mem_within {name : Text} {items : List Placed} {item : Placed}
    (h : item ∈ within [name] items) : (name :: item.1, item.2) ∈ items := by
  obtain ⟨⟨names, d⟩, hmem, hsome⟩ := List.mem_filterMap.mp h
  cases names with
  | nil => cases hsome
  | cons first rest =>
    by_cases hfirst : first = name
    · subst hfirst
      simp only [List.dropPrefix?, beq_self_eq_true, if_true, Option.map_some, Option.some.injEq] at hsome
      exact hsome ▸ hmem
    · simp [List.dropPrefix?, hfirst] at hsome

/-- The names within a namespace are not empty if all names are not. -/
theorem AllNamed.within {items : List Placed} (h : AllNamed items) (name : Text) :
    AllNamed (within [name] items) := by
  intro item hitem hempty
  exact h _ (exists_of_mem_within hitem) (List.mem_cons_of_mem _ hempty)

/-- The names of the outermost namespaces are not empty if all names are not. -/
theorem AllNamed.ne_empty {items : List Placed} (h : AllNamed items) {name : Text}
    (hname : name ∈ outermost items) : name ≠ "" := by
  obtain ⟨item, hitem⟩ := List.exists_mem_of_ne_nil _ (mem_outermost_iff.mp hname)
  rintro rfl
  exact h _ (exists_of_mem_within hitem) List.mem_cons_self

/-- A name that is not empty extends a path. -/
theorem extendPath_text (path : List Value) {name : Text} (h : name ≠ "") :
    extendPath path (.text name) = path ++ [.text name] :=
  if_pos (by simpa [Value.isPresent, Scalar.isPresent] using h)

/-- A listing of a namespace from listings of those inside: its own declarations come first. -/
def joined (items : List Placed) (listing : Text → List Placed) : List Placed :=
  (declarationsAt [] items).map ([], ·) ++ (outermost items).flatMap fun name => nested name (listing name)

/-- A listing has the same declarations at every path if the listings further in have. -/
theorem declarationsAt_joined {items : List Placed} {listing : Text → List Placed}
    (h : ∀ name names, declarationsAt names (listing name) = declarationsAt names (within [name] items))
    (names : List Text) : declarationsAt names (joined items listing) = declarationsAt names items := by
  rw [joined, declarationsAt_append, declarationsAt_flatMap]
  cases names with
  | nil =>
    simp only [declarationsAt_nil_nested]
    simp [declarationsAt, List.filter_map, Function.comp_def]
  | cons first rest =>
    have hown : declarationsAt (first :: rest) ((declarationsAt [] items).map ([], ·)) = [] := by
      simp [declarationsAt, List.filter_map, Function.comp_def]
    have hnames : (outermost items).Nodup := eraseDups_nodup _
    simp only [declarationsAt_cons_nested, h]
    rw [hown, List.nil_append, declarationsAt_cons, flatMap_ite_eq hnames]
    split_ifs with hmem
    · rfl
    · rw [not_not.mp fun hsome => hmem (mem_outermost_iff.mpr hsome)]
      rfl

/-- A namespace is listed by listing those inside. -/
theorem entriesUnder_fill {items : List Placed} (hnamed : AllNamed items) {path : List Value} {name : Value}
    {listing : Text → List Placed}
    (h : ∀ inner, entriesUnder (extendPath path name) (fill (empty (.text inner)) (within [inner] items)) =
      listedUnder (extendPath (extendPath path name) (.text inner)) (listing inner)) :
    entriesUnder path (fill (empty name) items) =
      listedUnder (extendPath path name) (joined items listing) := by
  rw [fill_empty, entriesUnder, entriesUnderAll_eq, groups, List.flatMap_map, joined, listedUnder,
    List.map_append, List.map_flatMap, List.map_map]
  refine congrArg₂ (· ++ ·) (List.map_congr_left fun d _ => by simp) ?_
  refine List.flatMap_congr fun inner hinner => ?_
  rw [h, listedUnder, nested, List.map_map, extendPath_text _ (hnamed.ne_empty hinner)]
  exact List.map_congr_left fun item _ => by simp

/-- The declarations of a namespace filled in order are listed each at its path, those of one path in
the order of their arrival. -/
theorem exists_listedUnder {items : List Placed} (hnamed : AllNamed items) (path : List Value)
    (name : Value) :
    ∃ listed, entriesUnder path (fill (empty name) items) = listedUnder (extendPath path name) listed ∧
      ∀ names, declarationsAt names listed = declarationsAt names items := by
  -- By induction on a bound for the lengths of all paths: they are shorter within a namespace inside.
  obtain ⟨bound, hbound⟩ : ∃ bound, ∀ item ∈ items, item.1.length < bound := by
    refine ⟨(items.map (·.1.length)).max?.getD 0 + 1, fun item hitem => Nat.lt_succ_of_le ?_⟩
    exact List.le_max?_getD_of_mem (List.mem_map_of_mem hitem)
  induction bound generalizing items path name with
  | zero =>
    have hempty : items = [] := List.eq_nil_iff_forall_not_mem.mpr fun item hitem =>
      absurd (hbound item hitem) (Nat.not_lt_zero _)
    exact ⟨[], by rw [hempty]; rfl, fun names => by rw [hempty]⟩
  | succ bound ih =>
    have hinside (inner : Text) := ih (hnamed.within inner) (extendPath path name) (.text inner)
      fun item hitem => Nat.lt_of_succ_lt_succ (hbound _ (exists_of_mem_within hitem))
    choose listing hlisted hkept using hinside
    exact ⟨joined items listing, entriesUnder_fill hnamed hlisted, declarationsAt_joined hkept⟩

/-- Lists of declarations are permutations of each other if they agree at every path. -/
theorem perm_of_declarationsAt {first second : List Placed}
    (h : ∀ names, declarationsAt names first = declarationsAt names second) : first.Perm second := by
  classical
  rw [List.perm_iff_count]
  rintro ⟨names, d⟩
  have hcount (items : List Placed) : items.count (names, d) = (declarationsAt names items).count d := by
    induction items with
    | nil => rfl
    | cons item rest ih =>
      obtain ⟨path, other⟩ := item
      rw [List.count_cons, ih]
      by_cases hpath : path = names <;> simp [declarationsAt, List.count_cons, hpath]
  rw [hcount, hcount, h]

end Listing

/-- A namespace stands inside another one at a path of names. -/
inductive At : Namespace → List Value → Namespace → Prop where
  | here {node : Namespace} : At node [] node
  | inside {node child inner : Namespace} {path : List Value} :
      child ∈ node.children → At child path inner → At node (child.name :: path) inner

/-- Every namespace inside one that was filled is filled with what is within its path, and with
something. -/
theorem At.exists_fill {node inner : Namespace} {path : List Value} (h : At node path inner)
    {name : Value} {items : List Placed} (hnode : node = fill (empty name) items) :
    ∃ (names : List Text) (own : Value), path = names.map .text ∧
      inner = fill (empty own) (within names items) ∧ (names ≠ [] → within names items ≠ []) := by
  induction h generalizing name items with
  | here => exact ⟨[], name, rfl, by rw [within_nil]; exact hnode, absurd rfl⟩
  | @inside node child inner path hchild _ ih =>
    rw [hnode, fill_empty] at hchild
    obtain ⟨first, hfirst, rfl⟩ := List.mem_map.mp hchild
    obtain ⟨names, own, hpath, hinner, hsome⟩ := ih rfl
    refine ⟨first :: names, own, ?_, by rw [within_cons]; exact hinner, fun _ => ?_⟩
    · rw [hpath, fill_name]
      rfl
    · rw [within_cons]
      by_cases hnames : names = []
      · rw [hnames, within_nil]
        exact mem_outermost_iff.mp hfirst
      · exact hsome hnames

/-- The names of the namespaces inside a filled one are those used first to last. -/
theorem map_name_children_fill (name : Value) (items : List Placed) :
    (fill (empty name) items).children.map (·.name) = (outermost items).map .text := by
  rw [fill_empty, groups, List.map_map]
  exact List.map_congr_left fun inner _ => fill_name _ _

/-- The names made by a naming that makes no empty names are not empty. -/
theorem allNamed_placedBy {naming : Naming} (hnaming : ∀ s, naming.ofText s ≠ "")
    (results : List (List Text × Declaration)) : AllNamed (results.map (placedBy naming)) := by
  intro item hitem hempty
  obtain ⟨result, -, rfl⟩ := List.mem_map.mp hitem
  obtain ⟨segment, -, hsegment⟩ := List.mem_map.mp hempty
  exact hnaming segment hsegment

/-- The names within a path are not empty if all names are not. -/
theorem AllNamed.withinAll {items : List Placed} (h : AllNamed items) (names : List Text) :
    AllNamed (Namespace.within names items) := by
  induction names generalizing items with
  | nil => rwa [within_nil]
  | cons first rest ih =>
    rw [within_cons]
    exact ih (h.within first)

/-- A filled namespace lists something if it was filled with something. -/
theorem entries_fill_ne_nil {items : List Placed} (hnamed : AllNamed items) (name : Value)
    (h : items ≠ []) : (fill (empty name) items).entries ≠ [] := by
  obtain ⟨listed, hlisted, hkept⟩ := exists_listedUnder hnamed [] name
  rw [entries, hlisted, listedUnder, Ne, List.map_eq_nil_iff]
  rintro rfl
  exact h (perm_of_declarationsAt hkept).nil_eq.symm

/-- Putting entries together loses, repeats and reorders nothing as long as no name is empty. Under each
path the declarations of the entries for it are listed in the order of their arrival. Every namespace has
namespaces of different names inside, in the order in which these names first arrive, and each of them holds
a declaration somewhere. The outermost namespace has the empty name. -/
theorem assemble_groups {naming : Naming} (hnaming : ∀ s, naming.ofText s ≠ "")
    (results : List (List Text × Declaration)) :
    ∃ tree listed, assemble naming (results.map entryOf) = .ok tree ∧ tree.name = .text "" ∧
      tree.entries = listedUnder [] listed ∧
      (∀ names, declarationsAt names listed = declarationsAt names (results.map (placedBy naming))) ∧
      listed.Perm (results.map (placedBy naming)) ∧
      ∀ path node, tree.At path node → ∃ names : List Text, path = names.map .text ∧
        (node.children.map (·.name)).Nodup ∧
        node.children.map (·.name) =
          (outermost (within names (results.map (placedBy naming)))).map .text ∧
        (names ≠ [] → node.entries ≠ []) := by
  have hnamed := allNamed_placedBy hnaming results
  have hassemble := assemble_entryOf naming results
  rw [place_eq_fill] at hassemble
  obtain ⟨listed, hlisted, hkept⟩ := exists_listedUnder hnamed [] (.text "")
  refine ⟨_, listed, hassemble, fill_name _ _, hlisted, hkept, perm_of_declarationsAt hkept, ?_⟩
  intro path node hnode
  obtain ⟨names, own, hpath, rfl, hsome⟩ := hnode.exists_fill rfl
  have hdistinct : (outermost (within names (results.map (placedBy naming)))).Nodup := eraseDups_nodup _
  refine ⟨names, hpath, ?_, map_name_children_fill _ _, fun hne => ?_⟩
  · rw [map_name_children_fill]
    refine hdistinct.map fun first second heq => ?_
    cases heq
    rfl
  · exact entries_fill_ne_nil (hnamed.withinAll names) own (hsome hne)

/-- Make identifiers as for generated source, with a name for what has none. -/
def fallbackNaming : Naming :=
  ⟨fun s => if Name.identifier s = "" then "Unnamed" else Name.identifier s, fun _ => .error .nameNotText⟩

/-- Entries that arrive in turns for the top, for a namespace and for one inside it, and that spell the name
of the namespace in two ways. -/
def interleaved : List (List Text × Declaration) :=
  [[("definitions" : Text), "A"], ["Root"], ["Definitions", "inner", "B"], ["definitions", "C"]].map fun path =>
    (path, ⟨.text (path.getLastD ""), .any, true⟩)

/-- Entries that arrive in turns are sorted and stay in order. -/
theorem assemble_groups_interleaved :
    (∀ s, fallbackNaming.ofText s ≠ "") ∧
      ∃ tree listed, assemble fallbackNaming (interleaved.map entryOf) = .ok tree ∧
        tree.entries = listedUnder [] listed ∧
        (declarationsAt [] listed).map (·.name.display) = [("Root" : Text)] ∧
        (declarationsAt ["Definitions"] listed).map (·.name.display) = [("A" : Text), "C"] ∧
        (declarationsAt ["Definitions", "Inner"] listed).map (·.name.display) = [("B" : Text)] ∧
        tree.children.map (·.name) = [.text "Definitions"] := by
  have hnaming : ∀ s, fallbackNaming.ofText s ≠ "" := by
    intro s
    dsimp only [fallbackNaming]
    split_ifs with h
    · decide
    · exact h
  obtain ⟨tree, listed, hassemble, -, hlisted, hkept, -, hnodes⟩ := assemble_groups hnaming interleaved
  obtain ⟨names, hpath, -, hchildren, -⟩ := hnodes [] tree .here
  obtain rfl : names = [] := by simpa using hpath.symm
  refine ⟨hnaming, tree, listed, hassemble, hlisted, ?_, ?_, ?_, ?_⟩
  · rw [hkept]
    decide +kernel
  · rw [hkept]
    decide +kernel
  · rw [hkept]
    decide +kernel
  · rw [hchildren]
    rfl

/-- The look-up of a qualified name among entries put together in order of arrival finds the declaration
of the first entry that goes into the namespaces of all parts but the last and has the last part as its
name, and nothing if there is no such entry. -/
theorem find?_assemble (naming : Naming) (results : List (List Text × Declaration)) :
    ∃ tree, assemble naming (results.map entryOf) = .ok tree ∧
      ∀ (names : List Text) (name : Text),
        tree.find? ((names ++ [name]).map .text) =
          .ok ((results.find? fun result => result.1.dropLast.map naming.ofText = names ∧
            result.2.name = .text name).map (·.2)) :=
  ⟨_, assemble_entryOf naming results, find?_place naming results⟩

end Namespace

end SchemaTypes
