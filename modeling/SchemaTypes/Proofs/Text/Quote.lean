import Mathlib.Tactic.SplitIfs
import SchemaTypes.Document.Json.Read
import SchemaTypes.Text.Escape

/-!
# Reading quoted text

A quoted text stands for a list of UTF-16 units: an escape of four digits for the unit it names, and
every other character or escape for a unit of its own. Two units that make a pair stand for one
character. Reading takes both steps and stops after the closing quote. So does the reader of documents,
which takes both steps at once.

Reading undoes quoting, with one exception. A surrogate is written by its own escape, and two surrogates
that make a pair are written like the character of the pair. So the text that is read has such characters
in place of the pairs.
-/

namespace SchemaTypes.Text

open Json

/-- The UTF-16 units that a quoted text stands for, up to its closing quote, and what follows. -/
def readUnits : List CodePoint → Option (List Nat × List CodePoint)
  | [] => none
  | '"' :: rest => some ([], rest)
  | '\\' :: 'u' :: a :: b :: c :: d :: rest => do
    let unit ← unit? a b c d
    let (units, after) ← readUnits rest
    some (unit :: units, after)
  | '\\' :: c :: rest => do
    let escaped ← shortEscape? c
    let (units, after) ← readUnits rest
    some (escaped.toNat :: units, after)
  | c :: rest => do
    let (units, after) ← readUnits rest
    some (c.toNat :: units, after)

/-- The characters of a list of UTF-16 units. -/
def ofUnits : List Nat → List CodePoint
  | [] => []
  | [unit] => [.ofNat unit]
  | high :: low :: rest =>
    if isHighUnit high && isLowUnit low then pairChar high low :: ofUnits rest
    else .ofNat high :: ofUnits (low :: rest)

/-- The text up to a closing quote, and what follows. -/
def unquote (cs : List CodePoint) : Option (Text × List CodePoint) :=
  (readUnits cs).map fun (units, after) => (Text.ofList (ofUnits units), after)

/-- The UTF-16 units of a code point. -/
def charUnits (c : CodePoint) : List Nat :=
  if c.toNat < 0x10000 then [c.toNat]
  else [0xd800 + (c.toNat - 0x10000) / 0x400, 0xdc00 + (c.toNat - 0x10000) % 0x400]

/-- Whether two code points are surrogates that make a pair. -/
def isPair (high low : CodePoint) : Bool := isHighUnit high.toNat && isLowUnit low.toNat

/-- Whether two surrogates that make a pair come one after the other. -/
def hasPair : List CodePoint → Bool
  | high :: low :: rest => isPair high low || hasPair (low :: rest)
  | _ => false

/-- The code points with every pair of surrogates replaced by its character. -/
def mergePairs : List CodePoint → List CodePoint
  | high :: low :: rest =>
    if isPair high low then pairChar high.toNat low.toNat :: mergePairs rest
    else high :: mergePairs (low :: rest)
  | cs => cs

/-- A text with every pair of surrogates replaced by its character. -/
def merged (s : Text) : Text := Text.ofList (mergePairs s.toList)

section Pairs

variable {c high low : CodePoint} {cs : List CodePoint}

/-- Without pairs there is nothing to replace. -/
theorem mergePairs_of_hasPair_eq_false (h : hasPair cs = false) : mergePairs cs = cs := by
  fun_induction mergePairs cs with
  | case1 high low rest hpair => simp [hasPair, hpair] at h
  | case2 high low rest hpair ih =>
    rw [hasPair, Bool.or_eq_false_iff] at h
    rw [ih h.2]
  | case3 => rfl

/-- Replacing pairs adds no code points. -/
theorem length_mergePairs_le (cs : List CodePoint) : (mergePairs cs).length ≤ cs.length := by
  fun_induction mergePairs cs with
  | case1 high low rest _ ih =>
    simp only [List.length_cons]
    omega
  | case2 high low rest _ ih => exact Nat.succ_le_succ ih
  | case3 => exact Nat.le_refl _

/-- Each pair that is replaced leaves fewer code points. -/
theorem length_mergePairs_lt (h : hasPair cs = true) : (mergePairs cs).length < cs.length := by
  fun_induction mergePairs cs with
  | case1 high low rest _ _ =>
    have hrest := length_mergePairs_le rest
    simp only [List.length_cons]
    omega
  | case2 high low rest hpair ih =>
    rw [hasPair, Bool.eq_false_iff.mpr hpair, Bool.false_or] at h
    exact Nat.succ_lt_succ (ih h)
  | case3 cs hshort =>
    unfold hasPair at h
    split at h
    · exact absurd rfl (hshort _ _ _)
    · cases h

/-- Exactly the texts without pairs stay the same. -/
theorem merged_eq_self_iff {s : Text} : s.merged = s ↔ hasPair s.toList = false := by
  constructor
  · intro h
    rw [← Bool.not_eq_true]
    intro hpair
    have hlength := length_mergePairs_lt hpair
    rw [show mergePairs s.toList = s.toList from congrArg toList h] at hlength
    exact Nat.lt_irrefl _ hlength
  · intro h
    rw [merged, mergePairs_of_hasPair_eq_false h]

/-- A text of characters has no pairs. -/
theorem hasPair_eq_false (h : ∀ c ∈ cs, isHighUnit c.toNat = false) : hasPair cs = false := by
  fun_induction hasPair cs with
  | case1 high low rest ih =>
    rw [ih fun c hc => h c (List.mem_cons_of_mem high hc), Bool.or_false, isPair, h high List.mem_cons_self,
      Bool.false_and]
  | case2 => rfl

/-- No character is a surrogate. -/
theorem isHighUnit_toNat (c : Char) : isHighUnit c.toNat = false := by
  have hvalid : c.toNat < 0xd800 ∨ 0xdfff < c.toNat ∧ c.toNat < 0x110000 := c.valid
  simp only [isHighUnit, Bool.and_eq_false_iff, decide_eq_false_iff_not]
  omega

/-- The surrogates of a pair lie in the first plane. -/
theorem isPair_iff :
    isPair high low = true ↔
      (0xd800 ≤ high.toNat ∧ high.toNat < 0xdc00) ∧ 0xdc00 ≤ low.toNat ∧ low.toNat < 0xe000 := by
  simp [isPair, isHighUnit, isLowUnit]

/-- A code point of the first plane is a unit of its own. -/
theorem charUnits_of_lt (h : c.toNat < 0x10000) : charUnits c = [c.toNat] := by
  rw [charUnits, if_pos h]

/-- A character beyond the first plane is a pair of units. -/
theorem pair_toNat (h : ¬ c.toNat < 0x10000) :
    isHighUnit (0xd800 + (c.toNat - 0x10000) / 0x400) = true ∧
      isLowUnit (0xdc00 + (c.toNat - 0x10000) % 0x400) = true ∧
      pairChar (0xd800 + (c.toNat - 0x10000) / 0x400) (0xdc00 + (c.toNat - 0x10000) % 0x400) = c := by
  have hbound := c.toNat_lt
  have hvalue : 0x10000 + (0xd800 + (c.toNat - 0x10000) / 0x400 - 0xd800) * 0x400 +
      (0xdc00 + (c.toNat - 0x10000) % 0x400 - 0xdc00) = c.toNat := by omega
  refine ⟨?_, ?_, by rw [pairChar, hvalue, CodePoint.ofNat_toNat]⟩
  · simp only [isHighUnit, Bool.and_eq_true, decide_eq_true_eq]
    omega
  · simp only [isLowUnit, Bool.and_eq_true, decide_eq_true_eq]
    omega

/-- The units of a code point start with the second half of a pair exactly if it is one. -/
theorem exists_charUnits_append (c : CodePoint) (units : List Nat) :
    ∃ unit others, charUnits c ++ units = unit :: others ∧ isLowUnit unit = isLowUnit c.toNat := by
  unfold charUnits
  split
  · exact ⟨c.toNat, units, rfl, rfl⟩
  · have hbound := c.toNat_lt
    refine ⟨_, _, rfl, ?_⟩
    rw [Bool.eq_iff_iff]
    simp only [isLowUnit, Bool.and_eq_true, decide_eq_true_eq]
    omega

end Pairs

/-- A hexadecimal digit has the value that it was made from. -/
theorem hexValue?_hexDigit {n : Nat} (h : n < 16) : hexValue? (hexDigit n) = some n := by
  have hall : ∀ m < 16, hexValue? (hexDigit m) = some m := by decide
  exact hall n h

/-- Four hexadecimal digits have the value that they were made from. -/
theorem unit?_hexDigits {n : Nat} (h : n < 0x10000) :
    unit? (hexDigit (n / 16 / 16 / 16 % 16)) (hexDigit (n / 16 / 16 % 16)) (hexDigit (n / 16 % 16))
      (hexDigit (n % 16)) = some n := by
  have hdigit (m : Nat) : hexValue? (hexDigit (m % 16)) = some (m % 16) :=
    hexValue?_hexDigit (Nat.mod_lt m (by omega))
  have hvalue : n / 16 / 16 / 16 % 16 * 4096 + n / 16 / 16 % 16 * 256 + n / 16 % 16 * 16 + n % 16 = n := by
    omega
  simp [unit?, hdigit, hvalue]

/-- The escape of a unit is read as that unit. -/
theorem readUnits_unitEscape {n : Nat} (h : n < 0x10000) (rest : List CodePoint) :
    readUnits (unitEscape n ++ rest) =
      (readUnits rest).map fun (units, after) => (n :: units, after) := by
  simp only [unitEscape, hexDigits, List.nil_append, List.cons_append, readUnits, unit?_hexDigits h]
  cases readUnits rest <;> rfl

/-- The escape of a character by its units is read as its units. -/
theorem readUnits_unicodeEscape (c : CodePoint) (rest : List CodePoint) :
    readUnits (unicodeEscape c ++ rest) =
      (readUnits rest).map fun (units, after) => (charUnits c ++ units, after) := by
  have hbound := c.toNat_lt
  unfold unicodeEscape charUnits
  split
  · rename_i hc
    exact readUnits_unitEscape hc rest
  · rw [List.append_assoc, readUnits_unitEscape (by omega), readUnits_unitEscape (by omega),
      Option.map_map]
    rfl

/-- A character as it stands in a quoted text is read as its units. -/
theorem readUnits_escapeChar (c : CodePoint) (rest : List CodePoint) :
    readUnits (escapeChar c ++ rest) =
      (readUnits rest).map fun (units, after) => (charUnits c ++ units, after) := by
  unfold escapeChar
  split_ifs with hquote hslash hline hreturn htab hback hfeed hplain
  iterate 7
    · subst c
      cases hrest : readUnits rest <;> simp [readUnits, shortEscape?, charUnits, hrest]
  · have hunits : charUnits c = [c.toNat] := by
      have hle : c.toNat ≤ '~'.toNat := hplain.2
      have htilde : '~'.toNat = 126 := rfl
      rw [charUnits, if_pos (by omega)]
    rw [List.singleton_append, readUnits, hunits]
    · cases readUnits rest <;> rfl
    all_goals simp [hquote, hslash]
  · exact readUnits_unicodeEscape c rest

/-- The units of a code point stand for it, unless they make a pair with what follows. -/
theorem ofUnits_charUnits {c : CodePoint} {units : List Nat}
    (h : ∀ unit ∈ units.head?, (isHighUnit c.toNat && isLowUnit unit) = false) :
    ofUnits (charUnits c ++ units) = c :: ofUnits units := by
  unfold charUnits
  split
  · cases units with
    | nil => simp [ofUnits]
    | cons unit units => simp [ofUnits, h unit rfl]
  · rename_i hc
    obtain ⟨hhigh, hlow, hpair⟩ := pair_toNat hc
    simp [ofUnits, hhigh, hlow, hpair]

/-- The units of a quoted text are those of its characters. -/
theorem readUnits_escapeChars (cs rest : List CodePoint) :
    readUnits (escapeChars cs ++ ('\"' : CodePoint) :: rest) = some (cs.flatMap charUnits, rest) := by
  induction cs with
  | nil => rfl
  | cons c cs ih => simp [escapeChars, readUnits_escapeChar, ih]

/-- The units of some code points stand for them, but for the pairs. -/
theorem ofUnits_flatMap_charUnits (cs : List CodePoint) :
    ofUnits (cs.flatMap charUnits) = mergePairs cs := by
  fun_induction mergePairs cs with
  | case1 high low rest hpair ih =>
    have hunits := isPair_iff.mp hpair
    rw [List.flatMap_cons, List.flatMap_cons, charUnits_of_lt (by omega), charUnits_of_lt (by omega)]
    change (if isPair high low then _ :: ofUnits (rest.flatMap charUnits) else _) = _
    rw [if_pos hpair, ih]
  | case2 high low rest hpair ih =>
    obtain ⟨unit, others, hunits, hlow⟩ := exists_charUnits_append low (rest.flatMap charUnits)
    rw [List.flatMap_cons, ofUnits_charUnits, ih]
    rw [List.flatMap_cons, hunits]
    rintro _ ⟨⟩
    rw [hlow]
    exact Bool.eq_false_iff.mpr hpair
  | case3 cs hshort =>
    match cs, hshort with
    | [], _ => rfl
    | [c], _ => rw [List.flatMap_cons, ofUnits_charUnits (by rintro _ ⟨⟩)]; rfl
    | high :: low :: rest, hshort => exact absurd rfl (hshort high low rest)

/-- A quoted text is its opening quote and what is read back as the text. -/
theorem toList_quote (s : Text) :
    (quote s).toList = ('\"' : CodePoint) :: (escapeChars s.toList ++ [('"' : CodePoint)]) := by
  simp [quote]

/-- Reading undoes quoting, but for the pairs, and stops after the closing quote. -/
theorem unquote_escapeChars (s : Text) (rest : List CodePoint) :
    unquote (escapeChars s.toList ++ ('\"' : CodePoint) :: rest) = some (s.merged, rest) := by
  simp [unquote, readUnits_escapeChars, ofUnits_flatMap_charUnits, merged]

/-! ### The reader of documents -/

/-- The digits of a unit are read as that unit, if the text goes on after them. -/
theorem unitOf_hexDigits {n : Nat} (h : n < 0x10000) {rest : List CodePoint} (hrest : rest ≠ []) :
    unitOf (hexDigits 4 n ++ rest) = some n := by
  obtain ⟨c, cs, rfl⟩ := List.exists_cons_of_ne_nil hrest
  simp only [hexDigits, List.nil_append, List.cons_append, unitOf, fourOf]
  exact unit?_hexDigits h

/-- The escape of a unit is read as the second half of a pair exactly if it is one, if the text goes on
after it. -/
theorem lowUnitOf_unitEscape {n : Nat} (h : n < 0x10000) (position : Nat) {rest : List CodePoint}
    (hrest : rest ≠ []) :
    lowUnitOf position (unitEscape n ++ rest) = .ok (if isLowUnit n then some n else none) := by
  obtain ⟨c, cs, rfl⟩ := List.exists_cons_of_ne_nil hrest
  simp only [unitEscape, hexDigits, List.nil_append, List.cons_append, lowUnitOf, fourOf,
    unit?_hexDigits h]

/-- The escape of a unit has six characters. -/
theorem drop_unitEscape (n : Nat) (rest : List CodePoint) : (unitEscape n ++ rest).drop 6 = rest := rfl

/-- The escape of a code point is read as the code point, unless it makes a pair with what follows. -/
theorem readEscape_unicodeEscape (start position : Nat) {c : CodePoint} {rest : List CodePoint}
    (hrest : rest ≠ []) (hlow : isHighUnit c.toNat = true → ∀ position, lowUnitOf position rest = .ok none) :
    ∃ escaped, unicodeEscape c ++ rest = ('\\' : CodePoint) :: escaped ∧
      readEscape start position escaped = .ok (c, (unicodeEscape c).length) := by
  have hdrop (n : Nat) (cs : List CodePoint) : (hexDigits 4 n ++ cs).drop 4 = cs := rfl
  unfold unicodeEscape
  split
  · rename_i hc
    refine ⟨('u' : CodePoint) :: (hexDigits 4 c.toNat ++ rest), rfl, ?_⟩
    rw [readEscape, unitOf_hexDigits hc hrest]
    by_cases hhigh : isHighUnit c.toNat = true
    · simp only [hhigh, if_true, hdrop, hlow hhigh, CodePoint.ofNat_toNat]
      rfl
    · simp only [hhigh, Bool.false_eq_true, if_false, CodePoint.ofNat_toNat]
      rfl
  · rename_i hc
    have hbound := c.toNat_lt
    obtain ⟨hhigh, hlow, hpair⟩ := pair_toNat hc
    have hrest' : unitEscape (0xdc00 + (c.toNat - 0x10000) % 0x400) ++ rest ≠ [] := by simp [unitEscape]
    refine ⟨('u' : CodePoint) :: (hexDigits 4 (0xd800 + (c.toNat - 0x10000) / 0x400) ++
      (unitEscape (0xdc00 + (c.toNat - 0x10000) % 0x400) ++ rest)), by simp [unitEscape], ?_⟩
    rw [readEscape, unitOf_hexDigits (by omega) hrest']
    have hsecond : 0xdc00 + (c.toNat - 0x10000) % 0x400 < 0x10000 := by omega
    simp only [hhigh, if_true, hdrop, lowUnitOf_unitEscape hsecond _ hrest, hlow]
    change Except.ok (pairChar _ _, 12) = _
    rw [hpair]
    rfl

/-- A surrogate stands in a quoted text by its unit. -/
theorem escapeChar_of_surrogate {c : CodePoint} (h : 0xd800 ≤ c.toNat ∧ c.toNat < 0xe000) :
    escapeChar c = unitEscape c.toNat := by
  have hne (d : Char) (hd : d.toNat < 128) : c ≠ d := by
    rintro rfl
    rw [CodePoint.toNat_scalar] at h
    omega
  have hplain : ¬((' ' : CodePoint) ≤ c ∧ c ≤ '~') := by
    intro hplain
    have htilde : c.toNat ≤ 126 := hplain.2
    omega
  rw [escapeChar, if_neg (hne _ (by decide)), if_neg (hne _ (by decide)), if_neg (hne _ (by decide)),
    if_neg (hne _ (by decide)), if_neg (hne _ (by decide)), if_neg (hne _ (by decide)),
    if_neg (hne _ (by decide)), if_neg hplain, unicodeEscape, if_pos (by omega)]

/-- What stands for a code point in a quoted text is no second half of a pair, unless it is one. -/
theorem lowUnitOf_escapeChar {c : CodePoint} (h : isLowUnit c.toNat = false) (position : Nat)
    {rest : List CodePoint} (hrest : rest ≠ []) : lowUnitOf position (escapeChar c ++ rest) = .ok none := by
  unfold escapeChar
  split_ifs with hquote hslash
  iterate 7
    · rfl
  · rw [List.singleton_append, lowUnitOf]
    exact fun _ hcs => absurd (List.cons.inj hcs).1 hslash
  · have hbound := c.toNat_lt
    unfold unicodeEscape
    split
    · rename_i hc
      rw [lowUnitOf_unitEscape hc position hrest, h]
      rfl
    · have hhigh : isLowUnit (0xd800 + (c.toNat - 0x10000) / 0x400) = false := by
        simp only [isLowUnit, Bool.and_eq_false_iff, decide_eq_false_iff_not]
        omega
      rw [List.append_assoc, lowUnitOf_unitEscape (by omega) position (by simp [unitEscape]), hhigh]
      rfl

/-- After a backslash the text goes on with what the escape is read as. -/
theorem readQuotedFrom_escape (start bound : Nat) {cursor : Cursor} {escaped : List CodePoint} {c : CodePoint}
    {length : Nat} (hrest : cursor.rest = ('\\' : CodePoint) :: escaped)
    (hread : readEscape start cursor.position escaped = .ok (c, length)) (sofar : List CodePoint) :
    readQuotedFrom start (bound + 1) cursor sofar =
      readQuotedFrom start bound (cursor.skip length) (c :: sofar) := by
  rw [readQuotedFrom]
  simp only [hrest, hread]
  rfl

/-- A code point as it stands in a quoted text is read as the code point, unless it makes a pair with what
follows. -/
theorem readQuotedFrom_escapeChar (start bound position : Nat) {c : CodePoint} {rest : List CodePoint}
    (hrest : rest ≠ []) (hlow : isHighUnit c.toNat = true → ∀ position, lowUnitOf position rest = .ok none)
    (sofar : List CodePoint) :
    readQuotedFrom start (bound + 1) ⟨escapeChar c ++ rest, position⟩ sofar =
      readQuotedFrom start bound ⟨rest, position + (escapeChar c).length⟩ (c :: sofar) := by
  unfold escapeChar
  split_ifs with hquote hslash hline hreturn htab hback hfeed hplain
  iterate 7
    · subst c
      rfl
  · have hspace : ¬ c < ' ' := Nat.not_lt.mpr hplain.1
    rw [List.singleton_append, readQuotedFrom]
    simp [hspace, Cursor.skip]
  · obtain ⟨escaped, htext, hread⟩ := readEscape_unicodeEscape start position hrest hlow
    have hskip : (Cursor.mk (unicodeEscape c ++ rest) position).skip (unicodeEscape c).length =
        ⟨rest, position + (unicodeEscape c).length⟩ := by simp [Cursor.skip]
    rw [readQuotedFrom_escape start bound htext hread, hskip]

/-- A pair of surrogates as it stands in a quoted text is read as its character. -/
theorem readQuotedFrom_pair (start bound position : Nat) {high low : CodePoint}
    (hpair : isPair high low = true) {rest : List CodePoint} (hrest : rest ≠ []) (sofar : List CodePoint) :
    readQuotedFrom start (bound + 1) ⟨escapeChar high ++ (escapeChar low ++ rest), position⟩ sofar =
      readQuotedFrom start bound
        ⟨rest, position + (escapeChar high).length + (escapeChar low).length⟩
        (pairChar high.toNat low.toNat :: sofar) := by
  have hunits := isPair_iff.mp hpair
  obtain ⟨hhigh, hlow⟩ := Bool.and_eq_true_iff.mp hpair
  have hnext : unitEscape low.toNat ++ rest ≠ [] := by simp [unitEscape]
  have hdrop : (hexDigits 4 high.toNat ++ (unitEscape low.toNat ++ rest)).drop 4 =
      unitEscape low.toNat ++ rest := rfl
  obtain ⟨escaped, htext, hread⟩ : ∃ escaped,
      unitEscape high.toNat ++ (unitEscape low.toNat ++ rest) = ('\\' : CodePoint) :: escaped ∧
        readEscape start position escaped = .ok (pairChar high.toNat low.toNat, 12) := by
    refine ⟨('u' : CodePoint) :: (hexDigits 4 high.toNat ++ (unitEscape low.toNat ++ rest)), rfl, ?_⟩
    rw [readEscape, unitOf_hexDigits (by omega) hnext]
    simp only [hhigh, if_true, hdrop, lowUnitOf_unitEscape (show low.toNat < 0x10000 by omega) _ hrest, hlow]
    rfl
  have hskip : (Cursor.mk (unitEscape high.toNat ++ (unitEscape low.toNat ++ rest)) position).skip 12 =
      ⟨rest, position + 6 + 6⟩ := by
    rw [Cursor.skip, show 12 = 6 + 6 from rfl, ← List.drop_drop, drop_unitEscape, drop_unitEscape,
      Nat.add_assoc]
  have hlength (n : Nat) : (unitEscape n).length = 6 := rfl
  rw [escapeChar_of_surrogate (by omega), escapeChar_of_surrogate (by omega), hlength, hlength,
    readQuotedFrom_escape start bound htext hread, hskip]

/-- The code points of a quoted text are read up to its closing quote. -/
theorem readQuotedFrom_escapeChars (start bound position : Nat) (cs sofar rest : List CodePoint)
    (hbound : cs.length < bound) :
    readQuotedFrom start bound ⟨escapeChars cs ++ ('\"' : CodePoint) :: rest, position⟩ sofar =
      .ok (Text.ofList (sofar.reverse ++ mergePairs cs), ⟨rest, position + (escapeChars cs).length + 1⟩) := by
  fun_induction mergePairs cs generalizing bound position sofar with
  | case1 high low cs hpair ih =>
    obtain ⟨bound, rfl⟩ := Nat.exists_eq_succ_of_ne_zero (Nat.ne_zero_of_lt hbound)
    simp only [List.length_cons] at hbound
    rw [escapeChars, escapeChars, List.append_assoc, List.append_assoc,
      readQuotedFrom_pair _ _ _ hpair (by simp), ih bound _ _ (by omega)]
    simp [Nat.add_assoc]
  | case2 high low cs hpair ih =>
    obtain ⟨bound, rfl⟩ := Nat.exists_eq_succ_of_ne_zero (Nat.ne_zero_of_lt hbound)
    rw [escapeChars, List.append_assoc, readQuotedFrom_escapeChar _ _ _ (by simp),
      ih bound _ _ (Nat.lt_of_succ_lt_succ hbound)]
    · simp [Nat.add_assoc]
    · intro hhigh position
      have hlow : isLowUnit low.toNat = false := by
        rw [isPair, hhigh, Bool.true_and] at hpair
        exact Bool.eq_false_iff.mpr hpair
      rw [escapeChars, List.append_assoc]
      exact lowUnitOf_escapeChar hlow position (by simp)
  | case3 cs hshort =>
    obtain ⟨bound, rfl⟩ := Nat.exists_eq_succ_of_ne_zero (Nat.ne_zero_of_lt hbound)
    match cs, hshort with
    | [], _ => simp [escapeChars, readQuotedFrom, Cursor.skip]
    | [c], _ =>
      obtain ⟨bound, rfl⟩ := Nat.exists_eq_succ_of_ne_zero
        (Nat.ne_zero_of_lt (Nat.lt_of_succ_lt_succ hbound))
      rw [escapeChars, List.append_assoc, readQuotedFrom_escapeChar _ _ _ (by simp [escapeChars])]
      · simp [escapeChars, readQuotedFrom, Cursor.skip]
      · exact fun _ position => rfl
    | high :: low :: rest, hshort => exact absurd rfl (hshort high low rest)

/-- A quoted text has no fewer code points than the text. -/
theorem length_le_length_escapeChars (cs : List CodePoint) : cs.length ≤ (escapeChars cs).length := by
  induction cs with
  | nil => exact Nat.le_refl 0
  | cons c cs ih =>
    have hpos : 0 < (escapeChar c).length := by
      unfold escapeChar unicodeEscape unitEscape
      split_ifs <;> simp
    rw [escapeChars, List.length_append, List.length_cons]
    omega

/-- Reading a quoted text gives the text, but for the pairs, and takes it up to its last character. -/
theorem readQuoted_quote (s : Text) :
    readQuoted ⟨(quote s).toList, 0⟩ = .ok (s.merged, ⟨[], (quote s).toList.length⟩) := by
  have hbound := length_le_length_escapeChars s.toList
  rw [toList_quote, readQuoted]
  change readQuotedFrom 0 _ ⟨escapeChars s.toList ++ ('\"' : CodePoint) :: [], 1⟩ [] = _
  rw [readQuotedFrom_escapeChars _ _ _ _ _ _ (by simp; omega)]
  simp only [List.reverse_nil, List.nil_append, merged, List.length_cons,
    List.length_append, List.length_nil]
  congr 3
  omega

end SchemaTypes.Text
