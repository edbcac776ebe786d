import Queueing.Proofs.Json.Grammar

/-!
# Reading what was written

Compact and indented writing differ in the blanks between the parts of a document only
(`Spacing`). However a value was spaced, its text spells it part by part: characters of strings
by their escapes, numbers by their numerals, and items and members in their order
(`Reading.spells_chars`). The text of a value thus determines everything but what is lost when its
numerals are turned into numbers (`Reading.ofText_compact`, `Reading.ofText_pretty`).
-/

namespace Queueing.Json

/-! ## Values that can be written -/

namespace Value

mutual

def Finite : Value → Prop
  | .number n => n.Finite
  | .array items => FiniteItems items
  | .object members => FiniteMembers members
  | _ => True

def FiniteItems : List Value → Prop
  | [] => True
  | v :: rest => Finite v ∧ FiniteItems rest

def FiniteMembers : List (String × Value) → Prop
  | [] => True
  | (_, v) :: rest => Finite v ∧ FiniteMembers rest

end

end Value

theorem finiteItems_iff {items : List Value} :
    Value.FiniteItems items ↔ ∀ v ∈ items, v.Finite := by
  induction items with
  | nil => simp [Value.FiniteItems]
  | cons v items ih => simp [Value.FiniteItems, ih]

theorem finiteMembers_iff {members : List (String × Value)} :
    Value.FiniteMembers members ↔ ∀ m ∈ members, m.2.Finite := by
  induction members with
  | nil => simp [Value.FiniteMembers]
  | cons m members ih => simp [Value.FiniteMembers, ih]

/-! ## Spacing -/

/-- The blanks that are put before an item or a closing bracket, and after a colon. -/
structure Spacing where
  line : ℕ → List Char
  gap : List Char
  blank_line : ∀ level, ∀ c ∈ line level, Reading.isBlank c = true
  blank_gap : ∀ c ∈ gap, Reading.isBlank c = true

namespace Spacing

def none : Spacing where
  line _ := []
  gap := []
  blank_line := by simp
  blank_gap := by simp

def lines : Spacing where
  line := Value.newLine
  gap := [' ']
  blank_line := by
    intro level c hc
    rcases List.mem_cons.mp hc with rfl | hc
    · rfl
    · rw [List.eq_of_mem_replicate hc]
      rfl
  blank_gap := by simp [Reading.isBlank]

end Spacing

namespace Value

mutual

def chars (s : Spacing) (level : ℕ) : Value → List Char
  | .array (v :: rest) =>
    '[' :: (s.line (level + 1) ++ (chars s (level + 1) v ++ itemChars s level rest))
  | .object ((k, v) :: rest) =>
    '\x7b' :: (s.line (level + 1) ++ (quoted k ++ (':' :: (s.gap ++
      (chars s (level + 1) v ++ memberChars s level rest)))))
  | v => compactChars v

def itemChars (s : Spacing) (level : ℕ) : List Value → List Char
  | [] => s.line level ++ [']']
  | v :: rest =>
    ',' :: (s.line (level + 1) ++ (chars s (level + 1) v ++ itemChars s level rest))

def memberChars (s : Spacing) (level : ℕ) : List (String × Value) → List Char
  | [] => s.line level ++ ['\x7d']
  | (k, v) :: rest =>
    ',' :: (s.line (level + 1) ++ (quoted k ++ (':' :: (s.gap ++
      (chars s (level + 1) v ++ memberChars s level rest)))))

end

mutual

theorem compactChars_eq (level : ℕ) : (v : Value) → v.compactChars = v.chars .none level
  | .null | .bool _ | .number _ | .string _ | .array [] | .object [] => rfl
  | .array (v :: rest) => by
    simp [compactChars, chars, Spacing.none, compactChars_eq (level + 1) v,
      compactItems_eq level rest]
  | .object ((k, v) :: rest) => by
    simp [compactChars, chars, Spacing.none, compactChars_eq (level + 1) v,
      compactMembers_eq level rest]

theorem compactItems_eq (level : ℕ) :
    (items : List Value) → compactItems items = itemChars .none level items
  | [] => rfl
  | v :: rest => by
    simp [compactItems, itemChars, Spacing.none, compactChars_eq (level + 1) v,
      compactItems_eq level rest]

theorem compactMembers_eq (level : ℕ) :
    (members : List (String × Value)) → compactMembers members = memberChars .none level members
  | [] => rfl
  | (k, v) :: rest => by
    simp [compactMembers, memberChars, Spacing.none, compactChars_eq (level + 1) v,
      compactMembers_eq level rest]

end

mutual

theorem prettyChars_eq (level : ℕ) : (v : Value) → v.prettyChars level = v.chars .lines level
  | .null | .bool _ | .number _ | .string _ | .array [] | .object [] => rfl
  | .array (v :: rest) => by
    simp [prettyChars, chars, Spacing.lines, prettyChars_eq (level + 1) v,
      prettyItems_eq level rest]
  | .object ((k, v) :: rest) => by
    simp [prettyChars, chars, Spacing.lines, prettyChars_eq (level + 1) v,
      prettyMembers_eq level rest]

theorem prettyItems_eq (level : ℕ) :
    (items : List Value) → prettyItems level items = itemChars .lines level items
  | [] => rfl
  | v :: rest => by
    simp [prettyItems, itemChars, Spacing.lines, prettyChars_eq (level + 1) v,
      prettyItems_eq level rest]

theorem prettyMembers_eq (level : ℕ) :
    (members : List (String × Value)) →
      prettyMembers level members = memberChars .lines level members
  | [] => rfl
  | (k, v) :: rest => by
    simp [prettyMembers, memberChars, Spacing.lines, prettyChars_eq (level + 1) v,
      prettyMembers_eq level rest]

end

end Value

namespace Reading

/-! ## Strings -/

/-- What is read for a character: control characters that have no short escape come back as
units. -/
def pieceOf (c : Char) : Piece :=
  if c.toNat < 0x20 ∧ c ∉ ['\x08', '\t', '\n', '\x0c', '\r'] then .unit c.toNat else .char c

theorem hexValue?_hexDigit : ∀ d < 16, hexValue? (Sha256.hexDigit d) = some d := by
  decide

theorem spells_escapeChar (c : Char) {cs : List Char} {ps : List Piece}
    (rest : SpellsString cs ps) : SpellsString (escapeChar c ++ cs) (pieceOf c :: ps) := by
  by_cases hquote : c = '"'
  · subst hquote
    exact .escape rfl rest
  by_cases hslash : c = '\\'
  · subst hslash
    exact .escape rfl rest
  by_cases hback : c = '\x08'
  · subst hback
    exact .escape rfl rest
  by_cases htab : c = '\t'
  · subst htab
    exact .escape rfl rest
  by_cases hline : c = '\n'
  · subst hline
    exact .escape rfl rest
  by_cases hfeed : c = '\x0c'
  · subst hfeed
    exact .escape rfl rest
  by_cases hreturn : c = '\r'
  · subst hreturn
    exact .escape rfl rest
  by_cases hcontrol : c.toNat < 0x20
  · have hhigh := hexValue?_hexDigit (c.toNat / 16) (by omega)
    have hlow := hexValue?_hexDigit (c.toNat % 16) (by omega)
    have hunit := SpellsString.unit (a := '0') (b := '0') rfl rfl hhigh hlow rest
    rw [Nat.div_add_mod'] at hunit
    simpa [escapeChar, pieceOf, hquote, hslash, hback, htab, hline, hfeed, hreturn,
      hcontrol] using hunit
  · simpa [escapeChar, pieceOf, hquote, hslash, hback, htab, hline, hfeed, hreturn, hcontrol]
      using SpellsString.char hquote hslash (by omega) rest

/-- A unit that is a control character makes up this character, whatever follows. -/
theorem assemble?_unit {n : ℕ} (hn : n < 0x20) (ps : List Piece) :
    assemble? (.unit n :: ps) = (assemble? ps).map (Char.ofNat n :: ·) := by
  have hhigh : isHighSurrogate n = false := by
    simp [isHighSurrogate]
    omega
  have hlow : isLowSurrogate n = false := by
    simp [isLowSurrogate]
    omega
  cases ps with
  | nil => simp [assemble?, hhigh, hlow]
  | cons p ps =>
    cases p with
    | char c => simp [assemble?, hhigh, hlow]
    | unit low => simp [assemble?, hhigh, hlow]

/-- **A string is assembled from the pieces of its characters.** -/
theorem assemble?_pieceOf (cs : List Char) : assemble? (cs.map pieceOf) = some cs := by
  induction cs with
  | nil => rfl
  | cons c cs ih =>
    rw [List.map_cons, pieceOf]
    split_ifs with hcontrol
    · rw [assemble?_unit hcontrol.1, ih, Option.map_some, Char.ofNat_toNat]
    · rw [assemble?, ih, Option.map_some]

theorem spells_escaped (cs : List Char) :
    SpellsString (cs.flatMap escapeChar) (cs.map pieceOf) := by
  induction cs with
  | nil => exact .nil
  | cons c cs ih =>
    rw [List.flatMap_cons, List.map_cons]
    exact spells_escapeChar c ih

theorem assembled (s : String) :
    (assemble? (s.toList.map pieceOf)).map String.ofList = some s := by
  rw [assemble?_pieceOf, Option.map_some, String.ofList_toList]

/-! ## Values -/

mutual

/-- What is read for a value: numbers are left as numerals. -/
def ofValue : Value → Reading
  | .null => .null
  | .bool b => .bool b
  | .number n => .number (.ofNumber n)
  | .string s => .string (some s)
  | .array items => .array (ofItems items) true
  | .object members => .object (ofMembers members) true

def ofItems : List Value → List Reading
  | [] => []
  | v :: rest => ofValue v :: ofItems rest

def ofMembers : List (String × Value) → List (Reading × Reading)
  | [] => []
  | (k, v) :: rest => (.string (some k), ofValue v) :: ofMembers rest

end

mutual

theorem ofValue_injective : (v w : Value) → v.Finite → w.Finite → ofValue v = ofValue w → v = w
  | .null, w, _, _, h => by
    cases w <;> first | rfl | cases h
  | .bool b, w, _, _, h => by
    cases w <;> cases h
    rfl
  | .number n, w, hv, hw, h => by
    cases w with
    | number m => rw [ofNumber_injective hv hw (Reading.number.inj h)]
    | _ => cases h
  | .string s, w, _, _, h => by
    cases w <;> cases h
    rfl
  | .array items, w, hv, hw, h => by
    cases w with
    | array items' => rw [ofItems_injective items items' hv hw (Reading.array.inj h).1]
    | _ => cases h
  | .object members, w, hv, hw, h => by
    cases w with
    | object members' => rw [ofMembers_injective members members' hv hw (Reading.object.inj h).1]
    | _ => cases h

theorem ofItems_injective : (items items' : List Value) → Value.FiniteItems items →
    Value.FiniteItems items' → ofItems items = ofItems items' → items = items'
  | [], [], _, _, _ => rfl
  | [], _ :: _, _, _, h => by cases h
  | _ :: _, [], _, _, h => by cases h
  | v :: rest, w :: rest', ⟨hv, hrest⟩, ⟨hw, hrest'⟩, h => by
    obtain ⟨hfirst, hothers⟩ := List.cons.inj h
    rw [ofValue_injective v w hv hw hfirst, ofItems_injective rest rest' hrest hrest' hothers]

theorem ofMembers_injective : (members members' : List (String × Value)) →
    Value.FiniteMembers members → Value.FiniteMembers members' →
    ofMembers members = ofMembers members' → members = members'
  | [], [], _, _, _ => rfl
  | [], _ :: _, _, _, h => by cases h
  | _ :: _, [], _, _, h => by cases h
  | (k, v) :: rest, (k', w) :: rest', ⟨hv, hrest⟩, ⟨hw, hrest'⟩, h => by
    obtain ⟨hfirst, hothers⟩ := List.cons.inj h
    obtain ⟨hkey, hvalue⟩ := Prod.mk.inj hfirst
    rw [Option.some.inj (Reading.string.inj hkey), ofValue_injective v w hv hw hvalue,
      ofMembers_injective rest rest' hrest hrest' hothers]

end

theorem spells_quoted (s : String) : Spells (quoted s) (.string (some s)) := by
  rw [← assembled s]
  exact .string (spells_escaped s.toList)

theorem spells_number {n : Number} (hn : n.Finite) : Spells n.chars (.number (.ofNumber n)) := by
  rw [Number.chars_eq hn]
  exact .number (Numeral.spells_chars (Numeral.spelled_ofNumber n))

theorem spells_member {gap cs : List Char} (hgap : Blank gap) {item : Reading} (k : String)
    (h : Spells cs item) :
    SpellsMember (quoted k ++ (':' :: (gap ++ cs))) (.string (some k), item) := by
  have hmember := SpellsMember.intro (spells_escaped k.toList) .nil hgap h
  rw [assembled] at hmember
  simpa [quoted] using hmember

mutual

/-- **The characters of a value spell it**, with any spacing. -/
theorem spells_chars (s : Spacing) (level : ℕ) : (v : Value) → v.Finite →
    Spells (v.chars s level) (ofValue v)
  | .null, _ => .nullWord
  | .bool true, _ => .trueWord
  | .bool false, _ => .falseWord
  | .string k, _ => spells_quoted k
  | .number _, hn => spells_number hn
  | .array [], _ => .noItems .nil
  | .object [], _ => .noMembers .nil
  | .array (v :: items), ⟨hv, hitems⟩ => by
    obtain ⟨inner, hinner, hspelled⟩ := spells_itemChars s level items hitems
      (s.blank_line (level + 1)) (spells_chars s (level + 1) v hv)
    rw [Value.chars, hinner]
    exact .array hspelled
  | .object ((k, v) :: members), ⟨hv, hmembers⟩ => by
    obtain ⟨inner, hinner, hspelled⟩ := spells_memberChars s level members hmembers
      (s.blank_line (level + 1)) (spells_member s.blank_gap k (spells_chars s (level + 1) v hv))
    simp only [List.append_assoc, List.cons_append] at hinner
    rw [Value.chars, hinner]
    exact .object hspelled

theorem spells_itemChars (s : Spacing) (level : ℕ) : (items : List Value) →
    Value.FiniteItems items →
    ∀ {before cs : List Char} {item : Reading}, Blank before → Spells cs item →
      ∃ inner, before ++ (cs ++ Value.itemChars s level items) = inner ++ [']'] ∧
        SpellsItems inner (item :: ofItems items)
  | [], _, before, cs, _, hbefore, h =>
    ⟨before ++ (cs ++ s.line level), by simp [Value.itemChars],
      .last hbefore h (s.blank_line level)⟩
  | v :: items, ⟨hv, hitems⟩, before, cs, _, hbefore, h => by
    obtain ⟨inner, hinner, hspelled⟩ := spells_itemChars s level items hitems
      (s.blank_line (level + 1)) (spells_chars s (level + 1) v hv)
    refine ⟨before ++ (cs ++ ',' :: inner), ?_, .next hbefore h .nil hspelled⟩
    rw [Value.itemChars, hinner]
    simp only [List.append_assoc, List.cons_append]

theorem spells_memberChars (s : Spacing) (level : ℕ) : (members : List (String × Value)) →
    Value.FiniteMembers members →
    ∀ {before cs : List Char} {member : Reading × Reading}, Blank before →
      SpellsMember cs member →
      ∃ inner, before ++ (cs ++ Value.memberChars s level members) = inner ++ ['\x7d'] ∧
        SpellsMembers inner (member :: ofMembers members)
  | [], _, before, cs, _, hbefore, h =>
    ⟨before ++ (cs ++ s.line level), by simp [Value.memberChars],
      .last hbefore h (s.blank_line level)⟩
  | (k, v) :: members, ⟨hv, hmembers⟩, before, cs, _, hbefore, h => by
    obtain ⟨inner, hinner, hspelled⟩ := spells_memberChars s level members hmembers
      (s.blank_line (level + 1)) (spells_member s.blank_gap k (spells_chars s (level + 1) v hv))
    simp only [List.append_assoc, List.cons_append] at hinner
    refine ⟨before ++ (cs ++ ',' :: inner), ?_, .next hbefore h .nil hspelled⟩
    rw [Value.memberChars, hinner]
    simp only [List.append_assoc, List.cons_append]

end

/-! ## Texts -/

theorem spellsText_chars (s : Spacing) (level : ℕ) {v : Value} (hv : v.Finite) :
    SpellsText (String.ofList (v.chars s level)) (ofValue v) := by
  refine .intro ?_ .nil (spells_chars s level v hv) .nil
  simp

theorem spellsText_compact {v : Value} (hv : v.Finite) : SpellsText v.compact (ofValue v) := by
  rw [Value.compact, v.compactChars_eq 0]
  exact spellsText_chars .none 0 hv

theorem spellsText_pretty {v : Value} (hv : v.Finite) : SpellsText v.pretty (ofValue v) := by
  rw [Value.pretty, v.prettyChars_eq 0]
  exact spellsText_chars .lines 0 hv

/-- **Compact text is read back.** -/
theorem ofText_compact {v : Value} (hv : v.Finite) : ofText v.compact = (ofValue v, true) :=
  ofText_spelled (spellsText_compact hv)

theorem compact_injective {v w : Value} (hv : v.Finite) (hw : w.Finite)
    (h : v.compact = w.compact) : v = w := by
  have hread := ofText_compact hv
  rw [h, ofText_compact hw] at hread
  exact ofValue_injective v w hv hw (Prod.mk.inj hread).1.symm

/-- **Indented text is read back**, as the same. -/
theorem ofText_pretty {v : Value} (hv : v.Finite) : ofText v.pretty = (ofValue v, true) :=
  ofText_spelled (spellsText_pretty hv)

end Reading

end Queueing.Json
