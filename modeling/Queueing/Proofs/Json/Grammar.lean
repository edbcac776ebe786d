import Queueing.Proofs.Json.Numerals

/-!
# The grammar of documents

The relations below say which texts are JSON, and what is found in them, without saying how they are
read: blanks may stand between any two parts, a character of a string may be spelled by an escape,
and an exponent with either letter and with or without a sign. Every text of the grammar is read as
what it spells (`Reading.value_spelled`, `Reading.ofText_spelled`).
-/

namespace Queueing.Json.Reading

/-! ## Blanks -/

def Blank (cs : List Char) : Prop := ∀ c ∈ cs, isBlank c = true

theorem Blank.nil : Blank [] := by
  simp [Blank]

theorem skipBlanks_append {blanks : List Char} (h : Blank blanks) {c : Char}
    (hc : isBlank c = false) (cs : List Char) : skipBlanks (blanks ++ c :: cs) = c :: cs := by
  rw [skipBlanks, List.dropWhile_append_of_pos h, List.dropWhile_cons_of_neg (by simp [hc])]

theorem ends_cons {b : Char} (hb : isBlank b = true) (cs : List Char) : Numeral.Ends (b :: cs) := by
  rintro _ ⟨⟩
  simp only [isBlank, Bool.or_eq_true, beq_iff_eq] at hb
  rcases hb with ((rfl | rfl) | rfl) | rfl <;> decide

theorem ends_append {blanks : List Char} (h : Blank blanks) {c : Char}
    (hc : c = ',' ∨ c = ']' ∨ c = '\x7d') (cs : List Char) :
    Numeral.Ends (blanks ++ c :: cs) := by
  cases blanks with
  | nil =>
    rintro _ ⟨⟩
    rcases hc with rfl | rfl | rfl <;> decide
  | cons b blanks => exact ends_cons (h b List.mem_cons_self) _

theorem Blank.ends {blanks : List Char} (h : Blank blanks) : Numeral.Ends blanks := by
  cases blanks with
  | nil => rintro _ ⟨⟩
  | cons b blanks => exact ends_cons (h b List.mem_cons_self) _

/-! ## Strings -/

/-- The characters between the quotes of a string, and the pieces that they stand for. -/
inductive SpellsString : List Char → List Piece → Prop
  | nil : SpellsString [] []
  | char {c : Char} {cs : List Char} {ps : List Piece} (hquote : c ≠ '"') (hslash : c ≠ '\\')
      (hcontrol : 0x20 ≤ c.toNat) (rest : SpellsString cs ps) :
      SpellsString (c :: cs) (.char c :: ps)
  | escape {e c : Char} {cs : List Char} {ps : List Piece} (h : shortEscape? e = some c)
      (rest : SpellsString cs ps) : SpellsString ('\\' :: e :: cs) (.char c :: ps)
  | unit {a b c d : Char} {w x y z : ℕ} {cs : List Char} {ps : List Piece}
      (ha : hexValue? a = some w) (hb : hexValue? b = some x) (hc : hexValue? c = some y)
      (hd : hexValue? d = some z) (rest : SpellsString cs ps) :
      SpellsString ('\\' :: 'u' :: a :: b :: c :: d :: cs)
        (.unit ((w * 16 + x) * 256 + (y * 16 + z)) :: ps)

/-- **A string is read piece by piece** up to its closing quote. -/
theorem pieces?_spelled {cs : List Char} {ps : List Piece} (h : SpellsString cs ps)
    (rest : List Char) : pieces? (cs ++ '"' :: rest) = some (ps, rest) := by
  induction h with
  | nil => rfl
  | @char c cs ps hquote hslash hcontrol _ ih =>
    rw [List.cons_append, pieces?, if_neg (by simp [hslash]; omega), ih]
    · rfl
    · exact hquote
    · exact fun _ _ _ _ _ heq => absurd heq hslash
    · exact fun _ _ heq => absurd heq hslash
  | @escape e c cs ps hshort _ ih =>
    have hu : e ≠ 'u' := by
      rintro rfl
      cases hshort
    rw [List.cons_append, List.cons_append, pieces?, hshort]
    · simp only [Option.bind_eq_bind, Option.bind_some, ih, Option.pure_def]
    · exact fun _ _ _ _ _ heq => absurd heq hu
  | unit ha hb hc hd _ ih =>
    simp only [List.cons_append, pieces?, ha, hb, hc, hd, ih, Option.bind_eq_bind,
      Option.bind_some, Option.pure_def]

/-! ## Values -/

mutual

/-- The text of a value, and what is found in it. -/
inductive Spells : List Char → Reading → Prop
  | nullWord : Spells ['n', 'u', 'l', 'l'] .null
  | trueWord : Spells ['t', 'r', 'u', 'e'] (.bool true)
  | falseWord : Spells ['f', 'a', 'l', 's', 'e'] (.bool false)
  | number {cs : List Char} {n : Numeral} (h : Numeral.Spells cs n) : Spells cs (.number n)
  | string {cs : List Char} {ps : List Piece} (h : SpellsString cs ps) :
      Spells ('"' :: (cs ++ ['"'])) (.string ((assemble? ps).map String.ofList))
  | noItems {cs : List Char} (h : Blank cs) :
      Spells ('[' :: (cs ++ [']'])) (.array [] true)
  | array {cs : List Char} {items : List Reading} (h : SpellsItems cs items) :
      Spells ('[' :: (cs ++ [']'])) (.array items true)
  | noMembers {cs : List Char} (h : Blank cs) :
      Spells ('\x7b' :: (cs ++ ['\x7d'])) (.object [] true)
  | object {cs : List Char} {members : List (Reading × Reading)}
      (h : SpellsMembers cs members) :
      Spells ('\x7b' :: (cs ++ ['\x7d'])) (.object members true)

/-- Items between commas. -/
inductive SpellsItems : List Char → List Reading → Prop
  | last {before cs after : List Char} {item : Reading} (hbefore : Blank before)
      (h : Spells cs item) (hafter : Blank after) :
      SpellsItems (before ++ (cs ++ after)) [item]
  | next {before cs after more : List Char} {item : Reading} {items : List Reading}
      (hbefore : Blank before) (h : Spells cs item) (hafter : Blank after)
      (rest : SpellsItems more items) :
      SpellsItems (before ++ (cs ++ (after ++ ',' :: more))) (item :: items)

/-- A key, a colon and a value. -/
inductive SpellsMember : List Char → Reading × Reading → Prop
  | intro {key gap before cs : List Char} {ps : List Piece} {item : Reading}
      (hkey : SpellsString key ps) (hgap : Blank gap) (hbefore : Blank before)
      (h : Spells cs item) :
      SpellsMember ('"' :: (key ++ '"' :: (gap ++ ':' :: (before ++ cs))))
        (.string ((assemble? ps).map String.ofList), item)

/-- Members between commas. -/
inductive SpellsMembers : List Char → List (Reading × Reading) → Prop
  | last {before cs after : List Char} {member : Reading × Reading} (hbefore : Blank before)
      (h : SpellsMember cs member) (hafter : Blank after) :
      SpellsMembers (before ++ (cs ++ after)) [member]
  | next {before cs after more : List Char} {member : Reading × Reading}
      {members : List (Reading × Reading)} (hbefore : Blank before)
      (h : SpellsMember cs member) (hafter : Blank after)
      (rest : SpellsMembers more members) :
      SpellsMembers (before ++ (cs ++ (after ++ ',' :: more))) (member :: members)

end

/-! ## What a text begins with -/

theorem exists_cons_of_numeral {cs : List Char} {n : Numeral} (h : Numeral.Spells cs n) :
    ∃ c rest, cs = c :: rest ∧ (c = '-' ∨ c.isDigit = true) := by
  obtain ⟨hn, -⟩ := h
  obtain ⟨negative, whole, fraction, exponent⟩ := n
  cases negative with
  | true => exact ⟨'-', _, rfl, Or.inl rfl⟩
  | false =>
    obtain ⟨c, cs, rfl⟩ := List.exists_cons_of_ne_nil hn.nonempty
    exact ⟨c, _, rfl, Or.inr (hn.whole c List.mem_cons_self)⟩

theorem head_of_numeral {c : Char} (hc : c = '-' ∨ c.isDigit = true) :
    isBlank c = false ∧ ∀ d ∈ ['n', 't', 'f', '"', '[', ']', '\x7b', '\x7d'], c ≠ d := by
  rcases hc with rfl | hc
  · exact ⟨rfl, by simp⟩
  · have hne : ∀ d : Char, d.isDigit = false → c ≠ d := by
      rintro d hd rfl
      rw [hc] at hd
      cases hd
    refine ⟨?_, by simp [hne]⟩
    simp [isBlank, hne]

theorem ofScalar_cons {c : Char} (hc : c = '-' ∨ c.isDigit = true) (cs : List Char) :
    ofScalar (c :: cs) = match numeral? (c :: cs) with
      | some (n, rest) => (.number n, some rest)
      | none => (.broken, none) := by
  have hne := (head_of_numeral hc).2
  rw [ofScalar.eq_def]
  split
  next h => exact absurd (List.cons.inj h).1 (hne 'n' (by simp))
  next h => exact absurd (List.cons.inj h).1 (hne 't' (by simp))
  next h => exact absurd (List.cons.inj h).1 (hne 'f' (by simp))
  next h => exact absurd (List.cons.inj h).1 (hne '"' (by simp))
  next => rfl

/-- A value begins with something that no blank and no closing bracket is. -/
theorem Spells.exists_cons {cs : List Char} {r : Reading} (h : Spells cs r) :
    ∃ c rest, cs = c :: rest ∧ isBlank c = false ∧ c ≠ ']' := by
  cases h with
  | number h =>
    obtain ⟨c, rest, rfl, hc⟩ := exists_cons_of_numeral h
    obtain ⟨hblank, hne⟩ := head_of_numeral hc
    exact ⟨c, rest, rfl, hblank, hne ']' (by simp)⟩
  | nullWord => exact ⟨_, _, rfl, by decide⟩
  | trueWord => exact ⟨_, _, rfl, by decide⟩
  | falseWord => exact ⟨_, _, rfl, by decide⟩
  | string _ => exact ⟨_, _, rfl, by decide⟩
  | noItems _ => exact ⟨_, _, rfl, by decide⟩
  | array _ => exact ⟨_, _, rfl, by decide⟩
  | noMembers _ => exact ⟨_, _, rfl, by decide⟩
  | object _ => exact ⟨_, _, rfl, by decide⟩

theorem SpellsItems.exists_cons {cs : List Char} {items : List Reading}
    (h : SpellsItems cs items) :
    ∃ before c rest, cs = before ++ c :: rest ∧ Blank before ∧ isBlank c = false ∧ c ≠ ']' := by
  cases h with
  | last hbefore h _ =>
    obtain ⟨c, rest, rfl, hc⟩ := h.exists_cons
    exact ⟨_, c, _, rfl, hbefore, hc⟩
  | next hbefore h _ _ =>
    obtain ⟨c, rest, rfl, hc⟩ := h.exists_cons
    exact ⟨_, c, _, rfl, hbefore, hc⟩

theorem SpellsMembers.exists_cons {cs : List Char} {members : List (Reading × Reading)}
    (h : SpellsMembers cs members) :
    ∃ before rest, cs = before ++ '"' :: rest ∧ Blank before := by
  cases h with
  | last hbefore h _ =>
    cases h
    exact ⟨_, _, rfl, hbefore⟩
  | next hbefore h _ _ =>
    cases h
    exact ⟨_, _, rfl, hbefore⟩

/-! ## Reading what is spelled -/

variable {fuel : ℕ} {blanks cs : List Char}

theorem value_skipBlanks (fuel : ℕ) (cs : List Char) :
    value fuel (skipBlanks cs) = value fuel cs := by
  cases fuel with
  | zero => rfl
  | succ fuel =>
    have hskip : skipBlanks (skipBlanks cs) = skipBlanks cs :=
      List.dropWhile_idempotent _ _
    rw [value, value, hskip]

theorem items_skipBlanks (fuel : ℕ) (cs : List Char) :
    items fuel (skipBlanks cs) = items fuel cs := by
  cases fuel with
  | zero => rfl
  | succ fuel => rw [items, items, value_skipBlanks]

theorem members_skipBlanks (fuel : ℕ) (cs : List Char) :
    members fuel (skipBlanks cs) = members fuel cs := by
  cases fuel with
  | zero => rfl
  | succ fuel => rw [members, members, value_skipBlanks]

def itemsAfter (fuel : ℕ) (item : Reading) (cs : List Char) :
    List Reading × Option (List Char) :=
  match skipBlanks cs with
  | ']' :: rest => ([item], some rest)
  | ',' :: cs => (item :: (items fuel cs).1, (items fuel cs).2)
  | _ => ([item], none)

theorem items_succ {rest : List Char} {item : Reading}
    (h : value fuel cs = (item, some rest)) :
    items (fuel + 1) cs = itemsAfter fuel item rest := by
  rw [items, h]
  rfl

def membersAfter (fuel : ℕ) (member : Reading × Reading) (cs : List Char) :
    List (Reading × Reading) × Option (List Char) :=
  match skipBlanks cs with
  | '\x7d' :: rest => ([member], some rest)
  | ',' :: cs => (member :: (members fuel cs).1, (members fuel cs).2)
  | _ => ([member], none)

theorem members_succ {after cs' rest : List Char} {key : Option String} {item : Reading}
    (hkey : value fuel cs = (.string key, some after)) (hcolon : skipBlanks after = ':' :: cs')
    (hitem : value fuel cs' = (item, some rest)) :
    members (fuel + 1) cs = membersAfter fuel (.string key, item) rest := by
  simp only [members, hkey, hcolon, hitem]
  rfl

theorem value_scalar (h : Blank blanks) {c : Char} (hc : isBlank c = false)
    (hbracket : c ≠ '[') (hbrace : c ≠ '\x7b') (cs : List Char) :
    value (fuel + 1) (blanks ++ c :: cs) = ofScalar (c :: cs) := by
  rw [value, skipBlanks_append h hc]
  split
  · case h_1 heq => exact absurd (List.cons.inj heq).1 hbracket
  · case h_2 heq => exact absurd (List.cons.inj heq).1 hbrace
  · rfl

theorem value_array (h : Blank blanks) {cs' : List Char} {c : Char}
    (hcs : skipBlanks cs = c :: cs') (hc : c ≠ ']') {found : List Reading}
    {rest : Option (List Char)} (hitems : items fuel cs = (found, rest)) :
    value (fuel + 1) (blanks ++ '[' :: cs) = (.array found rest.isSome, rest) := by
  rw [← items_skipBlanks, hcs] at hitems
  rw [value, skipBlanks_append h rfl]
  simp only [hcs]
  split
  · case h_1 heq => exact absurd (List.cons.inj heq).1 hc
  · rw [hitems]

theorem value_object (h : Blank blanks) {cs' : List Char} {c : Char}
    (hcs : skipBlanks cs = c :: cs') (hc : c ≠ '\x7d') {found : List (Reading × Reading)}
    {rest : Option (List Char)} (hmembers : members fuel cs = (found, rest)) :
    value (fuel + 1) (blanks ++ '\x7b' :: cs) = (.object found rest.isSome, rest) := by
  rw [← members_skipBlanks, hcs] at hmembers
  rw [value, skipBlanks_append h rfl]
  simp only [hcs]
  split
  · case h_1 heq => exact absurd (List.cons.inj heq).1 hc
  · rw [hmembers]

theorem value_string (fuel : ℕ) (h : Blank blanks) {ps : List Piece} (hs : SpellsString cs ps)
    (rest : List Char) :
    value (fuel + 1) (blanks ++ '"' :: (cs ++ '"' :: rest)) =
      (.string ((assemble? ps).map String.ofList), some rest) := by
  rw [value_scalar h rfl (by decide) (by decide)]
  show ofString _ = _
  simp only [ofString, pieces?_spelled hs]

theorem exists_fuel {r : Reading} (h : Spells cs r) (hfuel : 2 * cs.length ≤ fuel) :
    ∃ n, fuel = n + 1 := by
  obtain ⟨c, rest, rfl, -⟩ := h.exists_cons
  rw [List.length_cons] at hfuel
  exact Nat.exists_eq_add_of_le' (by omega)

theorem value_numeral (h : Blank blanks) {n : Numeral} (hn : Numeral.Spells cs n)
    {rest : List Char} (hrest : Numeral.Ends rest) :
    value (fuel + 1) (blanks ++ (cs ++ rest)) = (.number n, some rest) := by
  have hnumeral := Numeral.numeral?_spelled hn hrest
  obtain ⟨c, cs, rfl, hc⟩ := exists_cons_of_numeral hn
  obtain ⟨hblank, hne⟩ := head_of_numeral hc
  rw [List.cons_append] at hnumeral ⊢
  rw [value_scalar h hblank (hne '[' (by simp)) (hne '\x7b' (by simp)), ofScalar_cons hc, hnumeral]

theorem value_empty (h : Blank blanks) (hcs : Blank cs) (rest : List Char) :
    value (fuel + 1) (blanks ++ '[' :: (cs ++ ']' :: rest)) = (.array [] true, some rest) ∧
      value (fuel + 1) (blanks ++ '\x7b' :: (cs ++ '\x7d' :: rest)) =
        (.object [] true, some rest) := by
  constructor
  · rw [value, skipBlanks_append h rfl]
    simp only [skipBlanks_append hcs (show isBlank ']' = false from rfl)]
  · rw [value, skipBlanks_append h rfl]
    simp only [skipBlanks_append hcs (show isBlank '\x7d' = false from rfl)]

theorem itemsAfter_last (h : Blank blanks) (item : Reading) (rest : List Char) :
    itemsAfter fuel item (blanks ++ ']' :: rest) = ([item], some rest) := by
  simp only [itemsAfter, skipBlanks_append h (show isBlank ']' = false from rfl)]

theorem itemsAfter_next (h : Blank blanks) (item : Reading) {found : List Reading}
    {rest : Option (List Char)} (hmore : items fuel cs = (found, rest)) :
    itemsAfter fuel item (blanks ++ ',' :: cs) = (item :: found, rest) := by
  simp only [itemsAfter, skipBlanks_append h (show isBlank ',' = false from rfl), hmore]

theorem membersAfter_last (h : Blank blanks) (member : Reading × Reading) (rest : List Char) :
    membersAfter fuel member (blanks ++ '\x7d' :: rest) = ([member], some rest) := by
  simp only [membersAfter, skipBlanks_append h (show isBlank '\x7d' = false from rfl)]

theorem membersAfter_next (h : Blank blanks) (member : Reading × Reading)
    {found : List (Reading × Reading)} {rest : Option (List Char)}
    (hmore : members fuel cs = (found, rest)) :
    membersAfter fuel member (blanks ++ ',' :: cs) = (member :: found, rest) := by
  simp only [membersAfter, skipBlanks_append h (show isBlank ',' = false from rfl), hmore]

mutual

/-- **A value is read as it is spelled**, after any blanks. -/
theorem value_spelled : {cs : List Char} → {r : Reading} → Spells cs r →
    ∀ (fuel : ℕ) (blanks rest : List Char), Blank blanks → Numeral.Ends rest →
      2 * cs.length ≤ fuel → value fuel (blanks ++ (cs ++ rest)) = (r, some rest)
  | _, _, .nullWord, fuel, blanks, rest, hb, _, hfuel => by
    obtain ⟨fuel, rfl⟩ := exists_fuel .nullWord hfuel
    exact value_scalar hb rfl (by decide) (by decide) _
  | _, _, .trueWord, fuel, blanks, rest, hb, _, hfuel => by
    obtain ⟨fuel, rfl⟩ := exists_fuel .trueWord hfuel
    exact value_scalar hb rfl (by decide) (by decide) _
  | _, _, .falseWord, fuel, blanks, rest, hb, _, hfuel => by
    obtain ⟨fuel, rfl⟩ := exists_fuel .falseWord hfuel
    exact value_scalar hb rfl (by decide) (by decide) _
  | _, _, .string hs, fuel, blanks, rest, hb, _, hfuel => by
    obtain ⟨fuel, rfl⟩ := exists_fuel (.string hs) hfuel
    rw [List.cons_append, List.append_assoc]
    exact value_string fuel hb hs rest
  | _, _, .number hn, fuel, blanks, rest, hb, hrest, hfuel => by
    obtain ⟨fuel, rfl⟩ := exists_fuel (.number hn) hfuel
    exact value_numeral hb hn hrest
  | _, _, .noItems hcs, fuel, blanks, rest, hb, _, hfuel => by
    obtain ⟨fuel, rfl⟩ := exists_fuel (.noItems hcs) hfuel
    rw [List.cons_append, List.append_assoc]
    exact (value_empty hb hcs rest).1
  | _, _, .noMembers hcs, fuel, blanks, rest, hb, _, hfuel => by
    obtain ⟨fuel, rfl⟩ := exists_fuel (.noMembers hcs) hfuel
    rw [List.cons_append, List.append_assoc]
    exact (value_empty hb hcs rest).2
  | _, _, .array hitems, fuel, blanks, rest, hb, _, hfuel => by
    obtain ⟨fuel, rfl⟩ := exists_fuel (.array hitems) hfuel
    simp only [List.length_cons, List.length_append] at hfuel
    have hfound := items_spelled hitems fuel rest (by omega)
    obtain ⟨before, c, more, rfl, hbefore, hblank, hc⟩ := hitems.exists_cons
    simp only [List.cons_append, List.append_assoc] at hfound ⊢
    exact value_array hb (skipBlanks_append hbefore hblank _) hc hfound
  | _, _, .object hmembers, fuel, blanks, rest, hb, _, hfuel => by
    obtain ⟨fuel, rfl⟩ := exists_fuel (.object hmembers) hfuel
    simp only [List.length_cons, List.length_append] at hfuel
    have hfound := members_spelled hmembers fuel rest (by omega)
    obtain ⟨before, more, rfl, hbefore⟩ := hmembers.exists_cons
    simp only [List.cons_append, List.append_assoc] at hfound ⊢
    exact value_object hb (skipBlanks_append hbefore rfl _) (by decide) hfound

theorem items_spelled : {cs : List Char} → {found : List Reading} → SpellsItems cs found →
    ∀ (fuel : ℕ) (rest : List Char), 2 * cs.length + 1 ≤ fuel →
      items fuel (cs ++ ']' :: rest) = (found, some rest)
  | _, _, .last hbefore h hafter, fuel, rest, hfuel => by
    simp only [List.length_append] at hfuel
    obtain ⟨fuel, rfl⟩ := Nat.exists_eq_add_of_le' (show 1 ≤ fuel by omega)
    have hitem := value_spelled h fuel _ _ hbefore
      (ends_append hafter (Or.inr (Or.inl rfl)) rest) (by omega)
    simp only [List.append_assoc]
    rw [items_succ hitem, itemsAfter_last hafter]
  | _, _, @SpellsItems.next _ _ _ more _ _ hbefore h hafter hmore, fuel, rest, hfuel => by
    simp only [List.length_append, List.length_cons] at hfuel
    obtain ⟨fuel, rfl⟩ := Nat.exists_eq_add_of_le' (show 1 ≤ fuel by omega)
    have hfound := items_spelled hmore fuel rest (by omega)
    have hitem := value_spelled h fuel _ _ hbefore
      (ends_append hafter (Or.inl rfl) (more ++ ']' :: rest)) (by omega)
    simp only [List.append_assoc, List.cons_append]
    rw [items_succ hitem, itemsAfter_next hafter _ hfound]

theorem members_succ_spelled : {cs : List Char} → {member : Reading × Reading} →
    SpellsMember cs member →
    ∀ (fuel : ℕ) (blanks rest : List Char), Blank blanks → Numeral.Ends rest →
      2 * cs.length ≤ fuel →
        members (fuel + 1) (blanks ++ (cs ++ rest)) = membersAfter fuel member rest
  | _, _, .intro hkey hgap hbefore h, fuel, blanks, rest, hb, hrest, hfuel => by
    simp only [List.length_append, List.length_cons] at hfuel
    obtain ⟨fuel, rfl⟩ := Nat.exists_eq_add_of_le' (show 1 ≤ fuel by omega)
    have hitem := value_spelled h (fuel + 1) _ _ hbefore hrest (by omega)
    simp only [List.append_assoc, List.cons_append]
    exact members_succ (value_string fuel hb hkey _) (skipBlanks_append hgap rfl _) hitem

theorem members_spelled : {cs : List Char} → {found : List (Reading × Reading)} →
    SpellsMembers cs found →
    ∀ (fuel : ℕ) (rest : List Char), 2 * cs.length + 1 ≤ fuel →
      members fuel (cs ++ '\x7d' :: rest) = (found, some rest)
  | _, _, .last hbefore h hafter, fuel, rest, hfuel => by
    simp only [List.length_append] at hfuel
    obtain ⟨fuel, rfl⟩ := Nat.exists_eq_add_of_le' (show 1 ≤ fuel by omega)
    simp only [List.append_assoc]
    rw [members_succ_spelled h fuel _ _ hbefore (ends_append hafter (Or.inr (Or.inr rfl)) rest)
      (by omega), membersAfter_last hafter]
  | _, _, .next hbefore h hafter hmore, fuel, rest, hfuel => by
    simp only [List.length_append, List.length_cons] at hfuel
    obtain ⟨fuel, rfl⟩ := Nat.exists_eq_add_of_le' (show 1 ≤ fuel by omega)
    have hfound := members_spelled hmore fuel rest (by omega)
    simp only [List.append_assoc, List.cons_append]
    rw [members_succ_spelled h fuel _ _ hbefore (ends_append hafter (Or.inl rfl) _) (by omega),
      membersAfter_next hafter _ hfound]

end

/-! ## Texts -/

/-- A text with one value, and blanks around it. -/
inductive SpellsText (text : String) (r : Reading) : Prop
  | intro {before cs after : List Char} (htext : text.toList = before ++ (cs ++ after))
      (hbefore : Blank before) (h : Spells cs r) (hafter : Blank after)

/-- **A text is read as it is spelled**, to its end. -/
theorem ofText_spelled {text : String} {r : Reading} (h : SpellsText text r) :
    ofText text = (r, true) := by
  obtain @⟨before, cs, after, htext, hbefore, h, hafter⟩ := h
  have hvalue := value_spelled h (2 * (before ++ (cs ++ after)).length + 1) before after hbefore
    hafter.ends (by simp only [List.length_append]; omega)
  have hrest : skipBlanks after = [] := List.dropWhile_eq_nil_iff.mpr hafter
  simp only [ofText, htext, hvalue, hrest]
  rfl

end Queueing.Json.Reading
