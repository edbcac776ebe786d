import Queueing.Proofs.Json.Grammar

/-!
# Nothing but the grammar is read

Whatever is read of a text without a break is spelled there: the characters up to where the reader
stopped are those of the numeral, of the string or of the value that was found
(`Reading.spelled_of_value`). A text is therefore read to its end if and only if it belongs to the
grammar, as the one thing that it spells (`Reading.ofText_eq_iff`).
-/

namespace Queueing.Json

open Decimal

/-! ## Numerals -/

namespace Numeral

theorem spanDigits_eq {cs ds rest : List Char} (h : spanDigits cs = (ds, rest)) :
    cs = ds ++ rest ∧ ∀ c ∈ ds, c.isDigit = true := by
  obtain ⟨rfl, rfl⟩ := Prod.mk.inj h
  exact ⟨List.takeWhile_append_dropWhile.symm, fun c hc => List.mem_takeWhile_imp hc⟩

theorem spelled_of_spanSign {cs rest : List Char} {negative : Bool}
    (h : spanSign cs = (negative, rest)) :
    ∃ sign, cs = sign ++ rest ∧ SpellsSign sign negative := by
  rw [spanSign.eq_def] at h
  split at h
  · cases h
    exact ⟨['-'], rfl, .minus⟩
  · cases h
    exact ⟨['+'], rfl, .plus⟩
  · cases h
    exact ⟨[], rfl, .none⟩

theorem spelled_of_exponent? {cs rest : List Char} {e : Option Int}
    (h : Reading.exponent? cs = some (e, rest)) :
    ∃ spelled, cs = spelled ++ rest ∧ SpellsExponent spelled e := by
  cases cs with
  | nil =>
    cases h
    exact ⟨[], rfl, .none⟩
  | cons letter cs =>
    rw [Reading.exponent?] at h
    by_cases hletter : letter = 'e' ∨ letter = 'E'
    · rcases hsign : spanSign cs with ⟨negative, after⟩
      rcases hspan : spanDigits after with ⟨digits, last⟩
      simp only [if_pos hletter, hsign, hspan] at h
      obtain ⟨sign, rfl, hspelled⟩ := spelled_of_spanSign hsign
      obtain ⟨rfl, hdigits⟩ := spanDigits_eq hspan
      cases digits with
      | nil => cases h
      | cons d digits =>
        cases h
        exact ⟨letter :: (sign ++ d :: digits), by simp,
          .some hletter hspelled hdigits (List.cons_ne_nil d digits)⟩
    · rw [if_neg hletter] at h
      cases h
      exact ⟨[], rfl, .none⟩

theorem spelled_of_fraction? {cs rest : List Char} {f : Option (List Char)}
    (h : Reading.fraction? cs = some (f, rest)) : cs = fractionChars f ++ rest ∧
      ∀ digits, f = some digits → (∀ c ∈ digits, c.isDigit = true) ∧ digits ≠ [] := by
  rw [Reading.fraction?.eq_def] at h
  split at h
  · next cs =>
    rcases hspan : spanDigits cs with ⟨digits, last⟩
    obtain ⟨rfl, hdigits⟩ := spanDigits_eq hspan
    rw [hspan] at h
    cases digits with
    | nil => cases h
    | cons d digits =>
      cases h
      refine ⟨rfl, ?_⟩
      rintro _ ⟨⟩
      exact ⟨hdigits, List.cons_ne_nil d digits⟩
  · cases h
    exact ⟨rfl, fun _ h => by cases h⟩

/-- **A numeral that was read is spelled.** -/
theorem spelled_of_numeral? {cs rest : List Char} {n : Numeral}
    (h : Reading.numeral? cs = some (n, rest)) :
    ∃ spelled, cs = spelled ++ rest ∧ Spells spelled n := by
  rw [Reading.numeral?.eq_def] at h
  split at h
  next negative after hsign =>
    have hcs : cs = (if negative then ['-'] else []) ++ after := by
      split at hsign <;> cases hsign <;> rfl
    rcases hspan : spanDigits after with ⟨whole, between⟩
    obtain ⟨rfl, hwhole⟩ := spanDigits_eq hspan
    simp only [hspan] at h
    by_cases hlead : whole = [] ∨ whole.head? = some '0' ∧ whole ≠ ['0']
    · rw [if_pos hlead] at h
      cases h
    simp only [if_neg hlead, Option.bind_eq_bind, Option.pure_def, Option.bind_eq_some_iff,
      Prod.exists] at h
    obtain ⟨fraction, _, hfraction, exponent, _, hexponent, h⟩ := h
    cases h
    obtain ⟨rfl, hdigits⟩ := spelled_of_fraction? hfraction
    obtain ⟨spelled, rfl, hspelled⟩ := spelled_of_exponent? hexponent
    rw [not_or, not_and_not_right] at hlead
    have hn : (⟨negative, whole, fraction, exponent⟩ : Numeral).Spelled :=
      ⟨hwhole, hlead.1, hlead.2, hdigits⟩
    refine ⟨(if negative then ['-'] else []) ++ (whole ++ (fractionChars fraction ++ spelled)), ?_,
      .intro hn hspelled⟩
    simp [hcs]

end Numeral

namespace Reading

/-! ## Strings -/

/-- **A string that was read is spelled** up to its closing quote. -/
theorem spelled_of_pieces? {cs rest : List Char} {ps : List Piece}
    (h : pieces? cs = some (ps, rest)) :
    ∃ spelled, cs = spelled ++ '"' :: rest ∧ SpellsString spelled ps := by
  induction cs using pieces?.induct generalizing ps with
  | case1 => cases h
  | case2 cs =>
    cases h
    exact ⟨[], rfl, .nil⟩
  | case3 a b c d cs ih =>
    simp only [pieces?, Option.bind_eq_bind, Option.pure_def, Option.bind_eq_some_iff,
      Prod.exists] at h
    obtain ⟨w, hw, x, hx, y, hy, z, hz, found, last, hrest, h⟩ := h
    cases h
    obtain ⟨spelled, rfl, hspelled⟩ := ih hrest
    exact ⟨'\\' :: 'u' :: a :: b :: c :: d :: spelled, rfl, .unit hw hx hy hz hspelled⟩
  | case4 e cs hunit ih =>
    rw [pieces?] at h
    · simp only [Option.bind_eq_bind, Option.pure_def, Option.bind_eq_some_iff, Prod.exists] at h
      obtain ⟨c, hc, found, last, hrest, h⟩ := h
      cases h
      obtain ⟨spelled, rfl, hspelled⟩ := ih hrest
      exact ⟨'\\' :: e :: spelled, rfl, .escape hc hspelled⟩
    · exact hunit
  | case5 c cs hquote hunit hescape hbad =>
    rw [pieces?, if_pos hbad] at h
    · cases h
    · exact hquote
    · exact hunit
    · exact hescape
  | case6 c cs hquote hunit hescape hgood ih =>
    rw [pieces?, if_neg hgood] at h
    · simp only [Option.bind_eq_bind, Option.pure_def, Option.bind_eq_some_iff, Prod.exists] at h
      obtain ⟨found, last, hrest, h⟩ := h
      cases h
      obtain ⟨spelled, rfl, hspelled⟩ := ih hrest
      rw [not_or, not_lt] at hgood
      exact ⟨c :: spelled, rfl, .char hquote hgood.1 hgood.2 hspelled⟩
    · exact hquote
    · exact hunit
    · exact hescape

/-! ## Values -/

theorem spelled_of_ofScalar {cs rest : List Char} {r : Reading}
    (h : ofScalar cs = (r, some rest)) : ∃ spelled, cs = spelled ++ rest ∧ Spells spelled r := by
  rw [ofScalar.eq_def] at h
  split at h
  · cases h
    exact ⟨['n', 'u', 'l', 'l'], rfl, .nullWord⟩
  · cases h
    exact ⟨['t', 'r', 'u', 'e'], rfl, .trueWord⟩
  · cases h
    exact ⟨['f', 'a', 'l', 's', 'e'], rfl, .falseWord⟩
  · next cs =>
    rw [ofString] at h
    split at h
    · cases h
    · next hpieces =>
      cases h
      obtain ⟨spelled, rfl, hspelled⟩ := spelled_of_pieces? hpieces
      exact ⟨'"' :: (spelled ++ ['"']), by simp, .string hspelled⟩
  · split at h
    · next hnumeral =>
      cases h
      obtain ⟨spelled, rfl, hspelled⟩ := Numeral.spelled_of_numeral? hnumeral
      exact ⟨spelled, rfl, .number hspelled⟩
    · cases h

theorem exists_blanks {cs rest : List Char} (h : skipBlanks cs = rest) :
    ∃ blanks, cs = blanks ++ rest ∧ Blank blanks := by
  subst h
  exact ⟨cs.takeWhile isBlank, List.takeWhile_append_dropWhile.symm,
    fun c hc => List.mem_takeWhile_imp hc⟩

mutual

/-- **A value that was read is spelled**, after blanks. -/
theorem spelled_of_value : (fuel : ℕ) → ∀ {cs rest : List Char} {r : Reading},
    value fuel cs = (r, some rest) →
      ∃ blanks spelled, cs = blanks ++ (spelled ++ rest) ∧ Blank blanks ∧ Spells spelled r
  | 0, _, _, _, h => by cases h
  | fuel + 1, cs, rest, r, h => by
    rw [value] at h
    split at h
    · next cs heq =>
      obtain ⟨blanks, rfl, hblanks⟩ := exists_blanks heq
      refine ⟨blanks, ?_⟩
      split at h
      · next heq =>
        cases h
        obtain ⟨inner, rfl, hinner⟩ := exists_blanks heq
        exact ⟨'[' :: (inner ++ [']']), by simp, hblanks, .noItems hinner⟩
      · rw [items_skipBlanks] at h
        rcases hitems : items fuel cs with ⟨found, last⟩
        rw [hitems] at h
        cases h
        obtain ⟨inner, rfl, hinner⟩ := spelled_of_items fuel hitems
        exact ⟨'[' :: (inner ++ [']']), by simp, hblanks, .array hinner⟩
    · next cs heq =>
      obtain ⟨blanks, rfl, hblanks⟩ := exists_blanks heq
      refine ⟨blanks, ?_⟩
      split at h
      · next heq =>
        cases h
        obtain ⟨inner, rfl, hinner⟩ := exists_blanks heq
        exact ⟨'\x7b' :: (inner ++ ['\x7d']), by simp, hblanks, .noMembers hinner⟩
      · rw [members_skipBlanks] at h
        rcases hmembers : members fuel cs with ⟨found, last⟩
        rw [hmembers] at h
        cases h
        obtain ⟨inner, rfl, hinner⟩ := spelled_of_members fuel hmembers
        exact ⟨'\x7b' :: (inner ++ ['\x7d']), by simp, hblanks, .object hinner⟩
    · obtain ⟨blanks, hcs, hblanks⟩ := exists_blanks (rfl : skipBlanks cs = _)
      obtain ⟨spelled, hspelled, hr⟩ := spelled_of_ofScalar h
      exact ⟨blanks, spelled, by rw [← hspelled, ← hcs], hblanks, hr⟩

theorem spelled_of_items : (fuel : ℕ) → ∀ {cs rest : List Char} {found : List Reading},
    items fuel cs = (found, some rest) →
      ∃ spelled, cs = spelled ++ ']' :: rest ∧ SpellsItems spelled found
  | 0, _, _, _, h => by cases h
  | fuel + 1, cs, rest, found, h => by
    rw [items] at h
    split at h
    · cases h
    · next item after hvalue =>
      obtain ⟨before, spelled, rfl, hbefore, hitem⟩ := spelled_of_value fuel hvalue
      split at h
      · next heq =>
        cases h
        obtain ⟨blanks, rfl, hblanks⟩ := exists_blanks heq
        exact ⟨before ++ (spelled ++ blanks), by simp, .last hbefore hitem hblanks⟩
      · next more heq =>
        obtain ⟨blanks, rfl, hblanks⟩ := exists_blanks heq
        rcases hitems : items fuel more with ⟨others, last⟩
        rw [hitems] at h
        cases h
        obtain ⟨inner, rfl, hinner⟩ := spelled_of_items fuel hitems
        exact ⟨before ++ (spelled ++ (blanks ++ ',' :: inner)), by simp,
          .next hbefore hitem hblanks hinner⟩
      · cases h

theorem spelled_of_members : (fuel : ℕ) → ∀ {cs rest : List Char}
    {found : List (Reading × Reading)}, members fuel cs = (found, some rest) →
      ∃ spelled, cs = spelled ++ '\x7d' :: rest ∧ SpellsMembers spelled found
  | 0, _, _, _, h => by cases h
  | fuel + 1, cs, rest, found, h => by
    rw [members] at h
    split at h
    · next key after hkey =>
      obtain ⟨before, spelled, rfl, hbefore, hspelled⟩ := spelled_of_value fuel hkey
      cases hspelled with
      | @string chars _ hchars =>
        split at h
        · next cs heq =>
          obtain ⟨gap, rfl, hgap⟩ := exists_blanks heq
          split at h
          · cases h
          · next item last hvalue =>
            obtain ⟨blanks, value, rfl, hblanks, hitem⟩ := spelled_of_value fuel hvalue
            have hmember := SpellsMember.intro hchars hgap hblanks hitem
            split at h
            · next heq =>
              cases h
              obtain ⟨after, rfl, hafter⟩ := exists_blanks heq
              exact ⟨_, by simp, .last hbefore hmember hafter⟩
            · next more heq =>
              obtain ⟨after, rfl, hafter⟩ := exists_blanks heq
              rcases hmembers : members fuel more with ⟨others, last⟩
              rw [hmembers] at h
              cases h
              obtain ⟨inner, rfl, hinner⟩ := spelled_of_members fuel hmembers
              exact ⟨_, by simp, .next hbefore hmember hafter hinner⟩
            · cases h
        · cases h
    · cases h

end

/-! ## Texts -/

theorem spelled_of_ofText {text : String} {r : Reading} (h : ofText text = (r, true)) :
    SpellsText text r := by
  rw [ofText] at h
  split at h
  · cases h
  · next found rest hvalue =>
    obtain ⟨rfl, hrest⟩ := Prod.mk.inj h
    obtain ⟨before, spelled, htext, hbefore, hspelled⟩ := spelled_of_value _ hvalue
    refine .intro htext hbefore hspelled (List.dropWhile_eq_nil_iff.mp ?_)
    exact List.isEmpty_iff.mp hrest

/-- **The texts that are read to their end are those of the grammar.** -/
theorem ofText_eq_iff {text : String} {r : Reading} :
    ofText text = (r, true) ↔ SpellsText text r :=
  ⟨spelled_of_ofText, ofText_spelled⟩

theorem SpellsText.unique {text : String} {r s : Reading} (hr : SpellsText text r)
    (hs : SpellsText text s) : r = s :=
  congrArg Prod.fst ((ofText_eq_iff.mpr hr).symm.trans (ofText_eq_iff.mpr hs))

end Reading

end Queueing.Json
