import Queueing.Json.Reading
import Queueing.Json.Writer
import Queueing.Proofs.Decimal.Shortest

/-!
# Numerals that were written

Every number of a document is written as one numeral (`Number.chars_eq`), and every spelling of a
numeral is read letter by letter (`Numeral.numeral?_spelled`). The numeral of an integer names the
integer. That of a real names a decimal that is rounded to the real (`Numeral.ofReal_readsBack`), so
that different reals are written differently (`Numeral.ofReal_injective`).
-/

namespace Queueing.Json

open Decimal

/-! ## Digits -/

theorem digitsValue_toDigits (n : ℕ) : digitsValue (Nat.toDigits 10 n) = n :=
  Nat.ofDigitChars_toDigits (by decide) (by decide)

theorem digitsValue_append (cs ds : List Char) :
    digitsValue (cs ++ ds) = 10 ^ ds.length * digitsValue cs + digitsValue ds := by
  show Nat.ofDigitChars 10 (cs ++ ds) 0 = _
  rw [Nat.ofDigitChars_append, Nat.ofDigitChars_eq_ofDigitChars_zero]
  rfl

theorem digitsValue_zeros (k : ℕ) : digitsValue (List.replicate k '0') = 0 := by
  induction k with
  | zero => rfl
  | succ k ih => exact ih

theorem isDigit_toDigits (n : ℕ) : ∀ c ∈ Nat.toDigits 10 n, c.isDigit = true :=
  fun _ hc => Nat.isDigit_of_mem_toDigits (by decide) (by decide) hc

theorem isDigit_zeros (k : ℕ) : ∀ c ∈ List.replicate k '0', c.isDigit = true := by
  intro c hc
  rw [List.eq_of_mem_replicate hc]
  rfl

theorem head?_toDigits {n : ℕ} (hn : n ≠ 0) : (Nat.toDigits 10 n).head? ≠ some '0' := by
  induction n using Nat.strong_induction_on with
  | _ n ih =>
    rw [Nat.toDigits_eq_if (by decide)]
    split_ifs with hlt
    · have hdigit : ∀ d < 10, d ≠ 0 → d.digitChar ≠ '0' := by decide
      simpa using hdigit n hlt hn
    · rw [List.head?_append_of_ne_nil _ Nat.toDigits_ne_nil]
      exact ih (n / 10) (by omega) (by omega)

theorem spanDigits_append {ds rest : List Char} (hds : ∀ c ∈ ds, c.isDigit = true)
    (hrest : ∀ c, rest.head? = some c → c.isDigit = false) :
    spanDigits (ds ++ rest) = (ds, rest) := by
  rw [spanDigits, List.takeWhile_append_of_pos hds, List.dropWhile_append_of_pos hds]
  cases rest with
  | nil => simp
  | cons c rest => simp [hrest c rfl]

namespace Numeral

/-! ## The characters of a numeral -/

def fractionChars : Option (List Char) → List Char
  | none => []
  | some digits => '.' :: digits

/-- A sign goes before the digits of every exponent. -/
def exponentChars : Option Int → List Char
  | none => []
  | some e => 'e' :: (if e < 0 then '-' else '+') :: Nat.toDigits 10 e.natAbs

def unsigned (n : Numeral) : List Char :=
  n.whole ++ (fractionChars n.fraction ++ exponentChars n.exponent)

def chars (n : Numeral) : List Char := (if n.negative then ['-'] else []) ++ n.unsigned

/-- Whole part and fraction are made of digits as numerals have them. -/
structure Spelled (n : Numeral) : Prop where
  whole : ∀ c ∈ n.whole, c.isDigit = true
  nonempty : n.whole ≠ []
  leading : n.whole.head? = some '0' → n.whole = ['0']
  fraction : ∀ digits, n.fraction = some digits →
    (∀ c ∈ digits, c.isDigit = true) ∧ digits ≠ []

/-- No numeral goes on here. -/
def Ends (rest : List Char) : Prop :=
  ∀ c, rest.head? = some c → c.isDigit = false ∧ c ≠ '.' ∧ c ≠ 'e' ∧ c ≠ 'E'

/-- A sign that may be left out: true for a minus. -/
inductive SpellsSign : List Char → Bool → Prop
  | none : SpellsSign [] false
  | plus : SpellsSign ['+'] false
  | minus : SpellsSign ['-'] true

/-- An exponent that may be left out, with a letter of either case and a sign or none. -/
inductive SpellsExponent : List Char → Option Int → Prop
  | none : SpellsExponent [] none
  | some {letter : Char} {sign digits : List Char} {negative : Bool}
      (hletter : letter = 'e' ∨ letter = 'E') (hsign : SpellsSign sign negative)
      (hdigits : ∀ c ∈ digits, c.isDigit = true) (hne : digits ≠ []) :
      SpellsExponent (letter :: (sign ++ digits))
        (some (if negative then -(digitsValue digits : Int) else digitsValue digits))

/-- A numeral, with any spelling of its exponent. -/
inductive Spells : List Char → Numeral → Prop
  | intro {n : Numeral} {exponent : List Char} (hn : n.Spelled)
      (hexponent : SpellsExponent exponent n.exponent) :
      Spells ((if n.negative then ['-'] else []) ++
        (n.whole ++ (fractionChars n.fraction ++ exponent))) n

theorem spanSign_spelled {sign digits : List Char} {negative : Bool}
    (hsign : SpellsSign sign negative) (hdigits : ∀ c ∈ digits, c.isDigit = true)
    (hne : digits ≠ []) (rest : List Char) :
    spanSign (sign ++ (digits ++ rest)) = (negative, digits ++ rest) := by
  cases hsign with
  | plus => rfl
  | minus => rfl
  | none =>
    obtain ⟨c, cs, rfl⟩ := List.exists_cons_of_ne_nil hne
    have hc := hdigits c List.mem_cons_self
    rw [List.nil_append, List.cons_append, spanSign.eq_def]
    split
    · case h_1 heq =>
      rw [(List.cons.inj heq).1] at hc
      cases hc
    · case h_2 heq =>
      rw [(List.cons.inj heq).1] at hc
      cases hc
    · rfl

theorem exponent?_spelled {cs : List Char} {e : Option Int} (h : SpellsExponent cs e)
    {rest : List Char} (hrest : Ends rest) : Reading.exponent? (cs ++ rest) = some (e, rest) := by
  cases h with
  | none =>
    cases rest with
    | nil => rfl
    | cons c rest =>
      obtain ⟨-, -, he, hE⟩ := hrest c rfl
      exact if_neg (by simp [he, hE])
  | @some letter sign digits negative hletter hsign hdigits hne =>
    have hspan := spanDigits_append hdigits fun c hc => (hrest c hc).1
    rw [List.cons_append, List.append_assoc, Reading.exponent?, if_pos hletter]
    simp only [spanSign_spelled hsign hdigits hne, hspan]

theorem fraction?_chars {f : Option (List Char)}
    (hf : ∀ digits, f = some digits → (∀ c ∈ digits, c.isDigit = true) ∧ digits ≠ [])
    {rest : List Char} (hdigit : ∀ c, rest.head? = some c → c.isDigit = false)
    (hpoint : rest.head? ≠ some '.') :
    Reading.fraction? (fractionChars f ++ rest) = some (f, rest) := by
  cases f with
  | none =>
    rw [fractionChars, List.nil_append, Reading.fraction?.eq_def]
    split
    · exact absurd rfl hpoint
    · rfl
  | some digits =>
    obtain ⟨hdigits, hne⟩ := hf digits rfl
    simp only [fractionChars, List.cons_append, Reading.fraction?,
      spanDigits_append hdigits hdigit]

/-- What comes after the digits of the whole part, or of the fraction, is no digit. -/
theorem exponent_head {cs : List Char} {e : Option Int} (h : SpellsExponent cs e)
    {rest : List Char} (hrest : Ends rest) {c : Char} (hc : (cs ++ rest).head? = some c) :
    c.isDigit = false ∧ c ≠ '.' := by
  cases h with
  | none => exact ⟨(hrest c hc).1, (hrest c hc).2.1⟩
  | some hletter _ _ _ =>
    obtain rfl := Option.some.inj hc
    rcases hletter with rfl | rfl <;> exact ⟨rfl, by decide⟩

theorem fractionChars_head {f : Option (List Char)} {rest : List Char}
    (hrest : ∀ c, rest.head? = some c → c.isDigit = false) {c : Char}
    (hc : (fractionChars f ++ rest).head? = some c) : c.isDigit = false := by
  cases f with
  | none => exact hrest c hc
  | some digits =>
    obtain rfl := Option.some.inj hc
    rfl

/-- **A numeral is read as it is spelled.** -/
theorem numeral?_spelled {cs : List Char} {n : Numeral} (h : Spells cs n) {rest : List Char}
    (hrest : Ends rest) : Reading.numeral? (cs ++ rest) = some (n, rest) := by
  obtain ⟨hn, hspelled⟩ := h
  obtain ⟨negative, whole, fraction, value⟩ := n
  rename_i exponent
  have hexponent := exponent?_spelled hspelled hrest
  have hafter : ∀ c, (exponent ++ rest).head? = some c → c.isDigit = false :=
    fun c hc => (exponent_head hspelled hrest hc).1
  have hfraction := fraction?_chars (f := fraction) hn.fraction hafter
    fun hc => (exponent_head hspelled hrest hc).2 rfl
  have hwhole : spanDigits (whole ++ (fractionChars fraction ++ (exponent ++ rest))) =
      (whole, _) :=
    spanDigits_append hn.whole fun c hc => fractionChars_head hafter hc
  have hlead : ¬ (whole = [] ∨ whole.head? = some '0' ∧ whole ≠ ['0']) := by
    rintro (hnil | ⟨hzero, hne⟩)
    · exact hn.nonempty hnil
    · exact hne (hn.leading hzero)
  simp only [List.append_assoc]
  cases negative with
  | true =>
    rw [if_pos rfl, List.singleton_append, Reading.numeral?]
    simp only [hwhole, if_neg hlead, hfraction, hexponent, Option.bind_eq_bind, Option.bind_some,
      Option.pure_def]
  | false =>
    have hminus : ∀ cs, whole ++ (fractionChars fraction ++ (exponent ++ rest)) =
        '-' :: cs → False := by
      intro cs hcs
      obtain ⟨c, ds, rfl⟩ := List.exists_cons_of_ne_nil hn.nonempty
      have hc := hn.whole c List.mem_cons_self
      rw [(List.cons.inj hcs).1] at hc
      exact absurd hc (by decide)
    rw [if_neg Bool.false_ne_true, List.nil_append, Reading.numeral?]
    · simp only [hwhole, if_neg hlead, hfraction, hexponent, Option.bind_eq_bind,
        Option.bind_some, Option.pure_def]
    · exact hminus

theorem spells_exponentChars (e : Option Int) : SpellsExponent (exponentChars e) e := by
  cases e with
  | none => exact .none
  | some e =>
    have hletter : 'e' = 'e' ∨ 'e' = 'E' := Or.inl rfl
    have hdigits := isDigit_toDigits e.natAbs
    rcases lt_or_ge e 0 with he | he
    · have h := SpellsExponent.some hletter .minus hdigits Nat.toDigits_ne_nil
      rw [digitsValue_toDigits, if_pos rfl, show -(e.natAbs : ℤ) = e by omega] at h
      rw [exponentChars, if_pos he]
      exact h
    · have h := SpellsExponent.some hletter .plus hdigits Nat.toDigits_ne_nil
      rw [digitsValue_toDigits, if_neg Bool.false_ne_true, show (e.natAbs : ℤ) = e by omega] at h
      rw [exponentChars, if_neg (not_lt.mpr he)]
      exact h

theorem spells_chars {n : Numeral} (hn : n.Spelled) : Spells n.chars n :=
  .intro hn (spells_exponentChars n.exponent)

/-! ## The numeral of a number -/

def ofInt (i : Int) : Numeral := ⟨decide (i < 0), Nat.toDigits 10 i.natAbs, none, none⟩

/-- Digits and a point after so many of them, as documents have them. -/
def ofDigits (negative : Bool) (digits : List Char) (point : Int) : Numeral :=
  if -4 ≤ point ∧ point ≤ 16 then
    if point ≤ 0 then ⟨negative, ['0'], some (List.replicate (-point).toNat '0' ++ digits), none⟩
    else if point < digits.length then
      ⟨negative, digits.take point.toNat, some (digits.drop point.toNat), none⟩
    else ⟨negative, digits ++ List.replicate (point - digits.length).toNat '0', some ['0'], none⟩
  else
    ⟨negative, digits.take 1, if digits.drop 1 = [] then none else some (digits.drop 1),
      some (point - 1)⟩

def ofReal (x : Binary64) : Numeral :=
  let s := shortest .even x
  let digits := Nat.toDigits 10 s.digits
  if s.digits = 0 then ⟨x.isNegative, ['0'], some ['0'], none⟩
  else ofDigits x.isNegative digits (digits.length + s.exponent)

def ofNumber : Number → Numeral
  | .integer i => ofInt i
  | .real x => ofReal x

theorem spelled_ofInt (i : Int) : (ofInt i).Spelled := by
  refine ⟨isDigit_toDigits _, Nat.toDigits_ne_nil, ?_, fun _ h => by cases h⟩
  intro hzero
  have h0 : i.natAbs = 0 := by
    by_contra hne
    exact head?_toDigits hne hzero
  rw [ofInt, h0]
  rfl

theorem spelled_ofDigits (negative : Bool) {d : ℕ} (hd : d ≠ 0) (point : Int) :
    (ofDigits negative (Nat.toDigits 10 d) point).Spelled := by
  have hdigits := isDigit_toDigits d
  have hne : Nat.toDigits 10 d ≠ [] := Nat.toDigits_ne_nil
  have hlead := head?_toDigits hd
  generalize Nat.toDigits 10 d = digits at hdigits hne hlead ⊢
  have htake : ∀ k, k ≠ 0 → (∀ c ∈ digits.take k, c.isDigit = true) ∧ digits.take k ≠ [] ∧
      ((digits.take k).head? = some '0' → digits.take k = ['0']) := by
    intro k hk
    refine ⟨fun c hc => hdigits c (List.mem_of_mem_take hc), ?_, ?_⟩
    · simp [hk, hne]
    · intro hzero
      rw [List.head?_take, if_neg hk] at hzero
      exact absurd hzero hlead
  have hdrop : ∀ k, digits.drop k ≠ [] → (∀ c ∈ digits.drop k, c.isDigit = true) ∧
      digits.drop k ≠ [] :=
    fun k hk => ⟨fun c hc => hdigits c (List.mem_of_mem_drop hc), hk⟩
  rw [ofDigits]
  split_ifs with hplain hsmall hmiddle hsingle
  · refine ⟨by simp, by simp, fun _ => rfl, ?_⟩
    rintro _ ⟨⟩
    refine ⟨fun c hc => ?_, by simp [hne]⟩
    rcases List.mem_append.mp hc with hc | hc
    · exact isDigit_zeros _ c hc
    · exact hdigits c hc
  · obtain ⟨hall, hne', hlead'⟩ := htake point.toNat (by omega)
    refine ⟨hall, hne', hlead', ?_⟩
    rintro _ ⟨⟩
    exact hdrop _ (by simp; omega)
  · refine ⟨fun c hc => ?_, by simp [hne], ?_, ?_⟩
    · rcases List.mem_append.mp hc with hc | hc
      · exact hdigits c hc
      · exact isDigit_zeros _ c hc
    · intro hzero
      rw [List.head?_append_of_ne_nil _ hne] at hzero
      exact absurd hzero hlead
    · rintro _ ⟨⟩
      simp
  · obtain ⟨hall, hne', hlead'⟩ := htake 1 (by decide)
    exact ⟨hall, hne', hlead', fun _ h => by cases h⟩
  · obtain ⟨hall, hne', hlead'⟩ := htake 1 (by decide)
    refine ⟨hall, hne', hlead', ?_⟩
    rintro _ ⟨⟩
    exact hdrop 1 hsingle

theorem spelled_ofReal (x : Binary64) : (ofReal x).Spelled := by
  rw [ofReal]
  split_ifs with h0
  · refine ⟨by simp, by simp, fun _ => rfl, ?_⟩
    rintro _ ⟨⟩
    simp
  · exact spelled_ofDigits _ h0 _

theorem spelled_ofNumber : (n : Number) → (ofNumber n).Spelled
  | .integer i => spelled_ofInt i
  | .real x => spelled_ofReal x

theorem toList_scientificText (digits : String) (point : Int) :
    (scientificText digits point).toList = digits.toList.take 1 ++
      (fractionChars (if digits.toList.drop 1 = [] then none else some (digits.toList.drop 1)) ++
        exponentChars (some (point - 1))) := by
  have hexponent : (if point - 1 < 0 then "-" else "+").toList ++
      (toString (point - 1).natAbs).toList =
        (if point - 1 < 0 then '-' else '+') :: Nat.toDigits 10 (point - 1).natAbs := by
    rw [show (toString (point - 1).natAbs).toList = _ from Nat.toList_repr]
    split_ifs <;> rfl
  have hempty : String.ofList (digits.toList.drop 1) = "" ↔ digits.toList.drop 1 = [] := by
    simp [String.ext_iff]
  simp only [scientificText, String.toList_append, List.append_assoc, hexponent, hempty]
  split_ifs <;> simp_all [fractionChars, exponentChars]

theorem unsigned_ofDigits (negative : Bool) (d : ℕ) (point : Int) :
    (ofDigits negative (Nat.toDigits 10 d) point).unsigned =
      (if -4 ≤ point ∧ point ≤ 16 then Layout.document.positionalText (toString d) point
      else scientificText (toString d) point).toList := by
  have hdigits : (toString d).toList = Nat.toDigits 10 d := Nat.toList_repr
  have hlength : (toString d).length = (Nat.toDigits 10 d).length := by
    rw [← String.length_toList, hdigits]
  by_cases hplain : -4 ≤ point ∧ point ≤ 16
  · rw [ofDigits, Layout.positionalText, hlength, if_pos hplain, if_pos hplain]
    split_ifs <;> simp [unsigned, fractionChars, exponentChars, Layout.document, zeros]
  · rw [ofDigits, if_neg hplain, if_neg hplain, toList_scientificText, hdigits, unsigned]

theorem negative_ofDigits (negative : Bool) (digits : List Char) (point : Int) :
    (ofDigits negative digits point).negative = negative := by
  rw [ofDigits]
  split_ifs <;> rfl

theorem negative_ofReal (x : Binary64) : (ofReal x).negative = x.isNegative := by
  rw [ofReal]
  split_ifs
  · rfl
  · exact negative_ofDigits _ _ _

theorem toList_magnitudeText (x : Binary64) :
    (Layout.document.magnitudeText x).toList = (ofReal x).unsigned := by
  have htie : Layout.document.tie = .even := rfl
  rw [Layout.magnitudeText, ofReal, htie]
  generalize shortest .even x = s
  have hlength : (toString s.digits).length = (Nat.toDigits 10 s.digits).length := by
    rw [← String.length_toList, show (toString s.digits).toList = _ from Nat.toList_repr]
  by_cases h0 : s.digits = 0
  · simp only [if_pos h0]
    rfl
  · simp only [if_neg h0, unsigned_ofDigits, hlength]
    rfl

theorem toList_text {x : Binary64} (hx : x.isFinite = true) :
    (Layout.document.text x).toList = (ofReal x).chars := by
  have hsign : (if x.isNegative = true then "-" else "").toList =
      if x.isNegative = true then ['-'] else [] := by
    split_ifs <;> rfl
  rw [Layout.text, Binary64.isNaN_eq_false_of_isFinite hx, if_neg Bool.false_ne_true, if_pos hx,
    String.toList_append, hsign, toList_magnitudeText, chars, negative_ofReal]

theorem toList_toString (i : Int) : (toString i).toList = (ofInt i).chars := by
  rw [Int.toString_eq_repr, Int.repr_eq_if]
  by_cases hi : 0 ≤ i
  · have habs : i.toNat = i.natAbs := by omega
    rw [if_pos hi, Nat.toList_repr, habs]
    simp [ofInt, chars, unsigned, fractionChars, exponentChars, hi]
  · have habs : (-i).toNat = i.natAbs := by omega
    rw [if_neg hi, String.toList_append, Nat.toList_repr, habs]
    simp [ofInt, chars, unsigned, fractionChars, exponentChars, not_le.mp hi]

/-! ## The decimal of a numeral -/

/-- A significand that fits into 64 bits is gathered to the end. -/
theorem gather_of_lt {n : ℕ} {cs : List Char}
    (h : cs.foldl (fun n c => 10 * n + digitValue c) n < wordLimit) :
    gather n cs = (cs.foldl (fun n c => 10 * n + digitValue c) n, []) := by
  have hle : ∀ (cs : List Char) (n : ℕ), n ≤ cs.foldl (fun n c => 10 * n + digitValue c) n := by
    intro cs
    induction cs with
    | nil => exact fun n => le_rfl
    | cons c cs ih => exact fun n => le_trans (by omega) (ih (10 * n + digitValue c))
  induction cs generalizing n with
  | nil => rfl
  | cons c cs ih =>
    rw [List.foldl_cons] at h ⊢
    rw [gather, if_pos ((hle cs _).trans_lt h)]
    exact ih h

theorem parts_of_value {n : Numeral} {v : ℕ}
    (hv : digitsValue (n.whole ++ n.fraction.getD []) = v) (hlt : v < wordLimit) :
    n.parts = (v, n.exponent.getD 0 - (n.fraction.getD []).length) := by
  obtain ⟨negative, whole, fraction, exponent⟩ := n
  subst hv
  dsimp only at hlt ⊢
  have hwhole : digitsValue whole < wordLimit := by
    refine lt_of_le_of_lt ?_ hlt
    rw [digitsValue_append]
    have := Nat.le_mul_of_pos_left (digitsValue whole) (Nat.pow_pos (n := (fraction.getD []).length)
      (show 0 < 10 by decide))
    omega
  rw [digitsValue, List.foldl_append] at hlt
  have hgather := gather_of_lt hwhole
  cases fraction with
  | none =>
    simp only [parts, hgather, Option.getD_none, List.append_nil, List.length_nil, digitsValue]
    congr 1
    omega
  | some digits =>
    simp only [Option.getD_some] at hlt
    simp only [parts, hgather, gather_of_lt hlt, Option.getD_some, List.length_nil, digitsValue,
      List.foldl_append]
    congr 1
    omega

/-- Digits and a point name the decimal itself, or with one more zero when it is whole. -/
theorem parts_ofDigits (negative : Bool) {d : ℕ} (hd : d < 10 ^ 18) (k : ℤ) :
    (ofDigits negative (Nat.toDigits 10 d) ((Nat.toDigits 10 d).length + k)).parts = (d, k) ∨
      ∃ j : ℕ, k = j ∧ d * 10 ^ (j + 1) < 10 ^ 18 ∧
        (ofDigits negative (Nat.toDigits 10 d) ((Nat.toDigits 10 d).length + k)).parts =
          (d * 10 ^ (j + 1), -1) := by
  have hlt : d < 10 ^ (Nat.toDigits 10 d).length :=
    (Nat.length_toDigits_le_iff (by decide) Nat.length_toDigits_pos).mp le_rfl
  have hpos : 0 < (Nat.toDigits 10 d).length := Nat.length_toDigits_pos
  have hvalue := digitsValue_toDigits d
  have hlimit : (10 : ℕ) ^ 18 < wordLimit := by decide
  generalize Nat.toDigits 10 d = digits at hlt hpos hvalue ⊢
  rw [ofDigits]
  split_ifs with hplain hsmall hmiddle hsingle
  · left
    have hdigits : digitsValue
        (['0'] ++ (List.replicate (-(digits.length + k)).toNat '0' ++ digits))
        = d := by
      rw [digitsValue_append, digitsValue_append, digitsValue_zeros, hvalue]
      simp [digitsValue, digitValue]
    refine (parts_of_value hdigits (hd.trans hlimit)).trans (Prod.ext rfl ?_)
    simp only [Option.getD_some, Option.getD_none, List.length_append, List.length_replicate]
    push_cast
    omega
  · left
    have hdigits : digitsValue (digits.take (digits.length + k).toNat ++
        digits.drop (digits.length + k).toNat) = d := by
      rw [List.take_append_drop, hvalue]
    refine (parts_of_value hdigits (hd.trans hlimit)).trans (Prod.ext rfl ?_)
    simp only [Option.getD_some, Option.getD_none, List.length_drop]
    omega
  · right
    obtain ⟨j, rfl⟩ : ∃ j : ℕ, k = j := ⟨k.toNat, by omega⟩
    have hj : ((digits.length + j : ℤ) - digits.length).toNat = j := by omega
    have hdigits : digitsValue (digits ++ List.replicate j '0' ++ ['0']) = d * 10 ^ (j + 1) := by
      rw [digitsValue_append, digitsValue_append, digitsValue_zeros, hvalue, pow_succ]
      simp [digitsValue, digitValue]
      ring
    have hsmall : d * 10 ^ (j + 1) < 10 ^ 18 := by
      calc d * 10 ^ (j + 1) < 10 ^ digits.length * 10 ^ (j + 1) :=
            Nat.mul_lt_mul_of_pos_right hlt (Nat.pow_pos (by decide))
        _ = 10 ^ (digits.length + (j + 1)) := (pow_add 10 _ _).symm
        _ ≤ 10 ^ 18 := Nat.pow_le_pow_right (by decide) (by omega)
    rw [hj]
    exact ⟨j, rfl, hsmall, parts_of_value hdigits (hsmall.trans hlimit)⟩
  · left
    have hone : digits.take 1 = digits := by
      rw [← List.append_nil (digits.take 1), ← hsingle, List.take_append_drop]
    have hdigits : digitsValue (digits.take 1 ++ []) = d := by
      rw [List.append_nil, hone, hvalue]
    refine (parts_of_value hdigits (hd.trans hlimit)).trans (Prod.ext rfl ?_)
    have := congrArg List.length hone
    rw [List.length_take] at this
    simp only [Option.getD_some, Option.getD_none, List.length_nil]
    push_cast
    omega
  · left
    have hdigits : digitsValue (digits.take 1 ++ digits.drop 1) = d := by
      rw [List.take_append_drop, hvalue]
    refine (parts_of_value hdigits (hd.trans hlimit)).trans (Prod.ext rfl ?_)
    simp only [Option.getD_some, List.length_drop]
    omega

/-- **The numeral of a number names a decimal that is rounded to it.** -/
theorem ofReal_readsBack {x : Binary64} (hx : x.isFinite = true) (h0 : x.isZero = false) :
    ReadsBack x ⟨(ofReal x).parts.1, (ofReal x).parts.2⟩ := by
  have hshortest := shortest_readsBack .even hx h0
  rw [ofReal]
  generalize shortest .even x = s at hshortest ⊢
  rw [if_neg hshortest.pos.ne']
  rcases parts_ofDigits x.isNegative hshortest.lt s.exponent with heq | ⟨j, hj, hlt, heq⟩
  · rw [heq]
    exact hshortest
  · rw [heq]
    refine ⟨Nat.mul_pos hshortest.pos (Nat.pow_pos (by decide)), hlt, by norm_num, by norm_num, ?_⟩
    have hvalue : ((s.digits * 10 ^ (j + 1) : ℕ) : ℚ) * 10 ^ (-1 : ℤ) =
        s.digits * 10 ^ s.exponent := by
      rw [hj, zpow_natCast, zpow_neg, zpow_one, pow_succ]
      push_cast
      ring
    rw [hvalue]
    exact hshortest.nearest

theorem ofReal_of_isZero {x : Binary64} (h0 : x.isZero = true) :
    ofReal x = ⟨x.isNegative, ['0'], some ['0'], none⟩ := by
  rw [ofReal, shortest_of_isZero .even h0]
  rfl

/-- **Different numbers have different numerals.** -/
theorem ofReal_injective {x y : Binary64} (hx : x.isFinite = true) (hy : y.isFinite = true)
    (h : ofReal x = ofReal y) : x = y := by
  have hsign : x.isNegative = y.isNegative := by
    rw [← negative_ofReal x, ← negative_ofReal y, h]
  have hzero : ∀ {z : Binary64}, z.isZero = true → (ofReal z).parts.1 = 0 := by
    intro z hz
    rw [ofReal_of_isZero hz]
    rfl
  refine Binary64.eq_of_magnitude hsign ?_
  cases hx0 : x.isZero with
  | true =>
    cases hy0 : y.isZero with
    | true => rw [(Binary64.isZero_iff x).mp hx0, (Binary64.isZero_iff y).mp hy0]
    | false =>
      have hpos := (ofReal_readsBack hy hy0).pos
      rw [← h] at hpos
      exact absurd (hzero hx0) hpos.ne'
  | false =>
    have hnearest := (ofReal_readsBack hx hx0).nearest
    have hpos := (ofReal_readsBack hx hx0).pos
    rw [h] at hnearest hpos
    cases hy0 : y.isZero with
    | true => exact absurd (hzero hy0) hpos.ne'
    | false => exact hnearest.unique (ofReal_readsBack hy hy0).nearest

theorem ofInt_injective {i j : Int} (h : ofInt i = ofInt j) : i = j := by
  obtain ⟨hsign, hdigits, -⟩ := Numeral.mk.inj h
  have habs := congrArg digitsValue hdigits
  rw [digitsValue_toDigits, digitsValue_toDigits] at habs
  rw [decide_eq_decide] at hsign
  omega

/-! ## The number of a numeral -/

theorem not_whole_ofReal (x : Binary64) :
    ¬ ((ofReal x).fraction = none ∧ (ofReal x).exponent = none) := by
  rw [ofReal, ofDigits]
  split_ifs <;> simp

theorem ofInt_ne_ofReal (i : Int) (x : Binary64) : ofInt i ≠ ofReal x := by
  intro h
  have hwhole : (ofInt i).fraction = none ∧ (ofInt i).exponent = none := ⟨rfl, rfl⟩
  rw [h] at hwhole
  exact not_whole_ofReal x hwhole

theorem number?_ofReal (x : Binary64) : (ofReal x).number? = (ofReal x).real?.map .real :=
  if_neg (not_whole_ofReal x)

/-- A count that fits into 64 bits is read as it was written. -/
theorem number?_ofInt {n : ℕ} (hn : n < wordLimit) : (ofInt n).number? = some (.integer n) := by
  rw [number?]
  simp [ofInt, digitsValue_toDigits, hn]

theorem number?_ofInt_of_le {n : ℕ} (hn : wordLimit ≤ n) :
    (ofInt n).number? = (ofInt n).real?.map .real := by
  rw [number?]
  simp [ofInt, digitsValue_toDigits, not_lt.mpr hn]

end Numeral

/-! ## Numbers -/

def Number.Finite : Number → Prop
  | .integer _ => True
  | .real x => x.isFinite = true

theorem Number.chars_eq {n : Number} (hn : n.Finite) : n.chars = (Numeral.ofNumber n).chars := by
  cases n with
  | integer i => exact Numeral.toList_toString i
  | real x => exact Numeral.toList_text hn

/-- **Different numbers have different numerals**, integers and reals alike. -/
theorem ofNumber_injective {m n : Number} (hm : m.Finite) (hn : n.Finite)
    (h : Numeral.ofNumber m = Numeral.ofNumber n) : m = n := by
  cases m with
  | integer i =>
    cases n with
    | integer j => rw [Numeral.ofInt_injective h]
    | real y => exact absurd h (Numeral.ofInt_ne_ofReal i y)
  | real x =>
    cases n with
    | integer j => exact absurd h.symm (Numeral.ofInt_ne_ofReal j x)
    | real y => rw [Numeral.ofReal_injective hm hn h]

end Queueing.Json
