import Mathlib.Data.List.Infix
import Queueing.Decimal.Layout

/-!
# Parts of texts

A text shows another one that occurs in it. That a sentence does not show a phrase is decided
from its pieces: each of them misses the phrase, and it does not begin at the end of a piece
either, where the next one could complete it (`misses_join`). Numbers miss every phrase that
begins with none of their characters (`Numeric.misses`).
-/

namespace Queueing

def Shows (text part : String) : Prop := part.toList <:+: text.toList

theorem Shows.trans {text part inner : String} (h : Shows text part) (hpart : Shows part inner) :
    Shows text inner :=
  List.IsInfix.trans hpart h

theorem shows_join {pieces : List String} {part : String} (h : part ∈ pieces) :
    Shows (String.join pieces) part := by
  obtain ⟨before, after, rfl⟩ := List.append_of_mem h
  rw [Shows, String.join_append, String.join_cons, String.toList_append, String.toList_append,
    ← List.append_assoc]
  exact ⟨_, _, rfl⟩

/-! ## Phrases that a text misses -/

/-- A phrase neither occurs in a text nor begins at its end. -/
def Misses (text phrase : String) : Prop :=
  ∀ rest ∈ text.toList.tails, rest = [] ∨ ¬ phrase.toList <+: rest ∧ ¬ rest <+: phrase.toList

instance (text phrase : String) : Decidable (Misses text phrase) :=
  List.decidableBAll _ _

theorem Misses.not_shows {text phrase : String} (h : Misses text phrase)
    (hphrase : phrase.toList ≠ []) : ¬ Shows text phrase := by
  rintro ⟨before, after, heq⟩
  have hrest : phrase.toList ++ after <:+ text.toList := by
    rw [← heq, List.append_assoc]
    exact List.suffix_append before (phrase.toList ++ after)
  rcases h _ ((List.mem_tails _ _).mpr hrest) with hnil | ⟨hnot, -⟩
  · exact hphrase (List.append_eq_nil_iff.mp hnil).1
  · exact hnot (List.prefix_append _ _)

/-- **Pieces that miss a phrase make up a text that misses it.** -/
theorem Misses.append {text more phrase : String} (h : Misses text phrase)
    (hmore : Misses more phrase) : Misses (text ++ more) phrase := by
  intro rest hrest
  rw [List.mem_tails, String.toList_append] at hrest
  rcases List.suffix_or_suffix_of_suffix hrest (List.suffix_append _ _) with hrest | ⟨start, rfl⟩
  · exact hmore rest ((List.mem_tails _ _).mpr hrest)
  have hstart : start <:+ text.toList := List.suffix_append_self_iff.mp hrest
  rcases h start ((List.mem_tails _ _).mpr hstart) with rfl | ⟨hnot, hnot'⟩
  · exact hmore _ ((List.mem_tails _ _).mpr List.suffix_rfl)
  · right
    constructor
    · intro hphrase
      -- both the phrase and the start of the rest are prefixes of the rest
      exact (List.prefix_or_prefix_of_prefix hphrase (List.prefix_append start _)).elim hnot hnot'
    · intro hphrase
      exact hnot' ((List.prefix_append start _).trans hphrase)

theorem misses_join {pieces : List String} {phrase : String}
    (h : ∀ piece ∈ pieces, Misses piece phrase) : Misses (String.join pieces) phrase := by
  induction pieces with
  | nil =>
      intro rest hrest
      exact Or.inl (List.suffix_nil.mp ((List.mem_tails _ _).mp hrest))
  | cons piece pieces ih =>
      rw [String.join_cons]
      refine (h piece List.mem_cons_self).append (ih ?_)
      exact fun more hmore => h more (List.mem_cons_of_mem _ hmore)

theorem misses_of_notMem {text phrase : String} {first : Char} {others : List Char}
    (hphrase : phrase.toList = first :: others) (h : first ∉ text.toList) :
    Misses text phrase := by
  intro rest hrest
  cases rest with
  | nil => exact Or.inl rfl
  | cons ch rest =>
      have hmem : ch ∈ text.toList := ((List.mem_tails _ _).mp hrest).subset List.mem_cons_self
      have hne : first ≠ ch := fun heq => h (heq ▸ hmem)
      rw [hphrase, List.cons_prefix_cons, List.cons_prefix_cons]
      exact Or.inr ⟨fun hprefix => hne hprefix.1, fun hprefix => hne hprefix.1.symm⟩

/-! ## The characters of numbers -/

/-- The characters of numbers: digits, a sign, a point, and the letters of `inf` and `NaN`. -/
def IsNumeric (ch : Char) : Prop :=
  ch.isDigit = true ∨ ch ∈ ['-', '.', 'i', 'n', 'f', 'N', 'a']

instance (ch : Char) : Decidable (IsNumeric ch) :=
  inferInstanceAs (Decidable (_ ∨ _))

def Numeric (text : String) : Prop := ∀ ch ∈ text.toList, IsNumeric ch

instance (text : String) : Decidable (Numeric text) :=
  List.decidableBAll IsNumeric text.toList

theorem Numeric.append {text more : String} (h : Numeric text) (hmore : Numeric more) :
    Numeric (text ++ more) := by
  intro ch hch
  rw [String.toList_append, List.mem_append] at hch
  exact hch.elim (h ch) (hmore ch)

theorem Numeric.misses {text phrase : String} {first : Char} {others : List Char}
    (h : Numeric text) (hphrase : phrase.toList = first :: others) (hfirst : ¬ IsNumeric first) :
    Misses text phrase :=
  misses_of_notMem hphrase fun hmem => hfirst (h first hmem)

theorem numeric_toString (n : Nat) : Numeric (toString n) := by
  intro ch hch
  rw [Nat.toString_eq_repr, Nat.toList_repr] at hch
  exact Or.inl (Nat.isDigit_of_mem_toDigits (by decide) (by decide) hch)

namespace Decimal

theorem numeric_zeros (n : Nat) : Numeric (zeros n) := by
  intro ch hch
  rw [zeros, String.toList_ofList] at hch
  rw [List.eq_of_mem_replicate hch]
  decide

theorem numeric_positionalText {digits : String} (h : Numeric digits) (point : Int) :
    Numeric (Layout.plain.positionalText digits point) := by
  rw [Layout.positionalText]
  split_ifs
  · exact (Numeric.append (by decide) (numeric_zeros _)).append h
  · refine Numeric.append (Numeric.append ?_ (by decide)) ?_
    · intro ch hch
      rw [String.toList_ofList] at hch
      exact h ch (List.mem_of_mem_take hch)
    · intro ch hch
      rw [String.toList_ofList] at hch
      exact h ch (List.mem_of_mem_drop hch)
  · exact (h.append (numeric_zeros _)).append (by decide)

theorem numeric_magnitudeText (x : Binary64) : Numeric (Layout.plain.magnitudeText x) := by
  rw [Layout.magnitudeText]
  split_ifs
  · decide
  · exact numeric_positionalText (numeric_toString _) _

end Decimal

theorem Binary64.numeric_text (x : Binary64) : Numeric x.text := by
  have hsign : Numeric (if x.isNegative then "-" else "") := by
    split_ifs <;> decide
  rw [Binary64.text, Decimal.Layout.text]
  by_cases hnan : x.isNaN = true
  · rw [if_pos hnan]
    decide
  rw [if_neg hnan]
  by_cases hfinite : x.isFinite = true
  · simp only [if_pos hfinite]
    exact hsign.append (Decimal.numeric_magnitudeText x)
  · simp only [if_neg hfinite]
    exact hsign.append (by decide)

end Queueing
