import Queueing.Experiment.Report
import Queueing.Proofs.Text.Parts

/-!
# What the report line says

The line of an experiment shows bounds exactly when there is an interval, and tells of a
shortage exactly when there is none although there were several trials. The numbers in it
cannot feign either phrase.
-/

namespace Queueing

def boundsPhrase (lower upper : String) : String := "conf int " ++ lower ++ " - " ++ upper

def shortagePhrase (valid trials : String) : String :=
  valid ++ " valid of " ++ trials ++ " trials"

theorem not_misses_of_shows {text phrase words : String} (h : Shows text phrase)
    (hphrase : Shows phrase words) (hwords : words.toList ≠ []) : ¬ Misses text words :=
  fun hmisses => hmisses.not_shows hwords (h.trans hphrase)

theorem not_misses_bounds {text lower upper : String}
    (h : Shows text (boundsPhrase lower upper)) : ¬ Misses text "conf int " := by
  have hjoin : Shows (String.join ["conf int ", lower, " - ", upper]) "conf int " :=
    shows_join List.mem_cons_self
  refine not_misses_of_shows h ?_ (by decide)
  simpa only [boundsPhrase, String.join_cons, String.join_nil, String.append_assoc,
    String.append_empty] using hjoin

theorem not_misses_shortage {text valid trials : String}
    (h : Shows text (shortagePhrase valid trials)) : ¬ Misses text "valid of " := by
  have hjoin : Shows (String.join [valid, " ", "valid of ", trials, " trials"]) "valid of " :=
    shows_join (List.mem_cons_of_mem _ (List.mem_cons_of_mem _ List.mem_cons_self))
  have hsplit : " valid of " = " " ++ "valid of " := rfl
  refine not_misses_of_shows h ?_ (by decide)
  simpa only [shortagePhrase, hsplit, String.join_cons, String.join_nil, String.append_assoc,
    String.append_empty] using hjoin

namespace Estimate

variable (expected : Binary64) (trials : UInt64)

theorem interval_line (a : Aggregate Binary64) :
    (Estimate.interval a).line expected trials = String.join
      ["Average time in system: ", a.mean.text, " (n ", toString a.n, ", ",
        boundsPhrase a.lower.text a.upper.text, ", expected: ", expected.text, ")"] := by
  unfold line
  have hsplit : ", conf int " = ", " ++ "conf int " := rfl
  simp only [hsplit, boundsPhrase, String.join_cons, String.join_nil, String.append_assoc,
    String.append_empty]

theorem insufficient_line (valid : Nat) (mean : Option Binary64) :
    (Estimate.insufficient valid mean).line expected trials = String.join
      ["Average time in system: ", (mean.map Binary64.text).getD "unavailable", ", expected: ",
        expected.text, if 1 < trials then String.join [" (insufficient data: ",
          shortagePhrase (toString valid) (toString trials.toNat),
          ", no confidence interval)"] else ""] := by
  unfold line
  have hsplit : " trials, no confidence interval)" =
      " trials" ++ ", no confidence interval)" := rfl
  cases mean <;> split_ifs <;>
    simp only [hsplit, shortagePhrase, String.join_cons, String.join_nil, String.append_assoc,
      String.append_empty, Option.map, Option.getD]

theorem interval_shows (a : Aggregate Binary64) :
    Shows ((Estimate.interval a).line expected trials)
      (boundsPhrase a.lower.text a.upper.text) := by
  rw [interval_line]
  exact shows_join (by simp only [List.mem_cons, true_or, or_true])

theorem interval_misses (a : Aggregate Binary64) :
    Misses ((Estimate.interval a).line expected trials) "valid of " := by
  have hnumber : ∀ x : Binary64, Misses x.text "valid of " :=
    fun x => x.numeric_text.misses rfl (by decide)
  have hcount : Misses (toString a.n) "valid of " := (numeric_toString _).misses rfl (by decide)
  have hbounds : Misses (boundsPhrase a.lower.text a.upper.text) "valid of " :=
    ((Misses.append (by decide) (hnumber _)).append (by decide)).append (hnumber _)
  rw [interval_line]
  refine misses_join ?_
  simp only [List.forall_mem_cons]
  exact ⟨by decide, hnumber _, by decide, hcount, by decide, hbounds, by decide, hnumber _,
    by decide, fun _ h => by cases h⟩

theorem insufficient_shows (valid : Nat) (mean : Option Binary64) (htrials : 1 < trials) :
    Shows ((Estimate.insufficient valid mean).line expected trials)
      (shortagePhrase (toString valid) (toString trials.toNat)) := by
  have hnote : Shows (String.join [" (insufficient data: ",
      shortagePhrase (toString valid) (toString trials.toNat), ", no confidence interval)"])
      (shortagePhrase (toString valid) (toString trials.toNat)) :=
    shows_join (List.mem_cons_of_mem _ List.mem_cons_self)
  rw [insufficient_line, if_pos htrials]
  refine Shows.trans (shows_join ?_) hnote
  simp only [List.mem_cons, true_or, or_true]

theorem misses_meanText {phrase : String} {first : Char} {others : List Char}
    (hphrase : phrase.toList = first :: others) (hfirst : ¬ IsNumeric first)
    (hword : Misses "unavailable" phrase) (mean : Option Binary64) :
    Misses ((mean.map Binary64.text).getD "unavailable") phrase := by
  cases mean with
  | none => exact hword
  | some m => exact m.numeric_text.misses hphrase hfirst

theorem insufficient_misses_bounds (valid : Nat) (mean : Option Binary64) :
    Misses ((Estimate.insufficient valid mean).line expected trials) "conf int " := by
  have hcount : ∀ n : Nat, Misses (toString n) "conf int " :=
    fun n => (numeric_toString n).misses rfl (by decide)
  have hshortage : Misses (shortagePhrase (toString valid) (toString trials.toNat)) "conf int " :=
    (((hcount _).append (by decide)).append (hcount _)).append (by decide)
  rw [insufficient_line]
  refine misses_join ?_
  simp only [List.forall_mem_cons]
  refine ⟨by decide, misses_meanText rfl (by decide) (by decide) mean, by decide,
    expected.numeric_text.misses rfl (by decide), ?_, fun _ h => by cases h⟩
  split_ifs
  · refine misses_join ?_
    simp only [List.forall_mem_cons]
    exact ⟨by decide, hshortage, by decide, fun _ h => by cases h⟩
  · decide

theorem insufficient_misses_shortage (valid : Nat) (mean : Option Binary64)
    (htrials : ¬ 1 < trials) :
    Misses ((Estimate.insufficient valid mean).line expected trials) "valid of " := by
  rw [insufficient_line, if_neg htrials]
  refine misses_join ?_
  simp only [List.forall_mem_cons]
  exact ⟨by decide, misses_meanText rfl (by decide) (by decide) mean, by decide,
    expected.numeric_text.misses rfl (by decide), by decide, fun _ h => by cases h⟩

end Estimate

end Queueing
