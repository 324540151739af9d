import Mathlib.Data.List.Induction
import Mathlib.Tactic.TypeStar

/-!
# Histories

A history is the list of the steps of a run, the latest last.  A property of histories
that each step either keeps or breaks for good holds of exactly the histories that lost
nothing, so an observation in which every loss shows characterises it.
-/

namespace History

variable {α : Type*} {Good Lost Observed : List α → Prop}

/-- Every history starts good, and a step keeps it good or loses something that no later
step brings back. -/
structure Ratchet (Good Lost : List α → Prop) : Prop where
  nil : Good []
  step : ∀ history last, Good history → Good (history ++ [last]) ∨ Lost (history ++ [last])
  stays_lost : ∀ history last, Lost history → Lost (history ++ [last])

theorem Ratchet.good_or_lost (h : Ratchet Good Lost) (history : List α) :
    Good history ∨ Lost history := by
  induction history using List.reverseRecOn with
  | nil => exact .inl h.nil
  | append_singleton history last ih =>
      rcases ih with hgood | hlost
      · exact h.step history last hgood
      · exact .inr (h.stays_lost history last hlost)

/-- An observation of all good histories and of none that lost something. -/
theorem Ratchet.observed_iff (h : Ratchet Good Lost)
    (hgood : ∀ history, Good history → Observed history)
    (hlost : ∀ history, Lost history → ¬Observed history) (history : List α) :
    Observed history ↔ Good history := by
  constructor
  · intro hobserved
    rcases h.good_or_lost history with hok | hbroken
    · exact hok
    · exact absurd hobserved (hlost history hbroken)
  · exact hgood history

end History
