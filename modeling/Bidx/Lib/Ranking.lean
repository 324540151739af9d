import Mathlib.Order.Defs.LinearOrder
import Mathlib.Tactic.Common

/-!
# Rankings of systems with idle steps

A system takes labelled steps, some of which are idle: a party looks at the state and
leaves things as they are.  Where an invariant comes with a rank that idle steps do not
raise and the other steps lower, a run from a state of rank `r` has at most `r` steps
that are not idle, and it can always be continued to a state in which nothing but idle
steps is enabled.
-/

namespace Ranking

variable {S A : Type*}

/-- A run and the number of its steps that are not idle. -/
inductive Counted (step : A → S → S → Prop) (idle : A → S → Prop) : Nat → S → S → Prop
  | refl (s : S) : Counted step idle 0 s s
  | idle {n : Nat} {s t u : S} {a : A} (run : Counted step idle n s t) (hidle : idle a t)
      (hstep : step a t u) : Counted step idle n s u
  | moves {n : Nat} {s t u : S} {a : A} (run : Counted step idle n s t) (hmoves : ¬idle a t)
      (hstep : step a t u) : Counted step idle (n + 1) s u

/-- Only idle steps are enabled. -/
def AtRest (step : A → S → S → Prop) (idle : A → S → Prop) (s : S) : Prop :=
  ∀ a t, step a s t → idle a s

/-- `rank` measures what is left to do in the states of the invariant. -/
structure Ranked (step : A → S → S → Prop) (idle : A → S → Prop) (inv : S → Prop)
    (rank : S → Nat) : Prop where
  keeps : ∀ a s t, inv s → step a s t → inv t
  idle_le : ∀ a s t, inv s → idle a s → step a s t → rank t ≤ rank s
  moves_lt : ∀ a s t, inv s → ¬idle a s → step a s t → rank t < rank s

section Rules

variable {step : A → S → S → Prop} {idle : A → S → Prop} {inv : S → Prop} {rank : S → Nat}
  {n : Nat} {s t : S}

theorem Ranked.inv_run (h : Ranked step idle inv rank) (hs : inv s)
    (hrun : Counted step idle n s t) : inv t := by
  induction hrun with
  | refl => exact hs
  | idle _ _ hstep ih => exact h.keeps _ _ _ (ih hs) hstep
  | moves _ _ hstep ih => exact h.keeps _ _ _ (ih hs) hstep

/-- What has been done and what is left to do do not exceed what there was to do. -/
theorem Ranked.add_rank_le (h : Ranked step idle inv rank) (hs : inv s)
    (hrun : Counted step idle n s t) : n + rank t ≤ rank s := by
  induction hrun with
  | refl => exact Nat.le_of_eq (Nat.zero_add _)
  | idle run hidle hstep ih =>
      have hle := h.idle_le _ _ _ (h.inv_run hs run) hidle hstep
      have hdone := ih hs
      omega
  | moves run hmoves hstep ih =>
      have hlt := h.moves_lt _ _ _ (h.inv_run hs run) hmoves hstep
      have hdone := ih hs
      omega

theorem Counted.trans {m : Nat} {u : S} (hrun : Counted step idle n s t)
    (hrun' : Counted step idle m t u) : Counted step idle (n + m) s u := by
  induction hrun' with
  | refl => exact hrun
  | idle _ hidle hstep ih => exact (ih hrun).idle hidle hstep
  | moves _ hmoves hstep ih => exact (ih hrun).moves hmoves hstep

/-- From every state of the invariant a run leads to one where nothing is left to do. -/
theorem Ranked.exists_atRest (h : Ranked step idle inv rank) (hs : inv s) :
    ∃ n t, Counted step idle n s t ∧ AtRest step idle t := by
  -- On the rank: a step that is not idle lowers it.
  induction hr : rank s using Nat.strongRecOn generalizing s with
  | ind r ih =>
      by_cases hrest : AtRest step idle s
      · exact ⟨0, s, .refl s, hrest⟩
      · simp only [AtRest, not_forall] at hrest
        obtain ⟨a, t, hstep, hmoves⟩ := hrest
        have hlt := h.moves_lt a s t hs hmoves hstep
        obtain ⟨n, u, hrun, hrest⟩ := ih (rank t) (hr ▸ hlt) (h.keeps a s t hs hstep) rfl
        exact ⟨1 + n, u, (Counted.moves (.refl s) hmoves hstep).trans hrun, hrest⟩

end Rules

end Ranking
