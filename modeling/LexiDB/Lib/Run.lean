import Mathlib.Data.List.Basic

/-! Runs of a labelled transition system, and the two rules every result about
them uses: an invariant over history and state, and cutting a run at a step. -/

namespace LexiDB.Lib

variable {σ : Type u} {ℓ : Type v}

/-- The states reached from `start`, with the labels of the steps taken. -/
inductive Run (step : σ → ℓ → σ → Prop) (start : σ) : List ℓ → σ → Prop where
  | start : Run step start [] start
  | next (run : Run step start labels s) (last : step s label t) : Run step start (labels ++ [label]) t

variable {step : σ → ℓ → σ → Prop} {start : σ}

/-- What holds at the start and is kept by every step holds of every run. -/
theorem Run.invariant (Inv : List ℓ → σ → Prop) (base : Inv [] start)
    (keeps : ∀ labels s label t, Inv labels s → step s label t → Inv (labels ++ [label]) t)
    (run : Run step start labels s) : Inv labels s := by
  induction run with
  | start => exact base
  | next _ last ih => exact keeps _ _ _ _ ih last

/-- Every step of a run was taken from the state its front reaches. -/
theorem Run.split (run : Run step start labels t) :
    ∀ front label back, labels = front ++ label :: back → ∃ s next, Run step start front s ∧ step s label next := by
  induction run with
  | start =>
    intro front label back cut
    simp at cut
  | next run last ih =>
    rename_i labels s final t
    intro front label back cut
    rcases List.eq_nil_or_concat back with empty | ⟨inner, tail, rfl⟩
    · subst empty
      obtain ⟨same, here⟩ := List.append_inj' cut rfl
      cases here
      subst same
      exact ⟨s, t, run, last⟩
    · have shorter : labels = front ++ label :: inner := by
        have aligned : labels ++ [final] = (front ++ label :: inner) ++ [tail] := by simpa using cut
        exact (List.append_inj' aligned rfl).1
      exact ih front label inner shorter

/-- A run is cut where its labels are. -/
theorem Run.cut (run : Run step start labels t) :
    ∀ front back, labels = front ++ back → ∃ s, Run step start front s ∧ Run step s back t := by
  induction run with
  | start =>
    intro front back cut
    obtain ⟨rfl, rfl⟩ := List.append_eq_nil_iff.mp cut.symm
    exact ⟨start, .start, .start⟩
  | next run last ih =>
    rename_i labels s final t
    intro front back cut
    rcases List.eq_nil_or_concat back with empty | ⟨inner, tail, rfl⟩
    · subst empty
      rw [List.append_nil] at cut
      exact ⟨t, cut ▸ run.next last, .start⟩
    · obtain ⟨aligned, here⟩ := List.append_inj' (show labels ++ [final] = (front ++ inner) ++ [tail] by simpa using cut) rfl
      cases here
      obtain ⟨middle, first, second⟩ := ih front inner aligned
      refine ⟨middle, first, ?_⟩
      rw [List.concat_eq_append]
      exact second.next last

/-- Steps may be asked less of. -/
theorem Run.mono {other : σ → ℓ → σ → Prop} (weaker : ∀ s label t, step s label t → other s label t) (run : Run step start labels t) :
    Run other start labels t := by
  induction run with
  | start => exact .start
  | next _ last ih => exact ih.next (weaker _ _ _ last)

theorem Run.nil (run : Run step start labels t) (none_ : labels = []) : t = start := by
  cases run with
  | start => rfl
  | next => simp at none_

end LexiDB.Lib
