import Mathlib.Data.List.Basic

/-! Two machines that answer the same calls. -/

namespace LexiDB.Lib

variable {σ : Type u} {τ : Type v} {ℓ : Type w} {ρ : Type x}

/-- The answers to these calls, one after the other, and the state they leave. -/
def answers (step : σ → ℓ → ρ × σ) : σ → List ℓ → List ρ × σ
  | s, [] => ([], s)
  | s, call :: calls =>
    let (answer, after) := step s call
    let (rest, last) := answers step after calls
    (answer :: rest, last)

@[simp] theorem answers_nil (step : σ → ℓ → ρ × σ) (s : σ) : answers step s [] = ([], s) := rfl

@[simp] theorem answers_cons (step : σ → ℓ → ρ × σ) (s : σ) (call : ℓ) (calls : List ℓ) :
    answers step s (call :: calls) =
      ((step s call).1 :: (answers step (step s call).2 calls).1, (answers step (step s call).2 calls).2) := rfl

/-- One call is answered alike from related states and leaves related ones. -/
def Alike (R : σ → τ → Prop) (step : σ → ℓ → ρ × σ) (other : τ → ℓ → ρ × τ) (s : σ) (t : τ) (call : ℓ) : Prop :=
  (step s call).1 = (other t call).1 ∧ R (step s call).2 (other t call).2

/-- Every call is allowed in the state that it finds. -/
def Along (allowed : σ → ℓ → Prop) (step : σ → ℓ → ρ × σ) : σ → List ℓ → Prop
  | _, [] => True
  | s, call :: calls => allowed s call ∧ Along allowed step (step s call).2 calls

/-- What holds of every single allowed call holds of all of them in a row. The
second machine says what is allowed. -/
theorem answers_alike_along {R : σ → τ → Prop} {step : σ → ℓ → ρ × σ} {other : τ → ℓ → ρ × τ} {allowed : τ → ℓ → Prop}
    (each : ∀ s t call, R s t → allowed t call → Alike R step other s t call) {calls : List ℓ}
    (all : Along allowed other t calls) (related : R s t) :
    (answers step s calls).1 = (answers other t calls).1 ∧ R (answers step s calls).2 (answers other t calls).2 := by
  induction calls generalizing s t with
  | nil => exact ⟨rfl, related⟩
  | cons call calls ih =>
    obtain ⟨here, later⟩ := all
    obtain ⟨same, next⟩ := each s t call related here
    obtain ⟨rest, last⟩ := ih later next
    exact ⟨by rw [answers_cons, answers_cons, same, rest], last⟩

theorem along_of_forall {allowed : ℓ → Prop} {step : σ → ℓ → ρ × σ} {calls : List ℓ} (all : ∀ call ∈ calls, allowed call)
    (s : σ) : Along (fun _ => allowed) step s calls := by
  induction calls generalizing s with
  | nil => trivial
  | cons call calls ih =>
    exact ⟨all call (List.mem_cons_self ..), ih (fun later member => all later (List.mem_cons_of_mem _ member)) _⟩

theorem answers_alike {R : σ → τ → Prop} {step : σ → ℓ → ρ × σ} {other : τ → ℓ → ρ × τ} {allowed : ℓ → Prop}
    (each : ∀ s t call, R s t → allowed call → Alike R step other s t call) {calls : List ℓ}
    (all : ∀ call ∈ calls, allowed call) (related : R s t) :
    (answers step s calls).1 = (answers other t calls).1 ∧ R (answers step s calls).2 (answers other t calls).2 :=
  answers_alike_along each (along_of_forall all t) related

/-- What every allowed call keeps holds after all of them. -/
theorem answers_keep_along (Inv : σ → Prop) (allowed : σ → ℓ → Prop) (step : σ → ℓ → ρ × σ)
    (each : ∀ s call, Inv s → allowed s call → Inv (step s call).2) (calls : List ℓ) (all : Along allowed step s calls)
    (holds : Inv s) : Inv (answers step s calls).2 := by
  induction calls generalizing s with
  | nil => exact holds
  | cons call calls ih => exact ih all.2 (each s call holds all.1)

/-- What every call keeps holds after all of them. -/
theorem answers_keep (Inv : σ → Prop) (step : σ → ℓ → ρ × σ) (each : ∀ s call, Inv s → Inv (step s call).2)
    (calls : List ℓ) (holds : Inv s) : Inv (answers step s calls).2 :=
  answers_keep_along Inv (fun _ _ => True) step (fun s call holds _ => each s call holds) calls
    (along_of_forall (fun _ _ => trivial) s) holds

end LexiDB.Lib
