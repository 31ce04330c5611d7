import Mathlib.Data.List.Basic

/-! Results of running a program that may fail to return: a fuelled run that
is out of fuel, a failed assertion, or an access outside an allocation. -/

namespace LexiDB.Lib

/-- Why a run produced no result. `fuel` is the only reason that more fuel can
remove; a computation that reports it for every fuel does not terminate. -/
inductive Halt where
  | fuel
  | abort
  | bounds
  deriving DecidableEq, Repr

theorem bind_eq_ok {run : Except Halt α} {next : α → Except Halt β} {result : β} :
    run >>= next = .ok result ↔ ∃ value, run = .ok value ∧ next value = .ok result := by
  cases run <;> simp [bind, Except.bind]

@[simp] theorem ok_bind (value : α) (next : α → Except Halt β) :
    ((.ok value : Except Halt α) >>= next) = next value := rfl

@[simp] theorem error_bind (halt : Halt) (next : α → Except Halt β) :
    ((.error halt : Except Halt α) >>= next) = .error halt := rfl

@[simp] theorem pure_eq_ok (value : α) : (pure value : Except Halt α) = .ok value := rfl

/-- The run has a result, and it passes the test. -/
def returnsWith (test : α → Bool) : Except Halt α → Bool
  | .ok value => test value
  | .error _ => false

theorem returnsWith_iff {run : Except Halt α} : returnsWith test run = true ↔ ∃ value, run = .ok value ∧ test value = true := by
  cases run <;> simp [returnsWith]

/-- A run is settled when it is not out of fuel. -/
def Settled (run : Except Halt α) : Prop := run ≠ .error .fuel

@[simp] theorem settled_ok (value : α) : Settled (.ok value) := by simp [Settled]

theorem Settled.bind {run : Except Halt α} {next : α → Except Halt β} (settled : Settled run)
    (each : ∀ value, run = .ok value → Settled (next value)) : Settled (run >>= next) := by
  cases run with
  | ok value => exact each value rfl
  | error halt =>
    intro spent
    exact settled (by simpa using spent)

/-- A fuelled run stops when some amount of fuel settles it. -/
def Stops (run : Nat → Except Halt α) : Prop := ∃ fuel, Settled (run fuel)

/-- `more` is what `less` is, unless `less` is out of fuel. -/
def Below (less more : Except Halt α) : Prop := Settled less → more = less

theorem Below.refl (run : Except Halt α) : Below run run := fun _ => rfl

theorem Below.bind {less more : Except Halt α} {first second : α → Except Halt β} (below : Below less more)
    (next : ∀ value, Below (first value) (second value)) : Below (less >>= first) (more >>= second) := by
  intro settled
  cases less with
  | ok value =>
    rw [below (settled_ok value)]
    exact next value settled
  | error halt =>
    have kept : Settled (.error halt : Except Halt α) := by
      intro spent
      cases spent
      exact settled rfl
    rw [below kept]
    rfl

/-- Fuel only decides whether a result is seen, never which one. -/
def FuelMono (run : Nat → Except Halt α) : Prop := ∀ fuel, Below (run fuel) (run (fuel + 1))

theorem FuelMono.const (run : Except Halt α) : FuelMono fun _ => run := fun _ => .refl run

theorem FuelMono.bind {run : Nat → Except Halt α} {next : Nat → α → Except Halt β} (mono : FuelMono run)
    (each : ∀ value, FuelMono fun fuel => next fuel value) : FuelMono fun fuel => run fuel >>= next fuel :=
  fun fuel => (mono fuel).bind fun value => each value fuel

theorem FuelMono.le {run : Nat → Except Halt α} (mono : FuelMono run)
    (settled : Settled (run fuel)) (more : fuel ≤ other) : run other = run fuel := by
  induction more with
  | refl => rfl
  | step _ ih => exact (mono _ (by rw [ih]; exact settled)).trans ih

theorem FuelMono.ok_le {run : Nat → Except Halt α} (mono : FuelMono run) (seen : run fuel = .ok value)
    (more : fuel ≤ other) : run other = .ok value :=
  (mono.le (by rw [seen]; exact settled_ok value) more).trans seen

/-- Two settled fuels see the same result. -/
theorem FuelMono.agree {run : Nat → Except Halt α} (mono : FuelMono run)
    (one : Settled (run first)) (two : Settled (run second)) : run first = run second := by
  rcases Nat.le_total first second with order | order
  · exact (mono.le one order).symm
  · exact mono.le two order

theorem FuelMono.ok_unique {run : Nat → Except Halt α} (mono : FuelMono run) (one : run first = .ok value)
    (two : run second = .ok other) : value = other := by
  have agree := mono.agree (by rw [one]; exact settled_ok value) (by rw [two]; exact settled_ok other)
  exact Except.ok.inj (one.symm.trans (agree.trans two))

/-- A result seen once is the only one, at every fuel that shows any. -/
theorem FuelMono.spent_or {run : Nat → Except Halt α} (mono : FuelMono run) (seen : run fuel = .ok value)
    (other : Nat) : run other = .error .fuel ∨ run other = .ok value := by
  by_cases settled : Settled (run other)
  · exact .inr ((mono.agree settled (by rw [seen]; exact settled_ok value)).trans seen)
  · exact .inl (not_not.mp settled)

/-- A run that stops before one that stops on its result. -/
theorem Stops.bind {run : Nat → Except Halt α} {next : Nat → α → Except Halt β} (stops : Stops run)
    (mono : FuelMono run) (each : ∀ value, FuelMono fun fuel => next fuel value)
    (rest : ∀ value fuel, run fuel = .ok value → Stops fun fuel => next fuel value) :
    Stops fun fuel => run fuel >>= next fuel := by
  obtain ⟨one, settled⟩ := stops
  cases result : run one with
  | error halt => exact ⟨one, settled.bind (by simp [result])⟩
  | ok value =>
    obtain ⟨two, settledNext⟩ := rest value one result
    refine ⟨one + two, Settled.bind ?_ ?_⟩
    · rw [mono.le settled (Nat.le_add_right one two)]
      exact settled
    · intro other same
      rw [mono.le settled (Nat.le_add_right one two), result] at same
      cases same
      rw [(each value).le settledNext (Nat.le_add_left two one)]
      exact settledNext

/-- Some fuel shows a result, and more of it shows no other. -/
structure Total (run : Nat → Except Halt α) : Prop where
  mono : FuelMono run
  returns : ∃ fuel value, run fuel = .ok value

theorem Total.pure (value : α) : Total fun _ => (.ok value : Except Halt α) := ⟨.const _, 0, value, rfl⟩

/-- What is run behind a result needs to be total for the results there are. -/
theorem Total.bind {run : Nat → Except Halt α} {next : Nat → α → Except Halt β} (total : Total run)
    (each : ∀ value fuel, run fuel = .ok value → Total fun fuel => next fuel value) : Total fun fuel => run fuel >>= next fuel where
  mono fuel settled := by
    cases seen : run fuel with
    | error halt =>
      have kept : Settled (run fuel) := by
        intro spent
        simp only [spent, error_bind] at settled
        exact settled rfl
      simp only [total.mono fuel kept, seen, error_bind]
    | ok value =>
      have kept : Settled (run fuel) := by
        rw [seen]
        exact settled_ok value
      simp only [seen, ok_bind] at settled
      simp only [total.mono fuel kept, seen, ok_bind]
      exact (each value fuel seen).mono fuel settled
  returns := by
    obtain ⟨one, value, seen⟩ := total.returns
    obtain ⟨two, result, last⟩ := (each value one seen).returns
    refine ⟨one + two, result, ?_⟩
    simp only [total.mono.ok_le seen (Nat.le_add_right one two), ok_bind]
    exact (each value one seen).mono.ok_le last (Nat.le_add_left two one)

theorem Total.of_succ {run : Nat → Except Halt α} (start : run 0 = .error .fuel) (total : Total fun fuel => run (fuel + 1)) :
    Total run where
  mono fuel := by
    cases fuel with
    | zero => exact fun settled => absurd start settled
    | succ fuel => exact total.mono fuel
  returns := by
    obtain ⟨fuel, value, seen⟩ := total.returns
    exact ⟨fuel + 1, value, seen⟩

/-- From some fuel on there is always the one result. -/
theorem Total.seen {run : Nat → Except Halt α} (total : Total run) : ∃ value enough, ∀ fuel, enough ≤ fuel → run fuel = .ok value := by
  obtain ⟨enough, value, seen⟩ := total.returns
  exact ⟨value, enough, fun fuel more => total.mono.ok_le seen more⟩

section While

variable (cond : σ → Bool) (body : σ → σ)

/-- A `while` loop that may go round less than `fuel` times. -/
def whileFuel : Nat → σ → Except Halt σ
  | 0, _ => .error .fuel
  | fuel + 1, state => if cond state then whileFuel fuel (body state) else .ok state

variable {cond body}

theorem whileFuel_mono (state : σ) : FuelMono fun fuel => whileFuel cond body fuel state := by
  intro fuel
  induction fuel generalizing state with
  | zero =>
    intro settled
    exact absurd rfl settled
  | succ fuel ih =>
    by_cases again : cond state = true
    · have round : ∀ fuel, whileFuel cond body (fuel + 1) state = whileFuel cond body fuel (body state) := by
        simp [whileFuel, again]
      simpa only [round] using ih (body state)
    · have left : ∀ fuel, whileFuel cond body (fuel + 1) state = .ok state := by simp [whileFuel, again]
      simpa only [left] using Below.refl _

/-- A loop whose measure drops in every round stops, on a state that fails its
condition. -/
theorem whileFuel_stops (cond : σ → Bool) (body : σ → σ) (measure : σ → Nat) (drops : ∀ state, cond state = true → measure (body state) < measure state) :
    ∀ fuel state, measure state < fuel → ∃ last, whileFuel cond body fuel state = .ok last := by
  intro fuel
  induction fuel with
  | zero =>
    intro state within
    omega
  | succ fuel ih =>
    intro state within
    unfold whileFuel
    split
    · rename_i again
      exact ih _ (by have := drops state again; omega)
    · exact ⟨state, rfl⟩

theorem whileFuel_total (measure : σ → Nat) (drops : ∀ state, cond state = true → measure (body state) < measure state)
    (state : σ) : Total fun fuel => whileFuel cond body fuel state := by
  obtain ⟨last, done⟩ := whileFuel_stops cond body measure drops (measure state + 1) state (Nat.lt_succ_self _)
  exact ⟨whileFuel_mono state, measure state + 1, last, done⟩

/-- What every round keeps holds when the loop is left, and its condition does
not. -/
theorem whileFuel_invariant (Inv : σ → Prop) (keeps : ∀ state, Inv state → cond state = true → Inv (body state)) :
    ∀ fuel state last, Inv state → whileFuel cond body fuel state = .ok last → Inv last ∧ cond last = false := by
  intro fuel
  induction fuel with
  | zero => simp [whileFuel]
  | succ fuel ih =>
    intro state last holds done
    unfold whileFuel at done
    split at done
    · rename_i again
      exact ih _ _ (keeps state holds again) done
    · rename_i left
      cases done
      exact ⟨holds, by simpa using left⟩

/-- A loop whose rounds keep its condition alive never ends. -/
theorem whileFuel_spins (Inv : σ → Prop) (alive : ∀ state, Inv state → cond state = true)
    (keeps : ∀ state, Inv state → Inv (body state)) :
    ∀ fuel state, Inv state → whileFuel cond body fuel state = .error .fuel := by
  intro fuel
  induction fuel with
  | zero => simp [whileFuel]
  | succ fuel ih =>
    intro state holds
    simp [whileFuel, alive state holds, ih _ (keeps state holds)]

end While

end LexiDB.Lib
