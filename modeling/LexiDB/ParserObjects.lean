import LexiDB.ParserTermination
import LexiDB.ObjectCompare

/-! What the objects and the commands that come out of the parser look like. -/

namespace LexiDB

open Lib

section Strings

variable {env : Env} {supply : Supply}

private theorem parserPush_valid (grants : supply.Grants) {state : Vstr × Parser} (valid : state.1.Valid) :
    (parserPush supply state).1.Valid :=
  vstrPushChar_valid (grants _ _) valid _

private theorem parserPushes_valid (grants : supply.Grants) :
    ∀ (count : Nat) (state : Vstr × Parser), state.1.Valid → (parserPushes supply count state).1.Valid := by
  intro count
  induction count with
  | zero => exact fun state valid => valid
  | succ count ih => exact fun state valid => ih _ (parserPush_valid grants valid)

private theorem parserCollect_valid (grants : supply.Grants) {s t : Vstr} (valid : s.Valid)
    (done : parserCollect supply more fuel s p = .ok (t, q)) : t.Valid := by
  have kept := whileFuel_invariant (fun state : Vstr × Parser => state.1.Valid)
    (fun state holds _ => parserPush_valid grants holds) fuel (s, p) (t, q) valid done
  exact kept.1

private theorem parseLine_valid (grants : supply.Grants) {s t : Vstr} (valid : s.Valid)
    (done : parseLine supply fuel s p = .ok (t, q)) : t.Valid := by
  obtain ⟨⟨text, middle⟩, collected, done⟩ := bind_eq_ok.mp done
  have kept := parserCollect_valid grants valid collected
  simp only at done
  split at done
  · cases done
    exact (vstrFree_spec kept).1
  · split at done
    · cases done
      exact (vstrFree_spec kept).1
    · cases done
      exact kept

private theorem vstrNewLen_valid {mem : Mem} (grants : mem.Grants) (done : vstrNewLen mem len = .ok s) : s.Valid := by
  by_cases fits : len ≤ vstrMaxLargeSize
  · obtain ⟨t, created, valid, _⟩ := vstrNewLen_spec grants fits
    rw [created] at done
    cases done
    exact valid
  · have large : len > vstrMaxSmallSize := by
      simp only [vstrMaxLargeSize, vstrMaxSmallSize] at *
      omega
    simp [vstrNewLen, large, fits] at done

/-- Every string object the parser hands out is well represented. -/
theorem parseObject_stringValid (grants : supply.Grants) (done : parseObject env supply fuel p = .ok (obj, q)) :
    obj.StringValid := by
  have finished : ∀ (value : Object) (from_ : Parser), value.StringValid → (parserFinish value from_).1.StringValid := by
    intro value from_ valid
    unfold parserFinish
    split
    · trivial
    · split
      · trivial
      · exact valid
  cases fuel with
  | zero => cases done
  | succ fuel =>
    unfold parseObject at done
    split at done
    · obtain ⟨⟨len, middle⟩, _, done⟩ := bind_eq_ok.mp done
      cases len with
      | none =>
        cases done
        trivial
      | some len =>
        obtain ⟨⟨s, last⟩, read, done⟩ := bind_eq_ok.mp done
        obtain ⟨empty, created, pushed⟩ := bind_eq_ok.mp read
        have valid := parserPushes_valid grants len (empty, parserReadChar middle)
          (vstrNewLen_valid (grants _ _) created)
        rw [Except.ok.inj pushed] at valid
        have final := finished (.string s) last valid
        rwa [Except.ok.inj done] at final
    · obtain ⟨⟨val, middle⟩, _, done⟩ := bind_eq_ok.mp done
      have final := finished (.int val) middle trivial
      rwa [Except.ok.inj done] at final
    · obtain ⟨⟨val, middle⟩, _, done⟩ := bind_eq_ok.mp done
      have final := finished (.double val) middle trivial
      rwa [Except.ok.inj done] at final
    · have final : (parseBoolean p).1.StringValid := by
        unfold parseBoolean
        simp only
        split
        · trivial
        · split
          · trivial
          · split <;> trivial
      rwa [Except.ok.inj done] at final
    · obtain ⟨⟨s, middle⟩, read, done⟩ := bind_eq_ok.mp done
      obtain ⟨empty, created, line⟩ := bind_eq_ok.mp read
      cases done
      exact parseLine_valid grants (vstrNewLen_valid (grants _ _) created) line
    · obtain ⟨⟨s, middle⟩, line, done⟩ := bind_eq_ok.mp done
      cases done
      exact parseLine_valid grants vstrNew_valid line
    · obtain ⟨⟨len, middle⟩, _, done⟩ := bind_eq_ok.mp done
      cases len with
      | none =>
        cases done
        trivial
      | some len =>
        simp only at done
        split at done
        · cases done
        · obtain ⟨_, _, done⟩ := bind_eq_ok.mp done
          cases done
          trivial
    · obtain ⟨⟨len, middle⟩, _, done⟩ := bind_eq_ok.mp done
      cases len with
      | none =>
        cases done
        trivial
      | some len =>
        simp only at done
        split at done
        · cases done
        · obtain ⟨_, _, done⟩ := bind_eq_ok.mp done
          cases done
          trivial
    · cases done
      trivial

end Strings

/-- The argument objects of a command. -/
def Cmd.args : Cmd → List Object
  | .auth username password => [username, password]
  | .set key value => [key, value]
  | .select value | .push value | .enque value | .zset value | .zhas value | .zdel value => [value]
  | .get key | .del key => [key]
  | _ => []

section Commands

variable {env : Env} {supply : Supply}

/-- What the array frame reads for a command that it does not refuse: the name that
help is wanted for, or as many objects as the command takes. -/
inductive ArgsRead (env : Env) (supply : Supply) (fuel len : Nat) : Cmdt → Parser → Cmd → Prop where
  | help (asked : parseCmdType env supply fuel p = .ok (wanted, q)) (known : wanted ≠ .illegal) :
      ArgsRead env supply fuel len .help p (.help 1 wanted)
  | one (takes : type.arity = 1) (complete : len = 2) (parsed : parseObject env supply fuel p = .ok (value, q))
      (given : value ≠ .null) (args : cmd.args = [value]) (select : ∀ arg, cmd = .select arg → ∃ num, arg = .int num) :
      ArgsRead env supply fuel len type p cmd
  | two (takes : type.arity = 2) (complete : len = 3) (parsed : parseObject env supply fuel p = .ok (first, q))
      (given : first ≠ .null) (then_ : parseObject env supply fuel q = .ok (second, r)) (more : second ≠ .null)
      (args : cmd.args = [first, second]) : ArgsRead env supply fuel len type p cmd

private theorem parseOne_args (takes : type.arity = 1) {make : Object → Cmd} (makes : ∀ value, (make value).args = [value])
    (other : ∀ value arg, make value ≠ .select arg) (done : parseOne env supply fuel len make p = .ok cmd) :
    cmd = .illegal ∨ ArgsRead env supply fuel len type p cmd := by
  unfold parseOne at done
  split at done
  · exact .inl (Except.ok.inj done).symm
  · rename_i complete
    obtain ⟨⟨value, q⟩, parsed, done⟩ := bind_eq_ok.mp done
    simp only at done
    split at done
    · exact .inl (Except.ok.inj done).symm
    · rename_i given
      cases done
      exact .inr (.one takes (not_not.mp complete) parsed given (makes value) fun arg same => absurd same (other value arg))

private theorem parseTwo_args (takes : type.arity = 2) {make : Object → Object → Cmd}
    (makes : ∀ first second, (make first second).args = [first, second])
    (done : parseTwo env supply fuel len make p = .ok cmd) : cmd = .illegal ∨ ArgsRead env supply fuel len type p cmd := by
  unfold parseTwo at done
  split at done
  · exact .inl (Except.ok.inj done).symm
  · rename_i complete
    obtain ⟨⟨first, q⟩, parsed, done⟩ := bind_eq_ok.mp done
    simp only at done
    split at done
    · exact .inl (Except.ok.inj done).symm
    · rename_i given
      obtain ⟨⟨second, r⟩, then_, done⟩ := bind_eq_ok.mp done
      simp only at done
      split at done
      · exact .inl (Except.ok.inj done).symm
      · rename_i more
        cases done
        exact .inr (.two takes (not_not.mp complete) parsed given then_ more (makes first second))

private theorem parseSelect_args (done : parseSelect env supply fuel len p = .ok cmd) :
    cmd = .illegal ∨ ArgsRead env supply fuel len .select p cmd := by
  unfold parseSelect at done
  split at done
  · exact .inl (Except.ok.inj done).symm
  · rename_i complete
    obtain ⟨⟨value, q⟩, parsed, done⟩ := bind_eq_ok.mp done
    simp only at done
    split at done
    · rename_i num
      cases done
      refine .inr (.one rfl (not_not.mp complete) parsed (by simp) rfl ?_)
      rintro arg ⟨⟩
      exact ⟨num, rfl⟩
    · exact .inl (Except.ok.inj done).symm

/-- A command is refused, or what it takes was read. -/
theorem parseArgs_args (done : parseArgs env supply fuel len type p = .ok cmd) :
    cmd = .illegal ∨ ArgsRead env supply fuel len type p cmd := by
  unfold parseArgs at done
  cases type with
  | help =>
    obtain ⟨⟨wanted, q⟩, asked, done⟩ := bind_eq_ok.mp done
    simp only at done
    split at done
    · exact .inl (Except.ok.inj done).symm
    · rename_i known
      cases done
      exact .inr (.help asked known)
  | auth | set => exact parseTwo_args rfl (fun _ _ => rfl) done
  | get | del | push | enque | zset | zhas | zdel => exact parseOne_args rfl (fun _ => rfl) (by simp) done
  | select => exact parseSelect_args done
  | _ => exact .inl (Except.ok.inj done).symm

/-- The array frame reads a length, a name and what the command takes. -/
theorem parseArrayCmd_args (done : parseArrayCmd env supply fuel p = .ok cmd) :
    cmd = .illegal ∨ ∃ len middle type q, parseHeader fuel p = .ok (some len, middle) ∧ len ≠ 0 ∧
      parseCmdType env supply fuel (parserReadChar middle) = .ok (type, q) ∧ ArgsRead env supply fuel len type q cmd := by
  obtain ⟨⟨len, middle⟩, headed, done⟩ := bind_eq_ok.mp done
  cases len with
  | none => exact .inl (Except.ok.inj done).symm
  | some len =>
    simp only at done
    split at done
    · exact .inl (Except.ok.inj done).symm
    · rename_i some_
      obtain ⟨⟨type, q⟩, named, done⟩ := bind_eq_ok.mp done
      simp only at done
      split at done
      · exact .inl (Except.ok.inj done).symm
      · exact (parseArgs_args done).imp_right fun read => ⟨len, middle, type, q, headed, some_, named, read⟩

/-- The arguments of a command are objects `parse_object` returned, or the Nulls
of a bare one. -/
theorem parse_args {P : Object → Prop} (each : ∀ fuel p obj q, parseObject env supply fuel p = .ok (obj, q) → P obj)
    (null : P .null) (done : parse env supply fuel input = .ok cmd) : ∀ obj ∈ cmd.args, P obj := by
  have bare : ∀ type : Cmdt, ∀ obj ∈ (Cmd.bare type).args, P obj := by
    intro type
    cases type <;> simp [Cmd.bare, Cmd.args, null]
  unfold parse parseCmd at done
  split at done
  · rcases parseArrayCmd_args done with rfl | ⟨_, _, _, _, _, _, _, read⟩
    · simp [Cmd.args]
    · cases read with
      | help => simp [Cmd.args]
      | one _ _ parsed _ args => simpa [args] using each _ _ _ _ parsed
      | two _ _ parsed _ then_ _ args => simpa [args] using And.intro (each _ _ _ _ parsed) (each _ _ _ _ then_)
  · obtain ⟨⟨type, _⟩, _, done⟩ := bind_eq_ok.mp done
    cases done
    exact bare type
  · obtain ⟨⟨type, _⟩, _, done⟩ := bind_eq_ok.mp done
    cases done
    exact bare type
  · cases done
    simp [Cmd.args]

end Commands

end LexiDB
