import Mathlib.Logic.Function.Iterate
import LexiDB.Parser

/-! Two facts every later result about the parser rests on: fuel never changes
an answer, and no function moves backwards in the input. -/

namespace LexiDB

open Lib

/-- The byte of a `case`. -/
def WireType.byte : WireType → UInt8
  | .string => stringTypeByte
  | .int => intTypeByte
  | .double => doubleTypeByte
  | .bool => booleanTypeByte
  | .simple => ascii '+'
  | .error => simpleErrTypeByte
  | .array => arrayTypeByte
  | .ht => htTypeByte

theorem wireType_eq : wireType ch = some type ↔ ch = type.byte := by
  constructor
  · intro known
    unfold wireType at known
    split_ifs at known with same <;>
    · cases known
      assumption
  · rintro rfl
    cases type <;> decide

section Forward

/-- The parser after some calls of `parser_read_char`. -/
def Parser.Reaches (p q : Parser) : Prop := ∃ n, parserReadChar^[n] p = q

theorem Parser.Reaches.refl (p : Parser) : p.Reaches p := ⟨0, rfl⟩

theorem Parser.Reaches.read (p : Parser) : p.Reaches (parserReadChar p) := ⟨1, rfl⟩

theorem Parser.Reaches.trans {p q r : Parser} (first : p.Reaches q) (second : q.Reaches r) : p.Reaches r := by
  obtain ⟨n, rfl⟩ := first
  obtain ⟨m, rfl⟩ := second
  exact ⟨m + n, Function.iterate_add_apply ..⟩

/-- From the next byte on, so from here on. -/
theorem Parser.Reaches.back {p q : Parser} (later : (parserReadChar p).Reaches q) : p.Reaches q := (Reaches.read p).trans later

/-- How much of the input is unread. -/
def Parser.unread (p : Parser) : Nat := p.rest.length

theorem parserReadChar_unread (p : Parser) : (parserReadChar p).unread ≤ p.unread := by
  unfold parserReadChar Parser.unread
  split <;> simp_all

theorem Parser.Reaches.unread {p q : Parser} (reaches : p.Reaches q) : q.unread ≤ p.unread := by
  obtain ⟨n, rfl⟩ := reaches
  induction n with
  | zero => exact Nat.le_refl _
  | succ n ih =>
    rw [Function.iterate_succ_apply']
    exact Nat.le_trans (parserReadChar_unread _) ih

/-- What the loops that watch for a zero byte count down: nothing is left to
read once they see one. -/
def Parser.pending (p : Parser) : Nat := if p.ch = 0 then 0 else p.unread + 1

theorem Parser.pending_drops {p : Parser} (here : p.ch ≠ 0) : (parserReadChar p).pending < p.pending := by
  have counted : p.pending = p.unread + 1 := if_neg here
  cases input : p.rest with
  | nil =>
    rw [counted]
    simp [parserReadChar, input, Parser.pending]
  | cons byte rest =>
    have next : (parserReadChar p).pending ≤ rest.length + 1 := by
      simp only [parserReadChar, input, Parser.pending, Parser.unread]
      split <;> omega
    simp only [counted, Parser.unread, input, List.length_cons]
    omega

theorem expectPeekByte_eq (done : expectPeekByte p byte = some q) : q = parserReadChar p := by
  unfold expectPeekByte at done
  split at done <;> cases done
  rfl

theorem expectPeekByteToBeNum_eq (done : expectPeekByteToBeNum p = some q) : q = parserReadChar p := by
  unfold expectPeekByteToBeNum at done
  split at done <;> cases done
  rfl

/-- A digit ahead is a byte of the input, so reading it leaves less. -/
theorem expectPeekByteToBeNum_unread (done : expectPeekByteToBeNum p = some q) : q.unread < p.unread := by
  unfold expectPeekByteToBeNum peekByte at done
  split at done
  · rename_i digit
    cases done
    cases input : p.rest with
    | nil => simp [input, isDigit] at digit
    | cons byte rest => simp [parserReadChar, Parser.unread, input]
  · cases done

theorem parseLen_reaches (done : parseLen fuel p = .ok (len, q)) : p.Reaches q := by
  have kept := whileFuel_invariant (fun state : Nat × Parser => p.Reaches state.2)
    (fun state holds _ => holds.trans (.read state.2)) fuel (0, p) (len, q) (.refl p) done
  exact kept.1

theorem parserPushes_reaches (supply : Supply) (count : Nat) (state : Vstr × Parser) :
    state.2.Reaches (parserPushes supply count state).2 := by
  induction count generalizing state with
  | zero => exact .refl _
  | succ count ih => exact (ih (parserPush supply state)).back

theorem parserCollect_reaches (done : parserCollect supply more fuel s p = .ok (t, q)) : p.Reaches q := by
  have kept := whileFuel_invariant (fun state : Vstr × Parser => p.Reaches state.2)
    (fun state holds _ => holds.trans (.read state.2)) fuel (s, p) (t, q) (.refl p) done
  exact kept.1

/-- Without a digit nothing is read; and a length that is read leaves at least that
digit behind. -/
theorem parseHeader_moves (done : parseHeader fuel p = .ok (len, q)) :
    (isDigit (peekByte p) = false ∧ len = none ∧ q = p) ∨
      (isDigit (peekByte p) = true ∧ (parserReadChar p).Reaches q ∧ q.unread < p.unread) := by
  unfold parseHeader at done
  split at done
  · rename_i refused
    cases done
    refine .inl ⟨?_, rfl, rfl⟩
    unfold expectPeekByteToBeNum at refused
    split at refused
    · cases refused
    · simp_all
  · rename_i first digit
    have start := expectPeekByteToBeNum_unread digit
    have seen : isDigit (peekByte p) = true := by
      by_contra none_
      rw [expectPeekByteToBeNum, if_neg none_] at digit
      cases digit
    cases expectPeekByteToBeNum_eq digit
    obtain ⟨⟨count, middle⟩, counted, done⟩ := bind_eq_ok.mp done
    have onward := parseLen_reaches counted
    have moved : ∀ {r}, middle.Reaches r → (parserReadChar p).Reaches r ∧ r.unread < p.unread := fun later =>
      ⟨onward.trans later, Nat.lt_of_le_of_lt (onward.trans later).unread start⟩
    simp only at done
    split at done
    · cases done
      exact .inr ⟨seen, moved (.refl _)⟩
    · split at done
      · cases done
        exact .inr ⟨seen, moved (.refl _)⟩
      · rename_i last newline
        cases done
        cases expectPeekByte_eq newline
        exact .inr ⟨seen, moved (.read middle)⟩

theorem parseHeader_reaches (done : parseHeader fuel p = .ok (len, q)) :
    p.Reaches q ∧ (len.isSome → (parserReadChar p).Reaches q ∧ q.unread < p.unread) := by
  rcases parseHeader_moves done with ⟨_, rfl, rfl⟩ | ⟨_, moved⟩
  · exact ⟨.refl _, by simp⟩
  · exact ⟨moved.1.back, fun _ => moved⟩

theorem parseLine_reaches (done : parseLine supply fuel s p = .ok (t, q)) : (parserReadChar p).Reaches q := by
  obtain ⟨⟨text, middle⟩, collected, done⟩ := bind_eq_ok.mp done
  have onward := parserCollect_reaches collected
  simp only at done
  split at done
  · cases done
    exact onward
  · split at done
    · cases done
      exact onward
    · rename_i last newline
      cases done
      cases expectPeekByte_eq newline
      exact onward.trans (.read middle)

theorem parserFinish_reaches (obj : Object) (p : Parser) : p.Reaches (parserFinish obj p).2 := by
  unfold parserFinish
  split
  · exact .refl p
  · split
    · exact .refl p
    · rename_i next newline
      cases expectPeekByte_eq newline
      exact (Parser.Reaches.read p).trans (.read _)

theorem parseBoolean_reaches (p : Parser) : (parserReadChar p).Reaches (parseBoolean p).2 := by
  unfold parseBoolean
  simp only
  split
  · exact .refl _
  · split
    · exact .refl _
    · rename_i second carriage
      cases expectPeekByte_eq carriage
      split
      · exact .read _
      · rename_i third newline
        cases expectPeekByte_eq newline
        exact (Parser.Reaches.read _).trans ((Parser.Reaches.read _).trans (.read _))

section Loops

variable {parse : Parser → Except Halt (Object × Parser)}
  (forward : ∀ p obj q, parse p = .ok (obj, q) → p.Reaches q)
include forward

theorem parseElems_reaches : ∀ count vec p after q,
    parseElems parse realloc count vec p = .ok (after, q) → p.Reaches q := by
  intro count
  induction count with
  | zero =>
    intro vec p after q done
    cases done
    exact .refl _
  | succ count ih =>
    intro vec p after q done
    obtain ⟨⟨cur, middle⟩, parsed, done⟩ := bind_eq_ok.mp done
    exact (forward _ _ _ parsed).trans (ih _ _ _ _ done)

theorem parsePairs_reaches : ∀ count ht p after q,
    parsePairs env parse calloc count ht p = .ok (after, q) → p.Reaches q := by
  intro count
  induction count with
  | zero =>
    intro ht p after q done
    cases done
    exact .refl _
  | succ count ih =>
    intro ht p after q done
    obtain ⟨⟨key, middle⟩, keyed, done⟩ := bind_eq_ok.mp done
    obtain ⟨⟨value, last⟩, valued, done⟩ := bind_eq_ok.mp done
    exact (forward _ _ _ keyed).trans ((forward _ _ _ valued).trans (ih _ _ _ _ done))

end Loops

/-- `parse_object` reads nothing here: the input is at its end, no value starts with the
byte, or no length follows it. -/
def Parser.Idle (p : Parser) : Prop :=
  match wireType p.ch with
  | none => True
  | some .string | some .array | some .ht => isDigit (peekByte p) = false
  | _ => False

/-- Moved on, and by at least a byte unless nothing was read. -/
def Parser.Passes (p : Parser) (obj : Object) (q : Parser) : Prop :=
  p.Reaches q ∧ (obj ≠ .null → (parserReadChar p).Reaches q)

/-- A value with a length: without one nothing is read, and behind it the reading goes on. -/
private theorem headed_moves {obj : Object} (headed : parseHeader fuel p = .ok (len, middle)) (missing : len = none → obj = .null ∧ q = middle)
    (onward : ∀ count, len = some count → middle.Reaches q) :
    (isDigit (peekByte p) = false ∧ obj = .null ∧ q = p) ∨ (isDigit (peekByte p) = true ∧ (parserReadChar p).Reaches q) := by
  rcases parseHeader_moves headed with ⟨idle, rfl, rfl⟩ | ⟨digit, first, _⟩
  · obtain ⟨rfl, rfl⟩ := missing rfl
    exact .inl ⟨idle, rfl, rfl⟩
  · refine .inr ⟨digit, first.trans ?_⟩
    cases len with
    | none =>
      obtain ⟨_, rfl⟩ := missing rfl
      exact .refl _
    | some count => exact onward count rfl

theorem parseBulk_moves (done : parseBulk supply fuel p = .ok (obj, q)) :
    (isDigit (peekByte p) = false ∧ obj = .null ∧ q = p) ∨ (isDigit (peekByte p) = true ∧ (parserReadChar p).Reaches q) := by
  obtain ⟨⟨len, middle⟩, headed, rest⟩ := bind_eq_ok.mp done
  refine headed_moves headed ?_ ?_
  · rintro rfl
    cases rest
    exact ⟨rfl, rfl⟩
  · rintro count rfl
    obtain ⟨⟨s, last⟩, read, finished⟩ := bind_eq_ok.mp rest
    obtain ⟨empty, _, pushed⟩ := bind_eq_ok.mp read
    have onward := parserPushes_reaches supply count (empty, parserReadChar middle)
    rw [Except.ok.inj pushed] at onward
    have final := parserFinish_reaches (.string s) last
    rw [Except.ok.inj finished] at final
    exact onward.back.trans final

section Aggregates

variable {parse : Parser → Except Halt (Object × Parser)} (forward : ∀ p obj q, parse p = .ok (obj, q) → p.Reaches q)
include forward

private theorem parseArray_moves (done : parseArray supply fuel parse p = .ok (obj, q)) :
    (isDigit (peekByte p) = false ∧ obj = .null ∧ q = p) ∨ (isDigit (peekByte p) = true ∧ (parserReadChar p).Reaches q) := by
  obtain ⟨⟨len, middle⟩, headed, rest⟩ := bind_eq_ok.mp done
  refine headed_moves headed ?_ ?_
  · rintro rfl
    cases rest
    exact ⟨rfl, rfl⟩
  · rintro count rfl
    simp only at rest
    split at rest
    · cases rest
    · obtain ⟨⟨vec, last⟩, elems, same⟩ := bind_eq_ok.mp rest
      cases same
      exact (parseElems_reaches forward _ _ _ _ _ elems).back

private theorem parseHt_moves (done : parseHt env supply fuel parse p = .ok (obj, q)) :
    (isDigit (peekByte p) = false ∧ obj = .null ∧ q = p) ∨ (isDigit (peekByte p) = true ∧ (parserReadChar p).Reaches q) := by
  obtain ⟨⟨len, middle⟩, headed, rest⟩ := bind_eq_ok.mp done
  refine headed_moves headed ?_ ?_
  · rintro rfl
    cases rest
    exact ⟨rfl, rfl⟩
  · rintro count rfl
    simp only at rest
    split at rest
    · cases rest
    · obtain ⟨⟨ht, last⟩, pairs, same⟩ := bind_eq_ok.mp rest
      cases same
      exact (parsePairs_reaches forward _ _ _ _ _ pairs).back

end Aggregates

/-- Nothing is read where the parser is idle, and at least a byte everywhere else. -/
theorem parseObject_moves : ∀ fuel p obj q, parseObject env supply fuel p = .ok (obj, q) →
    (p.Idle ∧ obj = .null ∧ q = p) ∨ (¬ p.Idle ∧ (parserReadChar p).Reaches q) := by
  intro fuel
  induction fuel with
  | zero => simp [parseObject]
  | succ fuel ih =>
    intro p obj q done
    have forward : ∀ p obj q, parseObject env supply fuel p = .ok (obj, q) → p.Reaches q := by
      intro p obj q done
      rcases ih p obj q done with ⟨_, _, rfl⟩ | ⟨_, moved⟩
      · exact .refl q
      · exact moved.back
    unfold parseObject at done
    split at done
    · rename_i type
      simpa [Parser.Idle, type] using parseBulk_moves done
    · rename_i type
      obtain ⟨⟨val, middle⟩, read, done⟩ := bind_eq_ok.mp done
      obtain ⟨⟨text, last⟩, collected, same⟩ := bind_eq_ok.mp read
      cases same
      have final := parserFinish_reaches (.int (env.strtold (untilNul (vstrData text)))) middle
      rw [Except.ok.inj done] at final
      exact .inr ⟨by simp [Parser.Idle, type], (parserCollect_reaches collected).trans final⟩
    · rename_i type
      obtain ⟨⟨val, middle⟩, read, done⟩ := bind_eq_ok.mp done
      obtain ⟨⟨text, last⟩, collected, same⟩ := bind_eq_ok.mp read
      cases same
      have final := parserFinish_reaches (.double (env.strtod (untilNul (vstrData text)))) middle
      rw [Except.ok.inj done] at final
      exact .inr ⟨by simp [Parser.Idle, type], (parserCollect_reaches collected).trans final⟩
    · rename_i type
      have final := parseBoolean_reaches p
      rw [Except.ok.inj done] at final
      exact .inr ⟨by simp [Parser.Idle, type], final⟩
    · rename_i type
      obtain ⟨⟨s, middle⟩, read, done⟩ := bind_eq_ok.mp done
      obtain ⟨empty, _, line⟩ := bind_eq_ok.mp read
      cases done
      exact .inr ⟨by simp [Parser.Idle, type], (parseLine_reaches line).trans (.read middle)⟩
    · rename_i type
      obtain ⟨⟨s, middle⟩, line, done⟩ := bind_eq_ok.mp done
      cases done
      exact .inr ⟨by simp [Parser.Idle, type], (parseLine_reaches line).trans (.read middle)⟩
    · rename_i type
      simpa [Parser.Idle, type] using parseArray_moves forward done
    · rename_i type
      simpa [Parser.Idle, type] using parseHt_moves forward done
    · rename_i type
      cases done
      exact .inl ⟨by simp [Parser.Idle, type], rfl, rfl⟩

theorem parseObject_passes (fuel p obj q) (done : parseObject env supply fuel p = .ok (obj, q)) : p.Passes obj q := by
  rcases parseObject_moves fuel p obj q done with ⟨_, rfl, rfl⟩ | ⟨_, moved⟩
  · exact ⟨.refl _, fun other => absurd rfl other⟩
  · exact ⟨moved.back, fun _ => moved⟩

end Forward

section Fuel

variable {env : Env} {supply : Supply}

theorem parseHeader_mono (p : Parser) : FuelMono fun fuel => parseHeader fuel p := by
  unfold parseHeader
  cases expectPeekByteToBeNum p with
  | none => exact .const _
  | some q => exact .bind (whileFuel_mono _) fun _ => .const _

theorem parserCollect_mono (more : UInt8 → Bool) (s : Vstr) (p : Parser) :
    FuelMono fun fuel => parserCollect supply more fuel s p :=
  whileFuel_mono _

theorem parseLine_mono (s : Vstr) (p : Parser) : FuelMono fun fuel => parseLine supply fuel s p :=
  .bind (parserCollect_mono lineByte s _) fun _ => .const _

theorem parseSimpleString_mono (p : Parser) : FuelMono fun fuel => parseSimpleString supply fuel p :=
  .bind (.const _) fun s => parseLine_mono s p

theorem parseInteger_mono (p : Parser) : FuelMono fun fuel => parseInteger env supply fuel p :=
  .bind (parserCollect_mono lineByte vstrNew _) fun _ => .const _

theorem parseDouble_mono (p : Parser) : FuelMono fun fuel => parseDouble env supply fuel p :=
  .bind (parserCollect_mono doubleByte vstrNew _) fun _ => .const _

theorem parseBulk_mono (p : Parser) : FuelMono fun fuel => parseBulk supply fuel p :=
  .bind (parseHeader_mono p) fun _ => .const _

theorem parseElems_below {parse other : Parser → Except Halt (Object × Parser)}
    (below : ∀ p, Below (parse p) (other p)) :
    ∀ count vec p, Below (parseElems parse realloc count vec p) (parseElems other realloc count vec p) := by
  intro count
  induction count with
  | zero => exact fun vec p => .refl _
  | succ count ih => exact fun vec p => (below p).bind fun _ => ih _ _

theorem parsePairs_below {parse other : Parser → Except Halt (Object × Parser)}
    (below : ∀ p, Below (parse p) (other p)) :
    ∀ count ht p, Below (parsePairs env parse calloc count ht p) (parsePairs env other calloc count ht p) := by
  intro count
  induction count with
  | zero => exact fun ht p => .refl _
  | succ count ih => exact fun ht p => (below p).bind fun _ => (below _).bind fun _ => ih _ _

/-- More fuel shows the same object, if any was shown. -/
theorem parseObject_mono (p : Parser) : FuelMono fun fuel => parseObject env supply fuel p := by
  intro fuel
  induction fuel generalizing p with
  | zero =>
    intro settled
    exact absurd rfl settled
  | succ fuel ih =>
    simp only [parseObject]
    cases wireType p.ch with
    | none => exact .refl _
    | some type =>
      cases type with
      | string => exact parseBulk_mono p fuel
      | int => exact (parseInteger_mono p fuel).bind fun _ => .refl _
      | double => exact (parseDouble_mono p fuel).bind fun _ => .refl _
      | bool => exact .refl _
      | simple => exact (parseSimpleString_mono p fuel).bind fun _ => .refl _
      | error => exact (parseLine_mono vstrNew p fuel).bind fun _ => .refl _
      | array =>
        refine (parseHeader_mono p fuel).bind fun ⟨len, middle⟩ => ?_
        cases len with
        | none => exact .refl _
        | some len =>
          simp only
          split
          · exact .refl _
          · exact (parseElems_below ih _ _ _).bind fun _ => .refl _
      | ht =>
        refine (parseHeader_mono p fuel).bind fun ⟨len, middle⟩ => ?_
        cases len with
        | none => exact .refl _
        | some len =>
          simp only
          split
          · exact .refl _
          · exact (parsePairs_below ih _ _ _).bind fun _ => .refl _

theorem parseElems_mono (realloc : Nat → Option Nat) (count : Nat) (vec : Vec Object) (p : Parser) :
    FuelMono fun fuel => parseElems (parseObject env supply fuel) realloc count vec p :=
  fun fuel => parseElems_below (fun p => parseObject_mono p fuel) count vec p

theorem parsePairs_mono (calloc : Nat → Option Nat) (count : Nat) (ht : Ht Object Object) (p : Parser) :
    FuelMono fun fuel => parsePairs env (parseObject env supply fuel) calloc count ht p :=
  fun fuel => parsePairs_below (fun p => parseObject_mono p fuel) count ht p

theorem parseCmdType_mono (p : Parser) : FuelMono fun fuel => parseCmdType env supply fuel p := by
  unfold parseCmdType
  split
  · exact .bind (parseObject_mono p) fun _ => .const _
  · exact .bind (parseSimpleString_mono p) fun _ => .const _
  · exact .const _

theorem parseOne_mono (len : Nat) (make : Object → Cmd) (p : Parser) :
    FuelMono fun fuel => parseOne env supply fuel len make p := by
  unfold parseOne
  split
  · exact .const _
  · exact .bind (parseObject_mono p) fun _ => .const _

theorem parseTwo_mono (len : Nat) (make : Object → Object → Cmd) (p : Parser) :
    FuelMono fun fuel => parseTwo env supply fuel len make p := by
  unfold parseTwo
  split
  · exact .const _
  · refine .bind (parseObject_mono p) fun ⟨first, q⟩ => ?_
    simp only
    split
    · exact .const _
    · exact .bind (parseObject_mono q) fun _ => .const _

theorem parseArgs_mono (len : Nat) (type : Cmdt) (p : Parser) :
    FuelMono fun fuel => parseArgs env supply fuel len type p := by
  unfold parseArgs
  cases type with
  | help => exact .bind (parseCmdType_mono p) fun _ => .const _
  | auth | set => exact parseTwo_mono len _ p
  | get | del | push | enque | zset | zhas | zdel => exact parseOne_mono len _ p
  | select =>
    simp only [parseSelect]
    split
    · exact .const _
    · exact .bind (parseObject_mono p) fun _ => .const _
  | _ => exact .const _

/-- More fuel shows the same command, if any was shown. -/
theorem parse_mono (input : List UInt8) : FuelMono fun fuel => parse env supply fuel input := by
  unfold parse parseCmd
  split
  · refine .bind (parseHeader_mono _) fun ⟨len, middle⟩ => ?_
    cases len with
    | none => exact .const _
    | some len =>
      simp only
      split
      · exact .const _
      · refine .bind (parseCmdType_mono _) fun ⟨type, last⟩ => ?_
        simp only
        split
        · exact .const _
        · exact parseArgs_mono len type last
  · exact .bind (.bind (parseSimpleString_mono _) fun _ => .const _) fun _ => .const _
  · exact .bind (parseCmdType_mono _) fun _ => .const _
  · exact .const _

theorem parseFromServer_mono (input : List UInt8) : FuelMono fun fuel => parseFromServer env supply fuel input :=
  .bind (parseObject_mono _) fun _ => .const _

end Fuel

end LexiDB
