import LexiDB.TruncatedFrames

/-! Where the arguments of a parsed command come from. -/

namespace LexiDB

open Lib

/-- `parse_object` reads the object from this part of the input. -/
def Present (env : Env) (supply : Supply) (input : List UInt8) (obj : Object) : Prop :=
  ∃ front mid back, input = front ++ mid ++ back ∧ mid ≠ [] ∧
    ∃ fuel, parseObject env supply fuel (parserNew (mid ++ back)) = .ok (obj, parserNew back)

/-- Every argument is there and not Null, and SELECT has an Int. -/
structure ArgsGiven (env : Env) (supply : Supply) (input : List UInt8) (cmd : Cmd) : Prop where
  args : ∀ obj ∈ cmd.args, obj ≠ .null ∧ Present env supply input obj
  select : ∀ value, cmd = .select value → ∃ num, value = .int num

section Position

variable {env : Env} {supply : Supply} {input : List UInt8}

/-- The parser stands on some byte of the input. -/
theorem parserReadChar_iterate (input : List UInt8) (n : Nat) : parserReadChar^[n] (parserNew input) = parserNew (input.drop n) := by
  induction n generalizing input with
  | zero => rfl
  | succ n ih =>
    rw [Function.iterate_succ_apply]
    cases input with
    | nil => simpa [parserNew, parserReadChar] using ih []
    | cons byte rest => exact ih rest

/-- An object other than Null that was read somewhere in the input. -/
theorem present_of_parsed (here : (parserNew input).Reaches p) (parsed : parseObject env supply fuel p = .ok (obj, q))
    (read : obj ≠ .null) : Present env supply input obj := by
  obtain ⟨n, rfl⟩ := here
  rw [parserReadChar_iterate] at parsed
  obtain ⟨m, rfl⟩ := (parseObject_passes _ _ _ _ parsed).2 read
  have behind : parserReadChar^[m] (parserReadChar (parserNew (input.drop n))) = parserNew ((input.drop n).drop (m + 1)) := by
    rw [← parserReadChar_iterate (input.drop n), Function.iterate_succ_apply]
  have more : input.drop n ≠ [] := by
    intro ended
    rw [ended] at parsed
    obtain ⟨r, null, _⟩ := parseObject_stuck env supply parserNew_stuck fuel
    have same := (parseObject_mono _).ok_le parsed (Nat.le_add_right fuel 2)
    rw [null] at same
    cases same
    exact read rfl
  refine ⟨input.take n, (input.drop n).take (m + 1), (input.drop n).drop (m + 1), ?_, ?_, fuel, ?_⟩
  · rw [List.append_assoc, List.take_append_drop, List.take_append_drop]
  · rw [ne_eq, List.take_eq_nil_iff]
    rintro (absurd_ | empty)
    · cases absurd_
    · exact more empty
  · rw [List.take_append_drop, parsed, behind]

theorem parseCmdType_reaches (done : parseCmdType env supply fuel p = .ok (type, q)) : p.Reaches q := by
  unfold parseCmdType at done
  split at done
  · obtain ⟨⟨obj, middle⟩, parsed, done⟩ := bind_eq_ok.mp done
    have forward := (parseObject_passes _ _ _ _ parsed).1
    cases obj <;>
    · cases done
      exact forward
  · obtain ⟨⟨s, middle⟩, read, done⟩ := bind_eq_ok.mp done
    obtain ⟨_, _, line⟩ := bind_eq_ok.mp read
    cases done
    exact ((parseLine_reaches line).trans (.read middle)).back
  · cases done
    exact .refl p

end Position

section Arrays

variable {env : Env} {supply : Supply} {input : List UInt8}

theorem argsGiven_illegal : ArgsGiven env supply input .illegal := ⟨by simp [Cmd.args], by simp⟩

/-- The array frame checks every argument. -/
theorem parseArrayCmd_given (done : parseArrayCmd env supply fuel (parserNew input) = .ok cmd) : ArgsGiven env supply input cmd := by
  rcases parseArrayCmd_args done with rfl | ⟨len, middle, type, p, headed, _, named, read⟩
  · exact argsGiven_illegal
  · have here := (parseHeader_reaches headed).1.trans (parseCmdType_reaches named).back
    cases read with
    | help => exact ⟨by simp [Cmd.args], by simp⟩
    | one _ _ parsed given args select =>
      refine ⟨?_, select⟩
      rw [args]
      intro obj member
      cases List.mem_singleton.mp member
      exact ⟨given, present_of_parsed here parsed given⟩
    | two _ _ parsed given then_ more args =>
      have behind := here.trans (parseObject_passes _ _ _ _ parsed).1
      refine ⟨?_, ?_⟩
      · rw [args]
        intro obj member
        rcases List.mem_cons.mp member with rfl | member
        · exact ⟨given, present_of_parsed here parsed given⟩
        · cases List.mem_singleton.mp member
          exact ⟨more, present_of_parsed behind then_ more⟩
      · rintro value rfl
        cases args

end Arrays

section Collecting

variable {supply other : Supply} {s : Vstr}

theorem parserPushes_roomy (supply other : Supply) :
    ∀ count (s : Vstr) p, s.Roomy count → parserPushes supply count (s, p) = parserPushes other count (s, p) := by
  intro count
  induction count with
  | zero => exact fun _ _ _ => rfl
  | succ count ih =>
    intro s p roomy
    obtain ⟨same, room⟩ := vstrPushChar_roomy roomy (supply.mem p.rest.length 1) (other.mem p.rest.length 1) p.ch
    simp only [parserPushes, parserPush, ← same]
    exact ih _ _ room

theorem parserPushes_counting (supply : Supply) :
    ∀ count (s : Vstr) p, s.Counting → min vstrMaxSmallSize (vstrLen s + count) ≤ vstrLen (parserPushes supply count (s, p)).1 := by
  intro count
  induction count with
  | zero => exact fun _ _ _ => Nat.min_le_right _ _
  | succ count ih =>
    intro s p counting
    obtain ⟨kept, longer⟩ := vstrPushChar_counting counting (supply.mem p.rest.length 1) p.ch
    have rest := ih _ (parserReadChar p) kept
    simp only [parserPushes, parserPush]
    omega

/-- However long the line is, the string does not come out shorter than the small
part of it. -/
theorem parserCollect_counting (supply : Supply) {line tail : List UInt8} (inLine : ∀ byte ∈ line, lineByte byte = true)
    (ends : lineByte (tail.headD 0) = false) :
    ∀ fuel (s : Vstr), s.Counting → line.length < fuel → ∃ t,
      parserCollect supply lineByte fuel s (parserNew (line ++ tail)) = .ok (t, parserNew tail) ∧
        min vstrMaxSmallSize (vstrLen s + line.length) ≤ vstrLen t := by
  induction line with
  | nil =>
    intro fuel s _ enough
    have stops : lineByte (parserNew tail).ch = false := by cases tail <;> exact ends
    cases fuel with
    | zero => cases enough
    | succ fuel => exact ⟨s, by simp [parserCollect, whileFuel, stops], Nat.min_le_right _ _⟩
  | cons byte line ih =>
    intro fuel s counting enough
    cases fuel with
    | zero => cases enough
    | succ fuel =>
      obtain ⟨kept, longer⟩ := vstrPushChar_counting counting (supply.mem (line ++ tail).length 1) byte
      simp only [List.length_cons, Nat.add_lt_add_iff_right] at enough
      obtain ⟨t, collected, rest⟩ := ih (fun byte member => inLine byte (by simp [member])) fuel _ kept enough
      refine ⟨t, ?_, by rw [List.length_cons]; omega⟩
      simp only [parserCollect, List.cons_append, parserNew_cons, whileFuel, inLine byte (by simp), ↓reduceIte, parserPush,
        parserReadChar_mk]
      exact collected

/-- No command has so long a word. -/
theorem lookupWord_long {word : List UInt8} (long : 7 ≤ word.length) : lookupWord word = .illegal := by
  by_contra known
  have short := word_short (listed_of_lookupWord known)
  omega

theorem lookupCmd_long (long : 7 ≤ vstrLen s) : lookupCmd s = .illegal := by
  have none_ : lookup.find? (fun l => l.1.length = vstrLen s && memcmp (vstrData s) l.1 = 0) = none := by
    rw [List.find?_eq_none]
    have short : ∀ l ∈ lookup, l.1.length ≤ 6 := by decide
    intro l member
    have few := short l member
    have other : l.1.length ≠ vstrLen s := by omega
    simp [other]
  simp [lookupCmd, none_]

/-- The word of a line is looked up, whatever the allocator does meanwhile. -/
theorem parserCollect_looked (supply : Supply) {line : List UInt8} (inLine : ∀ byte ∈ line, lineByte byte = true)
    (rest : List UInt8) (enough : line.length < fuel) : ∃ t,
      parserCollect supply lineByte fuel vstrNew (parserNew (line ++ crlf ++ rest)) = .ok (t, parserNew (crlf ++ rest)) ∧
        lookupCmd t = lookupWord line := by
  have ends : lineByte ((crlf ++ rest).headD 0) = false := by
    show lineByte (ascii '\r') = false
    decide
  rw [List.append_assoc]
  by_cases short : line.length ≤ vstrMaxSmallSize
  · obtain ⟨t, valid, content, collected⟩ := parserCollect_short supply line (crlf ++ rest) inLine
      (show lineByte (ascii '\r') = false by decide) short
    exact ⟨t, collected fuel enough, by rw [lookupCmd_eq valid, content]⟩
  · obtain ⟨t, collected, counted⟩ := parserCollect_counting supply inLine ends fuel vstrNew (Nat.le_refl _) enough
    refine ⟨t, collected, ?_⟩
    have some_ : 23 ≤ vstrLen t := by
      simp only [vstrMaxSmallSize] at counted short
      omega
    rw [lookupCmd_long (by omega), lookupWord_long (by simp only [vstrMaxSmallSize] at short; omega)]

/-- The same of a bulk string that announced its length. -/
theorem parserPushes_looked (supply : Supply) {mem : Mem} {empty : Vstr} (word rest : List UInt8) (bound : word.length < sizeMod)
    (created : vstrNewLen mem ((word.length + 1) % sizeMod) = .ok empty) :
    lookupCmd (parserPushes supply word.length (empty, parserNew (word ++ rest))).1 = lookupWord word := by
  have exact_ : ∀ empty : Vstr, empty.Valid → empty.Cleared → empty.bytes = [] → empty.Roomy word.length →
      word.length ≤ vstrMaxLargeSize →
      lookupCmd (parserPushes supply word.length (empty, parserNew (word ++ rest))).1 = lookupWord word := by
    intro empty valid cleared nothing roomy fits
    obtain ⟨t, pushed, kept, _, content⟩ := parserPushes_spec (Supply.granted_grants fun _ _ => 1) word rest empty valid cleared
      (by rw [nothing, List.length_nil]; omega)
    rw [parserPushes_roomy supply (.granted fun _ _ => 1) _ _ _ roomy, pushed, lookupCmd_eq kept, content, nothing, List.nil_append]
  by_cases wraps : word.length + 1 = sizeMod
  · -- 2^64 - 1 characters and the NUL: the length wraps to zero
    rw [wraps, Nat.mod_self] at created
    cases created
    have counted := parserPushes_counting supply word.length vstrNew (parserNew (word ++ rest)) (Nat.le_refl _)
    have long : 23 ≤ vstrLen (parserPushes supply word.length (vstrNew, parserNew (word ++ rest))).1 := by
      simp only [vstrMaxSmallSize, sizeMod] at counted wraps
      omega
    rw [lookupCmd_long (by omega), lookupWord_long (by simp only [sizeMod] at wraps; omega)]
  · rw [Nat.mod_eq_of_lt (by omega)] at created
    unfold vstrNewLen at created
    split at created
    · rename_i large
      split at created
      · rename_i fits
        obtain ⟨lg, opened, same⟩ := bind_eq_ok.mp created
        unfold vstrLgNewLen at opened
        split at opened
        · cases opened
        · rename_i address _
          cases opened
          cases same
          refine exact_ _ ?_ ?_ ?_ ?_ (by omega)
          · simp [Vstr.Valid]
          · simp [Vstr.Cleared]
          · simp [Vstr.bytes_lg]
          · simp only [Vstr.Roomy]
            omega
      · cases created
    · rename_i small
      cases created
      simp only [vstrMaxSmallSize] at small
      exact exact_ _ vstrNew_valid vstrNew_cleared vstrNew_bytes (show word.length ≤ vstrMaxSmallSize by simp only [vstrMaxSmallSize]; omega)
        (by simp only [vstrMaxLargeSize]; omega)

end Collecting

/-- The word stands alone, in one of the two forms that take no array. -/
inductive Framed (word : List UInt8) : List UInt8 → Prop where
  | simple (rest : List UInt8) : Framed word (ascii '+' :: word ++ crlf ++ rest)
  | bulk {digits : List UInt8} (some_ : digits ≠ []) (all : ∀ byte ∈ digits, isDigit byte = true)
      (size : decimalValue digits % sizeMod = word.length) (rest : List UInt8) :
      Framed word (stringTypeByte :: digits ++ crlf ++ (word ++ crlf ++ rest))

section Frames

variable {env : Env} {supply : Supply}

/-- A line end under the parser. -/
theorem lineEnd_of_peek {tail : List UInt8} (carriage : (parserNew tail).ch = ascii '\r')
    (newline : expectPeekByte (parserNew tail) (ascii '\n') = some q) : ∃ rest, tail = crlf ++ rest ∧ q = ⟨ascii '\n', rest⟩ := by
  have zero : (0 : UInt8) ≠ ascii '\r' ∧ (0 : UInt8) ≠ ascii '\n' := by decide
  cases tail with
  | nil => exact absurd carriage zero.1
  | cons first tail =>
    cases tail with
    | nil => simp [expectPeekByte, peekByte, zero.2] at newline
    | cons second rest =>
      have carried : first = ascii '\r' := carriage
      have fed : second = ascii '\n' := by
        by_contra other
        simp [expectPeekByte, peekByte, other] at newline
      rw [expectPeekByte_eq newline, carried, fed]
      exact ⟨rest, rfl, rfl⟩

/-- A header that was read. -/
theorem parseHeader_length (done : parseHeader fuel ⟨type, body⟩ = .ok (some len, q)) :
    ∃ digits after, digits ≠ [] ∧ (∀ byte ∈ digits, isDigit byte = true) ∧ body = digits ++ crlf ++ after ∧
      len = decimalValue digits % sizeMod ∧ q = ⟨ascii '\n', after⟩ := by
  obtain ⟨digits, tail, rfl, all, ends⟩ := exists_span isDigit (show isDigit 0 = false by decide) body
  unfold parseHeader at done
  split at done
  · cases done
  · rename_i first digit
    have peeked := digit
    cases expectPeekByteToBeNum_eq digit
    have some_ : digits ≠ [] := by
      rintro rfl
      rw [List.nil_append, expectPeekByteToBeNum, peekByte, ends] at peeked
      cases peeked
    obtain ⟨⟨count, middle⟩, counted, done⟩ := bind_eq_ok.mp done
    rw [parserReadChar_mk] at counted
    simp only at done
    split at done
    · cases done
    · rename_i carriage
      split at done
      · cases done
      · rename_i last newline
        cases done
        obtain ⟨value, looped⟩ := whileFuel_position isDigit (fun state : Nat × Parser => pushDigit state.1 state.2.ch % sizeMod)
          all ends 0 (digits.length + 1) (Nat.lt_succ_self _)
        have read : parseLen (digits.length + 1) (parserNew (digits ++ tail)) = .ok (value, parserNew tail) := looped
        have same : parseLen fuel (parserNew (digits ++ tail)) = parseLen (digits.length + 1) (parserNew (digits ++ tail)) :=
          (whileFuel_mono _).agree (by rw [← parseLen, counted]; exact settled_ok _) (by rw [← parseLen, read]; exact settled_ok _)
        rw [counted, read] at same
        cases same
        obtain ⟨rest, rfl, rfl⟩ := lineEnd_of_peek (not_not.mp carriage) newline
        have exact_ := parseLen_line all (show isDigit (ascii '\r') = false by decide) (ascii '\n' :: rest) (Nat.lt_succ_self _)
        have value_ : parseLen (digits.length + 1) (parserNew (digits ++ (crlf ++ rest))) = _ := exact_
        rw [value_] at read
        cases read
        exact ⟨digits, rest, some_, all, by rw [List.append_assoc], rfl, rfl⟩

/-- A simple string command that was read. -/
theorem parseSimpleStringCmd_eq (done : parseSimpleStringCmd supply fuel ⟨ascii '+', body⟩ = .ok (type, q))
    {line tail : List UInt8} (split : body = line ++ tail) (inLine : ∀ byte ∈ line, lineByte byte = true)
    (ends : lineByte (tail.headD 0) = false) :
    (∀ rest, tail = crlf ++ rest → type = lookupWord line) ∧ (type ≠ .illegal → ∃ rest, tail = crlf ++ rest) := by
  have created : vstrNewLen (supply.mem body.length 0) 5 = .ok vstrNew := rfl
  obtain ⟨⟨s, middle⟩, read, done⟩ := bind_eq_ok.mp done
  cases done
  simp only [parseSimpleString, created, ok_bind] at read
  obtain ⟨⟨t, last⟩, collected, read⟩ := bind_eq_ok.mp read
  rw [parserReadChar_mk, split] at collected
  have agree : ∀ {u r}, parserCollect supply lineByte (line.length + 1) vstrNew (parserNew (line ++ tail)) = .ok (u, r) →
      t = u ∧ last = r := by
    intro u r other
    have same : parserCollect supply lineByte fuel vstrNew (parserNew (line ++ tail)) =
        parserCollect supply lineByte (line.length + 1) vstrNew (parserNew (line ++ tail)) :=
      (parserCollect_mono _ _ _).agree (by rw [collected]; exact settled_ok _) (by rw [other]; exact settled_ok _)
    rw [collected, other] at same
    cases same
    exact ⟨rfl, rfl⟩
  constructor
  · rintro rest rfl
    obtain ⟨u, found, looked⟩ := parserCollect_looked supply inLine rest (Nat.lt_succ_self _)
    rw [List.append_assoc] at found
    obtain ⟨rfl, rfl⟩ := agree found
    have newline : expectPeekByte ⟨ascii '\r', ascii '\n' :: rest⟩ (ascii '\n') = some ⟨ascii '\n', rest⟩ := by
      simp [expectPeekByte, peekByte, parserReadChar_mk]
    simp only [crlf, List.cons_append, List.nil_append, parserNew_cons, ne_eq, not_true_eq_false, ↓reduceIte, newline] at read
    cases read
    exact looked
  · intro legal
    obtain ⟨u, found, _⟩ := parserCollect_counting supply inLine ends (line.length + 1) vstrNew (Nat.le_refl _) (Nat.lt_succ_self _)
    obtain ⟨rfl, rfl⟩ := agree found
    simp only at read
    split at read
    · cases read
      exact absurd (lookupCmd_vstrFree t) legal
    · rename_i carriage
      split at read
      · cases read
        exact absurd (lookupCmd_vstrFree t) legal
      · rename_i next newline
        obtain ⟨rest, same, _⟩ := lineEnd_of_peek (not_not.mp carriage) newline
        exact ⟨rest, same⟩

/-- A bulk string that was read: it is whole, and its word is looked up. -/
theorem parseBulk_eq (done : parseBulk supply fuel ⟨stringTypeByte, body⟩ = .ok (obj, q)) :
    (∀ digits word rest, digits ≠ [] → (∀ byte ∈ digits, isDigit byte = true) → decimalValue digits % sizeMod = word.length →
      body = digits ++ crlf ++ (word ++ crlf ++ rest) → ∃ s, obj = .string s ∧ lookupCmd s = lookupWord word) ∧
    ∀ s, obj = .string s → ∃ digits word rest, digits ≠ [] ∧ (∀ byte ∈ digits, isDigit byte = true) ∧
      decimalValue digits % sizeMod = word.length ∧ body = digits ++ crlf ++ (word ++ crlf ++ rest) := by
  obtain ⟨⟨len, middle⟩, headed, done⟩ := bind_eq_ok.mp done
  constructor
  · rintro digits word rest some_ all size rfl
    have header := parseHeader_line some_ all stringTypeByte (word ++ crlf ++ rest) (Nat.lt_succ_self _)
    have same : parseHeader fuel ⟨stringTypeByte, digits ++ crlf ++ (word ++ crlf ++ rest)⟩ = parseHeader (digits.length + 1) _ :=
      (parseHeader_mono _).agree (by rw [headed]; exact settled_ok _) (by rw [header]; exact settled_ok _)
    rw [headed, header] at same
    cases same
    obtain ⟨⟨s, last⟩, read, done⟩ := bind_eq_ok.mp done
    obtain ⟨empty, created, pushed⟩ := bind_eq_ok.mp read
    rw [size] at created pushed
    rw [parserReadChar_mk, List.append_assoc] at pushed
    have bound : word.length < sizeMod := by
      rw [← size]
      exact Nat.mod_lt _ (by decide)
    have looked := parserPushes_looked supply word (crlf ++ rest) bound created
    have moved := parserPushes_position supply (word ++ (crlf ++ rest)) word.length empty
    rw [Except.ok.inj pushed] at looked moved
    rw [List.drop_left] at moved
    simp only at moved looked
    subst moved
    simp only [parserFinish_crlf] at done
    cases done
    exact ⟨s, rfl, looked⟩
  · rintro s rfl
    cases len with
    | none => cases done
    | some len =>
      obtain ⟨digits, after, some_, all, rfl, rfl, rfl⟩ := parseHeader_length headed
      obtain ⟨⟨t, last⟩, read, done⟩ := bind_eq_ok.mp done
      obtain ⟨empty, _, pushed⟩ := bind_eq_ok.mp read
      have moved := parserPushes_position supply after (decimalValue digits % sizeMod) empty
      rw [parserReadChar_mk] at pushed
      rw [Except.ok.inj pushed] at moved
      simp only at moved
      subst moved
      have finished : parserFinish (.string t) (parserNew (after.drop (decimalValue digits % sizeMod))) = (.string s, q) :=
        Except.ok.inj done
      unfold parserFinish at finished
      split at finished
      · cases finished
      · rename_i carriage
        split at finished
        · cases finished
        · rename_i next newline
          obtain ⟨rest, ended, _⟩ := lineEnd_of_peek (not_not.mp carriage) newline
          have inside : decimalValue digits % sizeMod < after.length := by
            by_contra beyond
            rw [List.drop_eq_nil_of_le (by omega)] at ended
            cases ended
          refine ⟨digits, after.take (decimalValue digits % sizeMod), rest, some_, all, ?_, ?_⟩
          · rw [List.length_take]
            omega
          · rw [List.append_assoc (after.take _), ← ended, List.take_append_drop]

/-- A bulk string command that was read. -/
theorem parseCmdType_eq (done : parseCmdType env supply fuel ⟨stringTypeByte, body⟩ = .ok (type, q)) :
    (∀ digits word rest, digits ≠ [] → (∀ byte ∈ digits, isDigit byte = true) → decimalValue digits % sizeMod = word.length →
      body = digits ++ crlf ++ (word ++ crlf ++ rest) → type = lookupWord word) ∧
    (type ≠ .illegal → ∃ digits word rest, digits ≠ [] ∧ (∀ byte ∈ digits, isDigit byte = true) ∧
      decimalValue digits % sizeMod = word.length ∧ body = digits ++ crlf ++ (word ++ crlf ++ rest)) := by
  have string : wireType stringTypeByte = some .string := by decide
  simp only [parseCmdType, string] at done
  obtain ⟨⟨obj, last⟩, parsed, done⟩ := bind_eq_ok.mp done
  cases fuel with
  | zero => cases parsed
  | succ fuel =>
    simp only [parseObject, string] at parsed
    obtain ⟨forward, backward⟩ := parseBulk_eq parsed
    constructor
    · intro digits word rest some_ all size same
      obtain ⟨s, rfl, looked⟩ := forward digits word rest some_ all size same
      cases done
      exact looked
    · intro legal
      cases obj with
      | string s => exact backward s rfl
      | _ =>
        cases done
        exact absurd rfl legal

end Frames

/-- The types of the commands that take arguments. -/
def Cmdt.takesArgs : Cmdt → Bool
  | .auth | .set | .get | .del | .push | .enque | .zset | .zhas | .zdel | .select => true
  | _ => false

/-- The input is nothing but the word of a command that takes arguments, with
whatever follows it. -/
def Bare (input : List UInt8) : Prop := ∃ word type, (word, type) ∈ lookup ∧ type.takesArgs = true ∧ Framed word input

section Law

variable {env : Env} {supply : Supply} {input : List UInt8}

/-- A command of which only the type was set has its arguments exactly when it takes
none. -/
theorem bare_argsGiven_iff (type : Cmdt) : ArgsGiven env supply input (.bare type) ↔ type.takesArgs = false := by
  constructor
  · intro given
    have each := given.args
    cases type <;> simp [Cmd.bare, Cmd.args, Cmdt.takesArgs] at each ⊢
  · intro none_
    cases type with
    | auth | set | get | del | push | enque | zset | zhas | zdel | select => cases none_
    | _ => exact ⟨by simp [Cmd.bare, Cmd.args], by simp [Cmd.bare]⟩

private theorem bare_iff_of_type (known : ∀ word other, (word, other) ∈ lookup → Framed word input → type = other)
    (framed : type ≠ .illegal → ∃ word, (word, type) ∈ lookup ∧ Framed word input) : Bare input ↔ type.takesArgs = true := by
  constructor
  · rintro ⟨word, other, listed, takes, frame⟩
    rw [known word other listed frame]
    exact takes
  · intro takes
    have legal : type ≠ .illegal := by
      rintro rfl
      cases takes
    obtain ⟨word, listed, frame⟩ := framed legal
    exact ⟨word, type, listed, takes, frame⟩

/-- A simple string is a bare command exactly if the word that was read takes arguments. -/
private theorem simple_bare_iff {body : List UInt8} (read : parseSimpleStringCmd supply fuel ⟨ascii '+', body⟩ = .ok (type, q)) :
    Bare (ascii '+' :: body) ↔ type.takesArgs = true := by
  have ends : ∀ rest : List UInt8, lineByte ((crlf ++ rest).headD 0) = false := by
    intro rest
    show lineByte (ascii '\r') = false
    decide
  refine bare_iff_of_type ?_ ?_
  · intro word other listed frame
    cases frame with
    | simple rest =>
      have read := (parseSimpleStringCmd_eq read (List.append_assoc ..) (word_inLine listed) (ends rest)).1 rest rfl
      rw [read, lookupWord_of_mem listed]
  · intro legal
    obtain ⟨line, tail, rfl, inLine, stops⟩ := exists_span lineByte (show lineByte 0 = false by decide) body
    obtain ⟨whole, lineEnd⟩ := parseSimpleStringCmd_eq read rfl inLine stops
    obtain ⟨rest, rfl⟩ := lineEnd legal
    have same := whole rest rfl
    rw [same] at legal ⊢
    have frame : Framed line _ := .simple rest
    rw [List.append_assoc] at frame
    exact ⟨line, listed_of_lookupWord legal, frame⟩

/-- So is a bulk string. -/
private theorem string_bare_iff {body : List UInt8} (read : parseCmdType env supply fuel ⟨stringTypeByte, body⟩ = .ok (type, q)) :
    Bare (stringTypeByte :: body) ↔ type.takesArgs = true := by
  obtain ⟨forward, backward⟩ := parseCmdType_eq read
  refine bare_iff_of_type ?_ ?_
  · intro word other listed frame
    cases frame with
    | bulk some_ all size rest =>
      rw [forward _ word rest some_ all size rfl, lookupWord_of_mem listed]
  · intro legal
    obtain ⟨digits, word, rest, some_, all, size, rfl⟩ := backward legal
    have same := forward digits word rest some_ all size rfl
    rw [same] at legal ⊢
    exact ⟨word, listed_of_lookupWord legal, .bulk some_ all size rest⟩

/-- Nothing else is. -/
private theorem not_bare {byte : UInt8} {body : List UInt8} (simple : wireType byte ≠ some .simple)
    (bulk : wireType byte ≠ some .string) : ¬Bare (byte :: body) := by
  rintro ⟨word, type, _, _, frame⟩
  cases frame with
  | simple => exact simple (by decide)
  | bulk => exact bulk (by decide)

/-- The arguments of a parsed command are there, unless the input is the bare word
of a command that takes some. -/
theorem parse_argsGiven_iff (parsed : parse env supply fuel input = .ok cmd) : ArgsGiven env supply input cmd ↔ ¬ Bare input := by
  unfold parse at parsed
  cases input with
  | nil =>
    cases parsed
    refine iff_of_true argsGiven_illegal ?_
    rintro ⟨word, type, _, _, frame⟩
    cases frame
  | cons byte body =>
    -- both frames set the type and nothing else
    have alone : ∀ type, cmd = .bare type → (Bare (byte :: body) ↔ type.takesArgs = true) →
        (ArgsGiven env supply (byte :: body) cmd ↔ ¬ Bare (byte :: body)) := by
      rintro type rfl same
      rw [bare_argsGiven_iff, same, Bool.not_eq_true]
    rw [parserNew_cons] at parsed
    unfold parseCmd at parsed
    split at parsed
    · rename_i array
      exact iff_of_true (parseArrayCmd_given parsed) (not_bare (by rw [array]; simp) (by rw [array]; simp))
    · rename_i simple
      cases wireType_eq.mp simple
      obtain ⟨⟨type, q⟩, read, done⟩ := bind_eq_ok.mp parsed
      exact alone type (Except.ok.inj done).symm (simple_bare_iff read)
    · rename_i string
      cases wireType_eq.mp string
      obtain ⟨⟨type, q⟩, read, done⟩ := bind_eq_ok.mp parsed
      exact alone type (Except.ok.inj done).symm (string_bare_iff read)
    · rename_i array simple string
      cases parsed
      exact iff_of_true argsGiven_illegal (not_bare simple string)

theorem parse_argsGiven_iff_get :
    ArgsGiven .sample (.granted fun unread _ => unread) (cstr "*2\r\n$3\r\nGET\r\n:7\r\n") (.get (.int 7)) := by
  have parsed : parse .sample (.granted fun unread _ => unread) 64 (cstr "*2\r\n$3\r\nGET\r\n:7\r\n") = .ok (.get (.int 7)) := rfl
  refine (parse_argsGiven_iff parsed).mpr ?_
  rintro ⟨word, type, _, _, frame⟩
  generalize same : cstr "*2\r\n$3\r\nGET\r\n:7\r\n" = input at frame
  cases frame with
  | simple rest =>
    have first : some (ascii '*') = some (ascii '+') := congrArg List.head? same
    exact absurd first (by decide)
  | bulk _ _ _ rest =>
    have first : some (ascii '*') = some stringTypeByte := congrArg List.head? same
    exact absurd first (by decide)

/-- The word alone is a GET whose key is Null, in both forms. -/
theorem parse_argsGiven_counterexample :
    (parse .sample (.granted fun unread _ => unread) 64 (cstr "+GET\r\n") = .ok (.get .null) ∧
      ¬ ArgsGiven .sample (.granted fun unread _ => unread) (cstr "+GET\r\n") (.get .null)) ∧
    parse .sample (.granted fun unread _ => unread) 64 (cstr "$3\r\nGET\r\n") = .ok (.get .null) ∧
      ¬ ArgsGiven .sample (.granted fun unread _ => unread) (cstr "$3\r\nGET\r\n") (.get .null) := by
  refine ⟨⟨rfl, ?_⟩, rfl, ?_⟩ <;>
  · intro given
    exact (given.args .null (by simp [Cmd.args])).1 rfl

end Law

end LexiDB
