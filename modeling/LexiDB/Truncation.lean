import LexiDB.Commands
import LexiDB.Reading

/-! What the parser makes of a frame that is cut short. -/

namespace LexiDB

open Lib

/-- A proper prefix. -/
def Cut (cut text : List UInt8) : Prop := ∃ rest, rest ≠ [] ∧ text = cut ++ rest

theorem Cut.not_nil (short : Cut cut []) : False := by
  obtain ⟨rest, more, whole⟩ := short
  exact more (List.append_eq_nil_iff.mp whole.symm).2

theorem Cut.cons_cases (short : Cut cut (byte :: text)) : cut = [] ∨ ∃ inner, cut = byte :: inner ∧ Cut inner text := by
  obtain ⟨rest, more, whole⟩ := short
  cases cut with
  | nil => exact .inl rfl
  | cons first inner =>
    obtain ⟨rfl, same⟩ := List.cons.inj whole
    exact .inr ⟨inner, rfl, rest, more, same⟩

/-- A cut goes through the first part or leaves it whole. -/
theorem Cut.append_cases (short : Cut cut (first ++ second)) :
    Cut cut first ∨ ∃ inner, cut = first ++ inner ∧ Cut inner second := by
  induction first generalizing cut with
  | nil => exact .inr ⟨cut, rfl, short⟩
  | cons byte first ih =>
    rcases short.cons_cases with rfl | ⟨inner, rfl, shorter⟩
    · exact .inl ⟨byte :: first, by simp, rfl⟩
    · rcases ih shorter with ⟨rest, more, whole⟩ | ⟨later, rfl, cut⟩
      · exact .inl ⟨rest, more, by rw [whole, List.cons_append]⟩
      · exact .inr ⟨later, rfl, cut⟩

theorem Cut.mem (short : Cut cut text) (member : byte ∈ cut) : byte ∈ text := by
  obtain ⟨rest, _, rfl⟩ := short
  exact List.mem_append_left _ member

theorem Cut.length (short : Cut cut text) : cut.length < text.length := by
  obtain ⟨rest, more, rfl⟩ := short
  rw [List.length_append]
  have := List.length_pos_iff.mpr more
  omega

/-- A cut line end. -/
theorem Cut.crlf_cases (short : Cut cut crlf) : cut = [] ∨ cut = [ascii '\r'] := by
  rcases short.cons_cases with rfl | ⟨inner, rfl, shorter⟩
  · exact .inl rfl
  · rcases shorter.cons_cases with rfl | ⟨last, rfl, none_⟩
    · exact .inr rfl
    · exact none_.not_nil.elim

section Position

variable {supply : Supply}

/-- A loop that looks at the byte under the parser and advances stops behind the
bytes it wants. -/
theorem whileFuel_position (more : UInt8 → Bool) (f : σ × Parser → σ) {line tail : List UInt8}
    (inside : ∀ byte ∈ line, more byte = true) (ends : more (tail.headD 0) = false) :
    ∀ s fuel, line.length < fuel → ∃ t, whileFuel (fun state : σ × Parser => more state.2.ch)
      (fun state => (f state, parserReadChar state.2)) fuel (s, parserNew (line ++ tail)) = .ok (t, parserNew tail) := by
  induction line with
  | nil =>
    intro s fuel enough
    obtain ⟨less, rfl⟩ := Nat.exists_eq_add_of_lt enough
    have stops : more (parserNew tail).ch = false := by cases tail <;> exact ends
    exact ⟨s, by simp [whileFuel, stops]⟩
  | cons byte line ih =>
    intro s fuel enough
    obtain ⟨less, rfl⟩ := Nat.exists_eq_add_of_lt enough
    obtain ⟨t, looped⟩ := ih (fun other member => inside other (by simp [member])) (f (s, ⟨byte, line ++ tail⟩))
      ((byte :: line).length + less) (by simp only [List.length_cons]; omega)
    refine ⟨t, ?_⟩
    simp only [List.cons_append, parserNew_cons, whileFuel, inside byte (by simp), ↓reduceIte, parserReadChar_mk]
    exact looped

theorem parserPushes_position (supply : Supply) (input : List UInt8) :
    ∀ count s, (parserPushes supply count (s, parserNew input)).2 = parserNew (input.drop count) := by
  intro count
  induction count generalizing input with
  | zero => intro s; rfl
  | succ count ih =>
    intro s
    cases input with
    | nil =>
      have same : ∀ t, (parserPushes supply count (t, parserNew [])).2 = parserNew ([].drop count) := ih []
      simpa [parserPushes, parserPush, parserNew, parserReadChar] using same _
    | cons byte rest => exact ih rest _

/-- The digits of a header that is not followed by a whole line end. -/
private theorem parseHeader_digits {front tail : List UInt8} (some_ : front ≠ []) (all : ∀ byte ∈ front, isDigit byte = true)
    (ends : tail = [] ∨ tail = [ascii '\r']) (type : UInt8) (enough : front.length < fuel) :
    parseHeader fuel ⟨type, front ++ tail⟩ = .ok (none, parserNew tail) := by
  have stops : isDigit (tail.headD 0) = false := by rcases ends with rfl | rfl <;> decide
  obtain ⟨len, looped⟩ := whileFuel_position isDigit (fun state : Nat × Parser => pushDigit state.1 state.2.ch % sizeMod)
    all stops 0 fuel enough
  obtain ⟨digit, front, rfl⟩ := List.exists_cons_of_ne_nil some_
  have peeked : expectPeekByteToBeNum ⟨type, digit :: front ++ tail⟩ = some (parserNew (digit :: front ++ tail)) := by
    simp [expectPeekByteToBeNum, peekByte, all digit (by simp), parserReadChar_mk]
  have read : parseLen fuel (parserNew (digit :: front ++ tail)) = .ok (len, parserNew tail) := looped
  have other : ascii '\r' ≠ 0 := by decide
  have newline : (0 : UInt8) ≠ ascii '\n' := by decide
  unfold parseHeader
  simp only [peeked, read, ok_bind]
  rcases ends with rfl | rfl
  · simp [parserNew, parserReadChar, other.symm]
  · simp [parserNew, parserReadChar, expectPeekByte, peekByte, newline]

/-- A header cut short. -/
theorem parseHeader_cut (short : Cut cut (decimal n ++ crlf)) (type : UInt8) (enough : (decimal n).length < fuel) :
    ∃ q : Parser, parseHeader fuel ⟨type, cut⟩ = .ok (none, q) ∧ q.rest = [] ∧ (q.ch = type ∨ q.ch = 0 ∨ q.ch = ascii '\r') := by
  have all : ∀ byte ∈ decimal n, isDigit byte = true := fun _ member => isDigit_of_mem_decimal member
  rcases short.append_cases with shorter | ⟨inner, rfl, ends⟩
  · by_cases empty : cut = []
    · subst empty
      have digit : isDigit 0 = false := by decide
      exact ⟨⟨type, []⟩, by simp [parseHeader, expectPeekByteToBeNum, peekByte, digit], rfl, .inl rfl⟩
    · have few := shorter.length
      have read := parseHeader_digits empty (fun byte member => all byte (shorter.mem member)) (.inl rfl) type
        (show cut.length < fuel by omega)
      rw [List.append_nil] at read
      exact ⟨_, read, rfl, .inr (.inl rfl)⟩
  · have read := parseHeader_digits (decimal_ne_nil n) all ends.crlf_cases type enough
    refine ⟨_, read, ?_⟩
    rcases ends.crlf_cases with rfl | rfl
    · exact ⟨rfl, .inr (.inl rfl)⟩
    · exact ⟨rfl, .inr (.inr rfl)⟩

end Position

section Stuck

variable {env : Env} {supply : Supply}

/-- At the end of the input, on no byte that `+`, `-` or `,` would go on from. -/
structure Parser.Stuck (p : Parser) : Prop where
  ended : p.rest = []
  quiet : ∀ type, wireType p.ch = some type → type ≠ .simple ∧ type ≠ .error ∧ type ≠ .double

theorem Parser.Stuck.of_ch {p : Parser} (ended : p.rest = []) (here : p.ch = stringTypeByte ∨ p.ch = arrayTypeByte ∨ p.ch = 0 ∨
    p.ch = ascii '\r' ∨ p.ch = ascii 't' ∨ p.ch = ascii 'f') : p.Stuck := by
  refine ⟨ended, ?_⟩
  rcases here with same | same | same | same | same | same <;> rw [same] <;> decide

theorem parserNew_stuck : (parserNew []).Stuck := .of_ch rfl (.inr (.inr (.inl rfl)))

/-- There `parse_object` only finds Null, and the next one too. -/
theorem parseObject_stuck (env : Env) (supply : Supply) {p : Parser} (stuck : p.Stuck) (fuel : Nat) :
    ∃ q, parseObject env supply (fuel + 2) p = .ok (.null, q) ∧ q.Stuck := by
  obtain ⟨ch, rest⟩ := p
  obtain ⟨rfl, quiet⟩ := stuck
  have digit : isDigit 0 = false := by decide
  have none_ : parseHeader (fuel + 1) ⟨ch, []⟩ = .ok (none, ⟨ch, []⟩) := by
    simp [parseHeader, expectPeekByteToBeNum, peekByte, digit]
  have line : lineByte 0 = false := by decide
  have zero : (0 : UInt8) ≠ ascii '\r' := by decide
  unfold parseObject
  split
  · exact ⟨⟨ch, []⟩, by simp [parseBulk, none_], ⟨rfl, quiet⟩⟩
  · refine ⟨parserNew [], ?_, parserNew_stuck⟩
    simp [parseInteger, parserCollect, whileFuel, parserReadChar, line, parserFinish, zero, parserNew]
  · rename_i type
    exact absurd rfl (quiet _ type).2.2
  · refine ⟨parserNew [], ?_, parserNew_stuck⟩
    have letters : (0 : UInt8) ≠ ascii 't' ∧ (0 : UInt8) ≠ ascii 'f' := by decide
    simp [parseBoolean, parserReadChar, letters, parserNew]
  · rename_i type
    exact absurd rfl (quiet _ type).1
  · rename_i type
    exact absurd rfl (quiet _ type).2.1
  · exact ⟨⟨ch, []⟩, by simp [parseArray, none_], ⟨rfl, quiet⟩⟩
  · exact ⟨⟨ch, []⟩, by simp [parseHt, none_], ⟨rfl, quiet⟩⟩
  · exact ⟨⟨ch, []⟩, rfl, ⟨rfl, quiet⟩⟩

theorem parseElems_stuck (env : Env) (supply : Supply) (realloc : Nat → Option Nat) (fuel : Nat) : ∀ count (vec : Vec Object) (p : Parser), p.Stuck →
    ∃ after q, parseElems (parseObject env supply (fuel + 2)) realloc count vec p = .ok (after, q) ∧ q.Stuck := by
  intro count
  induction count with
  | zero => exact fun vec p stuck => ⟨vec, p, rfl, stuck⟩
  | succ count ih =>
    intro vec p stuck
    obtain ⟨q, read, later⟩ := parseObject_stuck env supply stuck fuel
    obtain ⟨after, last, looped, ended⟩ := ih (vecPush (realloc count) vec .null).2 q later
    exact ⟨after, last, by simp [parseElems, read, looped], ended⟩

/-- What is left of a value of this kind after a cut: Null, unless it is an array. -/
def ReadsCut (env : Env) (supply : Supply) (text : List UInt8) (array : Bool) : Prop :=
  ∀ cut, Cut cut text → ∃ fuel obj q, parseObject env supply fuel (parserNew cut) = .ok (obj, q) ∧ q.Stuck ∧
    (array = false → obj = .null)

/-- A line end cut short drops the value. -/
private theorem parserFinish_cut (obj : Object) (ends : tail = [] ∨ tail = [ascii '\r']) :
    parserFinish obj (parserNew tail) = (.null, parserNew tail) ∧ (parserNew tail).Stuck := by
  rcases ends with rfl | rfl
  · exact ⟨by simp [parserFinish, parserNew, parserReadChar, show (0 : UInt8) ≠ ascii '\r' by decide], parserNew_stuck⟩
  · refine ⟨?_, .of_ch rfl (.inr (.inr (.inr (.inl rfl))))⟩
    simp [parserFinish, parserNew, parserReadChar, expectPeekByte, peekByte, show (0 : UInt8) ≠ ascii '\n' by decide]

/-- Nothing at all is read as Null. -/
private theorem parseObject_nothing (env : Env) (supply : Supply) :
    ∃ q, parseObject env supply 2 (parserNew []) = .ok (.null, q) ∧ q.Stuck :=
  parseObject_stuck env supply parserNew_stuck 0

theorem int_readsCut (env : Env) (supply : Supply) (num : Int64) : ReadsCut env supply (Value.int num).wire false := by
  intro cut short
  rcases short.cons_cases with rfl | ⟨inner, rfl, shorter⟩
  · obtain ⟨q, read, stuck⟩ := parseObject_nothing env supply
    exact ⟨2, .null, q, read, stuck, fun _ => rfl⟩
  · have inLine := signedDecimal_inLine num.toInt
    have few := signedDecimal_length_le (natAbs_toInt_lt num)
    -- the digits that are left, and what is left of the line end
    obtain ⟨front, tail, rfl, plain, size, ends⟩ : ∃ front tail, inner = front ++ tail ∧
        (∀ byte ∈ front, lineByte byte = true) ∧ front.length < 22 ∧ (tail = [] ∨ tail = [ascii '\r']) := by
      rcases shorter.append_cases with digits | ⟨tail, rfl, ends⟩
      · have less := digits.length
        exact ⟨inner, [], by simp, fun byte member => inLine byte (digits.mem member), by omega, .inl rfl⟩
      · exact ⟨_, tail, rfl, inLine, by omega, ends.crlf_cases⟩
    have stops : lineByte (tail.headD 0) = false := by rcases ends with rfl | rfl <;> decide
    obtain ⟨s, looped⟩ := whileFuel_position lineByte
      (fun state : Vstr × Parser => (vstrPushChar (supply.mem state.2.rest.length 1) state.1 state.2.ch).2)
      plain stops vstrNew 22 size
    have collected : parserCollect supply lineByte 22 vstrNew (parserNew (front ++ tail)) = .ok (s, parserNew tail) := looped
    obtain ⟨dropped, stuck⟩ := parserFinish_cut (.int (env.strtold (untilNul (vstrData s)))) ends
    refine ⟨23, .null, parserNew tail, ?_, stuck, fun _ => rfl⟩
    have type : wireType intTypeByte = some .int := by decide
    simp only [parserNew_cons, parseObject, type, parseInteger, parserReadChar_mk, collected, ok_bind, pure_eq_ok, dropped]

theorem bool_readsCut (env : Env) (supply : Supply) (boolean : Bool) : ReadsCut env supply (Value.bool boolean).wire false := by
  intro cut short
  have type : wireType booleanTypeByte = some .bool := by decide
  -- whatever `parse_boolean` does there, it ends on a byte it has read last
  have read : ∀ inner q, parseBoolean ⟨booleanTypeByte, inner⟩ = (.null, q) → q.Stuck →
      ∃ fuel obj q, parseObject env supply fuel (parserNew (booleanTypeByte :: inner)) = .ok (obj, q) ∧ q.Stuck ∧
        (false = false → obj = .null) := by
    intro inner q parsed stuck
    exact ⟨1, .null, q, by simp [parseObject, type, parsed], stuck, fun _ => rfl⟩
  rcases short.cons_cases with rfl | ⟨inner, rfl, shorter⟩
  · obtain ⟨q, parsed, stuck⟩ := parseObject_nothing env supply
    exact ⟨2, .null, q, parsed, stuck, fun _ => rfl⟩
  · rcases shorter.cons_cases with rfl | ⟨ends, rfl, last⟩
    · exact read _ (parserNew []) (by rfl) parserNew_stuck
    · cases boolean with
      | true =>
        rcases last.crlf_cases with rfl | rfl
        · exact read _ ⟨ascii 't', []⟩ (by rfl) (.of_ch rfl (.inr (.inr (.inr (.inr (.inl rfl))))))
        · exact read _ ⟨ascii '\r', []⟩ (by rfl) (.of_ch rfl (.inr (.inr (.inr (.inl rfl)))))
      | false =>
        rcases last.crlf_cases with rfl | rfl
        · exact read _ ⟨ascii 'f', []⟩ (by rfl) (.of_ch rfl (.inr (.inr (.inr (.inr (.inr rfl))))))
        · exact read _ ⟨ascii '\r', []⟩ (by rfl) (.of_ch rfl (.inr (.inr (.inr (.inl rfl)))))

theorem string_readsCut (env : Env) (grants : supply.Grants) {bytes : List UInt8}
    (fits : (bulkString bytes).length ≤ vstrMaxLargeSize) : ReadsCut env supply (bulkString bytes) false := by
  intro cut short
  have type : wireType stringTypeByte = some .string := by decide
  have split : bulkString bytes = stringTypeByte :: (decimal bytes.length ++ crlf ++ (bytes ++ crlf)) := by simp [bulkString]
  obtain ⟨total, bound⟩ := bulkString_fits fits
  rw [split] at short
  rcases short.cons_cases with rfl | ⟨inner, rfl, shorter⟩
  · obtain ⟨q, parsed, stuck⟩ := parseObject_nothing env supply
    exact ⟨2, .null, q, parsed, stuck, fun _ => rfl⟩
  · rcases shorter.append_cases with header | ⟨body, rfl, last⟩
    · obtain ⟨q, parsed, ended, here⟩ := parseHeader_cut header stringTypeByte (Nat.lt_succ_self _)
      refine ⟨(decimal bytes.length).length + 2, .null, q, ?_, .of_ch ended (by tauto), fun _ => rfl⟩
      simp [parseObject, type, parseBulk, parsed]
    · -- the counted loop runs past the end of what is left of the bytes
      have position : ∃ tail, body.drop bytes.length = tail ∧ (tail = [] ∨ tail = [ascii '\r']) := by
        rcases last.append_cases with part | ⟨ends, rfl, cut⟩
        · exact ⟨[], List.drop_eq_nil_of_le (Nat.le_of_lt part.length), .inl rfl⟩
        · exact ⟨ends, by simp, cut.crlf_cases⟩
      obtain ⟨tail, dropped, ends⟩ := position
      obtain ⟨empty, created, _⟩ := vstrNewLen_spec (grants (parserNew body).rest.length 0) total
      have moved := parserPushes_position supply body bytes.length empty
      rw [dropped] at moved
      obtain ⟨lost, stuck⟩ := parserFinish_cut
        (.string (parserPushes supply bytes.length (empty, parserNew body)).1) ends
      have header := parseHeader_decimal (show bytes.length < sizeMod by omega) stringTypeByte body (Nat.lt_succ_self _)
      refine ⟨(decimal bytes.length).length + 2, .null, parserNew tail, ?_, stuck, fun _ => rfl⟩
      simp only [parserNew_cons, parseObject, type, parseBulk, header, ok_bind, parserReadChar_mk, parseString,
        Nat.mod_eq_of_lt bound, created, pure_eq_ok, moved, lost]

/-- The header of an array cut short. -/
theorem arrayHeader_readsCut (env : Env) (supply : Supply) (n : Nat) :
    ReadsCut env supply (arrayTypeByte :: decimal n ++ crlf) false := by
  intro cut short
  have type : wireType arrayTypeByte = some .array := by decide
  rcases short.cons_cases with rfl | ⟨inner, rfl, header⟩
  · obtain ⟨q, parsed, stuck⟩ := parseObject_nothing env supply
    exact ⟨2, .null, q, parsed, stuck, fun _ => rfl⟩
  · obtain ⟨q, parsed, ended, here⟩ := parseHeader_cut header arrayTypeByte (Nat.lt_succ_self _)
    refine ⟨(decimal n).length + 2, .null, q, ?_, .of_ch ended (by tauto), fun _ => rfl⟩
    simp [parseObject, type, parseArray, parsed]

/-- A header alone is an array, whatever the number of elements it announces. -/
theorem parseObject_header (env : Env) (grants : supply.Grants) (few : n < sizeMod) :
    ∃ fuel after q, parseObject env supply fuel (parserNew (arrayTypeByte :: decimal n ++ crlf)) = .ok (.array after, q) := by
  have each : ∀ (realloc : Nat → Option Nat) (vec : Vec Object), ∃ fuel after q,
      parseElems (parseObject env supply fuel) realloc n vec (parserNew []) = .ok (after, q) ∧ q.Stuck := by
    intro realloc vec
    exact ⟨2, parseElems_stuck env supply realloc 0 n vec _ parserNew_stuck⟩
  obtain ⟨fuel, after, q, parsed, _⟩ := parseObject_opened env grants few each
  rw [List.append_nil] at parsed
  exact ⟨fuel, after, q, parsed⟩

def Value.isArray : Value → Bool
  | .array _ => true
  | _ => false

theorem Value.length_lt_sizeMod {elems : List Value} (fits : (Value.array elems).wire.length ≤ vstrMaxLargeSize) :
    elems.length < sizeMod := by
  have few := Value.length_le_wires elems
  simp only [Value.wire, List.length_append] at fits
  unfold vstrMaxLargeSize at fits
  unfold sizeMod
  omega

mutual

/-- A tree cut short is Null, unless it is an array. -/
theorem Value.readsCut (env : Env) (grants : supply.Grants) :
    ∀ v : Value, v.wire.length ≤ vstrMaxLargeSize → ReadsCut env supply v.wire v.isArray
  | .int num, _ => int_readsCut env supply num
  | .bool boolean, _ => bool_readsCut env supply boolean
  | .string _, fits => string_readsCut env grants fits
  | .array elems, fits => by
    have inner : (Value.wires elems).length ≤ vstrMaxLargeSize := by
      simp only [Value.wire, List.length_append] at fits
      omega
    intro cut short
    rcases short.append_cases with header | ⟨body, rfl, last⟩
    · obtain ⟨fuel, obj, q, parsed, stuck, _⟩ := arrayHeader_readsCut env supply elems.length cut header
      exact ⟨fuel, obj, q, parsed, stuck, by simp [Value.isArray]⟩
    · obtain ⟨fuel, after, q, parsed, stuck⟩ :=
        parseObject_opened env grants (Value.length_lt_sizeMod fits) (Value.elemsCut env grants elems inner body last)
      exact ⟨fuel, .array after, q, parsed, stuck, by simp [Value.isArray]⟩

/-- The loop over elements that are cut short. -/
theorem Value.elemsCut (env : Env) (grants : supply.Grants) :
    ∀ elems : List Value, (Value.wires elems).length ≤ vstrMaxLargeSize → ∀ body, Cut body (Value.wires elems) →
      ∀ (realloc : Nat → Option Nat) (vec : Vec Object), ∃ fuel after q,
        parseElems (parseObject env supply fuel) realloc elems.length vec (parserNew body) = .ok (after, q) ∧ q.Stuck
  | [], _, _, short, _, _ => short.not_nil.elim
  | elem :: elems, fits, body, short, realloc, vec => by
    simp only [Value.wires, List.length_append] at fits short
    rcases short.append_cases with here | ⟨inner, rfl, later⟩
    · obtain ⟨one, obj, q, parsed, stuck, _⟩ := Value.readsCut env grants elem (by omega) body here
      obtain ⟨after, last, looped, ended⟩ := parseElems_stuck env supply realloc one elems.length
        (vecPush (realloc elems.length) vec obj).2 q stuck
      have first := (parseObject_mono _).ok_le parsed (Nat.le_add_right one 2)
      exact ⟨one + 2, after, last, by simp only [List.length_cons, parseElems, first, ok_bind, looped], ended⟩
    · obtain ⟨one, obj, parsed, _⟩ := Value.reads env grants elem (by omega) inner
      obtain ⟨two, after, q, looped, stuck⟩ := Value.elemsCut env grants elems (by omega) inner later realloc
        (vecPush (realloc elems.length) vec obj).2
      have first := (parseObject_mono _).ok_le parsed (Nat.le_add_right one two)
      have rest := (parseElems_mono _ _ _ _).ok_le looped (Nat.le_add_left two one)
      exact ⟨one + two, after, q, by simp only [List.length_cons, parseElems, first, ok_bind, rest], stuck⟩

end

end Stuck

end LexiDB
