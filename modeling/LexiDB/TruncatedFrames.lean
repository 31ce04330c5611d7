import LexiDB.Truncation

/-! Requests and replies of which only a part has arrived. -/

namespace LexiDB

open Lib

section Requests

variable {env : Env} {supply : Supply}

/-- Every proper prefix is refused. -/
def RefusesCuts (env : Env) (supply : Supply) (frame : List UInt8) : Prop :=
  ∀ cut, Cut cut frame → ∃ fuel, parse env supply fuel cut = .ok .illegal

private theorem parse_nothing (env : Env) (supply : Supply) : parse env supply 0 [] = .ok .illegal := rfl

/-- The word of a bulk string cut short is no command. -/
theorem parseCmdType_cut (env : Env) (grants : supply.Grants) (fits : (bulkString word).length ≤ vstrMaxLargeSize)
    (short : Cut cut (bulkString word)) : ∃ fuel q, parseCmdType env supply fuel (parserNew cut) = .ok (.illegal, q) := by
  obtain ⟨fuel, obj, q, parsed, _, null⟩ := string_readsCut env grants fits cut short
  rw [null rfl] at parsed
  rcases short.cons_cases with rfl | ⟨inner, rfl, _⟩
  · exact ⟨0, parserNew [], rfl⟩
  · have type : wireType stringTypeByte = some .string := by decide
    rw [parserNew_cons] at parsed
    exact ⟨fuel, q, by simp [parseCmdType, type, parsed]⟩

/-- A frame of the words alone. -/
theorem bulk_refusesCuts (env : Env) (grants : supply.Grants) (fits : (bulkString word).length ≤ vstrMaxLargeSize) :
    RefusesCuts env supply (bulkString word) := by
  intro cut short
  obtain ⟨fuel, q, named⟩ := parseCmdType_cut env grants fits short
  rcases short.cons_cases with rfl | ⟨inner, rfl, _⟩
  · exact ⟨0, parse_nothing env supply⟩
  · have type : wireType stringTypeByte = some .string := by decide
    rw [parserNew_cons] at named
    exact ⟨fuel, by simp [parse, parseCmd, type, named, Cmd.bare]⟩

/-- A line cut short gives up its characters. -/
theorem parseLine_cut (supply : Supply) {line : List UInt8} (inLine : ∀ byte ∈ line, lineByte byte = true) (short : Cut cut (line ++ crlf))
    (s : Vstr) (type : UInt8) (enough : line.length < fuel) :
    ∃ t q, parseLine supply fuel s ⟨type, cut⟩ = .ok (vstrFree t, q) := by
  obtain ⟨front, tail, rfl, plain, size, ends⟩ : ∃ front tail, cut = front ++ tail ∧
      (∀ byte ∈ front, lineByte byte = true) ∧ front.length < fuel ∧ (tail = [] ∨ tail = [ascii '\r']) := by
    rcases short.append_cases with inside | ⟨tail, rfl, ends⟩
    · have less := inside.length
      exact ⟨cut, [], by simp, fun byte member => inLine byte (inside.mem member), by omega, .inl rfl⟩
    · exact ⟨line, tail, rfl, inLine, enough, ends.crlf_cases⟩
  have stops : lineByte (tail.headD 0) = false := by rcases ends with rfl | rfl <;> decide
  obtain ⟨t, looped⟩ := whileFuel_position lineByte
    (fun state : Vstr × Parser => (vstrPushChar (supply.mem state.2.rest.length 1) state.1 state.2.ch).2) plain stops s fuel size
  have collected : parserCollect supply lineByte fuel s (parserNew (front ++ tail)) = .ok (t, parserNew tail) := looped
  refine ⟨t, parserNew tail, ?_⟩
  simp only [parseLine, parserReadChar_mk, collected, ok_bind]
  rcases ends with rfl | rfl
  · simp [parserNew, parserReadChar, show (0 : UInt8) ≠ ascii '\r' by decide]
  · simp [parserNew, parserReadChar, expectPeekByte, peekByte, show (0 : UInt8) ≠ ascii '\n' by decide]

/-- No command has the empty word. -/
theorem lookupCmd_vstrFree (s : Vstr) : lookupCmd (vstrFree s) = .illegal := by
  have empty : vstrLen (vstrFree s) = 0 := by
    obtain ⟨strData, avail⟩ := s
    cases strData <;> rfl
  have none_ : lookup.find? (fun l => l.1.length = vstrLen (vstrFree s) && memcmp (vstrData (vstrFree s)) l.1 = 0) = none := by
    rw [empty, List.find?_eq_none]
    have named : ∀ l ∈ lookup, l.1.length ≠ 0 := by decide
    intro l member
    simp [List.length_eq_zero_iff.not.mp (named l member)]
  simp [lookupCmd, none_]

/-- A simple string cut short is no command. -/
theorem simple_refusesCuts (env : Env) (supply : Supply) {word : List UInt8} (inLine : ∀ byte ∈ word, lineByte byte = true) :
    RefusesCuts env supply (ascii '+' :: word ++ crlf) := by
  intro cut short
  rcases short.cons_cases with rfl | ⟨inner, rfl, shorter⟩
  · exact ⟨0, parse_nothing env supply⟩
  · obtain ⟨t, q, read⟩ := parseLine_cut supply inLine shorter vstrNew (ascii '+') (Nat.lt_succ_self _)
    have type : wireType (ascii '+') = some .simple := by decide
    have created : vstrNewLen (supply.mem inner.length 0) 5 = .ok vstrNew := rfl
    refine ⟨word.length + 1, ?_⟩
    simp [parse, parseCmd, type, parseSimpleStringCmd, parseSimpleString, created, read, lookupCmd_vstrFree, Cmd.bare]

/-- The head of a command cut short. -/
theorem head_refusesCuts (env : Env) (grants : supply.Grants) (fits : (bulkString word).length ≤ vstrMaxLargeSize)
    (positive : 0 < count) (bound : count < sizeMod) :
    RefusesCuts env supply (arrayTypeByte :: decimal count ++ crlf ++ bulkString word) := by
  intro cut short
  have first : wireType arrayTypeByte = some .array := by decide
  rw [List.cons_append, List.cons_append] at short
  rcases short.cons_cases with rfl | ⟨inner, rfl, shorter⟩
  · exact ⟨0, parse_nothing env supply⟩
  · rcases shorter.append_cases with header | ⟨body, rfl, last⟩
    · obtain ⟨q, parsed, _⟩ := parseHeader_cut header arrayTypeByte (Nat.lt_succ_self _)
      exact ⟨(decimal count).length + 1, by simp [parse, parseCmd, first, parseArrayCmd, parsed]⟩
    · obtain ⟨fuel, q, named⟩ := parseCmdType_cut env grants fits last
      obtain ⟨large, enough⟩ : ∃ large, large = fuel + (decimal count).length + 1 := ⟨_, rfl⟩
      have header := parseHeader_decimal bound arrayTypeByte body (show _ < large by omega)
      have more := (parseCmdType_mono _).ok_le named (show fuel ≤ large by omega)
      refine ⟨large, ?_⟩
      simp only [parse, parserNew_cons, parseCmd, first, parseArrayCmd, header, ok_bind,
        if_neg (Nat.pos_iff_ne_zero.mp positive), parserReadChar_mk, more, ↓reduceIte, pure_eq_ok]

/-- From some fuel on these are no arguments of the command. -/
def RefusesArgs (env : Env) (supply : Supply) (count : Nat) (type : Cmdt) (args : List UInt8) : Prop :=
  ∃ enough, ∀ fuel, enough ≤ fuel → parseArgs env supply fuel count type (parserNew args) = .ok .illegal

/-- A command whose arguments are refused when they are cut short. -/
theorem command_refusesCuts (grants : supply.Grants) (listed : (word, type) ∈ lookup)
    (fits : (bulkString word).length ≤ vstrMaxLargeSize) (positive : 0 < count) (bound : count < sizeMod)
    (args : ∀ cut, Cut cut body → RefusesArgs env supply count type cut) :
    RefusesCuts env supply (arrayTypeByte :: decimal count ++ crlf ++ bulkString word ++ body) := by
  intro cut short
  rcases short.append_cases with head | ⟨inner, rfl, later⟩
  · exact head_refusesCuts env grants fits positive bound cut head
  · obtain ⟨few, parsed⟩ := parse_command env grants listed positive bound inner
    obtain ⟨many, refused⟩ := args inner later
    exact ⟨few + many, by rw [parsed _ (by omega), refused _ (by omega)]⟩

section Arguments

variable {text other : List UInt8}

theorem parseOne_cut (reads : ReadsCut env supply text false) (make : Object → Cmd) (short : Cut cut text) :
    ∃ enough, ∀ fuel, enough ≤ fuel → parseOne env supply fuel 2 make (parserNew cut) = .ok .illegal := by
  obtain ⟨enough, obj, q, parsed, _, null⟩ := reads cut short
  rw [null rfl] at parsed
  refine ⟨enough, ?_⟩
  intro fuel more
  simp [parseOne, (parseObject_mono _).ok_le parsed more]

theorem parseSelect_cut (reads : ReadsCut env supply text false) (short : Cut cut text) :
    ∃ enough, ∀ fuel, enough ≤ fuel → parseSelect env supply fuel 2 (parserNew cut) = .ok .illegal := by
  obtain ⟨enough, obj, q, parsed, _, null⟩ := reads cut short
  rw [null rfl] at parsed
  refine ⟨enough, ?_⟩
  intro fuel more
  simp [parseSelect, (parseObject_mono _).ok_le parsed more]

/-- Even an array that lost elements in front is not enough: the second argument is
missing then. -/
theorem parseTwo_cut {array : Bool} {P : Object → Prop} (first : ReadsCut env supply text array) (whole : Reads env supply text P)
    (second : ReadsCut env supply other false) (make : Object → Object → Cmd) (short : Cut cut (text ++ other)) :
    ∃ enough, ∀ fuel, enough ≤ fuel → parseTwo env supply fuel 3 make (parserNew cut) = .ok .illegal := by
  -- wherever the cut is, the second object is Null
  obtain ⟨enough, obj, p, q, parsed, missing⟩ : ∃ enough obj p q, parseObject env supply enough (parserNew cut) = .ok (obj, p) ∧
      parseObject env supply enough p = .ok (.null, q) := by
    rcases short.append_cases with here | ⟨inner, rfl, later⟩
    · obtain ⟨fuel, obj, p, parsed, stuck, _⟩ := first cut here
      obtain ⟨q, missing, _⟩ := parseObject_stuck env supply stuck fuel
      exact ⟨fuel + 2, obj, p, q, (parseObject_mono _).ok_le parsed (by omega), missing⟩
    · obtain ⟨one, obj, parsed, _⟩ := whole inner
      obtain ⟨two, last, q, missing, _, null⟩ := second inner later
      rw [null rfl] at missing
      exact ⟨one + two, obj, _, q, (parseObject_mono _).ok_le parsed (by omega), (parseObject_mono _).ok_le missing (by omega)⟩
  refine ⟨enough, ?_⟩
  intro fuel more
  have read := (parseObject_mono _).ok_le parsed more
  have then_ := (parseObject_mono _).ok_le missing more
  cases obj <;> simp [parseTwo, read, then_]

end Arguments

section Calls

variable {call : Call}

private theorem one_refusesCuts (grants : supply.Grants) {v : Value} (make : Object → Cmd)
    (branch : ∀ fuel p, parseArgs env supply fuel 2 call.type p = parseOne env supply fuel 2 make p)
    (fits : v.wire.length ≤ vstrMaxLargeSize) (last : v.isArray = false) :
    RefusesCuts env supply (arrayTypeByte :: decimal 2 ++ crlf ++ bulkString call.word ++ v.wire) := by
  refine command_refusesCuts grants call.listed (word_bulk_fits call.listed) (by decide) (by decide) ?_
  intro cut short
  have reads := v.readsCut env grants fits
  rw [last] at reads
  simp only [RefusesArgs, branch]
  exact parseOne_cut reads make short

private theorem two_refusesCuts (grants : supply.Grants) {v w : Value} (make : Object → Object → Cmd)
    (branch : ∀ fuel p, parseArgs env supply fuel 3 call.type p = parseTwo env supply fuel 3 make p)
    (first : v.wire.length ≤ vstrMaxLargeSize) (second : w.wire.length ≤ vstrMaxLargeSize) (last : w.isArray = false) :
    RefusesCuts env supply (arrayTypeByte :: decimal 3 ++ crlf ++ bulkString call.word ++ (v.wire ++ w.wire)) := by
  refine command_refusesCuts grants call.listed (word_bulk_fits call.listed) (by decide) (by decide) ?_
  intro cut short
  have reads := w.readsCut env grants second
  rw [last] at reads
  simp only [RefusesArgs, branch]
  exact parseTwo_cut (v.readsCut env grants first) (v.reads env grants first) reads make short

end Calls

/-- The arguments of a call hold these trees. -/
def Call.Holds (call : Call) (values : List Value) : Prop := List.Forall₂ Value.Is values call.args

theorem Call.Holds.one {call : Call} {arg : Object} (holds : call.Holds values) (args : call.args = [arg]) : ∃ v, values = [v] ∧ v.Is arg := by
  unfold Call.Holds at holds
  rw [args] at holds
  obtain ⟨v, rest, is, ended, rfl⟩ := List.forall₂_cons_right_iff.mp holds
  cases ended
  exact ⟨v, rfl, is⟩

theorem Call.Holds.two {call : Call} {arg other : Object} (holds : call.Holds values) (args : call.args = [arg, other]) :
    ∃ v w, values = [v, w] ∧ v.Is arg ∧ w.Is other := by
  unfold Call.Holds at holds
  rw [args] at holds
  obtain ⟨v, rest, first, remaining, rfl⟩ := List.forall₂_cons_right_iff.mp holds
  obtain ⟨w, rest, second, ended, rfl⟩ := List.forall₂_cons_right_iff.mp remaining
  cases ended
  exact ⟨v, w, rfl, first, second⟩

/-- As long as its last argument is no array, no part of a frame is accepted. -/
theorem Call.refusesCuts (env : Env) (grants : supply.Grants) {call : Call} {values : List Value} (holds : call.Holds values)
    (fits : (call.frame (values.map Value.wire)).length ≤ vstrMaxLargeSize)
    (last : ∀ v, values.getLast? = some v → v.isArray = false) :
    RefusesCuts env supply (call.frame (values.map Value.wire)) := by
  have one : ∀ {arg : Object} (make : Object → Cmd), call.args = [arg] →
      (∀ text, call.frame [text] = arrayTypeByte :: decimal 2 ++ crlf ++ bulkString call.word ++ text) →
      (∀ fuel p, parseArgs env supply fuel 2 call.type p = parseOne env supply fuel 2 make p) →
      RefusesCuts env supply (call.frame (values.map Value.wire)) := by
    intro arg make args framed branch
    obtain ⟨v, rfl, _⟩ := holds.one args
    rw [List.map_singleton, framed] at fits ⊢
    rw [List.length_append] at fits
    exact one_refusesCuts grants make branch (by omega) (last v rfl)
  have two : ∀ {arg other : Object} (make : Object → Object → Cmd), call.args = [arg, other] →
      (∀ text more, call.frame [text, more] = arrayTypeByte :: decimal 3 ++ crlf ++ bulkString call.word ++ (text ++ more)) →
      (∀ fuel p, parseArgs env supply fuel 3 call.type p = parseTwo env supply fuel 3 make p) →
      RefusesCuts env supply (call.frame (values.map Value.wire)) := by
    intro arg other make args framed branch
    obtain ⟨v, w, rfl, _⟩ := holds.two args
    rw [List.map_cons, List.map_singleton, framed] at fits ⊢
    simp only [List.length_append] at fits
    exact two_refusesCuts grants make branch (by omega) (by omega) (last w rfl)
  cases call with
  | ping => exact simple_refusesCuts env supply (word_inLine Call.ping.listed)
  | info => exact bulk_refusesCuts env grants (word_bulk_fits Call.info.listed)
  | keys => exact bulk_refusesCuts env grants (word_bulk_fits Call.keys.listed)
  | pop => exact bulk_refusesCuts env grants (word_bulk_fits Call.pop.listed)
  | deque => exact bulk_refusesCuts env grants (word_bulk_fits Call.deque.listed)
  | select dbNum =>
    obtain ⟨v, rfl, _⟩ := holds.one rfl
    have framed : (Call.select dbNum).frame [v.wire] =
        arrayTypeByte :: decimal 2 ++ crlf ++ bulkString (Call.select dbNum).word ++ v.wire := by simp [Call.frame]
    rw [List.map_singleton, framed] at fits ⊢
    rw [List.length_append] at fits
    refine command_refusesCuts grants (Call.select dbNum).listed (word_bulk_fits (Call.select dbNum).listed) (by decide)
      (by decide) ?_
    intro cut short
    have reads := v.readsCut env grants (by omega)
    rw [last v rfl] at reads
    exact parseSelect_cut reads short
  | authenticate => exact two .auth rfl (by simp [Call.frame]) (fun _ _ => rfl)
  | set => exact two .set rfl (by simp [Call.frame]) (fun _ _ => rfl)
  | get => exact one .get rfl (by simp [Call.frame]) (fun _ _ => rfl)
  | del => exact one .del rfl (by simp [Call.frame]) (fun _ _ => rfl)
  | push => exact one .push rfl (by simp [Call.frame]) (fun _ _ => rfl)
  | enque => exact one .enque rfl (by simp [Call.frame]) (fun _ _ => rfl)
  | zset => exact one .zset rfl (by simp [Call.frame]) (fun _ _ => rfl)
  | zhas => exact one .zhas rfl (by simp [Call.frame]) (fun _ _ => rfl)
  | zdel => exact one .zdel rfl (by simp [Call.frame]) (fun _ _ => rfl)

def Object.isArray : Object → Bool
  | .array _ => true
  | _ => false

theorem Value.Is.isArray {v : Value} {obj : Object} (is : v.Is obj) : v.isArray = obj.isArray := by
  cases v <;> cases obj <;> simp_all [Value.Is, Value.isArray, Object.isArray]

theorem Value.Is.not_null {v : Value} {obj : Object} (is : v.Is obj) : obj ≠ .null := by
  rintro rfl
  cases v <;> simp [Value.Is] at is

/-- The header of an array of some elements is a part of its encoding. -/
private theorem header_cut {elems : List Value} (filled : elems ≠ []) (front : List UInt8) :
    Cut (front ++ (arrayTypeByte :: decimal elems.length ++ crlf)) (front ++ (Value.array elems).wire) := by
  refine ⟨Value.wires elems, ?_, by simp [Value.wire]⟩
  intro none_
  have few := Value.length_le_wires elems
  rw [none_, List.length_nil] at few
  exact filled (List.length_eq_zero_iff.mp (by omega))

/-- A command with one argument is accepted when only the header of it is left. -/
private theorem one_acceptsCut (env : Env) (grants : supply.Grants) {call : Call} {values : List Value} {arg : Object}
    (holds : call.Holds values) (fits : (call.frame (values.map Value.wire)).length ≤ vstrMaxLargeSize)
    (last : values.getLast? = some (.array elems)) (filled : elems ≠ []) (make : Object → Cmd) (args : call.args = [arg])
    (legal : ∀ obj, make obj ≠ .illegal)
    (framed : ∀ text, call.frame [text] = arrayTypeByte :: decimal 2 ++ crlf ++ bulkString call.word ++ text)
    (branch : ∀ fuel p, parseArgs env supply fuel 2 call.type p = parseOne env supply fuel 2 make p) :
    ∃ cut, Cut cut (call.frame (values.map Value.wire)) ∧ ∃ fuel cmd, parse env supply fuel cut = .ok cmd ∧ cmd ≠ .illegal := by
  obtain ⟨v, rfl, _⟩ := holds.one args
  cases last
  rw [List.map_singleton, framed] at fits ⊢
  rw [List.length_append] at fits
  refine ⟨_, header_cut filled _, ?_⟩
  obtain ⟨few, head⟩ := parse_command env grants call.listed (show 0 < 2 by decide) (by decide)
    (arrayTypeByte :: decimal elems.length ++ crlf)
  have bound : elems.length < sizeMod := Value.length_lt_sizeMod (by omega)
  obtain ⟨many, after, q, parsed⟩ := parseObject_header env grants bound
  have read := (parseObject_mono _).ok_le parsed (Nat.le_add_left many few)
  refine ⟨few + many, make (.array after), ?_, legal _⟩
  rw [head _ (Nat.le_add_right _ _), branch]
  simp only [parseOne, read, ok_bind, ne_eq, not_true_eq_false, ↓reduceIte, pure_eq_ok]

/-- So is one with two, of which the second is cut short. -/
private theorem two_acceptsCut (env : Env) (grants : supply.Grants) {call : Call} {values : List Value} {arg other : Object}
    (holds : call.Holds values) (fits : (call.frame (values.map Value.wire)).length ≤ vstrMaxLargeSize)
    (last : values.getLast? = some (.array elems)) (filled : elems ≠ []) (make : Object → Object → Cmd)
    (args : call.args = [arg, other]) (legal : ∀ obj last, make obj last ≠ .illegal)
    (framed : ∀ text more,
      call.frame [text, more] = arrayTypeByte :: decimal 3 ++ crlf ++ bulkString call.word ++ (text ++ more))
    (branch : ∀ fuel p, parseArgs env supply fuel 3 call.type p = parseTwo env supply fuel 3 make p) :
    ∃ cut, Cut cut (call.frame (values.map Value.wire)) ∧ ∃ fuel cmd, parse env supply fuel cut = .ok cmd ∧ cmd ≠ .illegal := by
  obtain ⟨v, w, rfl, _⟩ := holds.two args
  cases last
  rw [List.map_cons, List.map_singleton, framed] at fits ⊢
  simp only [List.length_append] at fits
  rw [← List.append_assoc]
  refine ⟨_, header_cut filled _, ?_⟩
  rw [List.append_assoc]
  obtain ⟨few, head⟩ := parse_command env grants call.listed (show 0 < 3 by decide) (by decide)
    (v.wire ++ (arrayTypeByte :: decimal elems.length ++ crlf))
  obtain ⟨some_, obj, first, is⟩ := v.reads env grants (by omega) (arrayTypeByte :: decimal elems.length ++ crlf)
  have bound : elems.length < sizeMod := Value.length_lt_sizeMod (by omega)
  obtain ⟨many, after, q, parsed⟩ := parseObject_header env grants bound
  have read := (parseObject_mono _).ok_le first (show some_ ≤ few + some_ + many by omega)
  have then_ := (parseObject_mono _).ok_le parsed (show many ≤ few + some_ + many by omega)
  refine ⟨few + some_ + many, make obj (.array after), ?_, legal _ _⟩
  rw [head _ (by omega), branch]
  have kept := is.not_null
  cases obj with
  | null => exact absurd rfl kept
  | _ => simp only [parseTwo, read, then_, ok_bind, ne_eq, not_true_eq_false, ↓reduceIte, pure_eq_ok]

/-- A frame whose last argument is an array of some elements is accepted when all
of these are missing. -/
theorem Call.acceptsCut (env : Env) (grants : supply.Grants) {call : Call} {values : List Value} (holds : call.Holds values)
    (fits : (call.frame (values.map Value.wire)).length ≤ vstrMaxLargeSize) (last : values.getLast? = some (.array elems))
    (filled : elems ≠ []) :
    ∃ cut, Cut cut (call.frame (values.map Value.wire)) ∧ ∃ fuel cmd, parse env supply fuel cut = .ok cmd ∧ cmd ≠ .illegal := by
  cases call with
  | ping | info | keys | pop | deque =>
    cases holds
    cases last
  | authenticate =>
    obtain ⟨v, w, rfl, _, is⟩ := holds.two rfl
    cases last
    cases is.isArray
  | select =>
    obtain ⟨v, rfl, is⟩ := holds.one rfl
    cases last
    cases is.isArray
  | set => exact two_acceptsCut env grants holds fits last filled .set rfl (by simp) (by simp [Call.frame]) (fun _ _ => rfl)
  | get => exact one_acceptsCut env grants holds fits last filled .get rfl (by simp) (by simp [Call.frame]) (fun _ _ => rfl)
  | del => exact one_acceptsCut env grants holds fits last filled .del rfl (by simp) (by simp [Call.frame]) (fun _ _ => rfl)
  | push => exact one_acceptsCut env grants holds fits last filled .push rfl (by simp) (by simp [Call.frame]) (fun _ _ => rfl)
  | enque => exact one_acceptsCut env grants holds fits last filled .enque rfl (by simp) (by simp [Call.frame]) (fun _ _ => rfl)
  | zset => exact one_acceptsCut env grants holds fits last filled .zset rfl (by simp) (by simp [Call.frame]) (fun _ _ => rfl)
  | zhas => exact one_acceptsCut env grants holds fits last filled .zhas rfl (by simp) (by simp [Call.frame]) (fun _ _ => rfl)
  | zdel => exact one_acceptsCut env grants holds fits last filled .zdel rfl (by simp) (by simp [Call.frame]) (fun _ _ => rfl)

end Requests

/-- What the server may answer with. -/
inductive Reply where
  | bulk (bytes : List UInt8)
  | int (num : Int64)
  | bool (boolean : Bool)
  | simple (line : List UInt8)
  | error (line : List UInt8)
  | array (elems : List Reply)

mutual

def Reply.wire : Reply → List UInt8
  | .bulk bytes => bulkString bytes
  | .int num => intTypeByte :: signedDecimal num.toInt ++ crlf
  | .bool boolean => booleanTypeByte :: (if boolean then ascii 't' else ascii 'f') :: crlf
  | .simple line => ascii '+' :: line ++ crlf
  | .error line => simpleErrTypeByte :: line ++ crlf
  | .array elems => arrayTypeByte :: decimal elems.length ++ crlf ++ Reply.wires elems

def Reply.wires : List Reply → List UInt8
  | [] => []
  | elem :: elems => elem.wire ++ Reply.wires elems

end

/-- Neither a line of text nor an array of some elements. -/
def Reply.closed : Reply → Bool
  | .bulk _ | .int _ | .bool _ => true
  | .simple _ | .error _ => false
  | .array elems => elems.isEmpty

/-- Every proper prefix is read as Null. -/
def NullsCuts (env : Env) (supply : Supply) (text : List UInt8) : Prop :=
  ∀ cut, Cut cut text → ∃ fuel, parseFromServer env supply fuel cut = .ok .null

section Replies

variable {env : Env} {supply : Supply}

theorem Reply.length_le_wires (elems : List Reply) : elems.length ≤ (Reply.wires elems).length := by
  induction elems with
  | nil => simp
  | cons elem elems ih =>
    have some_ : 0 < elem.wire.length := by cases elem <;> simp [Reply.wire, bulkString]
    simp only [Reply.wires, List.length_cons, List.length_append]
    omega

theorem ReadsCut.nulls (reads : ReadsCut env supply text false) : NullsCuts env supply text := by
  intro cut short
  obtain ⟨fuel, obj, q, parsed, _, null⟩ := reads cut short
  rw [null rfl] at parsed
  exact ⟨fuel, by simp [parseFromServer, parsed]⟩

/-- One prefix that is read as something else is enough. -/
private theorem not_nullsCuts {text cut : List UInt8} {obj : Object} {q : Parser} (short : Cut cut text)
    (parsed : parseObject env supply fuel (parserNew cut) = .ok (obj, q)) (other : obj ≠ .null) : ¬ NullsCuts env supply text := by
  intro nulls
  obtain ⟨enough, null⟩ := nulls cut short
  have read : parseFromServer env supply fuel cut = .ok obj := by simp [parseFromServer, parsed]
  have same : parseFromServer env supply fuel cut = parseFromServer env supply enough cut :=
    (parseFromServer_mono cut).agree (by rw [read]; exact settled_ok _) (by rw [null]; exact settled_ok _)
  rw [read, null] at same
  cases same
  exact other rfl

/-- The first byte of a line of text is a whole string already. -/
private theorem line_not_nullsCuts (line : List UInt8) (type : wireType byte = some .simple ∨ wireType byte = some .error) :
    ¬ NullsCuts env supply (byte :: line ++ crlf) := by
  have short : Cut [byte] (byte :: line ++ crlf) := ⟨line ++ crlf, by simp [crlf], by simp⟩
  obtain ⟨t, q, read⟩ := parseLine_cut supply (show ∀ byte ∈ ([] : List UInt8), lineByte byte = true by simp) ⟨crlf, by simp [crlf], rfl⟩ vstrNew byte
    (show 0 < 1 by decide)
  have created : vstrNewLen (supply.mem 0 0) 5 = .ok vstrNew := rfl
  have parsed : parseObject env supply 2 (parserNew [byte]) = .ok (.string (vstrFree t), parserReadChar q) := by
    rcases type with simple | error
    · simp [parseObject, simple, parseSimpleString, created, read]
    · simp [parseObject, error, parseError, read]
  exact not_nullsCuts short parsed (by simp)

/-- A reply cut short is noticed exactly when it is closed. -/
theorem Reply.nullsCuts_iff (env : Env) (grants : supply.Grants) (reply : Reply) (fits : reply.wire.length ≤ vstrMaxLargeSize) :
    NullsCuts env supply reply.wire ↔ reply.closed = true := by
  cases reply with
  | bulk bytes => exact ⟨fun _ => rfl, fun _ => (string_readsCut env grants fits).nulls⟩
  | int num => exact ⟨fun _ => rfl, fun _ => (int_readsCut env supply num).nulls⟩
  | bool boolean => exact ⟨fun _ => rfl, fun _ => (bool_readsCut env supply boolean).nulls⟩
  | simple line => exact ⟨fun nulls => (line_not_nullsCuts line (.inl (by decide)) nulls).elim, by simp [Reply.closed]⟩
  | error line => exact ⟨fun nulls => (line_not_nullsCuts line (.inr (by decide)) nulls).elim, by simp [Reply.closed]⟩
  | array elems =>
    cases elems with
    | nil =>
      refine ⟨fun _ => rfl, fun _ => ?_⟩
      have reads := arrayHeader_readsCut env supply 0
      simpa [Reply.wire, Reply.wires] using reads.nulls
    | cons elem elems =>
      refine ⟨fun nulls => ?_, by simp [Reply.closed]⟩
      have few := Reply.length_le_wires (elem :: elems)
      have bound : (elem :: elems).length < sizeMod := by
        simp only [Reply.wire, List.length_append] at fits
        unfold vstrMaxLargeSize at fits
        unfold sizeMod
        omega
      obtain ⟨fuel, after, q, parsed⟩ := parseObject_header env grants bound
      have short : Cut (arrayTypeByte :: decimal (elem :: elems).length ++ crlf) (Reply.array (elem :: elems)).wire := by
        refine ⟨Reply.wires (elem :: elems), ?_, rfl⟩
        intro none_
        rw [none_] at few
        simp at few
      exact (not_nullsCuts short parsed (by simp) nulls).elim

end Replies

section Frames

variable {mem : Mem} {env : Env} {supply : Supply}

/-- The last argument is no array. -/
def Call.closed (call : Call) : Bool :=
  match call.args.getLast? with
  | some arg => !arg.isArray
  | none => true

private theorem forall₂_getLast? {R : α → β → Prop} (each : List.Forall₂ R l m) :
    (l.getLast? = none ∧ m.getLast? = none) ∨ ∃ a b, l.getLast? = some a ∧ m.getLast? = some b ∧ R a b := by
  have reversed : List.Forall₂ R l.reverse m.reverse := List.rel_reverse each
  rw [← List.head?_reverse, ← List.head?_reverse]
  generalize l.reverse = l at reversed ⊢
  generalize m.reverse = m at reversed ⊢
  cases reversed with
  | nil => exact .inl ⟨rfl, rfl⟩
  | cons related _ => exact .inr ⟨_, _, rfl, rfl, related⟩

theorem Call.Holds.closed_iff {call : Call} {values : List Value} (holds : call.Holds values) :
    call.closed = true ↔ ∀ v, values.getLast? = some v → v.isArray = false := by
  rcases forall₂_getLast? holds with ⟨none_, nothing⟩ | ⟨v, arg, last, same, is⟩
  · simp [Call.closed, none_, nothing]
  · simp [Call.closed, last, same, is.isArray]

theorem Call.Holds.encodes {call : Call} {values : List Value} (holds : call.Holds values) :
    List.Forall₂ Encodes call.args (values.map Value.wire) := by
  rw [List.forall₂_map_right_iff]
  exact holds.flip.imp fun _ _ is => Value.Is.encodes is

/-- The last argument of a request that was built is no array without elements. -/
private theorem last_filled {call : Call} {values : List Value} (holds : call.Holds values) (objects : ∀ obj ∈ call.args, obj.Built)
    {b after : Builder} (built : call.build mem env rounds b = .ok (some after)) (last : values.getLast? = some (.array elems)) :
    elems ≠ [] := by
  rintro rfl
  rcases forall₂_getLast? holds with ⟨none_, _⟩ | ⟨v, arg, here, same, is⟩
  · rw [last] at none_
    cases none_
  · rw [last] at here
    cases here
    have sendable := call.sendable_of_built built objects arg (List.mem_of_getLast? same)
    cases arg with
    | array vec =>
      cases sendable with
      | array nonempty _ =>
        have count := Value.AllAre.length is.2
        rw [is.1.length, List.length_nil] at count
        omega
    | _ => cases is.isArray

/-- A request cut short is noticed exactly when its last argument is no array. -/
theorem Call.refusesCuts_iff (builds : mem.Grants) (grants : supply.Grants) {call : Call} {values : List Value}
    (holds : call.Holds values) (objects : ∀ obj ∈ call.args, obj.Built) {b after : Builder} (valid : b.Valid)
    (empty : b.bytes = []) (fits : (call.frame (values.map Value.wire)).length ≤ vstrMaxLargeSize)
    (built : call.build mem env rounds b = .ok (some after)) :
    RefusesCuts env supply after.bytes ↔ call.closed = true := by
  have content : after.bytes = call.frame (values.map Value.wire) := by
    have appended := call.built_frame builds valid built objects holds.encodes (by simpa [Fits, empty] using fits)
    simpa [empty] using appended.bytes
  rw [content]
  constructor
  · intro refuses
    rw [holds.closed_iff]
    intro v last
    cases v with
    | array elems =>
      exfalso
      have filled := last_filled holds objects built last
      obtain ⟨cut, short, fuel, cmd, parsed, legal⟩ := call.acceptsCut env grants holds fits last filled
      obtain ⟨enough, refused⟩ := refuses cut short
      have same : parse env supply fuel cut = parse env supply enough cut :=
        (parse_mono cut).agree (by rw [parsed]; exact settled_ok _) (by rw [refused]; exact settled_ok _)
      rw [parsed, refused] at same
      cases same
      exact legal rfl
    | _ => rfl
  · intro closed
    exact call.refusesCuts env grants holds fits (holds.closed_iff.mp closed)

/-- Requests and replies that arrive in part are noticed, whatever the part, exactly
when they are closed: the last thing in them is no array, and no reply is a line of
text. -/
theorem cuts_noticed_iff (builds : mem.Grants) (grants : supply.Grants) :
    (∀ (call : Call) (values : List Value), call.Holds values → (∀ obj ∈ call.args, obj.Built) →
      (call.frame (values.map Value.wire)).length ≤ vstrMaxLargeSize → ∀ (rounds : Nat) (b after : Builder), b.Valid →
      b.bytes = [] → call.build mem env rounds b = .ok (some after) →
      (RefusesCuts env supply after.bytes ↔ call.closed = true)) ∧
    ∀ reply : Reply, reply.wire.length ≤ vstrMaxLargeSize → (NullsCuts env supply reply.wire ↔ reply.closed = true) := by
  constructor
  · intro call values holds objects fits rounds b after valid empty built
    exact call.refusesCuts_iff builds grants holds objects valid empty fits built
  · intro reply fits
    exact reply.nullsCuts_iff env grants fits

theorem cuts_noticed_iff_get :
    (∃ rounds after, (Call.get (.int 7)).build (.granted 1) .sample rounds builderNew = .ok (some after) ∧
      RefusesCuts .sample (.granted fun unread _ => unread) after.bytes) ∧
    NullsCuts .sample (.granted fun unread _ => unread) (Reply.bulk (cstr "vince")).wire := by
  have both := @cuts_noticed_iff _ .sample _ (Mem.granted_grants 1) (Supply.granted_grants fun unread _ => unread)
  have objects : ∀ obj ∈ (Call.get (.int 7)).args, obj.Built := by simp [Call.args, Object.Built.int]
  obtain ⟨rounds, adds⟩ := (Call.get (.int 7)).adds_of_sendable .sample (Mem.granted_grants 1)
    (by simp [Call.args, Object.Sendable.int]) objects (.cons .int .nil)
  obtain ⟨after, built, _⟩ := adds builderNew vstrNew_valid (by unfold Fits; decide)
  refine ⟨⟨rounds, after, built, ?_⟩, (both.2 (.bulk (cstr "vince")) (by decide)).mpr rfl⟩
  exact (both.1 (.get (.int 7)) [.int 7] (.cons rfl .nil) objects (by decide) rounds builderNew after vstrNew_valid
    vstrNew_bytes built).mpr rfl

/-- An array object of one element. -/
private def singleArray (obj : Object) : Object := .array (vecPush (some 0) (vecNew 0) obj).2

/-- A PUSH of an array is accepted when its only element is missing, and the first
byte of `+OK` is read as a string. -/
theorem cuts_noticed_counterexample :
    (∃ rounds after, (Call.push (singleArray (.int 1))).build (.granted 1) .sample rounds builderNew = .ok (some after) ∧
      ¬ RefusesCuts .sample (.granted fun unread _ => unread) after.bytes) ∧
    ¬ NullsCuts .sample (.granted fun unread _ => unread) (Reply.simple (cstr "OK")).wire := by
  have grants := Supply.granted_grants fun unread _ => unread
  constructor
  · have array : (vecPush (some 0) (vecNew 0) (Object.int 1)).2.Valid := by
      refine ⟨?_, ?_, ?_⟩ <;> simp [vecPush, vecNew, vecInitialCap]
    have elems : (vecPush (some 0) (vecNew 0) (Object.int 1)).2.elems = [.int 1] := by
      simp [Vec.elems, vecPush, vecNew, vecInitialCap]
    have holds : (Call.push (singleArray (.int 1))).Holds [.array [.int 1]] := by
      refine .cons ⟨array, ?_⟩ .nil
      simp [elems, Value.AllAre, Value.Is]
    have objects : ∀ obj ∈ (Call.push (singleArray (.int 1))).args, obj.Built := by
      intro obj member
      cases List.mem_singleton.mp member
      exact .array array (by decide) (by simp [elems, Object.Built.int])
    have sendable : ∀ obj ∈ (Call.push (singleArray (.int 1))).args, obj.Sendable := by
      intro obj member
      cases List.mem_singleton.mp member
      exact .array (by decide) (by simp [elems, Object.Sendable.int])
    obtain ⟨rounds, adds⟩ := (Call.push (singleArray (.int 1))).adds_of_sendable .sample (Mem.granted_grants 1) sendable objects
      holds.encodes
    obtain ⟨after, built, _⟩ := adds builderNew vstrNew_valid (by unfold Fits; decide)
    refine ⟨rounds, after, built, ?_⟩
    rw [Call.refusesCuts_iff (Mem.granted_grants 1) grants holds objects vstrNew_valid vstrNew_bytes (by decide) built]
    decide
  · rw [Reply.nullsCuts_iff .sample grants (.simple (cstr "OK")) (by decide)]
    decide

end Frames

end LexiDB
