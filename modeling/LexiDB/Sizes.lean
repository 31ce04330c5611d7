import Mathlib.Logic.Relation
import LexiDB.ParserTermination
import LexiDB.Values
import LexiDB.Weights

/-! How much of the input a parsed value takes up. -/

namespace LexiDB

open Lib

section Elements

variable (env : Env) (supply : Supply)

/-- `parse_object`, called at the first parser, calls itself at the second: for an
element of an array, or for a key or a value of a map. -/
inductive ElementAt : Parser → Parser → Prop where
  | elem (type : wireType p.ch = some .array) (headed : Headed p.rest after)
      (opened : (supply.mem p.rest.length 0).calloc.isSome) (before : Walks env supply count (parserNew after) q)
      (inside : count < decimalValue (prefixDigits p.rest) % sizeMod) : ElementAt p q
  | pair (type : wireType p.ch = some .ht) (headed : Headed p.rest after)
      (opened : (supply.mem p.rest.length 0).calloc.isSome) (before : Walks env supply count (parserNew after) q)
      (inside : count < 2 * (decimalValue (prefixDigits p.rest) % sizeMod)) : ElementAt p q

/-- The array here, if there is one, lacks no more elements than its prefix has digits
and its line end characters. -/
def Spares (p : Parser) : Prop :=
  wireType p.ch = some .array → ∀ after count q, Headed p.rest after → Walks env supply count (parserNew after) q → q.Idle →
    decimalValue (prefixDigits p.rest) % sizeMod ≤ count + (prefixDigits p.rest).length + 2

/-- The same of every array inside. -/
def Spared (p : Parser) : Prop := ∀ q, Relation.ReflTransGen (ElementAt env supply) p q → Spares env supply q

end Elements

section Objects

variable {env : Env} {supply : Supply} {null : Nat}

theorem Spared.elem (spared : Spared env supply p) (elem : ElementAt env supply p q) : Spared env supply q :=
  fun r deeper => spared r (.head elem deeper)

theorem Parser.Idle.parse (idle : p.Idle) (done : parseObject env supply fuel p = .ok (obj, q)) : obj = .null ∧ q = p := by
  rcases parseObject_moves _ _ _ _ done with still | moved
  · exact still.2
  · exact absurd idle moved.1

/-- Where something is read there is a byte to read. -/
theorem Parser.ch_of_not_idle {p : Parser} (busy : ¬ p.Idle) : p.ch ≠ 0 := by
  intro zero
  have none_ : wireType 0 = none := by decide
  exact busy (by simp [Parser.Idle, zero, none_])

/-- Every element that is missing is a Null. -/
private theorem parseElems_idle (idle : p.Idle) (null : Nat) : ∀ count vec, vec.Valid →
    parseElems (parseObject env supply fuel) realloc count vec p = .ok (after, q) →
    q = p ∧ vecWeight null after ≤ vecWeight null vec + null * count := by
  intro count
  induction count with
  | zero =>
    intro vec _ done
    cases done
    exact ⟨rfl, Nat.le_refl _⟩
  | succ count ih =>
    intro vec valid done
    obtain ⟨⟨cur, middle⟩, parsed, rest⟩ := bind_eq_ok.mp done
    obtain ⟨rfl, rfl⟩ := idle.parse parsed
    obtain ⟨kept, pushed⟩ := vecPush_weight null valid (realloc count) .null
    obtain ⟨place, added⟩ := ih _ kept rest
    rw [Object.weight] at pushed
    rw [Nat.mul_succ]
    exact ⟨place, by omega⟩

/-- The elements weigh no more than was read for them, missing ones apart. -/
private theorem parseElems_weight (null : Nat) : ∀ count vec p,
    (∀ before r obj s, before < count → Walks env supply before p r → ¬ r.Idle → parseObject env supply fuel r = .ok (obj, s) →
      obj.weight null + s.left ≤ r.left) →
    (∀ before r, Walks env supply before p r → r.Idle → null * (count - before) ≤ spare) →
    vec.Valid → parseElems (parseObject env supply fuel) realloc count vec p = .ok (after, q) →
    vecWeight null after + q.left ≤ vecWeight null vec + p.left + spare := by
  intro count
  induction count with
  | zero =>
    intro vec p _ _ _ done
    cases done
    exact Nat.le_add_right _ _
  | succ count ih =>
    intro vec p each lacks valid done
    by_cases idle : p.Idle
    · obtain ⟨rfl, added⟩ := parseElems_idle idle null _ _ valid done
      have few := lacks 0 q .done idle
      rw [Nat.sub_zero] at few
      omega
    · obtain ⟨⟨cur, middle⟩, parsed, done⟩ := bind_eq_ok.mp done
      have here := each 0 p cur middle (Nat.succ_pos _) .done idle parsed
      obtain ⟨kept, pushed⟩ := vecPush_weight null valid (realloc count) cur
      have rest := ih _ middle (fun before r obj s inside walks => each (before + 1) r obj s (by omega) (.next parsed walks))
        (fun before r walks none_ => by simpa using lacks (before + 1) r (.next parsed walks) none_) kept done
      omega

/-- The pairs that are missing are one entry. -/
private theorem parsePairs_idle (idle : p.Idle) (small : null ≤ 1) : ∀ count ht, ht.Placed (objectOps env) →
    parsePairs env (parseObject env supply fuel) calloc count ht p = .ok (after, q) →
    q = p ∧ htWeight null after ≤ htWeight null ht + 2 ∧ (NullKey ht → htWeight null after ≤ htWeight null ht) := by
  intro count
  induction count with
  | zero =>
    intro ht _ done
    cases done
    exact ⟨rfl, by omega, fun _ => Nat.le_refl _⟩
  | succ count ih =>
    intro ht placed done
    obtain ⟨⟨key, middle⟩, keyed, rest⟩ := bind_eq_ok.mp done
    obtain ⟨rfl, rfl⟩ := idle.parse keyed
    obtain ⟨⟨value, last⟩, valued, looped⟩ := bind_eq_ok.mp rest
    obtain ⟨rfl, rfl⟩ := idle.parse valued
    obtain ⟨kept, again⟩ := htInsert_null small placed (calloc count)
    have inserted := htInsert_weight null placed (calloc count) .null .null
    obtain ⟨place, most, none_⟩ := ih _ (htInsert_placed placed (calloc count) .null .null) looped
    rw [Object.weight] at inserted
    refine ⟨place, ?_, ?_⟩
    · rcases kept with same | present
      · rw [same] at most
        exact most
      · have less := none_ present
        omega
    · intro present
      obtain ⟨still, less⟩ := again present
      exact Nat.le_trans (none_ still) less

/-- So a map has at most one value and one pair that nothing was read for. -/
private theorem parsePairs_weight (small : null ≤ 1) : ∀ count ht p,
    (∀ before r obj s, before < 2 * count → Walks env supply before p r → ¬ r.Idle → parseObject env supply fuel r = .ok (obj, s) →
      obj.weight null + s.left ≤ r.left) →
    ht.Placed (objectOps env) → parsePairs env (parseObject env supply fuel) calloc count ht p = .ok (after, q) →
    htWeight null after + q.left ≤ htWeight null ht + p.left + 3 := by
  intro count
  induction count with
  | zero =>
    intro ht p _ _ done
    cases done
    exact Nat.le_add_right _ _
  | succ count ih =>
    intro ht p each placed done
    by_cases idle : p.Idle
    · obtain ⟨rfl, most, _⟩ := parsePairs_idle idle small _ _ placed done
      omega
    · obtain ⟨⟨key, middle⟩, keyed, rest⟩ := bind_eq_ok.mp done
      obtain ⟨⟨value, last⟩, valued, looped⟩ := bind_eq_ok.mp rest
      have first := each 0 p key middle (by omega) .done idle keyed
      have inserted := htInsert_weight null placed (calloc count) key value
      have kept := htInsert_placed placed (calloc count) key value
      by_cases later : middle.Idle
      · -- the value is missing, and so is everything behind it
        obtain ⟨rfl, rfl⟩ := later.parse valued
        obtain ⟨rfl, most, _⟩ := parsePairs_idle later small _ _ kept looped
        rw [Object.weight] at inserted
        omega
      · have second := each 1 middle value last (by omega) (.next keyed .done) later valued
        have onward := ih _ last (fun before r obj s inside walks => each (before + 2) r obj s (by omega)
          (.next keyed (.next valued walks))) kept looped
        omega

/-- The string is made of the bytes between its two line ends. -/
private theorem parseBulk_weight (done : parseBulk supply fuel ⟨ch, body⟩ = .ok (.string s, q)) :
    1 + vstrLen s + q.left ≤ body.length + 1 := by
  obtain ⟨⟨len, middle⟩, header, done⟩ := bind_eq_ok.mp done
  cases len with
  | none => cases done
  | some len =>
    obtain ⟨after, headed, _, rfl⟩ := parseHeader_headed header
    obtain ⟨⟨t, last⟩, read, done⟩ := bind_eq_ok.mp done
    obtain ⟨empty, created, pushed⟩ := bind_eq_ok.mp read
    have finished : parserFinish (.string t) last = (.string s, q) := Except.ok.inj done
    cases parserFinish_eq finished (by simp)
    have counted := parserPushes_length supply len (empty, parserNew after)
    have moved := parserPushes_position supply after len empty
    rw [parserReadChar_mk] at pushed
    rw [Except.ok.inj pushed] at counted moved
    simp only [vstrNewLen_length created] at counted moved
    subst moved
    obtain ⟨rest, ends⟩ := (parserFinish_some (by simp) _).mp (show (parserFinish (.string s) (parserNew (after.drop len))).1 ≠ .null by
      rw [finished]
      simp)
    rw [ends, parserFinish_crlf] at finished
    cases finished
    have whole := headed.length
    have behind := congrArg List.length ends
    have onward := parserNew_left rest
    have letters : crlf.length = 2 := rfl
    simp only [List.length_append, List.length_drop] at behind
    omega

/-- A value weighs no more than was read for it, if a Null weighs nothing or no array
lacks too many elements. -/
theorem parseObject_weight (small : null ≤ 1) : ∀ fuel p obj q, null = 0 ∨ Spared env supply p → ¬ p.Idle →
    parseObject env supply fuel p = .ok (obj, q) → obj.weight null + q.left ≤ p.left := by
  intro fuel
  induction fuel with
  | zero =>
    intro p obj q _ _ done
    cases done
  | succ fuel ih =>
    intro p obj q missing busy done
    have here := Parser.ch_of_not_idle busy
    have elements : ∀ r obj s, ElementAt env supply p r → ¬ r.Idle → parseObject env supply fuel r = .ok (obj, s) →
        obj.weight null + s.left ≤ r.left := fun r obj s elem => ih r obj s (missing.imp_right fun spared => spared.elem elem)
    have moved : q.left + 1 ≤ p.left := by
      rcases parseObject_moves _ _ _ _ done with ⟨idle, _⟩ | ⟨_, moved⟩
      · exact absurd idle busy
      · exact moved.left_lt here
    by_cases none_ : obj = .null
    · rw [none_, Object.weight]
      omega
    · obtain ⟨ch, body⟩ := p
      have size := Parser.left_of_ch here
      simp only at size
      rw [size]
      cases known : wireType ch with
      | none =>
        simp only [parseObject, known] at done
        cases done
        exact absurd rfl none_
      | some type =>
        simp only [parseObject, known] at done
        cases type with
        | string =>
          obtain ⟨s, rfl⟩ := parseBulk_string done none_
          exact parseBulk_weight done
        | int =>
          obtain ⟨⟨val, middle⟩, _, done⟩ := bind_eq_ok.mp done
          rw [parserFinish_eq (Except.ok.inj done) none_, Object.weight]
          omega
        | double =>
          obtain ⟨⟨val, middle⟩, _, done⟩ := bind_eq_ok.mp done
          rw [parserFinish_eq (Except.ok.inj done) none_, Object.weight]
          omega
        | bool =>
          obtain ⟨boolean, rfl⟩ := parseBoolean_eq (Except.ok.inj done) none_
          rw [Object.weight]
          omega
        | simple =>
          obtain ⟨⟨s, middle⟩, read, done⟩ := bind_eq_ok.mp done
          obtain ⟨empty, created, line⟩ := bind_eq_ok.mp read
          cases done
          exact Nat.le_trans (parseLine_weight (vstrNewLen_length created) here line) (Nat.le_of_eq size)
        | error =>
          obtain ⟨⟨s, middle⟩, line, done⟩ := bind_eq_ok.mp done
          cases done
          exact Nat.le_trans (parseLine_weight rfl here line) (Nat.le_of_eq size)
        | array =>
          obtain ⟨after, address, vec, headed, opened, rfl, looped⟩ := parseArray_opened done none_
          have lacks : ∀ before r, Walks env supply before (parserNew after) r → r.Idle →
              null * (decimalValue (prefixDigits body) % sizeMod - before) ≤ (prefixDigits body).length + 2 := by
            intro before r walks idle
            rcases missing with rfl | spared
            · simp
            · have few := spared _ .refl known after before r headed walks idle
              exact Nat.le_trans (Nat.mul_le_mul_right _ small) (by simp only at few; omega)
          have elems := parseElems_weight null _ _ _ (fun before r obj s inside walks =>
            elements r obj s (.elem known headed (by rw [opened]; rfl) walks inside)) lacks (vecNew_valid address) looped
          have empty : vecWeight null (vecNew address : Vec Object) = 0 := rfl
          have whole := headed.length
          have onward := parserNew_left after
          simp only [Object.weight]
          omega
        | ht =>
          obtain ⟨after, table, ht, headed, opened, rfl, looped⟩ := parseHt_opened done none_
          have pairs := parsePairs_weight small _ _ _ (fun before r obj s inside walks =>
            elements r obj s (.pair known headed (by rw [opened]; rfl) walks inside)) (htNew_placed _ _ table) looped
          have empty : htWeight null (htNew (supply.seed body.length) table : Ht Object Object) = 0 := by
            rw [htWeight_eq, htNew_items]
            rfl
          have whole := headed.length
          have some_ := List.length_pos_of_ne_nil headed.some_
          have onward := parserNew_left after
          simp only [Object.weight]
          omega

theorem parseObject_weight_some (small : null ≤ 1) (missing : null = 0 ∨ Spared env supply p)
    (done : parseObject env supply fuel p = .ok (obj, q)) (some_ : obj ≠ .null) : obj.weight null + q.left ≤ p.left := by
  refine parseObject_weight small _ _ _ _ missing ?_ done
  intro idle
  exact some_ (idle.parse done).1

end Objects

section Commands

variable {env : Env} {supply : Supply} {null : Nat}

private theorem parseArrayCmd_weight (small : null ≤ 1) (missing : null = 0 ∨ ∀ p, ArgumentAt env supply input p → Spared env supply p)
    (frame : wireType (parserNew input).ch = some .array) (done : parseArrayCmd env supply fuel (parserNew input) = .ok cmd) :
    cmd.weight null ≤ (parserNew input).left := by
  rcases parseArrayCmd_args done with rfl | ⟨len, middle, type, p, header, _, typed, read⟩
  · exact Nat.zero_le _
  · have here := ((parseHeader_reaches header).1.trans (parseCmdType_reaches typed).back).left
    cases read with
    | help => exact Nat.zero_le _
    | one takes complete parsed given args =>
      have weighed := parseObject_weight_some small
        (missing.imp_right fun spared => spared p (.first frame header typed (by omega) (by omega))) parsed given
      simp only [Cmd.weight, args, List.map_cons, List.map_nil, List.sum_cons, List.sum_nil]
      omega
    | two takes complete parsed given then_ more args =>
      have first := parseObject_weight_some small
        (missing.imp_right fun spared => spared p (.first frame header typed (by omega) (by omega))) parsed given
      have second := parseObject_weight_some small
        (missing.imp_right fun spared => spared _ (.second frame header typed takes complete parsed given)) then_ more
      simp only [Cmd.weight, args, List.map_cons, List.map_nil, List.sum_cons, List.sum_nil]
      omega

private theorem bare_weight (small : null ≤ 1) (type : Cmdt) : (Cmd.bare type).weight null ≤ 2 := by
  cases type <;> simp [Cmd.bare, Cmd.weight, Cmd.args, Object.weight] <;> omega

/-- The word of a bare command has a line end behind it. -/
private theorem bare_input (form : wireType (parserNew input).ch = some .simple ∨ wireType (parserNew input).ch = some .string)
    (done : parse env supply fuel input = .ok cmd) (legal : cmd ≠ .illegal) : ∃ type, cmd = .bare type ∧ 2 ≤ input.length := by
  have known : ∀ {type}, Cmd.bare type = cmd → type ≠ .illegal := by
    rintro type rfl rfl
    exact legal rfl
  cases input with
  | nil => rcases form with simple | string <;> contradiction
  | cons byte body =>
    rw [parserNew_cons] at form
    rw [parse, parserNew_cons, parseCmd] at done
    rcases form with simple | string
    · simp only [simple] at done
      cases wireType_eq.mp simple
      obtain ⟨⟨type, q⟩, read, same⟩ := bind_eq_ok.mp done
      obtain ⟨line, tail, rfl, inLine, stops⟩ := exists_span lineByte (show lineByte 0 = false by decide) body
      obtain ⟨rest, rfl⟩ := (parseSimpleStringCmd_eq read rfl inLine stops).2 (known (Except.ok.inj same))
      refine ⟨type, (Except.ok.inj same).symm, ?_⟩
      simp only [List.length_cons, List.length_append, crlf]
      omega
    · simp only [string] at done
      cases wireType_eq.mp string
      obtain ⟨⟨type, q⟩, read, same⟩ := bind_eq_ok.mp done
      obtain ⟨digits, word, rest, _, _, _, rfl⟩ := (parseCmdType_eq read).2 (known (Except.ok.inj same))
      refine ⟨type, (Except.ok.inj same).symm, ?_⟩
      simp only [List.length_cons, List.length_append, crlf]
      omega

/-- The same of a command and its arguments. -/
theorem parse_weight (small : null ≤ 1) (missing : null = 0 ∨ ∀ p, ArgumentAt env supply input p → Spared env supply p)
    (done : parse env supply fuel input = .ok cmd) (legal : cmd ≠ .illegal) : cmd.weight null ≤ input.length := by
  have bare : wireType (parserNew input).ch = some .simple ∨ wireType (parserNew input).ch = some .string →
      cmd.weight null ≤ input.length := by
    intro form
    obtain ⟨type, rfl, long⟩ := bare_input form done legal
    exact Nat.le_trans (bare_weight small type) long
  unfold parse parseCmd at done
  split at done
  · rename_i frame
    exact Nat.le_trans (parseArrayCmd_weight small missing frame done) (parserNew_left input)
  · rename_i simple
    exact bare (.inl simple)
  · rename_i string
    exact bare (.inr string)
  · cases done
    exact absurd rfl legal

end Commands

section Input

variable {env : Env} {supply : Supply} {null : Nat}

private theorem parseFromServer_weight (small : null ≤ 1) (missing : null = 0 ∨ Spared env supply (parserNew input))
    (done : parseFromServer env supply fuel input = .ok obj) (some_ : obj ≠ .null) : obj.weight null ≤ input.length := by
  obtain ⟨⟨value, q⟩, parsed, done⟩ := bind_eq_ok.mp done
  cases done
  have weighed := parseObject_weight_some small missing parsed some_
  have start := parserNew_left input
  omega

/-- Apart from Nulls, what is parsed holds no more than the input. -/
theorem parsed_weight_le (env : Env) (supply : Supply) (fuel : Nat) (input : List UInt8) :
    (∀ cmd, parse env supply fuel input = .ok cmd → cmd.weight 0 ≤ input.length) ∧
      ∀ obj, parseFromServer env supply fuel input = .ok obj → obj.weight 0 ≤ input.length := by
  refine ⟨?_, ?_⟩
  · intro cmd done
    by_cases legal : cmd = .illegal
    · rw [legal]
      exact Nat.zero_le _
    · exact parse_weight (Nat.zero_le 1) (.inl rfl) done legal
  · intro obj done
    by_cases some_ : obj = .null
    · rw [some_]
      exact Nat.zero_le _
    · exact parseFromServer_weight (Nat.zero_le 1) (.inl rfl) done some_

/-- A parsed value is no larger than the input, Nulls included, where no array lacks too
many elements. -/
theorem parsed_size_of_spared (env : Env) (supply : Supply) (fuel : Nat) (input : List UInt8) :
    (∀ cmd, parse env supply fuel input = .ok cmd → cmd ≠ .illegal → (∀ p, ArgumentAt env supply input p → Spared env supply p) →
      cmd.size ≤ input.length) ∧
    ∀ obj, parseFromServer env supply fuel input = .ok obj → obj ≠ .null → Spared env supply (parserNew input) →
      obj.size ≤ input.length := by
  refine ⟨?_, ?_⟩
  · intro cmd done legal spared
    exact parse_weight (Nat.le_refl 1) (.inr spared) done legal
  · intro obj done some_ spared
    exact parseFromServer_weight (Nat.le_refl 1) (.inr spared) done some_

private theorem spared_of_scalar (array : wireType p.ch ≠ some .array) (map : wireType p.ch ≠ some .ht) : Spared env supply p := by
  intro q within
  rcases within.cases_head with rfl | ⟨r, elem, _⟩
  · exact fun type => absurd type array
  · cases elem with
    | elem type => exact absurd type array
    | pair type => exact absurd type map

theorem parsed_size_of_spared_push :
    (∀ cmd, parse .sample (.granted fun unread _ => unread) 9 (cstr "*2\r\n$4\r\nPUSH\r\n:7\r\n") = .ok cmd → cmd ≠ .illegal →
      cmd.size ≤ (cstr "*2\r\n$4\r\nPUSH\r\n:7\r\n").length) ∧
    ∀ obj, parseFromServer .sample (.granted fun unread _ => unread) 9 (cstr "*1\r\n:7\r\n") = .ok obj → obj ≠ .null →
      obj.size ≤ (cstr "*1\r\n:7\r\n").length := by
  refine ⟨fun cmd done legal => (parsed_size_of_spared _ _ _ _).1 cmd done legal ?_,
    fun obj done some_ => (parsed_size_of_spared _ _ _ _).2 obj done some_ ?_⟩
  · intro p argument
    have header : parseHeader 9 (parserNew (cstr "*2\r\n$4\r\nPUSH\r\n:7\r\n")) = .ok (some 2, ⟨ascii '\n', cstr "$4\r\nPUSH\r\n:7\r\n"⟩) := by
      decide
    have word : parseCmdType .sample (.granted fun unread _ => unread) 9 (parserReadChar ⟨ascii '\n', cstr "$4\r\nPUSH\r\n:7\r\n"⟩) =
        .ok (.push, ⟨ascii ':', cstr "7\r\n"⟩) := by decide
    have known : ∀ {one two len middle type q}, parseHeader one (parserNew (cstr "*2\r\n$4\r\nPUSH\r\n:7\r\n")) = .ok (some len, middle) →
        parseCmdType .sample (.granted fun unread _ => unread) two (parserReadChar middle) = .ok (type, q) →
        type = .push ∧ q = ⟨ascii ':', cstr "7\r\n"⟩ := by
      intro one two len middle type q read typed
      have same := (parseHeader_mono _).agree (by rw [read]; exact settled_ok _) (by rw [header]; exact settled_ok _)
      rw [read, header] at same
      cases same
      have agrees := (parseCmdType_mono _).agree (by rw [typed]; exact settled_ok _) (by rw [word]; exact settled_ok _)
      rw [typed, word] at agrees
      cases agrees
      exact ⟨rfl, rfl⟩
    cases argument with
    | first _ read typed =>
      obtain ⟨_, rfl⟩ := known read typed
      exact spared_of_scalar (by decide) (by decide)
    | second _ read typed takes =>
      obtain ⟨rfl, _⟩ := known read typed
      cases takes
  · intro q within
    rcases within.cases_head with rfl | ⟨r, elem, deeper⟩
    · intro _ after count r _ _ _
      have one : decimalValue (prefixDigits (parserNew (cstr "*1\r\n:7\r\n")).rest) % sizeMod = 1 := by decide
      rw [one]
      omega
    · cases elem with
      | elem type headed opened before inside =>
        rename_i after count
        have one : decimalValue (prefixDigits (parserNew (cstr "*1\r\n:7\r\n")).rest) % sizeMod = 1 := by decide
        have digit : prefixDigits (parserNew (cstr "*1\r\n:7\r\n")).rest = [ascii '1'] := by decide
        have whole := congrArg (List.drop 3) headed.split
        rw [digit] at whole
        have behind : cstr ":7\r\n" = after := whole
        subst behind
        cases before with
        | done => exact spared_of_scalar (by decide) (by decide) q deeper
        | next => omega
      | pair type => exact absurd type (by decide)

theorem Parser.Idle.parseObject (idle : p.Idle) (env : Env) (supply : Supply) (fuel : Nat) :
    parseObject env supply (fuel + 1) p = .ok (.null, p) := by
  have refused : isDigit (peekByte p) = false → parseHeader fuel p = .ok (none, p) := by
    intro digit
    simp [parseHeader, expectPeekByteToBeNum, digit]
  unfold LexiDB.parseObject
  cases known : wireType p.ch with
  | none => rfl
  | some type =>
    cases type <;> simp only [Parser.Idle, known] at idle <;> simp [parseBulk, parseArray, parseHt, refused idle]

/-- Where nothing can be read every element is a Null. -/
private theorem parseElems_nulls (env : Env) (supply : Supply) (fuel : Nat) (idle : p.Idle) {realloc : Nat → Option Nat}
    (granted : ∀ i, (realloc i).isSome) : ∀ count vec, vec.Valid → ∃ after, parseElems (parseObject env supply (fuel + 1)) realloc count vec p = .ok (after, p) ∧
      vecWeight 1 after = vecWeight 1 vec + count := by
  intro count
  induction count with
  | zero => exact fun vec _ => ⟨vec, rfl, rfl⟩
  | succ count ih =>
    intro vec valid
    obtain ⟨pushed, same, kept, content⟩ := vecPush_spec valid (fun _ => granted count) .null
    obtain ⟨after, looped, weight⟩ := ih pushed kept
    refine ⟨after, by simp [parseElems, idle.parseObject, same, looped], ?_⟩
    rw [weight, vecWeight_eq, content, vecWeight_eq]
    simp [Object.weight]
    omega

/-- An array of which only the length is there is as large as it says, which the input
pays for up to the digits and the line end, and what nothing is read from. -/
theorem bareArray_size_iff (env : Env) (grants : supply.Grants) {digits : List UInt8} (some_ : digits ≠ [])
    (all : ∀ byte ∈ digits, isDigit byte = true) {after : List UInt8} (idle : (parserNew after).Idle) :
    ∃ fuel obj, parseFromServer env supply fuel (arrayTypeByte :: (digits ++ crlf ++ after)) = .ok obj ∧ obj ≠ .null ∧
      (obj.size ≤ (arrayTypeByte :: (digits ++ crlf ++ after)).length ↔
        decimalValue digits % sizeMod ≤ digits.length + 2 + after.length) := by
  have header := parseHeader_line some_ all arrayTypeByte after (Nat.lt_succ_self _)
  have length : (digits ++ crlf ++ after).length = digits.length + 2 + after.length := by
    simp only [List.length_append, crlf, List.length_cons, List.length_nil]
  generalize digits ++ crlf ++ after = body at header length ⊢
  obtain ⟨address, opened⟩ := Option.isSome_iff_exists.mp (grants body.length 0).1
  obtain ⟨vec, looped, weight⟩ := parseElems_nulls env supply digits.length idle
    (fun i => (grants body.length i).2) (decimalValue digits % sizeMod) (vecNew address) (vecNew_valid address)
  have parsed : LexiDB.parseObject env supply (digits.length + 2) ⟨arrayTypeByte, body⟩ = .ok (.array vec, parserNew after) := by
    have type : wireType arrayTypeByte = some .array := by decide
    rw [LexiDB.parseObject]
    simp only [type, parseArray, header, ok_bind, opened, parserReadChar_mk, looped, pure_eq_ok]
  refine ⟨digits.length + 2, .array vec, ?_, by simp, ?_⟩
  · rw [parseFromServer, parserNew_cons, parsed]
    rfl
  · have empty : vecWeight 1 (vecNew address : Vec Object) = 0 := rfl
    rw [Object.size, Object.weight, weight, empty, List.length_cons, length]
    omega

/-- Ninety-nine elements that are not there. -/
theorem parsed_size_counterexample :
    (∃ cmd, parse .sample (.granted fun unread _ => unread) 9 (cstr "*2\r\n$4\r\nPUSH\r\n*99\r\n") = .ok cmd ∧ cmd ≠ .illegal ∧
      (cstr "*2\r\n$4\r\nPUSH\r\n*99\r\n").length < cmd.size) ∧
      ∃ obj, parseFromServer .sample (.granted fun unread _ => unread) 9 (cstr "*99\r\n") = .ok obj ∧ obj ≠ .null ∧
      (cstr "*99\r\n").length < obj.size := by
  constructor
  · have parsed : returnsWith (fun cmd => decide ((cstr "*2\r\n$4\r\nPUSH\r\n*99\r\n").length < cmd.size))
        (parse .sample (.granted fun unread _ => unread) 9 (cstr "*2\r\n$4\r\nPUSH\r\n*99\r\n")) = true := by decide +kernel
    obtain ⟨cmd, done, large⟩ := returnsWith_iff.mp parsed
    refine ⟨cmd, done, ?_, of_decide_eq_true large⟩
    rintro rfl
    exact absurd large (by decide)
  · have parsed : returnsWith (fun obj => decide ((cstr "*99\r\n").length < obj.size))
        (parseFromServer .sample (.granted fun unread _ => unread) 9 (cstr "*99\r\n")) = true := by decide +kernel
    obtain ⟨obj, done, large⟩ := returnsWith_iff.mp parsed
    refine ⟨obj, done, ?_, of_decide_eq_true large⟩
    rintro rfl
    exact absurd large (by decide)

end Input

end LexiDB
