import LexiDB.BuilderInvariant
import LexiDB.ParserInvariant

/-! Decoding undoes encoding: what the builder functions append for a value tree
is read back by `parse_object`, whatever follows it. -/

namespace LexiDB

open Lib

section Reading

theorem parserReadChar_mk (ch : UInt8) (rest : List UInt8) : parserReadChar ⟨ch, rest⟩ = parserNew rest := rfl

@[simp] theorem parserNew_cons (byte : UInt8) (rest : List UInt8) : parserNew (byte :: rest) = ⟨byte, rest⟩ := rfl

private theorem foldl_wraps (digits : List UInt8) (acc : Nat) (small : acc < sizeMod) :
    digits.foldl (fun acc byte => pushDigit acc byte % sizeMod) acc = digits.foldl pushDigit acc % sizeMod := by
  induction digits using List.reverseRecOn with
  | nil => exact (Nat.mod_eq_of_lt small).symm
  | append_singleton digits byte ih =>
    simp only [List.foldl_append, List.foldl_cons, List.foldl_nil]
    rw [ih]
    simp [pushDigit, Nat.add_mod, Nat.mul_mod]

private theorem parseLen_digits (digits tail : List UInt8)
    (all : ∀ byte ∈ digits, isDigit byte = true) (ends : isDigit (parserNew tail).ch = false) :
    ∀ acc fuel, digits.length < fuel →
      whileFuel (fun state => isDigit state.2.ch)
        (fun state => (pushDigit state.1 state.2.ch % sizeMod, parserReadChar state.2)) fuel
        (acc, parserNew (digits ++ tail)) =
      .ok (digits.foldl (fun acc byte => pushDigit acc byte % sizeMod) acc, parserNew tail) := by
  induction digits with
  | nil =>
    intro acc fuel enough
    obtain ⟨less, rfl⟩ := Nat.exists_eq_add_of_lt enough
    simp [whileFuel, ends]
  | cons byte digits ih =>
    intro acc fuel enough
    obtain ⟨less, rfl⟩ := Nat.exists_eq_add_of_lt enough
    simp only [List.cons_append, parserNew_cons, whileFuel, all byte (by simp), ↓reduceIte, parserReadChar_mk,
      List.foldl_cons]
    exact ih (fun other member => all other (by simp [member])) _ _ (by simp only [List.length_cons]; omega)

/-- The digits in front of another byte, or of the end, are a number modulo 2^64. -/
theorem parseLen_span {digits : List UInt8} (all : ∀ byte ∈ digits, isDigit byte = true) (tail : List UInt8)
    (ends : isDigit (parserNew tail).ch = false) (enough : digits.length < fuel) :
    parseLen fuel (parserNew (digits ++ tail)) = .ok (decimalValue digits % sizeMod, parserNew tail) := by
  have read := parseLen_digits digits tail all ends 0 fuel enough
  rw [foldl_wraps digits 0 (by decide)] at read
  exact read

theorem parseLen_line {digits : List UInt8} (all : ∀ byte ∈ digits, isDigit byte = true) (ends : isDigit stop = false)
    (rest : List UInt8) (enough : digits.length < fuel) :
    parseLen fuel (parserNew (digits ++ stop :: rest)) = .ok (decimalValue digits % sizeMod, ⟨stop, rest⟩) :=
  parseLen_span all (stop :: rest) ends enough

theorem parseHeader_line {digits : List UInt8} (some_ : digits ≠ []) (all : ∀ byte ∈ digits, isDigit byte = true)
    (type : UInt8) (rest : List UInt8) (enough : digits.length < fuel) :
    parseHeader fuel ⟨type, digits ++ crlf ++ rest⟩ = .ok (some (decimalValue digits % sizeMod), ⟨ascii '\n', rest⟩) := by
  have read := parseLen_line all (show isDigit (ascii '\r') = false by decide) (ascii '\n' :: rest) enough
  obtain ⟨digit, digits, rfl⟩ := List.exists_cons_of_ne_nil some_
  have peeked : expectPeekByteToBeNum ⟨type, digit :: digits ++ crlf ++ rest⟩ =
      some (parserNew (digit :: digits ++ ascii '\r' :: ascii '\n' :: rest)) := by
    simp [expectPeekByteToBeNum, peekByte, all digit (by simp), crlf, parserReadChar_mk]
  have newline : expectPeekByte ⟨ascii '\r', ascii '\n' :: rest⟩ (ascii '\n') = some ⟨ascii '\n', rest⟩ := by
    simp [expectPeekByte, peekByte, parserReadChar_mk]
  unfold parseHeader
  rw [peeked]
  simp only [read, ok_bind, ne_eq, not_true_eq_false, ↓reduceIte, newline, pure_eq_ok]

/-- A printed length is read back. -/
theorem parseHeader_decimal (bound : n < sizeMod) (type : UInt8) (rest : List UInt8)
    (enough : (decimal n).length < fuel) :
    parseHeader fuel ⟨type, decimal n ++ crlf ++ rest⟩ = .ok (some n, ⟨ascii '\n', rest⟩) := by
  have read := parseHeader_line (decimal_ne_nil n) (fun _ member => isDigit_of_mem_decimal member) type rest enough
  rwa [decimalValue_decimal, Nat.mod_eq_of_lt bound] at read

/-- A skipping loop stops in front of the first byte it does not skip. -/
theorem parserSkip_span {skipped : UInt8 → Bool} (blank tail : List UInt8) (each : ∀ byte ∈ blank, skipped byte = true)
    (ends : skipped (parserNew tail).ch = false) (enough : blank.length < fuel) :
    parserSkip skipped fuel (parserNew (blank ++ tail)) = .ok (parserNew tail) := by
  induction blank generalizing fuel with
  | nil =>
    obtain ⟨less, rfl⟩ := Nat.exists_eq_add_of_lt enough
    simp [parserSkip, whileFuel, ends]
  | cons byte blank ih =>
    obtain ⟨less, rfl⟩ := Nat.exists_eq_add_of_lt enough
    have later := ih (fun other member => each other (List.mem_cons_of_mem _ member))
      (show blank.length < (byte :: blank).length + less by simp only [List.length_cons]; omega)
    simpa [parserSkip, whileFuel, each byte (List.mem_cons_self ..), parserReadChar_mk] using later

variable {supply : Supply}

/-- A round of a collecting loop appends the byte under the parser. -/
private theorem parserPush_spec (grants : supply.Grants) {s : Vstr} (valid : s.Valid) (cleared : s.Cleared)
    (byte : UInt8) (rest : List UInt8) (fits : s.bytes.length + 1 ≤ vstrMaxLargeSize) :
    ∃ t : Vstr, parserPush supply (s, ⟨byte, rest⟩) = (t, parserNew rest) ∧ t.Valid ∧ t.Cleared ∧
      t.bytes = s.bytes ++ [byte] := by
  obtain ⟨t, pushed, kept, content⟩ := vstrPushChar_spec (grants rest.length 1) valid byte fits
  refine ⟨t, by simp [parserPush, pushed, parserReadChar_mk], kept, ?_, content⟩
  have clean := vstrPushChar_cleared (grants rest.length 1) valid cleared byte
  rwa [pushed] at clean

/-- The counted loop takes exactly the bytes it was told to, framing bytes
included. -/
theorem parserPushes_spec (grants : supply.Grants) (str rest : List UInt8) :
    ∀ s : Vstr, s.Valid → s.Cleared → s.bytes.length + str.length ≤ vstrMaxLargeSize →
      ∃ t : Vstr, parserPushes supply str.length (s, parserNew (str ++ rest)) = (t, parserNew rest) ∧ t.Valid ∧
        t.Cleared ∧ t.bytes = s.bytes ++ str := by
  induction str with
  | nil => exact fun s valid cleared _ => ⟨s, rfl, valid, cleared, by simp⟩
  | cons byte str ih =>
    intro s valid cleared fits
    simp only [List.length_cons] at fits
    obtain ⟨t, pushed, kept, clean, content⟩ := parserPush_spec grants valid cleared byte (str ++ rest) (by omega)
    obtain ⟨last, looped, lastValid, lastCleared, whole⟩ := ih t kept clean
      (by rw [content]; simp only [List.length_append, List.length_singleton]; omega)
    refine ⟨last, ?_, lastValid, lastCleared, by rw [whole, content]; simp⟩
    simp only [List.cons_append, List.length_cons, parserPushes, parserNew_cons, pushed, looped]

/-- A collecting loop takes the bytes in front of the first one it stops at. -/
theorem parserCollect_span (grants : supply.Grants) {more : UInt8 → Bool} (line tail : List UInt8)
    (inLine : ∀ byte ∈ line, more byte = true) (ends : more (parserNew tail).ch = false) :
    ∀ (s : Vstr) fuel, s.Valid → s.Cleared → s.bytes.length + line.length ≤ vstrMaxLargeSize → line.length < fuel →
      ∃ t : Vstr, parserCollect supply more fuel s (parserNew (line ++ tail)) = .ok (t, parserNew tail) ∧ t.Valid ∧
        t.Cleared ∧ t.bytes = s.bytes ++ line := by
  induction line with
  | nil =>
    intro s fuel valid cleared _ enough
    obtain ⟨less, rfl⟩ := Nat.exists_eq_add_of_lt enough
    exact ⟨s, by simp [parserCollect, whileFuel, ends], valid, cleared, by simp⟩
  | cons byte line ih =>
    intro s fuel valid cleared fits enough
    obtain ⟨less, rfl⟩ := Nat.exists_eq_add_of_lt enough
    simp only [List.length_cons] at fits
    obtain ⟨t, pushed, kept, clean, content⟩ := parserPush_spec grants valid cleared byte (line ++ tail) (by omega)
    obtain ⟨last, looped, lastValid, lastCleared, whole⟩ :=
      ih (fun other member => inLine other (by simp [member])) t ((byte :: line).length + less) kept clean
        (by rw [content]; simp only [List.length_append, List.length_singleton]; omega)
        (by simp only [List.length_cons]; omega)
    refine ⟨last, ?_, lastValid, lastCleared, by rw [whole, content]; simp⟩
    simp only [parserCollect, List.cons_append, parserNew_cons, whileFuel, inLine byte (by simp), ↓reduceIte, pushed]
    exact looped

/-- A fresh string takes a whole text. -/
theorem parserCollect_fresh (grants : supply.Grants) {more : UInt8 → Bool} (line tail : List UInt8) (inLine : ∀ byte ∈ line, more byte = true)
    (ends : more (parserNew tail).ch = false) (fits : line.length ≤ vstrMaxLargeSize) :
    ∃ s : Vstr, s.Valid ∧ s.bytes = line ∧ ∀ fuel, line.length < fuel →
      parserCollect supply more fuel vstrNew (parserNew (line ++ tail)) = .ok (s, parserNew tail) := by
  obtain ⟨s, read, valid, _, content⟩ := parserCollect_span grants line tail inLine ends vstrNew (line.length + 1) vstrNew_valid
    vstrNew_cleared (by simpa using fits) (Nat.lt_succ_self _)
  exact ⟨s, valid, by simpa using content, fun fuel enough => (parserCollect_mono _ _ _).ok_le read enough⟩

/-- A line that fits is collected without asking the allocator. -/
theorem parserCollect_roomy (supply other : Supply) {more : UInt8 → Bool} (line tail : List UInt8) (inLine : ∀ byte ∈ line, more byte = true)
    (ends : more (parserNew tail).ch = false) :
    ∀ fuel (s : Vstr), s.Roomy line.length →
      parserCollect supply more fuel s (parserNew (line ++ tail)) = parserCollect other more fuel s (parserNew (line ++ tail)) := by
  induction line with
  | nil =>
    intro fuel s _
    cases fuel <;> simp [parserCollect, whileFuel, ends]
  | cons byte line ih =>
    intro fuel s roomy
    cases fuel with
    | zero => rfl
    | succ fuel =>
      obtain ⟨same, room⟩ := vstrPushChar_roomy roomy (supply.mem (line ++ tail).length 1) (other.mem (line ++ tail).length 1) byte
      have rest := ih (fun byte member => inLine byte (by simp [member])) fuel _ room
      simp only [parserCollect, List.cons_append, parserNew_cons, whileFuel, inLine byte (by simp), ↓reduceIte, parserPush,
        parserReadChar_mk, ← same]
      exact rest

/-- So a short text is collected under any allocator. -/
theorem parserCollect_short (supply : Supply) {more : UInt8 → Bool} (line tail : List UInt8) (inLine : ∀ byte ∈ line, more byte = true)
    (ends : more (parserNew tail).ch = false) (small : line.length ≤ vstrMaxSmallSize) :
    ∃ s : Vstr, s.Valid ∧ s.bytes = line ∧ ∀ fuel, line.length < fuel →
      parserCollect supply more fuel vstrNew (parserNew (line ++ tail)) = .ok (s, parserNew tail) := by
  obtain ⟨s, valid, content, read⟩ := parserCollect_fresh (Supply.granted_grants fun _ _ => 0) line tail inLine ends
    (Nat.le_trans small (by decide))
  refine ⟨s, valid, content, fun fuel enough => ?_⟩
  rw [parserCollect_roomy supply (.granted fun _ _ => 0) line tail inLine ends fuel vstrNew small, read fuel enough]

/-- The loops over a line take the bytes in front of the carriage return. -/
theorem parserCollect_spec (grants : supply.Grants) (line rest : List UInt8)
    (inLine : ∀ byte ∈ line, lineByte byte = true) :
    ∀ (s : Vstr) fuel, s.Valid → s.Cleared → s.bytes.length + line.length ≤ vstrMaxLargeSize → line.length < fuel →
      ∃ t : Vstr, parserCollect supply lineByte fuel s (parserNew (line ++ ascii '\r' :: rest)) =
          .ok (t, ⟨ascii '\r', rest⟩) ∧ t.Valid ∧ t.Cleared ∧ t.bytes = s.bytes ++ line :=
  parserCollect_span grants line (ascii '\r' :: rest) inLine (show lineByte (ascii '\r') = false by decide)

theorem parserFinish_crlf (obj : Object) (rest : List UInt8) :
    parserFinish obj (parserNew (crlf ++ rest)) = (obj, parserNew rest) := by
  simp [parserFinish, crlf, expectPeekByte, peekByte, parserReadChar_mk]

/-- A line of `+` or `-` is read up to its end. -/
theorem parseLine_spec (grants : supply.Grants) {line : List UInt8} (inLine : ∀ byte ∈ line, lineByte byte = true)
    (short : line.length ≤ vstrMaxLargeSize) (type : UInt8) (rest : List UInt8) {s : Vstr} (valid : s.Valid)
    (cleared : s.Cleared) (empty : s.bytes = []) (enough : line.length < fuel) :
    ∃ t : Vstr, parseLine supply fuel s ⟨type, line ++ crlf ++ rest⟩ = .ok (t, ⟨ascii '\n', rest⟩) ∧ t.Valid ∧
      t.bytes = line := by
  obtain ⟨t, collected, kept, _, content⟩ := parserCollect_spec grants line (ascii '\n' :: rest) inLine s fuel valid
    cleared (by rw [empty, List.length_nil]; omega) enough
  rw [empty, List.nil_append] at content
  have newline : expectPeekByte ⟨ascii '\r', ascii '\n' :: rest⟩ (ascii '\n') = some ⟨ascii '\n', rest⟩ := by
    simp [expectPeekByte, peekByte, parserReadChar_mk]
  refine ⟨t, ?_, kept, content⟩
  simp [parseLine, parserReadChar_mk, crlf, collected, newline]

theorem parseSimpleString_spec (grants : supply.Grants) {line : List UInt8} (inLine : ∀ byte ∈ line, lineByte byte = true)
    (short : line.length ≤ vstrMaxLargeSize) (type : UInt8) (rest : List UInt8) (enough : line.length < fuel) :
    ∃ t : Vstr, parseSimpleString supply fuel ⟨type, line ++ crlf ++ rest⟩ = .ok (t, ⟨ascii '\n', rest⟩) ∧ t.Valid ∧
      t.bytes = line := by
  obtain ⟨empty, created, valid, cleared, content⟩ :=
    vstrNewLen_spec (grants (line ++ crlf ++ rest).length 0) (show 5 ≤ vstrMaxLargeSize by decide)
  obtain ⟨t, read, kept, same⟩ := parseLine_spec grants inLine short type rest valid cleared content enough
  exact ⟨t, by simp only [parseSimpleString, created, ok_bind, read], kept, same⟩

end Reading

/-- Whatever follows the text, `parse_object` reads it as such an object and stops
behind it. -/
def Reads (env : Env) (supply : Supply) (text : List UInt8) (P : Object → Prop) : Prop :=
  ∀ rest, ∃ fuel obj, parseObject env supply fuel (parserNew (text ++ rest)) = .ok (obj, parserNew rest) ∧ P obj

theorem Reads.imp (reads : Reads env supply text P) (weaker : ∀ obj, P obj → Q obj) : Reads env supply text Q := by
  intro rest
  obtain ⟨fuel, obj, parsed, holds⟩ := reads rest
  exact ⟨fuel, obj, parsed, weaker obj holds⟩

/-- A tree of Int, Bool, String and Array nodes. -/
inductive Value where
  | int (num : Int64)
  | bool (boolean : Bool)
  | string (bytes : List UInt8)
  | array (elems : List Value)

mutual

/-- The bytes of a tree on the wire, nodes in pre-order. -/
def Value.wire : Value → List UInt8
  | .int num => intTypeByte :: signedDecimal num.toInt ++ crlf
  | .bool boolean => booleanTypeByte :: (if boolean then ascii 't' else ascii 'f') :: crlf
  | .string bytes => bulkString bytes
  | .array elems => arrayTypeByte :: decimal elems.length ++ crlf ++ Value.wires elems

def Value.wires : List Value → List UInt8
  | [] => []
  | elem :: elems => elem.wire ++ Value.wires elems

end

mutual

/-- The builder calls for a tree, nodes in pre-order. -/
def builderAddValue (mem : Mem) (b : Builder) : Value → Except Halt (Int × Builder)
  | .int num => builderAddInt mem b num
  | .bool boolean => .ok (builderAddBoolean mem b (if boolean then 1 else 0))
  | .string bytes => builderAddString mem b bytes
  | .array elems => do
    let (res, b) ← builderAddArray mem b elems.length
    if res = -1 then return (-1, b)
    builderAddValues mem b elems

def builderAddValues (mem : Mem) (b : Builder) : List Value → Except Halt (Int × Builder)
  | [] => .ok (0, b)
  | elem :: elems => do
    let (res, b) ← builderAddValue mem b elem
    if res = -1 then return (-1, b)
    builderAddValues mem b elems

end

mutual

/-- The object holds exactly this tree. -/
def Value.Is : Value → Object → Prop
  | .int num, .int other => other = num
  | .bool boolean, .bool other => decide (other ≠ 0) = boolean
  | .string bytes, .string s => s.Valid ∧ s.bytes = bytes
  | .array elems, .array vec => vec.Valid ∧ Value.AllAre elems vec.elems
  | _, _ => False

def Value.AllAre : List Value → List Object → Prop
  | [], [] => True
  | elem :: elems, obj :: objs => elem.Is obj ∧ Value.AllAre elems objs
  | _, _ => False

end

mutual

/-- The tree with every Int as `strtold` reads its numeral. -/
def Value.reread (env : Env) : Value → Value
  | .int num => .int (env.strtold (signedDecimal num.toInt))
  | .bool boolean => .bool boolean
  | .string bytes => .string bytes
  | .array elems => .array (Value.rereads env elems)

def Value.rereads (env : Env) : List Value → List Value
  | [] => []
  | elem :: elems => elem.reread env :: Value.rereads env elems

end

mutual

theorem Value.reread_eq (exact_ : ∀ num : Int64, env.strtold (signedDecimal num.toInt) = num) :
    ∀ v : Value, v.reread env = v
  | .int num => by simp [Value.reread, exact_]
  | .bool _ => rfl
  | .string _ => rfl
  | .array elems => by simp [Value.reread, Value.rereads_eq exact_ elems]

theorem Value.rereads_eq (exact_ : ∀ num : Int64, env.strtold (signedDecimal num.toInt) = num) :
    ∀ elems : List Value, Value.rereads env elems = elems
  | [] => rfl
  | elem :: elems => by simp [Value.rereads, Value.reread_eq exact_ elem, Value.rereads_eq exact_ elems]

end

section Encoding

variable {mem : Mem}

theorem Value.length_le_wires (elems : List Value) : elems.length ≤ (Value.wires elems).length := by
  induction elems with
  | nil => simp
  | cons elem elems ih =>
    have positive : 0 < elem.wire.length := by
      cases elem <;> simp [Value.wire, bulkString]
    simp only [Value.wires, List.length_cons, List.length_append]
    omega

mutual

/-- The builder functions append the wire form of the tree. -/
theorem builderAddValue_spec (grants : mem.Grants) : ∀ (v : Value) (b : Builder), b.Valid → Fits b v.wire.length →
    ∃ after, builderAddValue mem b v = .ok (0, after) ∧ Appended b v.wire after
  | .int num, b, valid, fits => by
    obtain ⟨after, added, appended⟩ := builderAddInt_spec grants valid num
      (fits.le (by simp [Value.wire, crlf]))
    exact ⟨after, by simpa [builderAddValue] using added, appended⟩
  | .bool boolean, b, valid, fits => by
    obtain ⟨after, added, appended⟩ := builderAddBoolean_spec grants valid (if boolean then 1 else 0)
      (fits.le (by simp [Value.wire, crlf]))
    refine ⟨after, by simp [builderAddValue, added], ?_⟩
    cases boolean <;> exact appended
  | .string bytes, b, valid, fits => by
    obtain ⟨after, added, appended⟩ := builderAddString_spec grants valid bytes fits
    exact ⟨after, by simpa [builderAddValue] using added, appended⟩
  | .array elems, b, valid, fits => by
    simp only [Value.wire, List.length_append] at fits
    have few := Value.length_le_wires elems
    have bound : elems.length < sizeMod := by
      unfold Fits vstrMaxLargeSize at fits
      unfold sizeMod
      omega
    obtain ⟨middle, headed, first⟩ := builderAddArray_spec grants valid bound (fits.le (by simp [crlf]))
    obtain ⟨after, added, rest⟩ := builderAddValues_spec grants elems middle first.valid
      (fits.next first (by rw [List.length_append]))
    exact ⟨after, by simp [builderAddValue, headed, added], first.trans rest⟩

theorem builderAddValues_spec (grants : mem.Grants) : ∀ (elems : List Value) (b : Builder), b.Valid →
    Fits b (Value.wires elems).length →
    ∃ after, builderAddValues mem b elems = .ok (0, after) ∧ Appended b (Value.wires elems) after
  | [], b, valid, _ => ⟨b, rfl, .refl valid⟩
  | elem :: elems, b, valid, fits => by
    simp only [Value.wires, List.length_append] at fits
    obtain ⟨middle, one, first⟩ := builderAddValue_spec grants elem b valid (fits.le (by omega))
    obtain ⟨after, more, rest⟩ := builderAddValues_spec grants elems middle first.valid (fits.next first rfl)
    exact ⟨after, by simp [builderAddValues, one, more], first.trans rest⟩

end

end Encoding

section Decoding

variable {env : Env} {supply : Supply}

/-- The minus sign and the digits are ordinary line bytes. -/
theorem signedDecimal_inLine (i : Int) : ∀ byte ∈ signedDecimal i, lineByte byte = true := by
  intro byte member
  rcases signedDecimal_bytes member with digit | sign
  · have other : byte ≠ ascii '\r' ∧ byte ≠ 0 := by
      constructor <;>
      · intro same
        rw [same] at digit
        exact absurd digit (by decide)
    simp [lineByte, other]
  · rw [sign]
    decide

theorem parseObject_int (env : Env) (grants : supply.Grants) (num : Int64) (rest : List UInt8) :
    ∃ fuel, parseObject env supply fuel (parserNew ((Value.int num).wire ++ rest)) =
      .ok (.int (env.strtold (signedDecimal num.toInt)), parserNew rest) := by
  have short := signedDecimal_length_le (natAbs_toInt_lt num)
  have inLine := signedDecimal_inLine num.toInt
  obtain ⟨t, collected, valid, cleared, content⟩ :=
    parserCollect_spec grants (signedDecimal num.toInt) (ascii '\n' :: rest) inLine vstrNew 22 vstrNew_valid
      vstrNew_cleared (by simp [vstrMaxLargeSize]; omega) (by omega)
  rw [vstrNew_bytes, List.nil_append] at content
  have text : untilNul (vstrData t) = signedDecimal num.toInt := by
    rw [cleared.untilNul_data valid, content]
    intro byte member
    have more := inLine byte (content ▸ member)
    intro zero
    rw [zero] at more
    exact absurd more (by decide)
  have ended := parserFinish_crlf (.int (env.strtold (signedDecimal num.toInt))) rest
  refine ⟨23, ?_⟩
  have type : wireType intTypeByte = some .int := by decide
  simp only [Value.wire, List.cons_append, List.append_assoc, parserNew_cons, parseObject, type, parseInteger,
    parserReadChar_mk, crlf, List.nil_append] at ended ⊢
  simp [collected, text, ended]

theorem parseObject_bool (env : Env) (supply : Supply) (boolean : Bool) (rest : List UInt8) :
    ∃ fuel, parseObject env supply fuel (parserNew ((Value.bool boolean).wire ++ rest)) =
      .ok (.bool (if boolean then 1 else 0), parserNew rest) := by
  refine ⟨1, ?_⟩
  have type : wireType booleanTypeByte = some .bool := by decide
  have letters : ascii 'f' ≠ ascii 't' := by decide
  cases boolean <;>
    simp [Value.wire, parseObject, type, parseBoolean, parserReadChar_mk, crlf, expectPeekByte, peekByte, letters]

/-- The bytes of a string that can be sent fit one, with their terminator. -/
theorem bulkString_fits (fits : (bulkString bytes).length ≤ vstrMaxLargeSize) :
    bytes.length + 1 ≤ vstrMaxLargeSize ∧ bytes.length + 1 < sizeMod := by
  have positive := decimal_length_pos bytes.length
  simp only [bulkString, crlf, List.length_append, List.length_cons, List.length_nil] at fits
  unfold vstrMaxLargeSize at fits ⊢
  unfold sizeMod
  omega

theorem parseObject_string (env : Env) (grants : supply.Grants) (bytes : List UInt8)
    (fits : (bulkString bytes).length ≤ vstrMaxLargeSize) (rest : List UInt8) :
    ∃ fuel s, parseObject env supply fuel (parserNew (bulkString bytes ++ rest)) = .ok (.string s, parserNew rest) ∧
      s.Valid ∧ s.Cleared ∧ s.bytes = bytes := by
  obtain ⟨total, bound⟩ := bulkString_fits fits
  obtain ⟨empty, created, valid, cleared, content⟩ :=
    vstrNewLen_spec (grants (parserNew (bytes ++ (crlf ++ rest))).rest.length 0) total
  obtain ⟨s, pushed, kept, clean, whole⟩ := parserPushes_spec grants bytes (crlf ++ rest) empty valid cleared
    (by rw [content]; simp only [List.length_nil]; omega)
  rw [content, List.nil_append] at whole
  refine ⟨(decimal bytes.length).length + 2, s, ?_, kept, clean, whole⟩
  have type : wireType stringTypeByte = some .string := by decide
  have header := parseHeader_decimal (n := bytes.length) (by omega) stringTypeByte (bytes ++ (crlf ++ rest))
    (Nat.lt_succ_self _)
  simp only [List.append_assoc] at header
  simp only [bulkString, List.cons_append, List.append_assoc, parserNew_cons, parseObject, type, parseBulk, header,
    ok_bind, parserReadChar_mk, parseString, Nat.mod_eq_of_lt bound, created, pushed, pure_eq_ok, parserFinish_crlf]

mutual

/-- Whatever follows the wire form of a tree, `parse_object` reads the tree and
stops in front of it. -/
theorem Value.reads (env : Env) (grants : supply.Grants) :
    ∀ v : Value, v.wire.length ≤ vstrMaxLargeSize → Reads env supply v.wire (v.reread env).Is
  | .int num, _, rest => by
    obtain ⟨fuel, parsed⟩ := parseObject_int env grants num rest
    exact ⟨fuel, _, parsed, by simp [Value.reread, Value.Is]⟩
  | .bool boolean, _, rest => by
    obtain ⟨fuel, parsed⟩ := parseObject_bool env supply boolean rest
    exact ⟨fuel, _, parsed, by cases boolean <;> simp [Value.reread, Value.Is]⟩
  | .string bytes, fits, rest => by
    obtain ⟨fuel, s, parsed, valid, _, content⟩ := parseObject_string env grants bytes fits rest
    exact ⟨fuel, _, parsed, by simp [Value.reread, Value.Is, valid, content]⟩
  | .array elems, fits, rest => by
    have few := Value.length_le_wires elems
    simp only [Value.wire, List.length_append] at fits
    have bound : elems.length < sizeMod := by
      unfold vstrMaxLargeSize at fits
      unfold sizeMod
      omega
    have start := grants (decimal elems.length ++ crlf ++ Value.wires elems ++ rest).length 0
    obtain ⟨address, opened⟩ := Option.isSome_iff_exists.mp start.1
    obtain ⟨fuel, vec, objs, parsed, valid, same, all⟩ := parseElems_wires env grants elems (by omega) rest
      (fun i => (supply.mem (decimal elems.length ++ crlf ++ Value.wires elems ++ rest).length i).realloc)
      (fun i => (grants _ i).2) (vecNew address) (vecNew_valid address)
    obtain ⟨large, enough⟩ : ∃ large, large = fuel + (decimal elems.length).length + 1 := ⟨_, rfl⟩
    refine ⟨large + 1, .array vec, ?_, by simpa [Value.reread, Value.Is, valid, same] using all⟩
    have type : wireType arrayTypeByte = some .array := by decide
    have header := parseHeader_decimal bound arrayTypeByte (Value.wires elems ++ rest)
      (show _ < large by omega)
    have more := (parseElems_mono _ _ _ _).ok_le parsed (show fuel ≤ large by omega)
    simp only [List.append_assoc] at header opened more
    simp only [Value.wire, List.cons_append, List.append_assoc, parserNew_cons, parseObject, type, parseArray, header,
      ok_bind, parserReadChar_mk, opened, more, pure_eq_ok]

theorem parseElems_wires (env : Env) (grants : supply.Grants) :
    ∀ elems : List Value, (Value.wires elems).length ≤ vstrMaxLargeSize → ∀ rest (realloc : Nat → Option Nat),
      (∀ i, (realloc i).isSome) → ∀ vec : Vec Object, vec.Valid → ∃ fuel after objs,
      parseElems (parseObject env supply fuel) realloc elems.length vec (parserNew (Value.wires elems ++ rest)) =
        .ok (after, parserNew rest) ∧ after.Valid ∧ after.elems = vec.elems ++ objs ∧
        Value.AllAre (Value.rereads env elems) objs
  | [], _, rest, _, _, vec, valid => ⟨0, vec, [], rfl, valid, by simp, by simp [Value.rereads, Value.AllAre]⟩
  | elem :: elems, fits, rest, realloc, granted, vec, valid => by
    simp only [Value.wires, List.length_append] at fits
    obtain ⟨one, obj, parsed, is⟩ := Value.reads env grants elem (by omega) (Value.wires elems ++ rest)
    obtain ⟨pushed, stored, pushedValid, content⟩ := vecPush_spec valid (fun _ => granted elems.length) obj
    obtain ⟨two, after, objs, looped, kept, whole, all⟩ := parseElems_wires env grants elems (by omega) rest realloc
      granted pushed pushedValid
    have first := (parseObject_mono _).ok_le parsed (Nat.le_add_right one two)
    have second := (parseElems_mono _ _ _ _).ok_le looped (Nat.le_add_left two one)
    refine ⟨one + two, after, obj :: objs, ?_, kept, by rw [whole, content]; simp, ⟨is, all⟩⟩
    simp only [Value.wires, List.length_cons, List.append_assoc, parseElems, first, ok_bind, stored, second]

end

/-- Where `strtold` is exact the tree itself comes back. -/
theorem parseObject_wire (grants : supply.Grants)
    (exact_ : ∀ num : Int64, env.strtold (signedDecimal num.toInt) = num) (v : Value)
    (fits : v.wire.length ≤ vstrMaxLargeSize) : Reads env supply v.wire v.Is := by
  have reads := v.reads env grants fits
  rwa [v.reread_eq exact_] at reads

/-- Encode with the builder functions, decode with `parse_object`: the tree comes
back, and the parser stands at the first byte behind it. -/
theorem parseObject_builderAddValue {mem : Mem} (builds : mem.Grants) (grants : supply.Grants)
    (exact_ : ∀ num : Int64, env.strtold (signedDecimal num.toInt) = num) {v : Value}
    (fits : v.wire.length ≤ vstrMaxLargeSize) :
    ∃ b, builderAddValue mem builderNew v = .ok (0, b) ∧ ∀ rest, ∃ fuel obj,
      parseObject env supply fuel (parserNew (b.bytes ++ rest)) = .ok (obj, parserNew rest) ∧ v.Is obj := by
  obtain ⟨b, added, appended⟩ := builderAddValue_spec builds v builderNew vstrNew_valid
    (by simpa [Fits, builderNew] using fits)
  have content : b.bytes = v.wire := by simpa [builderNew] using appended.bytes
  refine ⟨b, added, ?_⟩
  rw [content]
  exact parseObject_wire grants exact_ v fits

end Decoding

theorem parseObject_builderAddValue_nested :
    ∃ b, builderAddValue (.granted 1) builderNew
        (.array [.int (-9223372036854775808), .array [], .array [.string (cstr "a\r\n"), .bool true]]) = .ok (0, b) ∧
      ∀ rest, ∃ fuel obj,
        parseObject .sample (.granted fun unread _ => unread) fuel (parserNew (b.bytes ++ rest)) =
          .ok (obj, parserNew rest) ∧
        (Value.array [.int (-9223372036854775808), .array [], .array [.string (cstr "a\r\n"), .bool true]]).Is obj :=
  parseObject_builderAddValue (Mem.granted_grants 1) (Supply.granted_grants _)
    (fun num => by simp [Env.sample, signedValue_signedDecimal]) (by decide)

end LexiDB
