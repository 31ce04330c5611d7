import LexiDB.LineReading

/-! What `parse_line` makes of a number that was typed. -/

namespace LexiDB

open Lib

section Overflow

def InInt64 (n : Int) : Prop := -2 ^ 63 ≤ n ∧ n < 2 ^ 63

instance (n : Int) : Decidable (InInt64 n) := inferInstanceAs (Decidable (_ ∧ _))

/-- No round of the loop of `parse_number` leaves the range of its accumulator. -/
def Accumulates (digits : List UInt8) : Prop :=
  ∀ front byte behind, digits = front ++ byte :: behind →
    InInt64 ((accumulated front).toInt * 10) ∧ InInt64 ((accumulated front).toInt * 10 + digitValue byte)

/-- Nor does the sign. -/
def NoOverflow (negative : Bool) (digits : List UInt8) : Prop :=
  Accumulates digits ∧ (negative = true → InInt64 (-(accumulated digits).toInt))

theorem decimalValue_concat (front : List UInt8) (byte : UInt8) :
    decimalValue (front ++ [byte]) = decimalValue front * 10 + digitValue byte := by
  rw [decimalValue, List.foldl_append]
  rfl

theorem decimalValue_append_le (front behind : List UInt8) : decimalValue front ≤ decimalValue (front ++ behind) := by
  induction behind using List.reverseRecOn with
  | nil => rw [List.append_nil]
  | append_singleton behind byte ih =>
    rw [← List.append_assoc, decimalValue_concat]
    omega

theorem accumulated_eq (digits : List UInt8) : accumulated digits = Int64.ofNat (decimalValue digits) := by
  induction digits using List.reverseRecOn with
  | nil => rfl
  | append_singleton digits byte ih =>
    rw [decimalValue_concat, Int64.ofNat_add, Int64.ofNat_mul, ← ih, accumulated, List.foldl_append]
    rfl

theorem accumulated_toInt (fits : decimalValue digits < 2 ^ 63) : (accumulated digits).toInt = decimalValue digits := by
  rw [accumulated_eq, Int64.toInt_ofNat_of_lt fits]

theorem accumulates_iff (digits : List UInt8) : Accumulates digits ↔ decimalValue digits < 2 ^ 63 := by
  constructor
  · induction digits using List.reverseRecOn with
    | nil => exact fun _ => by decide
    | append_singleton front byte ih =>
      intro rounds
      have earlier : Accumulates front := by
        rintro start other behind rfl
        exact rounds start other (behind ++ [byte]) (by simp)
      have last := (rounds front byte [] rfl).2
      rw [accumulated_toInt (ih earlier)] at last
      rw [decimalValue_concat]
      have above := last.2
      omega
  · rintro fits front byte behind rfl
    -- what a round comes to is a front of the number, and no larger
    have round := decimalValue_append_le (front ++ [byte]) behind
    rw [decimalValue_concat, List.append_assoc, List.singleton_append] at round
    rw [accumulated_toInt (by omega)]
    unfold InInt64
    omega

theorem noOverflow_iff (negative : Bool) (digits : List UInt8) : NoOverflow negative digits ↔ decimalValue digits < 2 ^ 63 := by
  refine ⟨fun never => (accumulates_iff digits).mp never.1, fun fits => ⟨(accumulates_iff digits).mpr fits, fun _ => ?_⟩⟩
  rw [accumulated_toInt fits]
  unfold InInt64
  omega

end Overflow

section Lines

open LineParser

/-- A line of a command of one argument, and a number for it. -/
structure NumberLine where
  word : List UInt8
  type : Cmdt
  listed : (word, type) ∈ lookups
  one : type.arity = 1
  negative : Bool
  digits : List UInt8
  some_ : digits ≠ []
  all : ∀ byte ∈ digits, isDigit byte = true
  behind : List UInt8
  ends : behind = [] ∨ ∃ rest, behind = ascii ' ' :: rest

namespace NumberLine

variable (line : NumberLine) {supply : Supply}

def token : List UInt8 := if line.negative then ascii '-' :: line.digits else line.digits

def text : List UInt8 := line.word ++ ascii ' ' :: (line.token ++ line.behind)

/-- `parse_line` returns the number as it is written, or Illegal if no `int64_t` is. -/
def Exact (supply : Supply) : Prop :=
  ∃ cmd, (∀ fuel, line.text.length + 1 < fuel → cliParseLine supply fuel line.text = .ok cmd) ∧
    (InInt64 (signedValue line.token) → NoOverflow line.negative line.digits ∧ cmd.type = line.type ∧
      ∃ num, cmd.args = [.int num] ∧ num.toInt = signedValue line.token) ∧
    (¬InInt64 (signedValue line.token) → cmd.type = .illegal)

private theorem digit_plain {byte : UInt8} (digit : isDigit byte = true) :
    isLetter byte = false ∧ byte ≠ ascii '"' ∧ byte ≠ ascii '-' ∧ isBlank byte = false ∧ wordByte byte = true := by
  have every : ∀ n, n < 256 → isDigit (UInt8.ofNat n) = true → isLetter (UInt8.ofNat n) = false ∧ UInt8.ofNat n ≠ ascii '"' ∧
      UInt8.ofNat n ≠ ascii '-' ∧ isBlank (UInt8.ofNat n) = false ∧ wordByte (UInt8.ofNat n) = true := by
    decide +kernel
  simpa using every byte.toNat byte.toNat_lt (by simpa using digit)

/-- What a text of digits and anything behind a space leaves for its digits. -/
private theorem takeWhile_digits : (line.digits ++ line.behind).takeWhile isDigit = line.digits := by
  rw [List.takeWhile_append_of_pos line.all]
  obtain behind | ⟨rest, behind⟩ := line.ends
  · rw [behind, List.takeWhile_nil, List.append_nil]
  · rw [behind, List.takeWhile_cons_of_neg (by decide), List.append_nil]

/-- A token without a sign starts with a digit. -/
private theorem digits_cons : ∃ first rest, line.digits = first :: rest ∧ isDigit first = true := by
  obtain ⟨first, rest, digits⟩ := List.exists_cons_of_ne_nil line.some_
  exact ⟨first, rest, digits, line.all first (by rw [digits]; exact List.mem_cons_self ..)⟩

theorem signedValue_token : signedValue line.token = if line.negative then -(decimalValue line.digits : Int) else decimalValue line.digits := by
  obtain ⟨first, rest, digits, digit⟩ := line.digits_cons
  unfold token
  split
  · simp [signedValue]
  · simp [signedValue, digits, (digit_plain digit).2.2.1]

/-- What is behind the space is a number for `parse_object`, and `parse_number` reads
its digits. -/
private theorem token_starts : ∃ ch rest, line.token ++ line.behind = ch :: rest ∧ isStartOfNumber ⟨ch, rest⟩ = true ∧
    isLetter ch = false ∧ ch ≠ ascii '"' ∧ isBlank ch = false ∧
    numberRead (ch :: rest) = if line.negative then -accumulated line.digits else accumulated line.digits := by
  obtain ⟨first, rest, digits, digit⟩ := line.digits_cons
  obtain ⟨letter, quote, minus, blank, _⟩ := digit_plain digit
  have taken := line.takeWhile_digits
  rw [digits, List.cons_append] at taken
  unfold token
  split
  · refine ⟨ascii '-', first :: rest ++ line.behind, by rw [digits, List.cons_append], ?_, by decide, by decide, by decide, ?_⟩
    · simp [isStartOfNumber, peekByte, digit]
    · rw [numberRead, if_pos rfl, List.cons_append, taken, digits]
  · refine ⟨first, rest ++ line.behind, by rw [digits, List.cons_append], ?_, letter, quote, blank, ?_⟩
    · simp [isStartOfNumber, digit]
    · rw [numberRead, if_neg minus, taken, digits]

/-- The words of the table are short, and each is found at its own entry. -/
private theorem lookups_words : ∀ entry ∈ lookups, lookups.find? (fun l => l.1 = entry.1) = some entry ∧
    entry.1.length ≤ vstrMaxSmallSize ∧ entry.1.all wordByte = true ∧ isBlank (entry.1.headD (ascii ' ')) = false :=
  List.forall_iff_forall_mem.mp (by decide +kernel)

private theorem text_start : behindBlanks line.text = line.text := by
  obtain ⟨_, _, _, start⟩ := lookups_words _ line.listed
  unfold text
  cases word : line.word with
  | nil =>
    rw [word] at start
    exact absurd (show isBlank (ascii ' ') = false from start) (by decide)
  | cons first rest =>
    rw [word] at start
    exact List.dropWhile_cons_of_neg (by simpa using start)

private theorem text_word : line.text.takeWhile wordByte = line.word := by
  obtain ⟨_, _, all, _⟩ := lookups_words _ line.listed
  rw [text, List.takeWhile_append_of_pos (List.all_eq_true.mp all), List.takeWhile_cons_of_neg (by decide), List.append_nil]

private theorem text_type : lineType line.text = line.type := by
  simp only [lineType, text_start, text_word, (lookups_words _ line.listed).1]

private theorem text_behindWord : behindWord line.text = line.token ++ line.behind := by
  obtain ⟨_, _, all, _⟩ := lookups_words _ line.listed
  obtain ⟨ch, rest, token, _, _, _, blank, _⟩ := line.token_starts
  rw [behindWord, text_start, text, List.dropWhile_append_of_pos (List.all_eq_true.mp all), List.dropWhile_cons_of_neg (by decide),
    behindBlanks, List.dropWhile_cons_of_pos (by decide), token, List.dropWhile_cons_of_neg (by simp [blank])]

/-- A command of one argument keeps the number it is given. -/
private theorem parseArguments_number {type : Cmdt} {text rest : List UInt8} {num : Int64} (one : type.arity = 1)
    (reads : ReadsArgument supply text (.int num) rest) :
    ∃ cmd, cmd.type = type ∧ cmd.args = [.int num] ∧
      ∀ fuel, text.length + 1 < fuel → parseArguments supply fuel type (parserNew text) = .ok cmd := by
  have takes {type : Cmdt} (make : Object → Cmd) (types : (make (.int num)).type = type) (args : (make (.int num)).args = [.int num])
      (branch : ∀ fuel p, parseArguments supply fuel type p = LineParser.parseOne supply fuel make p) :
      ∃ cmd, cmd.type = type ∧ cmd.args = [.int num] ∧
        ∀ fuel, text.length + 1 < fuel → parseArguments supply fuel type (parserNew text) = .ok cmd := by
    refine ⟨make (.int num), types, args, fun fuel enough => ?_⟩
    simp [branch, LineParser.parseOne, reads.reads fuel enough]
  cases type with
  | get => exact takes .get rfl rfl fun _ _ => rfl
  | del => exact takes .del rfl rfl fun _ _ => rfl
  | push => exact takes .push rfl rfl fun _ _ => rfl
  | enque => exact takes .enque rfl rfl fun _ _ => rfl
  | zset => exact takes .zset rfl rfl fun _ _ => rfl
  | zhas => exact takes .zhas rfl rfl fun _ _ => rfl
  | zdel => exact takes .zdel rfl rfl fun _ _ => rfl
  | select =>
    refine ⟨.select (.int num), rfl, rfl, fun fuel enough => ?_⟩
    simp [parseArguments, reads.reads fuel enough]
  | _ => cases one

/-- The command of a line, whatever the allocator answers: the number is negated when
it is read. -/
theorem parsed (supply : Supply) : ∃ cmd, (∀ fuel, line.text.length + 1 < fuel → cliParseLine supply fuel line.text = .ok cmd) ∧
    cmd.type = line.type ∧ cmd.args = [.int (if line.negative then -accumulated line.digits else accumulated line.digits)] := by
  obtain ⟨ch, rest, token, number, letter, quote, blank, read⟩ := line.token_starts
  have start : behindBlanks (behindWord line.text) = ch :: rest := by
    rw [text_behindWord, token]
    exact List.dropWhile_cons_of_neg (by simp [blank])
  have short : ((behindBlanks line.text).takeWhile wordByte).length ≤ vstrMaxSmallSize := by
    rw [text_start, text_word]
    exact (lookups_words _ line.listed).2.1
  have fewer := behindWord_length line.text
  obtain ⟨behind, reads⟩ : ∃ behind, ReadsArgument supply (behindWord line.text) (.int (numberRead (ch :: rest))) behind :=
    readsArgument_number start letter quote number
  obtain ⟨cmd, type, args, parses⟩ := parseArguments_number line.one reads
  refine ⟨cmd, fun fuel enough => ?_, type, by rw [args, read]⟩
  rw [cliParseLine_small short enough, text_type, parses fuel (by omega)]

/-- No line of one argument that is a number is refused. -/
private theorem legal {cmd : Cmd} (type : cmd.type = line.type) : cmd.type ≠ .illegal := by
  intro illegal
  have one := line.one
  rw [← type, illegal] at one
  cases one

theorem Exact.fits (exact_ : line.Exact supply) : decimalValue line.digits < 2 ^ 63 := by
  obtain ⟨cmd, again, kept, refused⟩ := exact_
  obtain ⟨other, parses, type, _⟩ := line.parsed supply
  have enough : line.text.length + 1 < line.text.length + 2 := by omega
  obtain rfl : other = cmd := Except.ok.inj ((parses _ enough).symm.trans (again _ enough))
  by_cases inside : InInt64 (signedValue line.token)
  · exact (noOverflow_iff ..).mp (kept inside).1
  · exact absurd (refused inside) (line.legal type)

theorem exact_of_fits (supply : Supply) (fits : decimalValue line.digits < 2 ^ 63) : line.Exact supply := by
  obtain ⟨cmd, parses, type, args⟩ := line.parsed supply
  have inside : InInt64 (signedValue line.token) := by
    rw [signedValue_token]
    unfold InInt64
    split <;> omega
  refine ⟨cmd, parses, fun _ => ⟨(noOverflow_iff ..).mpr fits, type, _, args, ?_⟩, fun outside => absurd inside outside⟩
  rw [signedValue_token]
  split
  · rw [accumulated_eq, Int64.toInt_neg_ofNat_of_le (Nat.le_of_lt fits)]
  · exact accumulated_toInt fits

end NumberLine

/-- A number is read as it is written exactly if its digits alone are below 2^63:
no other is refused, and -2^63 overflows before its sign is applied. -/
theorem typedNumber_exact_iff (line : NumberLine) (supply : Supply) : line.Exact supply ↔ decimalValue line.digits < 2 ^ 63 :=
  ⟨fun exact_ => exact_.fits, line.exact_of_fits supply⟩

/-- The smallest number overflows on its way, and 2^64 + 7 is pushed as 7. -/
theorem typedNumber_exact_counterexample :
    (∃ line : NumberLine, line.text = cstr "get -9223372036854775808" ∧ InInt64 (signedValue line.token) ∧ ∀ supply, ¬line.Exact supply) ∧
      ∃ line : NumberLine, line.text = cstr "push 18446744073709551623" ∧ ¬InInt64 (signedValue line.token) ∧
        cliParseLine (.granted fun unread _ => unread) 30 line.text = .ok (.push (.int 7)) ∧ ∀ supply, ¬line.Exact supply := by
  constructor
  · refine ⟨⟨cstr "get", .get, by decide, rfl, true, cstr "9223372036854775808", by decide, List.all_eq_true.mp (by decide), [], .inl rfl⟩,
      by decide, by decide +kernel, fun supply exact_ => ?_⟩
    exact absurd exact_.fits (by decide +kernel)
  · refine ⟨⟨cstr "push", .push, by decide, rfl, false, cstr "18446744073709551623", by decide, List.all_eq_true.mp (by decide), [], .inl rfl⟩,
      by decide, by decide +kernel, by rfl, fun supply exact_ => ?_⟩
    exact absurd exact_.fits (by decide +kernel)

end Lines

end LexiDB
