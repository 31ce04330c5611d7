import LexiDB.Frames
import LexiDB.LineParser
import LexiDB.ParserTermination

/-! What `parse_line` makes of every line. -/

namespace LexiDB

open Lib

section Lines

open LineParser

def behindBlanks (text : List UInt8) : List UInt8 := text.dropWhile isBlank

/-- An argument starts with a letter, a quote, a digit, or a minus sign and a digit. -/
def argumentStarts : List UInt8 → Bool
  | [] => false
  | ch :: rest => isLetter ch || ch = ascii '"' || isDigit ch || (ch = ascii '-' && isDigit (rest.headD 0))

/-- What is left of a text behind the next quote without a backslash, or NUL. -/
def behindQuote : List UInt8 → List UInt8
  | [] => []
  | [_] => []
  | ch :: next :: rest =>
    if ch = ascii '"' || ch = 0 then next :: rest
    else if ch = ascii '\\' && (escaped next).isSome then behindQuote rest
    else behindQuote (next :: rest)

/-- What is left of a text from the quote or NUL that ends a string of it. -/
def atQuote : List UInt8 → List UInt8
  | [] => []
  | [ch] => if bulkByte ch then [] else [ch]
  | ch :: next :: rest =>
    if ch = ascii '"' || ch = 0 then ch :: next :: rest
    else if ch = ascii '\\' && (escaped next).isSome then atQuote rest
    else atQuote (next :: rest)

/-- The string in front of it. -/
def quotedBytes : List UInt8 → List UInt8
  | [] => []
  | [ch] => if bulkByte ch then [ch] else []
  | ch :: next :: rest =>
    if ch = ascii '"' || ch = 0 then []
    else if ch = ascii '\\' && (escaped next).isSome then (escaped next).toList ++ quotedBytes rest
    else ch :: quotedBytes (next :: rest)

/-- What is left of a text behind the argument it starts with. -/
def behindArgument : List UInt8 → List UInt8
  | [] => []
  | ch :: rest =>
    if isLetter ch then (ch :: rest).dropWhile wordByte
    else if ch = ascii '"' then behindQuote rest
    else if ch = ascii '-' then rest.dropWhile isDigit
    else (ch :: rest).dropWhile isDigit

/-- The text holds at least `count` arguments. -/
def argumentsFrom : Nat → List UInt8 → Bool
  | 0, _ => true
  | count + 1, text => argumentStarts (behindBlanks text) && argumentsFrom count (behindArgument (behindBlanks text))

/-- The type the first word of a line stands for. -/
def lineType (line : List UInt8) : Cmdt :=
  match lookups.find? fun l => l.1 = (behindBlanks line).takeWhile wordByte with
  | some l => l.2
  | none => .illegal

/-- Behind its first word the line holds the arguments of the command. -/
def ArgumentsTyped (line : List UInt8) : Prop :=
  argumentsFrom (lineType line).arity ((behindBlanks line).dropWhile wordByte) = true

instance (line : List UInt8) : Decidable (ArgumentsTyped line) := inferInstanceAs (Decidable (_ = true))

end Lines

section Texts

open LineParser

variable {supply : Supply}

/-- A dropping loop stops where the text does. -/
theorem ch_dropWhile {wanted : UInt8 → Bool} (stops : wanted 0 = false) (text : List UInt8) :
    wanted (parserNew (text.dropWhile wanted)).ch = false := by
  induction text with
  | nil => exact stops
  | cons byte text ih =>
    by_cases here : wanted byte = true
    · rw [List.dropWhile_cons_of_pos here]
      exact ih
    · rw [List.dropWhile_cons_of_neg here]
      simpa using here

theorem parserSkip_text {skipped : UInt8 → Bool} (stops : skipped 0 = false) (text : List UInt8) (enough : text.length < fuel) :
    parserSkip skipped fuel (parserNew text) = .ok (parserNew (text.dropWhile skipped)) := by
  have shorter := (List.takeWhile_sublist (p := skipped) (l := text)).length_le
  have skipped := parserSkip_span (text.takeWhile skipped) (text.dropWhile skipped)
    (fun byte member => List.mem_takeWhile_imp member) (ch_dropWhile stops text) (Nat.lt_of_le_of_lt shorter enough)
  rwa [List.takeWhile_append_dropWhile] at skipped

/-- A collecting loop takes the front of the text. -/
theorem parserCollect_text (grants : supply.Grants) {more : UInt8 → Bool} (stops : more 0 = false) (text : List UInt8)
    (short : (text.takeWhile more).length ≤ vstrMaxLargeSize) :
    ∃ s : Vstr, s.Valid ∧ s.bytes = text.takeWhile more ∧ ∀ fuel, text.length < fuel →
      parserCollect supply more fuel vstrNew (parserNew text) = .ok (s, parserNew (text.dropWhile more)) := by
  have shorter := (List.takeWhile_sublist (p := more) (l := text)).length_le
  obtain ⟨s, valid, content, reads⟩ := parserCollect_fresh grants (text.takeWhile more) (text.dropWhile more)
    (fun byte member => List.mem_takeWhile_imp member) (ch_dropWhile stops text) short
  rw [List.takeWhile_append_dropWhile] at reads
  exact ⟨s, valid, content, fun fuel enough => reads fuel (Nat.lt_of_le_of_lt shorter enough)⟩

/-- A short front is taken whatever the allocator answers. -/
theorem parserCollect_small (supply : Supply) {more : UInt8 → Bool} (stops : more 0 = false) (text : List UInt8)
    (small : (text.takeWhile more).length ≤ vstrMaxSmallSize) :
    ∃ s : Vstr, s.Valid ∧ s.bytes = text.takeWhile more ∧ ∀ fuel, text.length < fuel →
      parserCollect supply more fuel vstrNew (parserNew text) = .ok (s, parserNew (text.dropWhile more)) := by
  have shorter := (List.takeWhile_sublist (p := more) (l := text)).length_le
  obtain ⟨s, valid, content, reads⟩ := parserCollect_short supply (text.takeWhile more) (text.dropWhile more)
    (fun byte member => List.mem_takeWhile_imp member) (ch_dropWhile stops text) small
  rw [List.takeWhile_append_dropWhile] at reads
  exact ⟨s, valid, content, fun fuel enough => reads fuel (Nat.lt_of_le_of_lt shorter enough)⟩

/-- What the loop of `parse_number` leaves of the digits it passed. -/
def accumulated (digits : List UInt8) : Int64 := digits.foldl (fun num byte => num * 10 + Int64.ofNat (digitValue byte)) 0

theorem parseDigits_text (text : List UInt8) (enough : text.length < fuel) :
    parseDigits fuel (parserNew text) = .ok (accumulated (text.takeWhile isDigit), parserNew (text.dropWhile isDigit)) := by
  have each : ∀ (text : List UInt8) (acc : Int64) (fuel : Nat), text.length < fuel →
      whileFuel (fun state : Int64 × Parser => isDigit state.2.ch)
        (fun state => (state.1 * 10 + Int64.ofNat (digitValue state.2.ch), parserReadChar state.2)) fuel (acc, parserNew text) =
          .ok ((text.takeWhile isDigit).foldl (fun num byte => num * 10 + Int64.ofNat (digitValue byte)) acc,
            parserNew (text.dropWhile isDigit)) := by
    intro text
    induction text with
    | nil =>
      intro acc fuel enough
      obtain ⟨less, rfl⟩ := Nat.exists_eq_add_of_lt enough
      have ends : isDigit 0 = false := by decide
      simp [whileFuel, parserNew, parserReadChar, ends]
    | cons byte text ih =>
      intro acc fuel enough
      obtain ⟨less, rfl⟩ : ∃ less, fuel = less + 1 := ⟨fuel - 1, by omega⟩
      by_cases digit : isDigit byte = true
      · have later := ih (acc * 10 + Int64.ofNat (digitValue byte)) less (by simp only [List.length_cons] at enough; omega)
        rw [List.dropWhile_cons_of_pos digit, List.takeWhile_cons_of_pos digit, List.foldl_cons, ← later]
        simp [whileFuel, digit, parserReadChar_mk]
      · rw [List.dropWhile_cons_of_neg digit, List.takeWhile_cons_of_neg digit]
        simp [whileFuel, digit]
  exact each text 0 fuel enough

/-- A round pushes one character, unless the string is full, and passes one, or two behind a backslash. -/
private theorem bulkRound_spec (grants : supply.Grants) {s : Vstr} (valid : s.Valid) (ch : UInt8) (rest : List UInt8) :
    (bulkRound supply (s, ⟨ch, rest⟩)).1.Valid ∧
      (bulkRound supply (s, ⟨ch, rest⟩)).1.bytes = (s.bytes ++ if ch = ascii '\\' && (escaped (rest.headD 0)).isSome then
        (escaped (rest.headD 0)).toList else [ch]).take vstrMaxLargeSize ∧
      (bulkRound supply (s, ⟨ch, rest⟩)).2 =
        parserNew (if ch = ascii '\\' && (escaped (rest.headD 0)).isSome then rest.tail else rest) := by
  have pushed := vstrPushChar_take (grants rest.length 1) valid
  have twice : parserReadChar (parserNew rest) = parserNew rest.tail := by
    cases rest <;> rfl
  by_cases backslash : ch = ascii '\\'
  · cases found : escaped (rest.headD 0) with
    | some c =>
      simp only [bulkRound, backslash, ↓reduceIte, peekByte, found, parserReadChar_mk, twice]
      exact ⟨(pushed c).1, (pushed c).2, rfl⟩
    | none =>
      simp only [bulkRound, backslash, ↓reduceIte, peekByte, found, parserReadChar_mk]
      exact ⟨(pushed _).1, (pushed _).2, rfl⟩
  · simp only [bulkRound, if_neg backslash, parserReadChar_mk]
    exact ⟨(pushed ch).1, by simpa [backslash] using (pushed ch).2, by simp [backslash]⟩

private theorem take_take_append (limit : Nat) (front back : List UInt8) :
    (front.take limit ++ back).take limit = (front ++ back).take limit := by
  rw [List.take_append, List.take_append, List.take_take, Nat.min_self, List.length_take]
  congr 2
  omega

/-- From this text the loop of `parse_bulk_string` makes one string of another, and stops in front of what is left. -/
def BulkLoops (supply : Supply) (text : List UInt8) (s t : Vstr) (left : List UInt8) : Prop :=
  ∀ fuel, text.length < fuel →
    whileFuel (fun state : Vstr × Parser => bulkByte state.2.ch) (bulkRound supply) fuel (s, parserNew text) = .ok (t, parserNew left)

private theorem BulkLoops.stays {text : List UInt8} (stops : bulkByte (parserNew text).ch = false) (s : Vstr) :
    BulkLoops supply text s s text := by
  intro fuel enough
  obtain ⟨less, rfl⟩ := Nat.exists_eq_add_of_lt enough
  simp [whileFuel, stops]

/-- A round on a text that goes on, and the rounds behind it. -/
private theorem BulkLoops.goes {rest next left : List UInt8} {s t : Vstr} (more : bulkByte ch = true) (fewer : next.length ≤ rest.length)
    (passed : (bulkRound supply (s, ⟨ch, rest⟩)).2 = parserNew next)
    (later : BulkLoops supply next (bulkRound supply (s, ⟨ch, rest⟩)).1 t left) : BulkLoops supply (ch :: rest) s t left := by
  intro fuel enough
  obtain ⟨less, rfl⟩ : ∃ less, fuel = less + 1 := ⟨fuel - 1, by omega⟩
  simp only [List.length_cons] at enough
  simp only [parserNew_cons, whileFuel, more, ↓reduceIte]
  rw [← later less (by omega), ← passed]

/-- The loop over a quoted string reads it, as far as a vstr can hold it, and ends on its quote or where the text does. -/
theorem bulkRound_text (grants : supply.Grants) (text : List UInt8) :
    ∀ s : Vstr, s.Valid → ∃ t : Vstr, t.Valid ∧ t.bytes = (s.bytes ++ quotedBytes text).take vstrMaxLargeSize ∧
      BulkLoops supply text s t (atQuote text) := by
  have same : ∀ s : Vstr, s.Valid → s.bytes = (s.bytes ++ []).take vstrMaxLargeSize := by
    intro s valid
    rw [List.append_nil, List.take_of_length_le valid.length_le]
  induction text using behindQuote.induct with
  | case1 => exact fun s valid => ⟨s, valid, same s valid, .stays (by decide) s⟩
  | case2 ch =>
    intro s valid
    by_cases more : bulkByte ch = true
    · obtain ⟨kept, content, passed⟩ := bulkRound_spec grants valid ch []
      have plain : (escaped (([] : List UInt8).headD 0)).isSome = false := by decide
      rw [plain, Bool.and_false, if_neg Bool.false_ne_true] at content passed
      rw [quotedBytes, if_pos more, atQuote, if_pos more]
      exact ⟨_, kept, content, .goes more (Nat.le_refl _) passed (.stays (by decide) _)⟩
    · rw [quotedBytes, if_neg more, atQuote, if_neg more]
      exact ⟨s, valid, same s valid, .stays (Bool.not_eq_true _ ▸ more) s⟩
  | case3 ch next rest ends =>
    intro s valid
    have stops : bulkByte ch = false := by
      revert ends
      simp only [bulkByte, Bool.or_eq_true, decide_eq_true_eq]
      rintro (rfl | rfl) <;> decide
    rw [atQuote, if_pos ends, quotedBytes, if_pos ends]
    exact ⟨s, valid, same s valid, .stays (show bulkByte (parserNew (ch :: next :: rest)).ch = false from stops) s⟩
  | case4 ch next rest goesOn escape ih =>
    intro s valid
    have more : bulkByte ch = true := by simpa [bulkByte] using goesOn
    obtain ⟨kept, content, passed⟩ := bulkRound_spec grants valid ch (next :: rest)
    rw [List.headD_cons, if_pos escape] at content
    rw [List.headD_cons, if_pos escape, List.tail_cons] at passed
    obtain ⟨t, last, whole, loops⟩ := ih _ kept
    rw [atQuote, if_neg goesOn, if_pos escape, quotedBytes, if_neg goesOn, if_pos escape]
    exact ⟨t, last, by rw [whole, content, take_take_append, List.append_assoc], .goes more (by simp) passed loops⟩
  | case5 ch next rest goesOn plain ih =>
    intro s valid
    have more : bulkByte ch = true := by simpa [bulkByte] using goesOn
    obtain ⟨kept, content, passed⟩ := bulkRound_spec grants valid ch (next :: rest)
    rw [List.headD_cons, if_neg plain] at content passed
    obtain ⟨t, last, whole, loops⟩ := ih _ kept
    rw [atQuote, if_neg goesOn, if_neg plain, quotedBytes, if_neg goesOn, if_neg plain]
    exact ⟨t, last, by rw [whole, content, take_take_append, List.append_assoc, List.singleton_append],
      .goes more (Nat.le_refl _) passed loops⟩

/-- The closing quote is passed over. -/
theorem atQuote_tail (text : List UInt8) : (atQuote text).tail = behindQuote text := by
  induction text using behindQuote.induct with
  | case1 => rfl
  | case2 ch =>
    unfold atQuote
    split <;> rfl
  | case3 ch next rest ends => rw [atQuote, behindQuote, if_pos ends, if_pos ends, List.tail_cons]
  | case4 ch next rest goesOn escape ih =>
    rw [atQuote, behindQuote, if_neg goesOn, if_neg goesOn, if_pos escape, if_pos escape, ih]
  | case5 ch next rest goesOn plain ih =>
    rw [atQuote, behindQuote, if_neg goesOn, if_neg goesOn, if_neg plain, if_neg plain, ih]

theorem parserReadChar_parserNew (text : List UInt8) : parserReadChar (parserNew text) = parserNew text.tail := by
  cases text <;> rfl

/-- No character of a text is read twice. -/
theorem quotedBytes_length (text : List UInt8) : (quotedBytes text).length ≤ text.length := by
  induction text using behindQuote.induct with
  | case1 => simp [quotedBytes]
  | case2 ch =>
    unfold quotedBytes
    split <;> simp
  | case3 ch next rest ends => simp [quotedBytes, ends]
  | case4 ch next rest goesOn escape ih =>
    have one : (escaped next).toList.length ≤ 1 := by
      cases escaped next <;> simp
    rw [quotedBytes, if_neg goesOn, if_pos escape]
    simp only [List.length_append, List.length_cons]
    omega
  | case5 ch next rest goesOn plain ih =>
    rw [quotedBytes, if_neg goesOn, if_neg plain]
    simpa using ih

theorem behindQuote_length (text : List UInt8) : (behindQuote text).length ≤ text.length := by
  induction text using behindQuote.induct with
  | case1 => simp [behindQuote]
  | case2 => simp [behindQuote]
  | case3 ch next rest ends => simp [behindQuote, ends]
  | case4 ch next rest goesOn escape ih =>
    rw [behindQuote, if_neg goesOn, if_pos escape]
    simp only [List.length_cons]
    omega
  | case5 ch next rest goesOn plain ih =>
    rw [behindQuote, if_neg goesOn, if_neg plain]
    simp only [List.length_cons] at ih ⊢
    omega

/-- What the line parser makes of an argument: no more than was typed. -/
def Object.Typed (limit : Nat) : Object → Prop
  | .null | .int _ => True
  | .string s => s.Valid ∧ s.bytes.length ≤ limit
  | _ => False

/-- One object is read from the first argument, Null where there is none. -/
structure ReadsArgument (supply : Supply) (text : List UInt8) (obj : Object) (rest : List UInt8) : Prop where
  typed : obj.Typed text.length
  shorter : rest.length ≤ text.length
  given : argumentStarts (behindBlanks text) = true → obj ≠ .null ∧ rest = behindArgument (behindBlanks text)
  missing : argumentStarts (behindBlanks text) = false → obj = .null
  reads : ∀ fuel, text.length + 1 < fuel → LineParser.parseObject supply fuel (parserNew text) = .ok (obj, parserNew rest)

section Kinds

variable {text rest : List UInt8} {ch : UInt8}

private theorem start_length (start : behindBlanks text = ch :: rest) : rest.length + 1 ≤ text.length := by
  have fewer : (behindBlanks text).length ≤ text.length := (List.dropWhile_sublist isBlank).length_le
  rwa [start, List.length_cons] at fewer

private theorem skips_to (start : behindBlanks text = ch :: rest) (enough : text.length + 1 < fuel) :
    skipWhitespace fuel (parserNew text) = .ok ⟨ch, rest⟩ := by
  have skipped : skipWhitespace fuel (parserNew text) = .ok (parserNew (behindBlanks text)) :=
    parserSkip_text (by decide) text (by omega)
  rw [skipped, start]
  rfl

theorem readsArgument_word {s : Vstr} (valid : s.Valid) (content : s.bytes = (ch :: rest).takeWhile wordByte)
    (collects : ∀ fuel, (ch :: rest).length < fuel → parserCollect supply wordByte fuel vstrNew (parserNew (ch :: rest)) =
      .ok (s, parserNew ((ch :: rest).dropWhile wordByte))) (start : behindBlanks text = ch :: rest) (letter : isLetter ch = true) :
    ReadsArgument supply text (.string s) ((ch :: rest).dropWhile wordByte) := by
  have fewer := start_length start
  have taken := (List.takeWhile_sublist (p := wordByte) (l := ch :: rest)).length_le
  have left := (List.dropWhile_sublist (p := wordByte) (l := ch :: rest)).length_le
  rw [← content, List.length_cons] at taken
  rw [List.length_cons] at left
  refine ⟨⟨valid, by omega⟩, Nat.le_trans left fewer, fun _ => ⟨by simp, ?_⟩, ?_, fun fuel enough => ?_⟩
  · simp [start, behindArgument, letter]
  · simp [start, argumentStarts, letter]
  · have read := collects fuel (by simp only [List.length_cons]; omega)
    rw [parserNew_cons] at read
    simp only [LineParser.parseObject, skips_to start enough, ok_bind, letter, ↓reduceIte, LineParser.parseString, read]
    rfl

theorem readsArgument_quoted {s : Vstr} (valid : s.Valid) (content : s.bytes = (quotedBytes rest).take vstrMaxLargeSize)
    (loops : BulkLoops supply rest vstrNew s (atQuote rest)) (start : behindBlanks text = ascii '"' :: rest) :
    ReadsArgument supply text (.string s) (behindQuote rest) := by
  have fewer := start_length start
  have other : isLetter (ascii '"') = false := by decide
  have left := behindQuote_length rest
  have size : s.bytes.length ≤ rest.length := by
    rw [content]
    exact Nat.le_trans (List.take_sublist _ _).length_le (quotedBytes_length rest)
  refine ⟨⟨valid, by omega⟩, by omega, fun _ => ⟨by simp, ?_⟩, ?_, fun fuel enough => ?_⟩
  · simp [start, behindArgument, other]
  · simp [start, argumentStarts]
  · have loop := loops fuel (by omega)
    simp only [LineParser.parseObject, skips_to start enough, ok_bind, other, Bool.false_eq_true, ↓reduceIte, isStartOfBulk,
      decide_true, parseBulkString, parserReadChar_mk, loop, parserReadChar_parserNew, atQuote_tail]
    rfl

/-- What `parse_number` makes of the text it stands on. -/
def numberRead : List UInt8 → Int64
  | [] => 0
  | ch :: rest =>
    if ch = ascii '-' then -accumulated (rest.takeWhile isDigit) else accumulated ((ch :: rest).takeWhile isDigit)

theorem readsArgument_number (start : behindBlanks text = ch :: rest) (other : isLetter ch = false) (plain : ch ≠ ascii '"')
    (number : isStartOfNumber ⟨ch, rest⟩ = true) : ∃ behind, ReadsArgument supply text (.int (numberRead (ch :: rest))) behind := by
  have fewer := start_length start
  have starts : argumentStarts (behindBlanks text) = true := by
    simp only [isStartOfNumber, peekByte] at number
    simp only [start, argumentStarts, Bool.or_assoc, number, Bool.or_true]
  have reads : ∀ fuel, text.length + 1 < fuel → LineParser.parseObject supply fuel (parserNew text) =
      (parseNumber fuel ⟨ch, rest⟩ >>= fun result => .ok (.int result.1, result.2)) := by
    intro fuel enough
    simp only [LineParser.parseObject, skips_to start enough, ok_bind, other, Bool.false_eq_true, ↓reduceIte, isStartOfBulk, plain,
      decide_false, number]
    rfl
  by_cases minus : ch = ascii '-'
  · subst minus
    have left := (List.dropWhile_sublist (p := isDigit) (l := rest)).length_le
    refine ⟨rest.dropWhile isDigit, trivial, by omega, fun _ => ⟨by simp, ?_⟩, ?_, fun fuel enough => ?_⟩
    · simp [start, behindArgument, other, plain]
    · simp [starts]
    · rw [reads fuel enough]
      simp [parseNumber, isNegativeInt, parserReadChar_mk, parseDigits_text rest (show rest.length < fuel by omega), numberRead]
  · have left := (List.dropWhile_sublist (p := isDigit) (l := ch :: rest)).length_le
    rw [List.length_cons] at left
    refine ⟨(ch :: rest).dropWhile isDigit, trivial, by omega, fun _ => ⟨by simp, ?_⟩, ?_, fun fuel enough => ?_⟩
    · simp [start, behindArgument, other, plain, minus]
    · simp [starts]
    · have read := parseDigits_text (ch :: rest) (show (ch :: rest).length < fuel by simp only [List.length_cons]; omega)
      rw [parserNew_cons] at read
      rw [reads fuel enough]
      simp [parseNumber, isNegativeInt, minus, read, numberRead]

private theorem readsArgument_none (start : behindBlanks text = ch :: rest) (other : isLetter ch = false) (plain : ch ≠ ascii '"')
    (number : isStartOfNumber ⟨ch, rest⟩ = false) : ∃ obj rest, ReadsArgument supply text obj rest := by
  have fewer := start_length start
  have starts : argumentStarts (behindBlanks text) = false := by
    simp only [isStartOfNumber, peekByte] at number
    simp only [start, argumentStarts, Bool.or_assoc, number, other, plain, decide_false, Bool.or_false]
  refine ⟨.null, ch :: rest, trivial, fewer, ?_, fun _ => rfl, fun fuel enough => ?_⟩
  · simp [starts]
  · simp only [LineParser.parseObject, skips_to start enough, ok_bind, other, Bool.false_eq_true, ↓reduceIte, isStartOfBulk, plain,
      decide_false, number]
    rfl

end Kinds

theorem readsArgument_exists (grants : supply.Grants) (text : List UInt8) (short : text.length ≤ vstrMaxLargeSize) :
    ∃ obj rest, ReadsArgument supply text obj rest := by
  cases start : behindBlanks text with
  | nil =>
    refine ⟨.null, [], trivial, Nat.zero_le _, by simp [start, argumentStarts], fun _ => rfl, fun fuel enough => ?_⟩
    have skipped : skipWhitespace fuel (parserNew text) = .ok (parserNew (behindBlanks text)) :=
      parserSkip_text (by decide) text (by omega)
    simp only [LineParser.parseObject, skipped, start, ok_bind]
    rfl
  | cons ch rest =>
    cases letter : isLetter ch with
    | true =>
      have taken := (List.takeWhile_sublist (p := wordByte) (l := ch :: rest)).length_le
      have fewer := start_length start
      obtain ⟨s, valid, content, collects⟩ := parserCollect_text grants (show wordByte 0 = false by decide) (ch :: rest)
        (Nat.le_trans taken (Nat.le_trans fewer short))
      exact ⟨_, _, readsArgument_word valid content collects start letter⟩
    | false =>
      by_cases quote : ch = ascii '"'
      · obtain ⟨s, valid, content, loops⟩ := bulkRound_text grants rest vstrNew vstrNew_valid
        exact ⟨_, _, readsArgument_quoted valid content loops (quote ▸ start)⟩
      · cases number : isStartOfNumber ⟨ch, rest⟩ with
        | true => exact ⟨_, readsArgument_number start letter quote number⟩
        | false => exact readsArgument_none start letter quote number

theorem ReadsArgument.null_iff {text rest : List UInt8} {obj : Object} (reads : ReadsArgument supply text obj rest) :
    argumentStarts (behindBlanks text) = true ↔ obj ≠ .null := by
  constructor
  · exact fun starts => (reads.given starts).1
  · intro some_
    by_contra none_
    exact some_ (reads.missing (by simpa using none_))

theorem behindBlanks_twice (text : List UInt8) : behindBlanks (behindBlanks text) = behindBlanks text := by
  induction text with
  | nil => rfl
  | cons byte text ih =>
    by_cases blank : isBlank byte = true
    · simpa [behindBlanks, blank] using ih
    · simp [behindBlanks, blank]

theorem argumentsFrom_blanks (count : Nat) (text : List UInt8) :
    argumentsFrom count (behindBlanks text) = argumentsFrom count text := by
  cases count with
  | zero => rfl
  | succ count => simp only [argumentsFrom, behindBlanks_twice]

end Texts

section Commands

open LineParser

variable {supply : Supply} {line : List UInt8}

/-- Where the arguments of a line are read from. -/
def behindWord (line : List UInt8) : List UInt8 := behindBlanks ((behindBlanks line).dropWhile wordByte)

theorem behindWord_length (line : List UInt8) : (behindWord line).length ≤ line.length :=
  ((List.dropWhile_sublist _).trans ((List.dropWhile_sublist _).trans (List.dropWhile_sublist _))).length_le

theorem argumentsTyped_iff : ArgumentsTyped line ↔ argumentsFrom (lineType line).arity (behindWord line) = true := by
  rw [ArgumentsTyped, behindWord, argumentsFrom_blanks]

theorem lookupCmd_line {s : Vstr} (valid : s.Valid) (content : s.bytes = (behindBlanks line).takeWhile wordByte) :
    LineParser.lookupCmd s = lineType line := by
  rw [LineParser.lookupCmd, valid.isEntry, content]
  rfl

private theorem cliParseLine_word (collected : ∃ s : Vstr, s.Valid ∧ s.bytes = (behindBlanks line).takeWhile wordByte ∧
      ∀ fuel, (behindBlanks line).length < fuel → parserCollect supply wordByte fuel vstrNew (parserNew (behindBlanks line)) =
        .ok (s, parserNew ((behindBlanks line).dropWhile wordByte))) (enough : line.length + 1 < fuel) :
    cliParseLine supply fuel line = parseArguments supply fuel (lineType line) (parserNew (behindWord line)) := by
  have fewer : (behindBlanks line).length ≤ line.length := (List.dropWhile_sublist _).length_le
  have blanks : skipWhitespace fuel (parserNew line) = .ok (parserNew (behindBlanks line)) :=
    parserSkip_text (by decide) line (by omega)
  obtain ⟨s, valid, content, reads⟩ := collected
  have left := (List.dropWhile_sublist (p := wordByte) (l := behindBlanks line)).length_le
  have skipped : skipWhitespace fuel (parserNew ((behindBlanks line).dropWhile wordByte)) = .ok (parserNew (behindWord line)) :=
    parserSkip_text (by decide) _ (by omega)
  simp only [cliParseLine, LineParser.parseCmd, LineParser.parseCmdType, blanks, ok_bind, reads fuel (by omega), pure_eq_ok,
    lookupCmd_line valid content, skipped]

/-- The first word decides the branch, and what is behind it the arguments. -/
theorem cliParseLine_eq (grants : supply.Grants) (short : line.length ≤ vstrMaxLargeSize) (enough : line.length + 1 < fuel) :
    cliParseLine supply fuel line = parseArguments supply fuel (lineType line) (parserNew (behindWord line)) := by
  have fewer : (behindBlanks line).length ≤ line.length := (List.dropWhile_sublist _).length_le
  exact cliParseLine_word (parserCollect_text grants (by decide) _ (Nat.le_trans (List.takeWhile_sublist _).length_le (Nat.le_trans fewer short)))
    enough

/-- Behind a short word this does not depend on the allocator. -/
theorem cliParseLine_small (small : ((behindBlanks line).takeWhile wordByte).length ≤ vstrMaxSmallSize) (enough : line.length + 1 < fuel) :
    cliParseLine supply fuel line = parseArguments supply fuel (lineType line) (parserNew (behindWord line)) :=
  cliParseLine_word (parserCollect_small supply (by decide) _ small) enough

/-- `parse_line` returns for every line: this command, of these objects. -/
structure ParsesLine (supply : Supply) (line : List UInt8) (cmd : Cmd) : Prop where
  parses : ∀ fuel, line.length + 1 < fuel → cliParseLine supply fuel line = .ok cmd
  typed : ∀ obj ∈ cmd.args, obj.Typed line.length
  called : cmd.type ≠ .illegal → cmd.type ≠ .help → ∃ call, cliCall cmd = some call ∧ call.type = cmd.type ∧ call.args = cmd.args
  given : cmd.type ≠ .illegal → (ArgumentsTyped line ↔ Object.null ∉ cmd.args)

theorem Object.Typed.mono {obj : Object} (typed : obj.Typed limit) (more : limit ≤ other) : obj.Typed other := by
  cases obj with
  | string s => exact ⟨typed.1, Nat.le_trans typed.2 more⟩
  | null | int => trivial
  | _ => cases typed

section Cases

variable {type : Cmdt} {cmd : Cmd} (grants : supply.Grants) (short : line.length ≤ vstrMaxLargeSize)
include grants short

private theorem parsesLine_illegal (first : lineType line = type)
    (branch : ∀ fuel p, parseArguments supply fuel type p = .ok .illegal) : ∃ cmd, ParsesLine supply line cmd := by
  refine ⟨.illegal, fun fuel enough => ?_, by simp [Cmd.args], by simp [Cmd.type], by simp [Cmd.type]⟩
  rw [cliParseLine_eq grants short enough, first, branch]

private theorem parsesLine_bare (first : lineType line = type) (arity : type.arity = 0) (args : cmd.args = [])
    (called : cmd.type = .help ∨ ∃ call, cliCall cmd = some call ∧ call.type = cmd.type ∧ call.args = cmd.args)
    (branch : ∀ fuel p, parseArguments supply fuel type p = .ok cmd) : ∃ cmd, ParsesLine supply line cmd := by
  refine ⟨cmd, fun fuel enough => ?_, by simp [args], fun _ other => called.resolve_left other, fun _ => ?_⟩
  · rw [cliParseLine_eq grants short enough, first, branch]
  · simp [argumentsTyped_iff, first, arity, argumentsFrom, args]

private theorem parsesLine_one (first : lineType line = type) (arity : type.arity = 1) (make : Object → Cmd)
    (args : ∀ obj, (make obj).args = [obj])
    (called : ∀ obj, ∃ call, cliCall (make obj) = some call ∧ call.type = (make obj).type ∧ call.args = (make obj).args)
    (branch : ∀ fuel p, parseArguments supply fuel type p = LineParser.parseOne supply fuel make p) :
    ∃ cmd, ParsesLine supply line cmd := by
  have fewer := behindWord_length line
  obtain ⟨obj, rest, reads⟩ := readsArgument_exists grants (behindWord line) (Nat.le_trans fewer short)
  refine ⟨make obj, fun fuel enough => ?_, ?_, fun _ _ => called obj, fun _ => ?_⟩
  · rw [cliParseLine_eq grants short enough, first, branch]
    simp [LineParser.parseOne, reads.reads fuel (by omega)]
  · simpa [args] using reads.typed.mono fewer
  · simp only [argumentsTyped_iff, first, arity, argumentsFrom, Bool.and_true, reads.null_iff, args, List.mem_singleton]
    exact not_congr eq_comm

private theorem parsesLine_set (first : lineType line = .set) : ∃ cmd, ParsesLine supply line cmd := by
  have fewer := behindWord_length line
  obtain ⟨key, middle, one⟩ := readsArgument_exists grants (behindWord line) (Nat.le_trans fewer short)
  have left := one.shorter
  obtain ⟨value, rest, two⟩ := readsArgument_exists grants middle (Nat.le_trans left (Nat.le_trans fewer short))
  refine ⟨.set key value, fun fuel enough => ?_, ?_, fun _ _ => ⟨_, rfl, rfl, rfl⟩, fun _ => ?_⟩
  · rw [cliParseLine_eq grants short enough, first]
    simp [parseArguments, one.reads fuel (by omega), two.reads fuel (by omega)]
  · simpa [Cmd.args] using ⟨one.typed.mono fewer, two.typed.mono (Nat.le_trans left fewer)⟩
  · simp only [argumentsTyped_iff, first, Cmdt.arity, argumentsFrom, Bool.and_true, Bool.and_eq_true, Cmd.args, List.mem_cons,
      List.not_mem_nil, or_false, not_or]
    constructor
    · rintro ⟨starts, later⟩
      obtain ⟨some_, behind⟩ := one.given starts
      rw [← behind, two.null_iff] at later
      exact ⟨some_.symm, Ne.symm later⟩
    · rintro ⟨some_, later⟩
      have starts := one.null_iff.mpr (Ne.symm some_)
      refine ⟨starts, ?_⟩
      rw [← (one.given starts).2, two.null_iff]
      exact Ne.symm later

/-- SELECT is the one command that looks at its argument. -/
private theorem parsesLine_select (first : lineType line = .select) : ∃ cmd, ParsesLine supply line cmd := by
  have fewer := behindWord_length line
  obtain ⟨obj, rest, reads⟩ := readsArgument_exists grants (behindWord line) (Nat.le_trans fewer short)
  cases obj with
  | int num =>
    have starts := reads.null_iff.mpr (by simp)
    have passed : Int64.ofNat num.toUInt64.toNat = num := by
      apply Int64.toBitVec_inj.mp
      simp [Int64.ofNat]
    refine ⟨.select (.int num), fun fuel enough => ?_, ?_, fun _ _ => ⟨_, rfl, rfl, ?_⟩, fun _ => ?_⟩
    · rw [cliParseLine_eq grants short enough, first]
      simp [parseArguments, reads.reads fuel (by omega)]
    · simp [Cmd.args, Object.Typed]
    · simp [Call.args, Cmd.args, Object.num, passed]
    · simp [argumentsTyped_iff, first, Cmdt.arity, argumentsFrom, starts, Cmd.args]
  | _ =>
    refine ⟨.illegal, fun fuel enough => ?_, by simp [Cmd.args], by simp [Cmd.type], by simp [Cmd.type]⟩
    rw [cliParseLine_eq grants short enough, first]
    simp [parseArguments, reads.reads fuel (by omega)]

end Cases

theorem parsesLine_exists (grants : supply.Grants) (short : line.length ≤ vstrMaxLargeSize) :
    ∃ cmd, ParsesLine supply line cmd := by
  cases first : lineType line with
  | set => exact parsesLine_set grants short first
  | select => exact parsesLine_select grants short first
  | help => exact parsesLine_bare grants short first rfl rfl (.inl rfl) fun _ _ => rfl
  | ping | infoc | keys | pop | deque =>
    exact parsesLine_bare grants short first rfl rfl (.inr ⟨_, rfl, rfl, rfl⟩) fun _ _ => rfl
  | get => exact parsesLine_one grants short first rfl .get (fun _ => rfl) (fun _ => ⟨_, rfl, rfl, rfl⟩) fun _ _ => rfl
  | del => exact parsesLine_one grants short first rfl .del (fun _ => rfl) (fun _ => ⟨_, rfl, rfl, rfl⟩) fun _ _ => rfl
  | push => exact parsesLine_one grants short first rfl .push (fun _ => rfl) (fun _ => ⟨_, rfl, rfl, rfl⟩) fun _ _ => rfl
  | enque => exact parsesLine_one grants short first rfl .enque (fun _ => rfl) (fun _ => ⟨_, rfl, rfl, rfl⟩) fun _ _ => rfl
  | zset => exact parsesLine_one grants short first rfl .zset (fun _ => rfl) (fun _ => ⟨_, rfl, rfl, rfl⟩) fun _ _ => rfl
  | zhas => exact parsesLine_one grants short first rfl .zhas (fun _ => rfl) (fun _ => ⟨_, rfl, rfl, rfl⟩) fun _ _ => rfl
  | zdel => exact parsesLine_one grants short first rfl .zdel (fun _ => rfl) (fun _ => ⟨_, rfl, rfl, rfl⟩) fun _ _ => rfl
  | illegal | okc | auth => exact parsesLine_illegal grants short first fun _ _ => rfl

end Commands

end LexiDB
