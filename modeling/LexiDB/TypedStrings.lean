import LexiDB.LineReading

/-! Which strings can be typed between quotes. -/

namespace LexiDB

open Lib

section Escapes

open LineParser

/-- The letters that mean something else behind a backslash. -/
def escapeLetters : List UInt8 := [ascii 'n', ascii 'r', ascii 't']

/-- No backslash of the string runs into a letter, or into the quote behind the string. -/
structure Spelled (s : List UInt8) : Prop where
  letters : ∀ letter ∈ escapeLetters, ¬[ascii '\\', letter] <:+: s
  last : ¬[ascii '\\'] <:+ s

theorem spelled_nil : Spelled [] where
  letters _ _ inner := List.cons_ne_nil _ _ (List.infix_nil.mp inner)
  last ends := List.cons_ne_nil _ _ (List.suffix_nil.mp ends)

theorem spelled_cons {ch : UInt8} {s : List UInt8} :
    Spelled (ch :: s) ↔ (ch = ascii '\\' → ∃ next rest, s = next :: rest ∧ next ∉ escapeLetters) ∧ Spelled s := by
  constructor
  · rintro ⟨letters, last⟩
    refine ⟨?_, fun letter listed inner => letters letter listed (List.infix_cons_iff.mpr (.inr inner)),
      fun ends => last (List.suffix_cons_iff.mpr (.inr ends))⟩
    rintro rfl
    cases s with
    | nil => exact absurd (List.suffix_refl _) last
    | cons next rest =>
      refine ⟨next, rest, rfl, fun listed => letters next listed (List.infix_cons_iff.mpr (.inl ?_))⟩
      exact List.cons_prefix_cons.mpr ⟨rfl, List.cons_prefix_cons.mpr ⟨rfl, List.nil_prefix⟩⟩
  · rintro ⟨first, letters, last⟩
    constructor
    · intro letter listed inner
      rcases List.infix_cons_iff.mp inner with starts | inner
      · obtain ⟨backslash, behind⟩ := List.cons_prefix_cons.mp starts
        obtain ⟨next, rest, rfl, other⟩ := first backslash.symm
        exact other ((List.cons_prefix_cons.mp behind).1 ▸ listed)
      · exact letters letter listed inner
    · intro ends
      rcases List.suffix_cons_iff.mp ends with all | ends
      · injection all with backslash rest
        obtain ⟨next, rest, rfl, _⟩ := first backslash.symm
        cases rest
      · exact last ends

/-- What the escapes stand for is no letter and no NUL. -/
theorem escaped_some {next c : UInt8} (found : escaped next = some c) : c ≠ 0 ∧ c ≠ ascii '\\' ∧ c ∉ escapeLetters := by
  unfold escaped at found
  split at found
  · cases found
    decide
  · split at found
    · cases found
      decide
    · split at found
      · cases found
        decide
      · split at found
        · cases found
          decide
        · cases found

theorem escaped_none {next : UInt8} : escaped next = none ↔ next ∉ escapeLetters ∧ next ≠ ascii '"' := by
  unfold escaped escapeLetters
  simp only [List.mem_cons, List.not_mem_nil, or_false, not_or]
  split
  · simp [*]
  · split
    · simp [*]
    · split
      · simp [*]
      · split
        · simp [*]
        · simp [*]

end Escapes

section Range

open LineParser

/-- A text whose string ends on its last byte, a quote. -/
def Closed (text : List UInt8) : Prop := atQuote text = [ascii '"']

instance (text : List UInt8) : Decidable (Closed text) := inferInstanceAs (Decidable (_ = _))

/-- A string that goes on behind a backslash does not start with an escape letter. -/
private theorem Closed.head {next : UInt8} {rest : List UInt8} (closed : Closed (next :: rest)) (kept : escaped next = none) :
    ∃ first others, quotedBytes (next :: rest) = first :: others ∧ first ∉ escapeLetters := by
  obtain ⟨other, quote⟩ := escaped_none.mp kept
  unfold Closed at closed
  cases rest with
  | nil =>
    unfold atQuote at closed
    split at closed
    · cases closed
    · exact absurd (List.cons.inj closed).1 quote
  | cons second rest =>
    have goesOn : ¬(next = ascii '"' || next = 0) = true := by
      intro ends
      rw [atQuote, if_pos ends] at closed
      exact absurd (List.cons.inj closed).1 quote
    rw [quotedBytes, if_neg goesOn]
    split
    · rename_i escape
      obtain ⟨c, found⟩ := Option.isSome_iff_exists.mp (Bool.and_eq_true_iff.mp escape).2
      rw [found]
      exact ⟨c, _, rfl, (escaped_some found).2.2⟩
    · exact ⟨next, _, rfl, other⟩

/-- What is read up to a closing quote is spelled so and has no NUL. -/
theorem Closed.spelled {text : List UInt8} (closed : Closed text) : 0 ∉ quotedBytes text ∧ Spelled (quotedBytes text) := by
  induction text using behindQuote.induct with
  | case1 => exact ⟨List.not_mem_nil, spelled_nil⟩
  | case2 ch =>
    unfold Closed atQuote at closed
    split at closed
    · cases closed
    · rename_i ends
      rw [quotedBytes, if_neg ends]
      exact ⟨List.not_mem_nil, spelled_nil⟩
  | case3 ch next rest ends =>
    rw [quotedBytes, if_pos ends]
    exact ⟨List.not_mem_nil, spelled_nil⟩
  | case4 ch next rest goesOn escape ih =>
    rw [Closed, atQuote, if_neg goesOn, if_pos escape] at closed
    obtain ⟨free, spelled⟩ := ih closed
    obtain ⟨c, found⟩ := Option.isSome_iff_exists.mp (Bool.and_eq_true_iff.mp escape).2
    obtain ⟨some_, plain, _⟩ := escaped_some found
    rw [quotedBytes, if_neg goesOn, if_pos escape, found]
    exact ⟨List.not_mem_cons_of_ne_of_not_mem some_.symm free, spelled_cons.mpr ⟨fun same => absurd same plain, spelled⟩⟩
  | case5 ch next rest goesOn plain ih =>
    rw [Closed, atQuote, if_neg goesOn, if_neg plain] at closed
    obtain ⟨free, spelled⟩ := ih closed
    rw [quotedBytes, if_neg goesOn, if_neg plain]
    refine ⟨List.not_mem_cons_of_ne_of_not_mem ?_ free, spelled_cons.mpr ⟨?_, spelled⟩⟩
    · rintro rfl
      exact goesOn (by decide)
    · rintro rfl
      exact Closed.head closed (by simpa using plain)

/-- How a byte is typed between quotes. -/
def typedByte (ch : UInt8) : List UInt8 :=
  if ch = ascii '\n' then cstr "\\n"
  else if ch = ascii '\r' then cstr "\\r"
  else if ch = ascii '\t' then cstr "\\t"
  else if ch = ascii '"' then cstr "\\\""
  else [ch]

/-- A byte is typed as an escape or as itself. -/
theorem typedByte_cases (ch : UInt8) :
    (∃ letter, escaped letter = some ch ∧ typedByte ch = [ascii '\\', letter]) ∨ ch ≠ ascii '"' ∧ typedByte ch = [ch] := by
  unfold typedByte
  split
  · subst ch
    exact .inl ⟨ascii 'n', rfl, rfl⟩
  · split
    · subst ch
      exact .inl ⟨ascii 'r', rfl, rfl⟩
    · split
      · subst ch
        exact .inl ⟨ascii 't', rfl, rfl⟩
      · split
        · subst ch
          exact .inl ⟨ascii '"', rfl, rfl⟩
        · exact .inr ⟨‹_›, rfl⟩

/-- What is typed first for a string that does not start with an escape letter is none. -/
private theorem typed_head {ch : UInt8} (other : ch ∉ escapeLetters) (rest : List UInt8) :
    ∃ next behind, typedByte ch ++ rest = next :: behind ∧ escaped next = none := by
  rcases typedByte_cases ch with ⟨letter, _, typed⟩ | ⟨quote, typed⟩
  · exact ⟨ascii '\\', letter :: rest, by rw [typed]; rfl, by decide⟩
  · exact ⟨ch, rest, by rw [typed]; rfl, escaped_none.mpr ⟨other, quote⟩⟩

/-- A string that is spelled so is read back. -/
theorem typed_closed {s : List UInt8} (free : 0 ∉ s) (spelled : Spelled s) :
    Closed (s.flatMap typedByte ++ [ascii '"']) ∧ quotedBytes (s.flatMap typedByte ++ [ascii '"']) = s := by
  induction s with
  | nil => exact ⟨by decide, by decide⟩
  | cons ch s ih =>
    obtain ⟨first, later⟩ := spelled_cons.mp spelled
    have some_ : ch ≠ 0 := (List.ne_of_not_mem_cons free).symm
    obtain ⟨closed, read⟩ := ih (List.not_mem_of_not_mem_cons free) later
    rw [List.flatMap_cons, List.append_assoc]
    rcases typedByte_cases ch with ⟨letter, found, typed⟩ | ⟨quote, typed⟩
    · have goesOn : ¬(ascii '\\' = ascii '"' || ascii '\\' = 0) = true := by decide
      have escape : (ascii '\\' = ascii '\\' && (escaped letter).isSome) = true := by simp [found]
      rw [typed, Closed, List.cons_append, List.cons_append, List.nil_append, atQuote, if_neg goesOn, if_pos escape, quotedBytes,
        if_neg goesOn, if_pos escape, read, found]
      exact ⟨closed, rfl⟩
    · have goesOn : ¬(ch = ascii '"' || ch = 0) = true := by simpa using ⟨quote, some_⟩
      rw [typed, List.singleton_append]
      obtain ⟨next, behind, tail⟩ := List.exists_cons_of_ne_nil (List.append_ne_nil_of_right_ne_nil (s.flatMap typedByte)
        (List.cons_ne_nil (ascii '"') []))
      have plain : ¬(ch = ascii '\\' && (escaped next).isSome) = true := by
        intro escape
        obtain ⟨backslash, escapes⟩ := Bool.and_eq_true_iff.mp escape
        obtain ⟨second, rest, rfl, other⟩ := first (of_decide_eq_true backslash)
        rw [List.flatMap_cons, List.append_assoc] at tail
        obtain ⟨same, _, head, kept⟩ := typed_head other (rest.flatMap typedByte ++ [ascii '"'])
        rw [(List.cons.inj (tail.symm.trans head)).1, kept] at escapes
        cases escapes
      rw [tail] at closed read ⊢
      rw [Closed, atQuote, if_neg goesOn, if_neg plain, quotedBytes, if_neg goesOn, if_neg plain, read]
      exact ⟨closed, rfl⟩

end Range

section Literals

open LineParser

variable {supply : Supply}

/-- What `parse_bulk_string` has read when its loop stops. -/
def bulkChars (supply : Supply) (fuel : Nat) (p : Parser) : Except Halt (Vstr × Parser) :=
  whileFuel (fun state => bulkByte state.2.ch) (bulkRound supply) fuel (vstrNew, parserReadChar p)

/-- Then the character it stopped on is passed over. -/
theorem parseBulkString_eq (supply : Supply) (fuel : Nat) (p : Parser) :
    parseBulkString supply fuel p = bulkChars supply fuel p >>= fun state => .ok (state.1, parserReadChar state.2) := rfl

def quoted (body : List UInt8) : List UInt8 := ascii '"' :: (body ++ [ascii '"'])

def setLine (literal : List UInt8) : List UInt8 := cstr "set k " ++ literal

/-- The literal types the string: it is the value of a Set, and the loop over the literal
stops on its last byte, the closing quote. -/
def TypesString (supply : Supply) (literal s : List UInt8) : Prop :=
  ∃ (body : List UInt8) (key value : Vstr), literal = quoted body ∧ key.bytes = cstr "k" ∧ value.Valid ∧ value.bytes = s ∧
    ∀ fuel, (setLine literal).length + 1 < fuel →
      bulkChars supply fuel (parserNew literal) = .ok (value, ⟨ascii '"', []⟩) ∧
        cliParseLine supply fuel (setLine literal) = .ok (.set (.string key) (.string value))

/-- What every literal is read as. -/
theorem setLine_parses (grants : supply.Grants) (body : List UInt8) :
    ∃ key value : Vstr, key.bytes = cstr "k" ∧ value.Valid ∧
      value.bytes = (quotedBytes (body ++ [ascii '"'])).take vstrMaxLargeSize ∧
      ∀ fuel, (setLine (quoted body)).length + 1 < fuel →
        bulkChars supply fuel (parserNew (quoted body)) = .ok (value, parserNew (atQuote (body ++ [ascii '"']))) ∧
          cliParseLine supply fuel (setLine (quoted body)) = .ok (.set (.string key) (.string value)) := by
  obtain ⟨key, keyValid, keyContent, collects⟩ := parserCollect_small supply (show wordByte 0 = false by decide)
    (cstr "k " ++ quoted body) (show (cstr "k").length ≤ vstrMaxSmallSize by decide)
  obtain ⟨value, valid, content, loops⟩ := bulkRound_text grants (body ++ [ascii '"']) vstrNew vstrNew_valid
  have one : ReadsArgument supply (cstr "k " ++ quoted body) (.string key) (ascii ' ' :: quoted body) :=
    readsArgument_word keyValid keyContent collects rfl rfl
  have two : ReadsArgument supply (ascii ' ' :: quoted body) (.string value) (behindQuote (body ++ [ascii '"'])) :=
    readsArgument_quoted valid content loops rfl
  refine ⟨key, value, keyContent, valid, content, fun fuel enough => ?_⟩
  have length : (setLine (quoted body)).length = body.length + 8 := by simp [setLine, quoted, cstr]
  constructor
  · exact loops fuel (by simp only [List.length_append, List.length_singleton]; omega)
  · have first : lineType (setLine (quoted body)) = .set := rfl
    have behind : behindWord (setLine (quoted body)) = cstr "k " ++ quoted body := rfl
    have keyLength : (cstr "k " ++ quoted body).length = body.length + 4 := by simp [quoted, cstr]
    have valueLength : (ascii ' ' :: quoted body).length = body.length + 3 := by simp [quoted]
    have small : ((behindBlanks (setLine (quoted body))).takeWhile wordByte).length ≤ vstrMaxSmallSize :=
      show (cstr "set").length ≤ vstrMaxSmallSize by decide
    rw [cliParseLine_small small enough, first, behind]
    simp only [parseArguments, one.reads fuel (by omega), two.reads fuel (by omega), ok_bind, pure_eq_ok]

/-- The strings that some literal types. -/
theorem typesString_iff (grants : supply.Grants) (s : List UInt8) :
    (∃ literal, TypesString supply literal s) ↔
      ∃ body, Closed (body ++ [ascii '"']) ∧ s = (quotedBytes (body ++ [ascii '"'])).take vstrMaxLargeSize := by
  constructor
  · rintro ⟨_, body, key, value, rfl, _, _, content, reads⟩
    obtain ⟨_, other, _, _, whole, read⟩ := setLine_parses grants body
    obtain ⟨stopped, _⟩ := reads _ (Nat.lt_succ_self _)
    have both := Except.ok.inj ((read _ (Nat.lt_succ_self _)).1.symm.trans stopped)
    obtain ⟨rfl, stands⟩ := Prod.mk.inj both
    refine ⟨body, ?_, content.symm.trans whole⟩
    unfold Closed
    cases left : atQuote (body ++ [ascii '"']) with
    | nil =>
      rw [left] at stands
      exact absurd (congrArg Parser.ch stands) (by decide)
    | cons ch rest =>
      rw [left] at stands
      obtain ⟨rfl, rfl⟩ := Parser.mk.inj stands
      rfl
  · rintro ⟨body, closed, rfl⟩
    obtain ⟨key, value, keyContent, valid, content, reads⟩ := setLine_parses grants body
    rw [closed] at reads
    exact ⟨quoted body, body, key, value, rfl, keyContent, valid, content, reads⟩

/-- No literal gets a backslash to stand before one of the letters. -/
theorem TypesString.spelled (grants : supply.Grants) {literal s : List UInt8} (types : TypesString supply literal s) :
    s.length ≤ vstrMaxLargeSize ∧ (∀ letter ∈ escapeLetters, ¬[ascii '\\', letter] <:+: s) ∧
      ([ascii '\\'] <:+ s → s.length = vstrMaxLargeSize) := by
  obtain ⟨body, closed, rfl⟩ := (typesString_iff grants s).mp ⟨literal, types⟩
  obtain ⟨_, letters, last⟩ := closed.spelled
  have most := List.length_take_le vstrMaxLargeSize (quotedBytes (body ++ [ascii '"']))
  refine ⟨most, fun letter listed inner => ?_, fun ends => ?_⟩
  · exact letters letter listed (inner.trans (List.take_prefix _ _).isInfix)
  · by_contra short
    have whole : (quotedBytes (body ++ [ascii '"'])).length ≤ vstrMaxLargeSize := by
      rw [List.length_take] at short most
      omega
    rw [List.take_of_length_le whole] at ends
    exact last ends

/-- A blank behind a string leaves it spelled, whatever it ends with. -/
theorem spelled_blank {s : List UInt8} (letters : ∀ letter ∈ escapeLetters, ¬[ascii '\\', letter] <:+: s) :
    Spelled (s ++ [ascii ' ']) := by
  have other : ∀ (front : List UInt8) (byte : UInt8), front ++ [byte] <:+ s ++ [ascii ' '] → byte = ascii ' ' := by
    intro front byte ends
    obtain none_ | ⟨before, same, _⟩ := List.suffix_concat_iff.mp ends
    · exact absurd none_ (by simp)
    · exact (List.cons.inj (List.append_inj' same rfl).2).1
  constructor
  · intro letter listed inner
    rcases List.infix_concat_iff.mp inner with ends | inner
    · rw [other [ascii '\\'] letter ends] at listed
      exact absurd listed (by decide)
    · exact letters letter listed inner
  · intro ends
    exact absurd (other [] (ascii '\\') ends) (by decide)

/-- A string without NUL can be typed exactly if a vstr can hold it and no backslash of it
stands before n, r or t or ends it. A full vstr may end with one: it leaves out the byte
typed behind. -/
theorem string_typed_iff (grants : supply.Grants) (s : List UInt8) (free : 0 ∉ s) :
    (∃ literal, TypesString supply literal s) ↔
      s.length ≤ vstrMaxLargeSize ∧ (∀ letter ∈ escapeLetters, ¬[ascii '\\', letter] <:+: s) ∧
        ([ascii '\\'] <:+ s → s.length = vstrMaxLargeSize) := by
  constructor
  · rintro ⟨literal, types⟩
    exact types.spelled grants
  · rintro ⟨fits, letters, last⟩
    rw [typesString_iff grants]
    by_cases ends : [ascii '\\'] <:+ s
    · have clear : 0 ∉ s ++ [ascii ' '] := by
        rw [List.mem_append, not_or]
        exact ⟨free, by decide⟩
      obtain ⟨closed, read⟩ := typed_closed clear (spelled_blank letters)
      refine ⟨_, closed, ?_⟩
      rw [read, ← last ends, List.take_left]
    · obtain ⟨closed, read⟩ := typed_closed free ⟨letters, ends⟩
      refine ⟨_, closed, ?_⟩
      rw [read, List.take_of_length_le fits]

end Literals

theorem string_typed_sample :
    (∃ literal, TypesString (.granted fun unread _ => unread) literal (cstr "a\\\"b")) ↔
      (cstr "a\\\"b").length ≤ vstrMaxLargeSize ∧ (∀ letter ∈ escapeLetters, ¬[ascii '\\', letter] <:+: cstr "a\\\"b") ∧
        ([ascii '\\'] <:+ cstr "a\\\"b" → (cstr "a\\\"b").length = vstrMaxLargeSize) :=
  string_typed_iff (Supply.granted_grants _) (cstr "a\\\"b") (by decide)

/-- What is typed as it stands is read with a line feed in it, and nothing else that
could be typed is read as this path. -/
theorem string_typed_counterexample :
    let s := cstr "C:\\new"
    0 ∉ s ∧ quotedBytes (s ++ [ascii '"']) = cstr "C:\new" ∧
      ∀ supply : Supply, supply.Grants → ¬∃ literal, TypesString supply literal s := by
  refine ⟨by decide, by decide, ?_⟩
  rintro supply grants ⟨literal, types⟩
  exact (types.spelled grants).2.1 (ascii 'n') (by decide) ⟨cstr "C:", cstr "ew", by decide⟩

end LexiDB
