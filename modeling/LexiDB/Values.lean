import LexiDB.Prefixes

/-! Where a value stands in the input, by its bytes alone. -/

namespace LexiDB

open Lib

variable {env : Env} {supply : Supply}

/-- What has to follow a type byte for `parse_object` to make an object of it. A line
of `+` or `-` is one even where it does not end. -/
def WireType.Stands : WireType → List UInt8 → Prop
  | .string, body => ∃ after word rest, Headed body after ∧ decimalValue (prefixDigits body) % sizeMod = word.length ∧
      after = word ++ crlf ++ rest
  | .int, body => ∃ text rest, (∀ byte ∈ text, lineByte byte = true) ∧ body = text ++ (crlf ++ rest)
  | .double, body => ∃ text rest, (∀ byte ∈ text, doubleByte byte = true) ∧ body = text ++ (crlf ++ rest)
  | .bool, body => ∃ letter rest, (letter = ascii 't' ∨ letter = ascii 'f') ∧ body = letter :: (crlf ++ rest)
  | .simple, _ | .error, _ => True
  | .array, body | .ht, body => ∃ after, Headed body after

/-- A value stands where the parser does. -/
def Parser.HasValue (p : Parser) : Prop := ∃ type, wireType p.ch = some type ∧ type.Stands p.rest

/-- Where a collecting loop stops, whatever it makes of the characters. -/
theorem parserCollect_split : ∀ fuel (s : Vstr) text, parserCollect supply more fuel s (parserNew text) = .ok (t, q) →
    ∃ line tail, text = line ++ tail ∧ (∀ byte ∈ line, more byte = true) ∧ q = parserNew tail := by
  intro fuel
  induction fuel with
  | zero =>
    intro s text done
    cases done
  | succ fuel ih =>
    intro s text done
    unfold parserCollect whileFuel at done
    split at done
    · rename_i again
      cases text with
      | nil =>
        obtain ⟨line, tail, same, _, place⟩ := ih _ [] done
        obtain ⟨rfl, rfl⟩ := List.append_eq_nil_iff.mp same.symm
        exact ⟨[], [], rfl, by simp, place⟩
      | cons byte rest =>
        obtain ⟨line, tail, rfl, inside, place⟩ := ih _ rest done
        exact ⟨byte :: line, tail, rfl, by simpa using ⟨again, inside⟩, place⟩
    · cases done
      exact ⟨[], text, rfl, by simp, rfl⟩

theorem parserFinish_eq (done : parserFinish value p = (obj, q)) (other : obj ≠ .null) : obj = value := by
  unfold parserFinish at done
  split at done
  · cases done
    exact absurd rfl other
  · split at done
    · cases done
      exact absurd rfl other
    · cases done
      rfl

/-- The line end that a string, an integer and a double need. -/
theorem parserFinish_some {obj : Object} (other : obj ≠ .null) (tail : List UInt8) :
    (parserFinish obj (parserNew tail)).1 ≠ .null ↔ ∃ rest, tail = crlf ++ rest := by
  constructor
  · intro kept
    unfold parserFinish at kept
    split at kept
    · exact absurd rfl kept
    · rename_i carriage
      split at kept
      · exact absurd rfl kept
      · rename_i newline
        obtain ⟨rest, same, _⟩ := lineEnd_of_peek (not_not.mp carriage) newline
        exact ⟨rest, same⟩
  · rintro ⟨rest, rfl⟩
    rw [parserFinish_crlf]
    exact other

/-- The two kinds of line that are collected and then converted. -/
private theorem parserCollect_some (ends : more (ascii '\r') = false) (value : Object) (other : value ≠ .null)
    (done : parserCollect supply more fuel s (parserNew body) = .ok (t, middle)) :
    (parserFinish value middle).1 ≠ .null ↔ ∃ text rest, (∀ byte ∈ text, more byte = true) ∧ body = text ++ (crlf ++ rest) := by
  constructor
  · intro kept
    obtain ⟨line, tail, rfl, inside, rfl⟩ := parserCollect_split _ _ _ done
    obtain ⟨rest, rfl⟩ := (parserFinish_some other tail).mp kept
    exact ⟨line, rest, inside, rfl⟩
  · rintro ⟨text, rest, inside, rfl⟩
    obtain ⟨u, looped⟩ := whileFuel_position more (fun state : Vstr × Parser => (parserPush supply state).1) inside
      (show more ((crlf ++ rest).headD 0) = false from ends) s (text.length + 1) (Nat.lt_succ_self _)
    have found : parserCollect supply more (text.length + 1) s (parserNew (text ++ (crlf ++ rest))) =
        .ok (u, parserNew (crlf ++ rest)) := looped
    have same := (parserCollect_mono more s _).agree (by rw [done]; exact settled_ok _) (by rw [found]; exact settled_ok _)
    rw [done, found] at same
    cases same
    exact (parserFinish_some other _).mpr ⟨rest, rfl⟩

private theorem expectPeekByte_ch {ch byte : UInt8} {rest : List UInt8} (done : expectPeekByte ⟨ch, rest⟩ byte = some q) (some_ : byte ≠ 0) :
    (parserNew rest).ch = byte := by
  unfold expectPeekByte peekByte at done
  split at done
  · rename_i same
    cases rest with
    | nil => exact absurd same.symm some_
    | cons first rest => exact same
  · cases done

theorem parseBoolean_eq (done : parseBoolean p = (obj, q)) (other : obj ≠ .null) : ∃ boolean, obj = .bool boolean := by
  unfold parseBoolean at done
  simp only at done
  split at done
  · cases done
    exact absurd rfl other
  · split at done
    · cases done
      exact absurd rfl other
    · split at done
      · cases done
        exact absurd rfl other
      · cases done
        exact ⟨_, rfl⟩

private theorem parseBoolean_some (ch : UInt8) (body : List UInt8) :
    (parseBoolean ⟨ch, body⟩).1 ≠ .null ↔ ∃ letter rest, (letter = ascii 't' ∨ letter = ascii 'f') ∧ body = letter :: (crlf ++ rest) := by
  constructor
  · intro kept
    cases body with
    | nil =>
      have zero : (0 : UInt8) ≠ ascii 't' ∧ (0 : UInt8) ≠ ascii 'f' := by decide
      simp [parseBoolean, parserReadChar, zero] at kept
    | cons letter tail =>
      unfold parseBoolean at kept
      simp only at kept
      split at kept
      · exact absurd rfl kept
      · rename_i known
        split at kept
        · exact absurd rfl kept
        · rename_i carriage
          have ahead := carriage
          cases expectPeekByte_eq carriage
          split at kept
          · exact absurd rfl kept
          · rename_i newline
            obtain ⟨rest, same, _⟩ := lineEnd_of_peek (expectPeekByte_ch ahead (by decide)) newline
            change ¬(letter ≠ ascii 't' ∧ letter ≠ ascii 'f') at known
            exact ⟨letter, rest, by tauto, by rw [same]⟩
  · rintro ⟨letter, rest, known, rfl⟩
    rcases known with rfl | rfl <;> simp [parseBoolean, parserReadChar_mk, expectPeekByte, peekByte, crlf]

theorem parseBulk_string (done : parseBulk supply fuel p = .ok (obj, q)) (other : obj ≠ .null) : ∃ s, obj = .string s := by
  obtain ⟨⟨len, middle⟩, _, done⟩ := bind_eq_ok.mp done
  cases len with
  | none =>
    cases done
    exact absurd rfl other
  | some len =>
    obtain ⟨⟨s, last⟩, _, done⟩ := bind_eq_ok.mp done
    exact ⟨s, parserFinish_eq (Except.ok.inj done) other⟩

theorem parseHeader_some_iff (done : parseHeader fuel ⟨type, body⟩ = .ok (len, q)) : len.isSome = true ↔ ∃ after, Headed body after := by
  constructor
  · intro some_
    obtain ⟨count, rfl⟩ := Option.isSome_iff_exists.mp some_
    obtain ⟨after, headed, _⟩ := parseHeader_headed done
    exact ⟨after, headed⟩
  · rintro ⟨after, headed⟩
    have read := headed.read type
    have same := (parseHeader_mono _).agree (by rw [done]; exact settled_ok _) (by rw [read]; exact settled_ok _)
    rw [done, read] at same
    cases same
    rfl

private theorem parseBulk_some (done : parseBulk supply fuel ⟨stringTypeByte, body⟩ = .ok (obj, q)) :
    obj ≠ .null ↔ WireType.string.Stands body := by
  obtain ⟨forward, backward⟩ := parseBulk_eq done
  constructor
  · intro other
    obtain ⟨s, rfl⟩ := parseBulk_string done other
    obtain ⟨digits, word, rest, some_, all, size, rfl⟩ := backward s rfl
    have same := prefixDigits_append all (word ++ crlf ++ rest)
    exact ⟨_, word, rest, ⟨by rw [same], by rw [same]; exact some_⟩, by rw [same]; exact size, rfl⟩
  · rintro ⟨after, word, rest, headed, size, rfl⟩
    obtain ⟨s, rfl, _⟩ := forward _ word rest headed.some_ headed.digits size headed.split
    simp

private theorem parseArray_some {parse : Parser → Except Halt (Object × Parser)}
    (done : parseArray supply fuel parse ⟨type, body⟩ = .ok (obj, q)) : obj ≠ .null ↔ ∃ after, Headed body after := by
  constructor
  · intro other
    obtain ⟨after, _, _, headed, _⟩ := parseArray_opened done other
    exact ⟨after, headed⟩
  · intro headed none_
    obtain ⟨⟨len, middle⟩, header, rest⟩ := bind_eq_ok.mp done
    obtain ⟨count, rfl⟩ := Option.isSome_iff_exists.mp ((parseHeader_some_iff header).mpr headed)
    simp only at rest
    split at rest
    · cases rest
    · obtain ⟨⟨vec, last⟩, _, same⟩ := bind_eq_ok.mp rest
      cases same
      cases none_

private theorem parseHt_some {parse : Parser → Except Halt (Object × Parser)}
    (done : parseHt env supply fuel parse ⟨type, body⟩ = .ok (obj, q)) : obj ≠ .null ↔ ∃ after, Headed body after := by
  constructor
  · intro other
    obtain ⟨after, _, _, headed, _⟩ := parseHt_opened done other
    exact ⟨after, headed⟩
  · intro headed none_
    obtain ⟨⟨len, middle⟩, header, rest⟩ := bind_eq_ok.mp done
    obtain ⟨count, rfl⟩ := Option.isSome_iff_exists.mp ((parseHeader_some_iff header).mpr headed)
    simp only at rest
    split at rest
    · cases rest
    · obtain ⟨⟨ht, last⟩, _, same⟩ := bind_eq_ok.mp rest
      cases same
      cases none_

/-- `parse_object` makes an object exactly where a value stands. -/
theorem parseObject_hasValue_iff (done : parseObject env supply fuel p = .ok (obj, q)) : obj ≠ .null ↔ p.HasValue := by
  obtain ⟨ch, body⟩ := p
  cases fuel with
  | zero => cases done
  | succ fuel =>
    cases known : wireType ch with
    | none =>
      simp only [parseObject, known] at done
      cases done
      simp [Parser.HasValue, known]
    | some type =>
      have here : Parser.HasValue ⟨ch, body⟩ ↔ type.Stands body := by simp [Parser.HasValue, known]
      rw [here]
      have byte := wireType_eq.mp known
      simp only [parseObject, known] at done
      cases type with
      | string =>
        cases byte
        exact parseBulk_some done
      | int =>
        obtain ⟨⟨val, middle⟩, read, done⟩ := bind_eq_ok.mp done
        obtain ⟨⟨text, last⟩, collected, same⟩ := bind_eq_ok.mp read
        cases same
        have finished := parserCollect_some (by decide) (.int (env.strtold (untilNul (vstrData text)))) (by simp) collected
        rwa [Except.ok.inj done] at finished
      | double =>
        obtain ⟨⟨val, middle⟩, read, done⟩ := bind_eq_ok.mp done
        obtain ⟨⟨text, last⟩, collected, same⟩ := bind_eq_ok.mp read
        cases same
        have finished := parserCollect_some (by decide) (.double (env.strtod (untilNul (vstrData text)))) (by simp) collected
        rwa [Except.ok.inj done] at finished
      | bool =>
        have finished := parseBoolean_some ch body
        rwa [Except.ok.inj done] at finished
      | simple =>
        obtain ⟨⟨s, middle⟩, _, done⟩ := bind_eq_ok.mp done
        cases done
        simp [WireType.Stands]
      | error =>
        obtain ⟨⟨s, middle⟩, _, done⟩ := bind_eq_ok.mp done
        cases done
        simp [WireType.Stands]
      | array => exact parseArray_some done
      | ht => exact parseHt_some done

end LexiDB
