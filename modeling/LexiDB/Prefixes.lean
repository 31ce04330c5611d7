import LexiDB.Presence

/-! The decimal prefix of a bulk string, an array or a map, and what the parser takes
it for. -/

namespace LexiDB

open Lib

variable {env : Env} {supply : Supply}

/-- The digits that `parse_len` reads. -/
def prefixDigits (body : List UInt8) : List UInt8 := body.takeWhile isDigit

theorem prefixDigits_append {digits : List UInt8} (all : ∀ byte ∈ digits, isDigit byte = true) (after : List UInt8) :
    prefixDigits (digits ++ crlf ++ after) = digits := by
  rw [prefixDigits, List.append_assoc, List.takeWhile_append_of_pos all]
  have stops : (crlf ++ after).takeWhile isDigit = [] := List.takeWhile_cons_of_neg (by decide)
  rw [stops, List.append_nil]

/-- There are digits, and a line end behind them. -/
structure Headed (body after : List UInt8) : Prop where
  split : body = prefixDigits body ++ crlf ++ after
  some_ : prefixDigits body ≠ []

theorem Headed.digits {body after : List UInt8} (_ : Headed body after) : ∀ byte ∈ prefixDigits body, isDigit byte = true :=
  fun _ member => List.mem_takeWhile_imp member

theorem Headed.length (headed : Headed body after) : body.length = (prefixDigits body).length + 2 + after.length := by
  have whole := congrArg List.length headed.split
  have letters : crlf.length = 2 := rfl
  simp only [List.length_append] at whole
  omega

/-- A header is read where there is one, and its count is the value modulo 2^64. -/
theorem Headed.read {body after : List UInt8} (headed : Headed body after) (type : UInt8) :
    parseHeader ((prefixDigits body).length + 1) ⟨type, body⟩ =
      .ok (some (decimalValue (prefixDigits body) % sizeMod), ⟨ascii '\n', after⟩) := by
  have header := parseHeader_line headed.some_ headed.digits type after (Nat.lt_succ_self _)
  rwa [← headed.split] at header

theorem parseHeader_headed (done : parseHeader fuel ⟨type, body⟩ = .ok (some len, q)) :
    ∃ after, Headed body after ∧ len = decimalValue (prefixDigits body) % sizeMod ∧ q = ⟨ascii '\n', after⟩ := by
  obtain ⟨digits, after, some_, all, rfl, size, place⟩ := parseHeader_length done
  have same := prefixDigits_append all after
  refine ⟨after, ⟨by rw [same], by rw [same]; exact some_⟩, by rw [same]; exact size, place⟩

/-- An accepted bulk string has the bytes that were counted. -/
theorem parseBulk_length (grants : supply.Grants) (short : body.length < sizeMod)
    (done : parseBulk supply fuel ⟨stringTypeByte, body⟩ = .ok (.string s, q)) :
    ∃ after, Headed body after ∧ vstrLen s = decimalValue (prefixDigits body) % sizeMod := by
  obtain ⟨_, whole⟩ := parseBulk_eq done
  obtain ⟨digits, word, rest, some_, all, size, rfl⟩ := whole s rfl
  have same := prefixDigits_append all (word ++ crlf ++ rest)
  refine ⟨word ++ crlf ++ rest, ⟨by rw [same], by rw [same]; exact some_⟩, ?_⟩
  rw [same, size]
  obtain ⟨⟨len, middle⟩, headed, done⟩ := bind_eq_ok.mp done
  have header := parseHeader_line some_ all stringTypeByte (word ++ crlf ++ rest) (Nat.lt_succ_self _)
  have agree := (parseHeader_mono _).agree (by rw [headed]; exact settled_ok _) (by rw [header]; exact settled_ok _)
  rw [headed, header] at agree
  cases agree
  obtain ⟨⟨t, last⟩, read, done⟩ := bind_eq_ok.mp done
  obtain ⟨empty, created, pushed⟩ := bind_eq_ok.mp read
  have room : word.length + 1 < sizeMod := by
    have letters : crlf.length = 2 := rfl
    simp only [List.length_append] at short
    omega
  rw [size, Nat.mod_eq_of_lt room] at created
  have fits : word.length + 1 ≤ vstrMaxLargeSize := by
    by_contra exceeds
    have large : word.length + 1 > vstrMaxSmallSize := by
      simp only [vstrMaxLargeSize, vstrMaxSmallSize] at *
      omega
    simp [vstrNewLen, large, exceeds] at created
  obtain ⟨fresh, new, valid, cleared, none_⟩ := vstrNewLen_spec (grants _ 0) fits
  cases created.symm.trans new
  obtain ⟨u, looped, kept, _, content⟩ := parserPushes_spec grants word (crlf ++ rest) empty valid cleared
    (by rw [none_]; simp only [List.length_nil]; omega)
  rw [size, parserReadChar_mk, List.append_assoc, looped] at pushed
  cases pushed
  have finished : parserFinish (.string t) (parserNew (crlf ++ rest)) = (.string s, q) := Except.ok.inj done
  rw [parserFinish_crlf] at finished
  cases finished
  rw [← kept.length, content, none_, List.nil_append]

/-- The loop of an array pushes one element a round. -/
theorem parseElems_length {parse : Parser → Except Halt (Object × Parser)} {realloc : Nat → Option Nat}
    (granted : ∀ i, (realloc i).isSome) : ∀ {count : Nat} {vec after : Vec Object} {p q : Parser}, vec.Valid →
      parseElems parse realloc count vec p = .ok (after, q) → after.elems.length = vec.elems.length + count := by
  intro count
  induction count with
  | zero =>
    intro vec after p q _ done
    cases done
    rfl
  | succ count ih =>
    intro vec after p q valid done
    obtain ⟨⟨cur, middle⟩, _, done⟩ := bind_eq_ok.mp done
    obtain ⟨pushed, same, kept, content⟩ := vecPush_spec valid (fun _ => granted count) cur
    simp only [same] at done
    rw [ih kept done, content, List.length_append, List.length_singleton]
    omega

/-- An array that comes out was announced, and its loop went round as often. -/
theorem parseArray_opened {parse : Parser → Except Halt (Object × Parser)}
    (done : parseArray supply fuel parse ⟨type, body⟩ = .ok (obj, q)) (some_ : obj ≠ .null) :
    ∃ after address vec, Headed body after ∧ (supply.mem body.length 0).calloc = some address ∧ obj = .array vec ∧
      parseElems parse (fun i => (supply.mem body.length i).realloc) (decimalValue (prefixDigits body) % sizeMod) (vecNew address)
        (parserNew after) = .ok (vec, q) := by
  obtain ⟨⟨len, middle⟩, read, done⟩ := bind_eq_ok.mp done
  cases len with
  | none =>
    cases done
    exact absurd rfl some_
  | some len =>
    obtain ⟨after, headed, rfl, rfl⟩ := parseHeader_headed read
    simp only at done
    split at done
    · cases done
    · rename_i address opened
      obtain ⟨⟨vec, last⟩, looped, done⟩ := bind_eq_ok.mp done
      cases done
      exact ⟨after, address, vec, headed, opened, rfl, looped⟩

/-- The same of a map and its pairs. -/
theorem parseHt_opened {parse : Parser → Except Halt (Object × Parser)}
    (done : parseHt env supply fuel parse ⟨type, body⟩ = .ok (obj, q)) (some_ : obj ≠ .null) :
    ∃ after table ht, Headed body after ∧ (supply.mem body.length 0).calloc = some table ∧ obj = .ht ht ∧
      parsePairs env parse (fun i => (supply.mem body.length i).calloc) (decimalValue (prefixDigits body) % sizeMod)
        (htNew (supply.seed body.length) table) (parserNew after) = .ok (ht, q) := by
  obtain ⟨⟨len, middle⟩, read, done⟩ := bind_eq_ok.mp done
  cases len with
  | none =>
    cases done
    exact absurd rfl some_
  | some len =>
    obtain ⟨after, headed, rfl, rfl⟩ := parseHeader_headed read
    simp only at done
    split at done
    · cases done
    · rename_i table opened
      obtain ⟨⟨ht, last⟩, looped, done⟩ := bind_eq_ok.mp done
      cases done
      exact ⟨after, table, ht, headed, opened, rfl, looped⟩

theorem parseArray_length (grants : supply.Grants) {parse : Parser → Except Halt (Object × Parser)}
    (done : parseArray supply fuel parse ⟨arrayTypeByte, body⟩ = .ok (.array vec, q)) :
    ∃ after, Headed body after ∧ vec.elems.length = decimalValue (prefixDigits body) % sizeMod := by
  obtain ⟨after, address, elems, headed, _, same, looped⟩ := parseArray_opened done (by simp)
  cases same
  refine ⟨after, headed, ?_⟩
  rw [parseElems_length (fun i => (grants _ i).2) (vecNew_valid address) looped]
  exact Nat.zero_add _

/-- How many elements of its array `parse_array_cmd` has parsed for a command: the
command and what it takes. -/
def Cmd.elements : Cmd → Nat
  | .auth _ _ | .set _ _ => 3
  | .get _ | .del _ | .push _ | .enque _ | .zset _ | .zhas _ | .zdel _ | .select _ | .help _ _ => 2
  | _ => 1

private theorem Cmd.elements_of_args (some_ : Cmd.args cmd ≠ []) : cmd.elements = cmd.args.length + 1 := by
  cases cmd with
  | auth | set | get | del | push | enque | zset | zhas | zdel | select => rfl
  | _ => exact absurd rfl some_

/-- The command of an array is HELP, and a command follows that help is wanted for. -/
def HelpFollows (env : Env) (supply : Supply) (after : List UInt8) : Prop :=
  ∃ fuel p type q, parseCmdType env supply fuel (parserNew after) = .ok (.help, p) ∧
    parseCmdType env supply fuel p = .ok (type, q) ∧ type ≠ .illegal

/-- Every command but HELP is refused unless the array has as many elements as it takes. -/
theorem parseArrayCmd_elements (done : parseArrayCmd env supply fuel ⟨arrayTypeByte, body⟩ = .ok cmd) (legal : cmd ≠ .illegal) :
    ∃ after, Headed body after ∧ decimalValue (prefixDigits body) % sizeMod ≠ 0 ∧
      (cmd.elements = decimalValue (prefixDigits body) % sizeMod ∨ HelpFollows env supply after ∧ cmd.elements = 2) := by
  obtain ⟨len, middle, type, behind, header, some_, named, read⟩ := (parseArrayCmd_args done).resolve_left legal
  obtain ⟨after, headed, rfl, rfl⟩ := parseHeader_headed header
  refine ⟨after, headed, some_, ?_⟩
  cases read with
  | help asked known => exact .inr ⟨⟨fuel, behind, _, _, named, asked, known⟩, rfl⟩
  | one _ complete _ _ args =>
    left
    rw [complete, Cmd.elements_of_args (by simp [args]), args]
    rfl
  | two _ complete _ _ _ _ args =>
    left
    rw [complete, Cmd.elements_of_args (by simp [args]), args]
    rfl

/-- Wherever these bytes stand behind a type byte, the number they start with is what
the parser goes by: it is the length of a string, the number of elements of an array
and of those parsed for a command, and the count of the loop over elements or pairs.
A number that does not fit 64 bits is refused. -/
structure ExactPrefix (env : Env) (supply : Supply) (body : List UInt8) : Prop where
  count : ∀ type fuel len q, parseHeader fuel ⟨type, body⟩ = .ok (some len, q) → len = decimalValue (prefixDigits body)
  string : ∀ fuel s q, parseBulk supply fuel ⟨stringTypeByte, body⟩ = .ok (.string s, q) → vstrLen s = decimalValue (prefixDigits body)
  array : ∀ parse fuel vec q, parseArray supply fuel parse ⟨arrayTypeByte, body⟩ = .ok (.array vec, q) →
    vec.elems.length = decimalValue (prefixDigits body)
  command : ∀ fuel cmd, parseArrayCmd env supply fuel ⟨arrayTypeByte, body⟩ = .ok cmd → cmd ≠ .illegal →
    cmd.elements = decimalValue (prefixDigits body)
  refused : sizeMod ≤ decimalValue (prefixDigits body) → ∀ type fuel len q, parseHeader fuel ⟨type, body⟩ = .ok (len, q) → len = none

/-- The number in front of a line end is below 2^64, and is two where help is asked for. -/
def FittingPrefix (env : Env) (supply : Supply) (body : List UInt8) : Prop :=
  ∀ after, Headed body after → decimalValue (prefixDigits body) < sizeMod ∧
    (HelpFollows env supply after → decimalValue (prefixDigits body) = 0 ∨ decimalValue (prefixDigits body) = 2)

/-- The prefixes are exact where they fit, and nowhere else. -/
theorem exactPrefix_iff_fitting (env : Env) (grants : supply.Grants) (body : List UInt8) (short : body.length < sizeMod) :
    ExactPrefix env supply body ↔ FittingPrefix env supply body := by
  constructor
  · intro exact_ after headed
    have fits : decimalValue (prefixDigits body) < sizeMod := by
      by_contra exceeds
      have none_ := exact_.refused (by omega) stringTypeByte _ _ _ (headed.read stringTypeByte)
      cases none_
    refine ⟨fits, ?_⟩
    rintro ⟨fuel, p, type, q, named, asked, known⟩
    by_cases zero : decimalValue (prefixDigits body) = 0
    · exact .inl zero
    · right
      obtain ⟨large, enough⟩ : ∃ large, large = fuel + (prefixDigits body).length + 1 := ⟨_, rfl⟩
      have header := (parseHeader_mono _).ok_le (headed.read arrayTypeByte) (show _ ≤ large by omega)
      rw [Nat.mod_eq_of_lt fits] at header
      have first := (parseCmdType_mono _).ok_le named (show fuel ≤ large by omega)
      have second := (parseCmdType_mono _).ok_le asked (show fuel ≤ large by omega)
      have parsed : parseArrayCmd env supply large ⟨arrayTypeByte, body⟩ = .ok (.help 1 type) := by
        simp [parseArrayCmd, header, zero, parserReadChar_mk, first, parseArgs, parseHelp, second, known]
      exact (exact_.command large _ parsed (by simp)).symm
  · intro fits
    refine ⟨?_, ?_, ?_, ?_, ?_⟩
    · intro type fuel len q read
      obtain ⟨after, headed, rfl, _⟩ := parseHeader_headed read
      exact Nat.mod_eq_of_lt (fits after headed).1
    · intro fuel s q done
      obtain ⟨after, headed, size⟩ := parseBulk_length grants short done
      rw [size, Nat.mod_eq_of_lt (fits after headed).1]
    · intro parse fuel vec q done
      obtain ⟨after, headed, size⟩ := parseArray_length grants done
      rw [size, Nat.mod_eq_of_lt (fits after headed).1]
    · intro fuel cmd done legal
      obtain ⟨after, headed, some_, elements⟩ := parseArrayCmd_elements done legal
      obtain ⟨small, help⟩ := fits after headed
      rw [Nat.mod_eq_of_lt small] at some_ elements
      rcases elements with same | ⟨follows, two⟩
      · exact same
      · rw [two, (help follows).resolve_left some_]
    · intro exceeds type fuel len q read
      cases len with
      | none => rfl
      | some len =>
        obtain ⟨after, headed, _⟩ := parseHeader_headed read
        exact absurd (fits after headed).1 (Nat.not_lt.mpr exceeds)

theorem exactPrefix_iff_fitting_get :
    ExactPrefix .sample (.granted fun unread _ => unread) (cstr "3\r\nGET\r\n") ↔
      FittingPrefix .sample (.granted fun unread _ => unread) (cstr "3\r\nGET\r\n") :=
  exactPrefix_iff_fitting .sample (Supply.granted_grants _) _ (by decide)

/-- Three more than 2^64 is three. -/
theorem wrappedPrefix :
    let supply : Supply := .granted fun unread _ => unread
    let body := cstr "18446744073709551619\r\nGET\r\n"
    (∃ s q, parseBulk supply 30 ⟨stringTypeByte, body⟩ = .ok (.string s, q) ∧ s.bytes = cstr "GET") ∧
      decimalValue (prefixDigits body) = 18446744073709551619 ∧ ¬ExactPrefix .sample supply body := by
  intro supply body
  have accepted : ∃ s q, parseBulk supply 30 ⟨stringTypeByte, body⟩ = .ok (.string s, q) ∧ s.bytes = cstr "GET" := by
    have parsed : returnsWith (fun value => decide (value.1.scalar = some (.string (cstr "GET"))))
        (parseBulk supply 30 ⟨stringTypeByte, body⟩) = true := by decide +kernel
    obtain ⟨⟨obj, q⟩, done, same⟩ := returnsWith_iff.mp parsed
    cases obj with
    | string s => exact ⟨s, q, done, by simpa [Object.scalar] using same⟩
    | _ => simp [Object.scalar] at same
  have value : decimalValue (prefixDigits body) = 18446744073709551619 := by decide +kernel
  refine ⟨accepted, value, fun exact_ => ?_⟩
  have read := parseHeader_line (show cstr "18446744073709551619" ≠ [] by decide) (List.all_eq_true.mp (by decide)) stringTypeByte
    (cstr "GET\r\n") (Nat.lt_succ_self _)
  have same : decimalValue (cstr "18446744073709551619") % sizeMod = decimalValue (prefixDigits body) := exact_.count _ _ _ _ read
  have three : decimalValue (cstr "18446744073709551619") % sizeMod = 3 := by decide +kernel
  rw [value, three] at same
  cases same

end LexiDB
