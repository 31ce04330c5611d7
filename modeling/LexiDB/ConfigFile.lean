import LexiDB.ConfigParser
import LexiDB.RoundTrip

/-! What `parse_config` makes of a file that is written as one expects. -/

namespace LexiDB

open Lib

section Spans

variable {supply : Supply}

/-- A string is read to the space or the line end behind it. -/
theorem configParserReadString_span (grants : supply.Grants) (text tail : List UInt8)
    (each : ∀ byte ∈ text, configStringByte byte = true) (ends : configStringByte (parserNew tail).ch = false)
    (short : text.length ≤ vstrMaxLargeSize) :
    ∃ s : Vstr, s.Valid ∧ s.bytes = text ∧ ∀ fuel, text.length < fuel →
      configParserReadString supply fuel (parserNew (text ++ tail)) = .ok (s, parserNew tail) :=
  parserCollect_fresh grants text tail each ends short

/-- The first word of a line tells its type. It fits a string that asks for no memory. -/
theorem configParserParseLineDataType_word (supply : Supply) (listed : (word, type) ∈ configLookups) (tail : List UInt8)
    (enough : word.length < fuel) :
    configParserParseLineDataType supply fuel (parserNew (word ++ ascii ' ' :: tail)) =
      .ok (.ok type, parserNew (ascii ' ' :: tail)) := by
  have plain : ∀ lookup ∈ configLookups, lookup.1.all configStringByte = true ∧ lookup.1.length ≤ vstrMaxSmallSize := by
    decide
  have first : ∀ lookup ∈ configLookups, configLookups.find? (fun other => decide (other.1 = lookup.1)) = some lookup := by decide
  obtain ⟨each, small⟩ := plain _ listed
  obtain ⟨s, valid, content, read⟩ := parserCollect_short supply word (ascii ' ' :: tail) (List.all_eq_true.mp each)
    (show configStringByte (ascii ' ') = false by decide) small
  have taken : configParserReadString supply fuel (parserNew (word ++ ascii ' ' :: tail)) = .ok (s, parserNew (ascii ' ' :: tail)) :=
    read fuel enough
  simp only [configParserParseLineDataType, taken, ok_bind, valid.isWord, content, first _ listed]
  rfl

end Spans

section Users

variable {supply : Supply}

/-- A name and a password as a line of the file can hold them. -/
structure Writable (credentials : List UInt8 × List UInt8) : Prop where
  some_ : credentials.1 ≠ []
  name : ∀ byte ∈ credentials.1, configStringByte byte = true ∧ configSpace byte = false
  password : ∀ byte ∈ credentials.2, configStringByte byte = true
  short : credentials.1.length ≤ vstrMaxLargeSize ∧ credentials.2.length ≤ vstrMaxLargeSize

/-- `user NAME >PASSWORD` -/
def userLine (credentials : List UInt8 × List UInt8) : List UInt8 :=
  cstr "user " ++ credentials.1 ++ cstr " >" ++ credentials.2

/-- The user is the one of that line. -/
structure User.IsOf (user : User) (credentials : List UInt8 × List UInt8) : Prop where
  name : user.name.Valid ∧ user.name.bytes = credentials.1
  password : user.password.Valid ∧ user.password.bytes = credentials.2

/-- The password behind the name is read to the end of the line. -/
private theorem configParserPasswords_one (grants : supply.Grants) {password tail : List UInt8}
    (each : ∀ byte ∈ password, configStringByte byte = true) (short : password.length ≤ vstrMaxLargeSize)
    (ends : (parserNew tail).ch = 0 ∨ (parserNew tail).ch = ascii '\n') :
    ∃ secret : Vstr, secret.Valid ∧ secret.bytes = password ∧ ∀ (user : User) fuel, password.length + 2 < fuel →
      configParserPasswords supply fuel user (parserNew (ascii '>' :: password ++ tail)) =
        .ok (.ok { user with password := secret }, parserNew tail) := by
  have stops : configStringByte (parserNew tail).ch = false ∧ configSpace (parserNew tail).ch = false ∧
      configCommentByte (parserNew tail).ch = false := by
    rcases ends with zero | newline
    · rw [zero]
      decide
    · rw [newline]
      decide
  obtain ⟨secret, valid, content, read⟩ := configParserReadString_span grants password tail each stops.1 short
  refine ⟨secret, valid, content, fun user fuel enough => ?_⟩
  obtain ⟨less, rfl⟩ : ∃ less, fuel = less + 2 := ⟨fuel - 2, by omega⟩
  have trimmed : configParserSkipSpaces (less + 1) (parserNew tail) = .ok (parserNew tail) :=
    parserSkip_span [] tail (by simp) stops.2.1 (by simp)
  have goesOn : configCommentByte (ascii '>') = true := by decide
  simp only [configParserPasswords, List.cons_append, parserNew_cons, configLineGoesOn, goesOn, ↓reduceIte, parserReadChar_mk,
    read (less + 1) (by omega), ok_bind, trimmed, stops.2.2, Bool.false_eq_true]

/-- A line of a user is read to its end. -/
theorem configParserParseLine_user (grants : supply.Grants) {credentials : List UInt8 × List UInt8} (writable : Writable credentials)
    {tail : List UInt8} (ends : (parserNew tail).ch = 0 ∨ (parserNew tail).ch = ascii '\n') :
    ∃ user : User, user.IsOf credentials ∧ ∀ fuel, (userLine credentials).length < fuel →
      configParserParseLine supply fuel (parserNew (userLine credentials ++ tail)) = .ok (.ok (.user user), parserNew tail) := by
  obtain ⟨name, password⟩ := credentials
  obtain ⟨first, others, rfl⟩ := List.exists_cons_of_ne_nil writable.some_
  obtain ⟨nameString, nameValid, nameBytes, nameRead⟩ := configParserReadString_span grants (first :: others)
    (ascii ' ' :: (ascii '>' :: password ++ tail)) (fun byte member => (writable.name byte member).1)
    (show configStringByte (ascii ' ') = false by decide) writable.short.1
  obtain ⟨secret, secretValid, secretBytes, secretRead⟩ :=
    configParserPasswords_one grants writable.password writable.short.2 ends
  refine ⟨{ User.zero with name := nameString, password := secret }, ⟨⟨nameValid, nameBytes⟩, secretValid, secretBytes⟩, ?_⟩
  intro fuel enough
  have length : (userLine (first :: others, password)).length = (first :: others).length + password.length + 7 := by
    simp only [userLine, List.length_append, show (cstr "user ").length = 5 from rfl, show (cstr " >").length = 2 from rfl]
    omega
  rw [length] at enough
  have whole : userLine (first :: others, password) ++ tail =
      cstr "user" ++ ascii ' ' :: (first :: others ++ ascii ' ' :: (ascii '>' :: password ++ tail)) := by
    simp [userLine, show cstr "user " = cstr "user" ++ [ascii ' '] from rfl, show cstr " >" = [ascii ' ', ascii '>'] from rfl]
  have typed := configParserParseLineDataType_word supply (show (cstr "user", LineDataType.user) ∈ configLookups by decide)
    (first :: others ++ ascii ' ' :: (ascii '>' :: password ++ tail)) (show (cstr "user").length < fuel by simp [cstr]; omega)
  have toName : configParserSkipSpaces fuel (parserNew (ascii ' ' :: (first :: others ++ ascii ' ' :: (ascii '>' :: password ++ tail)))) =
      .ok (parserNew (first :: others ++ ascii ' ' :: (ascii '>' :: password ++ tail))) :=
    parserSkip_span [ascii ' '] _ (List.all_eq_true.mp (by decide)) (writable.name first (List.mem_cons_self ..)).2 (by simp; omega)
  have toPassword : configParserSkipSpaces fuel (parserNew (ascii ' ' :: (ascii '>' :: password ++ tail))) =
      .ok (parserNew (ascii '>' :: password ++ tail)) :=
    parserSkip_span [ascii ' '] _ (List.all_eq_true.mp (by decide)) (show configSpace (ascii '>') = false by decide) (by simp; omega)
  have read := nameRead fuel (by omega)
  have passed := secretRead { User.zero with name := nameString, password := vstrNew } fuel (show password.length + 2 < fuel by omega)
  rw [whole]
  simp only [configParserParseLine, typed, ok_bind, toName, configParserParseUser, read, toPassword, passed, Result.map]
  rfl

/-- A file of such lines, each behind a line end. -/
def userFile (all : List (List UInt8 × List UInt8)) : List UInt8 := all.flatMap fun credentials => ascii '\n' :: userLine credentials

end Users

end LexiDB
