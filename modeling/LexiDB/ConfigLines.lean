import LexiDB.ConfigFile
import LexiDB.ConfigTermination

/-! Files of lines of every kind, in any order, and what `parse_config` makes of them. -/

namespace LexiDB

open Lib

section Reaching

variable {supply : Supply} {config : Config} {p q : Parser} {result : Result Config}

/-- From here on the parser comes to this result. -/
def Config.Leads (supply : Supply) (config : Config) (p : Parser) (result : Result Config) : Prop :=
  ∃ enough, ∀ fuel, enough ≤ fuel → configParserParse supply fuel config p = .ok result

/-- Behind what is skipped there is the end of the file or a line. -/
private theorem configParserSkipEmptyLinesAndComments_stays (comment : p.ch ≠ ascii '#') (newline : p.ch ≠ ascii '\n') (fuel : Nat) :
    configParserSkipEmptyLinesAndComments (fuel + 1) p = .ok p := by
  rw [configParserSkipEmptyLinesAndComments, if_neg comment, if_neg newline]

theorem Config.leads_end (config : Config) (ends : p.ch = 0) : config.Leads supply p (.ok config) := by
  refine ⟨1, fun fuel enough => ?_⟩
  obtain ⟨less, rfl⟩ := Nat.exists_eq_add_of_le' enough
  rw [configParserParse, if_pos ends]

/-- Skipping from the first comes to where skipping from the second does. -/
def Parser.SkipsTo (p q : Parser) : Prop :=
  p.ch ≠ 0 ∧ ∃ enough, ∀ fuel s, enough ≤ fuel → configParserSkipEmptyLinesAndComments fuel q = .ok s →
    configParserSkipEmptyLinesAndComments (fuel + 1) p = .ok s

theorem Config.Leads.skip (leads : config.Leads supply q result) (skips : p.SkipsTo q) : config.Leads supply p result := by
  obtain ⟨some_, enough, skipped⟩ := skips
  obtain ⟨more, parsed⟩ := leads
  refine ⟨enough + more + 3, fun fuel within => ?_⟩
  obtain ⟨less, rfl⟩ : ∃ less, fuel = less + 3 := ⟨fuel - 3, by omega⟩
  have early := parsed (less + 2) (by omega)
  have late := parsed (less + 3) (by omega)
  by_cases ends : q.ch = 0
  · have plain : q.ch ≠ ascii '#' ∧ q.ch ≠ ascii '\n' := by
      rw [ends]
      decide
    have here := skipped (less + 1) q (by omega) (configParserSkipEmptyLinesAndComments_stays plain.1 plain.2 less)
    rw [configParserParse, if_pos ends] at late
    rw [configParserParse, if_neg some_, here, ← late]
    simp only [ok_bind, if_pos ends, pure_eq_ok]
  · rw [configParserParse, if_neg ends] at early
    obtain ⟨s, stopped, _⟩ := bind_eq_ok.mp early
    have again : configParserSkipEmptyLinesAndComments (less + 2) q = .ok s :=
      (configParserSkipEmptyLinesAndComments_total q).mono.ok_le stopped (Nat.le_succ _)
    rw [configParserParse, if_neg ends, again] at late
    rw [configParserParse, if_neg some_, skipped (less + 1) s (by omega) stopped]
    exact late

/-- A comment is skipped to the end of its line. -/
theorem Parser.skipsTo_comment {text tail : List UInt8} (each : ∀ byte ∈ text, configCommentByte byte = true)
    (ends : configCommentByte (parserNew tail).ch = false) :
    (parserNew (ascii '#' :: text ++ tail)).SkipsTo (parserNew tail) := by
  refine ⟨show ascii '#' ≠ 0 by decide, text.length + 2, fun fuel s enough stopped => ?_⟩
  have all : ∀ byte ∈ ascii '#' :: text, configCommentByte byte = true :=
    List.forall_mem_cons.mpr ⟨by decide, each⟩
  have skipped : configParserSkipComment fuel (parserNew (ascii '#' :: text ++ tail)) = .ok (parserNew tail) :=
    parserSkip_span (ascii '#' :: text) tail all ends (by simp only [List.length_cons]; omega)
  have here : (parserNew (ascii '#' :: text ++ tail)).ch = ascii '#' := rfl
  rw [configParserSkipEmptyLinesAndComments, if_pos here, skipped]
  exact stopped

/-- A newline is skipped, and the ones behind it are skipped with it. -/
theorem Parser.skipsTo_newline {rest : List UInt8}
    (plain : configWhitespace (parserNew rest).ch = false ∨ (parserNew rest).ch = ascii '\n') :
    (parserNew (ascii '\n' :: rest)).SkipsTo (parserNew rest) := by
  refine ⟨show ascii '\n' ≠ 0 by decide, 2, fun fuel s enough stopped => ?_⟩
  obtain ⟨less, rfl⟩ : ∃ less, fuel = less + 2 := ⟨fuel - 2, by omega⟩
  have other : (parserNew (ascii '\n' :: rest)).ch ≠ ascii '#' := show ascii '\n' ≠ ascii '#' by decide
  have here : (parserNew (ascii '\n' :: rest)).ch = ascii '\n' := rfl
  have blank : configWhitespace (ascii '\n') = true := by decide
  rw [configParserSkipEmptyLinesAndComments, if_neg other, if_pos here]
  rcases plain with plain | newline
  · have skipped : configParserSkipWhitespace (less + 2) (parserNew (ascii '\n' :: rest)) = .ok (parserNew rest) :=
      parserSkip_span [ascii '\n'] rest (by simp [blank]) plain (by simp)
    rw [skipped]
    exact stopped
  · have comment : (parserNew rest).ch ≠ ascii '#' := by
      rw [newline]
      decide
    rw [configParserSkipEmptyLinesAndComments, if_neg comment, if_pos newline] at stopped
    obtain ⟨behind, skipped, stopped⟩ := bind_eq_ok.mp stopped
    have longer : configParserSkipWhitespace (less + 2) (parserNew (ascii '\n' :: rest)) = .ok behind := by
      simp only [configParserSkipWhitespace, parserSkip, whileFuel, parserNew_cons, blank, ↓reduceIte, parserReadChar_mk] at skipped ⊢
      exact skipped
    rw [longer]
    exact (configParserSkipEmptyLinesAndComments_total behind).mono.ok_le stopped (Nat.le_succ _)

/-- A directive is parsed and added. -/
theorem Config.Leads.directive {line : LineData} {after : Config} {tail : List UInt8} (leads : after.Leads supply (parserNew tail) result)
    (letter : p.ch ≠ 0 ∧ p.ch ≠ ascii '#' ∧ p.ch ≠ ascii '\n') (enough : Nat)
    (parsed : ∀ fuel, enough ≤ fuel → configParserParseLine supply fuel p = .ok (.ok line, parserNew tail))
    (added : config.add (supply.mem (parserNew tail).rest.length 2).realloc line = .ok after) : config.Leads supply p result := by
  obtain ⟨more, leads⟩ := leads
  refine ⟨enough + more + 2, fun fuel within => ?_⟩
  obtain ⟨less, rfl⟩ : ∃ less, fuel = less + 2 := ⟨fuel - 2, by omega⟩
  have stays := configParserSkipEmptyLinesAndComments_stays letter.2.1 letter.2.2 less
  rw [configParserParse, if_neg letter.1, stays]
  simp only [ok_bind, if_neg letter.1, parsed (less + 1) (by omega), added, leads (less + 1) (by omega)]

/-- A line that is refused ends the file. -/
theorem Config.leads_refused {q : Parser} (config : Config) (letter : p.ch ≠ 0 ∧ p.ch ≠ ascii '#' ∧ p.ch ≠ ascii '\n') (enough : Nat)
    (refused : ∀ fuel, enough ≤ fuel → configParserParseLine supply fuel p = .ok (.err text, q)) : config.Leads supply p (.err text) := by
  refine ⟨enough + 2, fun fuel within => ?_⟩
  obtain ⟨less, rfl⟩ : ∃ less, fuel = less + 2 := ⟨fuel - 2, by omega⟩
  have stays := configParserSkipEmptyLinesAndComments_stays letter.2.1 letter.2.2 less
  rw [configParserParse, if_neg letter.1, stays]
  simp only [ok_bind, if_neg letter.1, refused (less + 1) (by omega), pure_eq_ok]

end Reaching

section Lines

/-- A log level as a line can hold it. -/
structure ConfigWord (text : List UInt8) : Prop where
  some_ : text ≠ []
  plain : ∀ byte ∈ text, byte ≠ ascii ' ' ∧ byte ≠ ascii '\t' ∧ byte ≠ ascii '\n' ∧ byte ≠ 0
  short : text.length ≤ vstrMaxLargeSize

/-- A line of a configuration file. -/
inductive ConfigLine where
  | blank
  | comment (text : List UInt8)
  | user (name : List UInt8) (password : Option (List UInt8))
  | address (text : List UInt8)
  | loglevel (text : List UInt8)
  | port (digits : List UInt8)
  | databases (digits : List UInt8)

/-- What is written on the line. -/
def ConfigLine.text : ConfigLine → List UInt8
  | .blank => []
  | .comment text => ascii '#' :: text
  | .user name none => cstr "user " ++ name
  | .user name (some password) => userLine (name, password)
  | .address text => cstr "address " ++ text
  | .loglevel text => cstr "loglevel " ++ text
  | .port digits => cstr "port " ++ digits
  | .databases digits => cstr "databases " ++ digits

def ConfigLine.WellFormed : ConfigLine → Prop
  | .blank => True
  | .comment text => ∀ byte ∈ text, byte ≠ ascii '\n' ∧ byte ≠ 0
  | .user name password => Writable (name, password.getD [])
  | .address text => text ≠ [] ∧ (∀ byte ∈ text, isDigit byte = true ∨ byte = ascii '.') ∧ text.length ≤ vstrMaxLargeSize
  | .loglevel text => ConfigWord text
  | .port digits => (∀ byte ∈ digits, isDigit byte = true) ∧ 1 ≤ decimalValue digits ∧ decimalValue digits ≤ 65535
  | .databases digits => (∀ byte ∈ digits, isDigit byte = true) ∧ 1 ≤ decimalValue digits ∧ decimalValue digits < sizeMod

def ConfigLine.user? : ConfigLine → Option (List UInt8 × List UInt8)
  | .user name password => some (name, password.getD [])
  | _ => none

def ConfigLine.address? : ConfigLine → Option (List UInt8)
  | .address text => some text
  | _ => none

def ConfigLine.loglevel? : ConfigLine → Option (List UInt8)
  | .loglevel text => some text
  | _ => none

def ConfigLine.port? : ConfigLine → Option Nat
  | .port digits => some (decimalValue digits)
  | _ => none

def ConfigLine.databases? : ConfigLine → Option Nat
  | .databases digits => some (decimalValue digits)
  | _ => none

/-- Apart from the users nothing is set twice. -/
structure SetOnce (lines : List ConfigLine) : Prop where
  address : (lines.filterMap ConfigLine.address?).length ≤ 1
  loglevel : (lines.filterMap ConfigLine.loglevel?).length ≤ 1
  port : (lines.filterMap ConfigLine.port?).length ≤ 1
  databases : (lines.filterMap ConfigLine.databases?).length ≤ 1

/-- The configuration has the settings of these lines, and no others. -/
structure Config.Has (config : Config) (lines : List ConfigLine) : Prop where
  address : config.address.Valid ∧ config.address.bytes = (lines.filterMap ConfigLine.address?).headD []
  loglevel : config.loglevel.Valid ∧ config.loglevel.bytes = (lines.filterMap ConfigLine.loglevel?).headD []
  port : config.port.toNat = (lines.filterMap ConfigLine.port?).headD 0
  databases : config.databases = (lines.filterMap ConfigLine.databases?).headD 0
  users : config.users.Valid ∧
    List.Forall₂ (fun (credentials : List UInt8 × List UInt8) (user : User) => user.IsOf credentials)
      (lines.filterMap ConfigLine.user?) config.users.elems

/-- The lines with a newline between each two, and one at the end or not. -/
def configFile (lines : List ConfigLine) (final : Bool) : List UInt8 :=
  List.intercalate [ascii '\n'] (lines.map ConfigLine.text) ++ if final then [ascii '\n'] else []

end Lines

section Values

variable {supply : Supply} {tail : List UInt8}

/-- The end of a line: nothing that is read, skipped or collected goes on behind it. -/
structure LineEnds (tail : List UInt8) : Prop where
  comment : configCommentByte (parserNew tail).ch = false
  space : configSpace (parserNew tail).ch = false
  string : configStringByte (parserNew tail).ch = false
  address : configAddressByte (parserNew tail).ch = false
  digit : isDigit (parserNew tail).ch = false

theorem lineEnds_of (ends : (parserNew tail).ch = 0 ∨ (parserNew tail).ch = ascii '\n') : LineEnds tail := by
  rcases ends with same | same
  · constructor <;> rw [same] <;> decide
  · constructor <;> rw [same] <;> decide

theorem LineEnds.ends (ends : LineEnds tail) : (parserNew tail).ch = 0 ∨ (parserNew tail).ch = ascii '\n' := by
  have stops := ends.comment
  simp only [configCommentByte, Bool.and_eq_false_iff, decide_eq_false_iff_not, not_not] at stops
  exact stops.symm

theorem LineEnds.skipSpaces (ends : LineEnds tail) (fuel : Nat) :
    configParserSkipSpaces (fuel + 1) (parserNew tail) = .ok (parserNew tail) :=
  parserSkip_span [] tail (by simp) ends.space (by simp)

theorem ConfigWord.string {text : List UInt8} (word : ConfigWord text) :
    ∀ byte ∈ text, configStringByte byte = true ∧ configSpace byte = false := by
  intro byte member
  obtain ⟨space, tab, newline, zero⟩ := word.plain byte member
  simp [configStringByte, configSpace, space, tab, newline, zero]

/-- A value that is not empty starts with none of the bytes it does not hold. -/
private theorem start_of {stop : UInt8 → Bool} {text : List UInt8} (some_ : text ≠ []) (each : ∀ byte ∈ text, stop byte = false) :
    stop (parserNew (text ++ tail)).ch = false := by
  obtain ⟨first, others, rfl⟩ := List.exists_cons_of_ne_nil some_
  exact each first (List.mem_cons_self ..)

/-- The word and the space in front of a value. -/
private theorem toValue (supply : Supply) (front tail : List UInt8) (listed : (word, type) ∈ configLookups)
    (spaced : front = word ++ [ascii ' ']) {text : List UInt8} (starts : configSpace (parserNew (text ++ tail)).ch = false)
    (enough : front.length < fuel) :
    configParserParseLineDataType supply fuel (parserNew (front ++ text ++ tail)) =
        .ok (.ok type, parserNew (ascii ' ' :: (text ++ tail))) ∧
      configParserSkipSpaces fuel (parserNew (ascii ' ' :: (text ++ tail))) = .ok (parserNew (text ++ tail)) := by
  subst front
  rw [List.length_append, List.length_singleton] at enough
  have whole : word ++ [ascii ' '] ++ text ++ tail = word ++ ascii ' ' :: (text ++ tail) := by simp
  rw [whole]
  exact ⟨configParserParseLineDataType_word supply listed (text ++ tail) (Nat.lt_of_succ_lt enough),
    parserSkip_span [ascii ' '] (text ++ tail) (List.all_eq_true.mp (by decide)) starts
      (by simp only [List.length_singleton]; omega)⟩

private theorem not_space_of_address {byte : UInt8} (address : configAddressByte byte = true) : configSpace byte = false := by
  by_contra space
  simp only [configSpace, Bool.not_eq_false, Bool.or_eq_true, decide_eq_true_eq] at space
  rcases space with rfl | rfl
  · exact absurd address (by decide)
  · exact absurd address (by decide)

theorem configParserParseLine_address (grants : supply.Grants) (ends : LineEnds tail) (some_ : text ≠ [])
    (each : ∀ byte ∈ text, isDigit byte = true ∨ byte = ascii '.') (short : text.length ≤ vstrMaxLargeSize) :
    ∃ s : Vstr, s.Valid ∧ s.bytes = text ∧ ∀ fuel, text.length + 9 < fuel →
      configParserParseLine supply fuel (parserNew (cstr "address " ++ text ++ tail)) = .ok (.ok (.address s), parserNew tail) := by
  have bytes : ∀ byte ∈ text, configAddressByte byte = true := by
    intro byte member
    simpa [configAddressByte] using each byte member
  obtain ⟨s, valid, content, read⟩ := parserCollect_fresh grants text tail bytes ends.address short
  refine ⟨s, valid, content, fun fuel enough => ?_⟩
  obtain ⟨less, rfl⟩ : ∃ less, fuel = less + 1 := ⟨fuel - 1, by omega⟩
  obtain ⟨typed, skipped⟩ := toValue supply (cstr "address ") tail (show (cstr "address", LineDataType.address) ∈ configLookups by decide) rfl
    (start_of some_ fun byte member => not_space_of_address (bytes byte member)) (show (cstr "address ").length < less + 1 by simp [cstr]; omega)
  have collected : parserCollect supply configAddressByte (less + 1) vstrNew (parserNew (text ++ tail)) = .ok (s, parserNew tail) :=
    read (less + 1) (by omega)
  simp only [configParserParseLine, typed, ok_bind, skipped, configParserParseAddress, collected, ends.skipSpaces, configLineGoesOn,
    ends.comment, pure_eq_ok, Bool.false_eq_true, ↓reduceIte]

theorem configParserParseLine_loglevel (grants : supply.Grants) (ends : LineEnds tail) (word : ConfigWord text) :
    ∃ s : Vstr, s.Valid ∧ s.bytes = text ∧ ∀ fuel, text.length + 10 < fuel →
      configParserParseLine supply fuel (parserNew (cstr "loglevel " ++ text ++ tail)) = .ok (.ok (.loglevel s), parserNew tail) := by
  obtain ⟨s, valid, content, read⟩ := configParserReadString_span grants text tail (fun byte member => (word.string byte member).1)
    ends.string word.short
  refine ⟨s, valid, content, fun fuel enough => ?_⟩
  obtain ⟨less, rfl⟩ : ∃ less, fuel = less + 1 := ⟨fuel - 1, by omega⟩
  obtain ⟨typed, skipped⟩ := toValue supply (cstr "loglevel ") tail (show (cstr "loglevel", LineDataType.logLevel) ∈ configLookups by decide) rfl
    (start_of word.some_ fun byte member => (word.string byte member).2) (show (cstr "loglevel ").length < less + 1 by simp [cstr]; omega)
  simp only [configParserParseLine, typed, ok_bind, skipped, configParserParseLogLevel, read (less + 1) (by omega), ends.skipSpaces,
    configLineGoesOn, ends.comment, pure_eq_ok, Bool.false_eq_true, ↓reduceIte]

private theorem not_space_of_digit {byte : UInt8} (digit : isDigit byte = true) : configSpace byte = false :=
  not_space_of_address (by simp [configAddressByte, digit])

/-- A number starts with a digit, and if it has none the line ends here. -/
private theorem digits_start (ends : LineEnds tail) (all : ∀ byte ∈ digits, isDigit byte = true) :
    configSpace (parserNew (digits ++ tail)).ch = false := by
  cases digits with
  | nil => exact ends.space
  | cons first digits => exact not_space_of_digit (all first (List.mem_cons_self ..))

/-- A number of any length is a port if what is left of it in 64 bits is. -/
theorem configParserParseLine_portDigits (supply : Supply) (ends : LineEnds tail) (all : ∀ byte ∈ digits, isDigit byte = true)
    (enough : digits.length + 6 < fuel) :
    configParserParseLine supply fuel (parserNew (cstr "port " ++ digits ++ tail)) =
      .ok (if decimalValue digits % sizeMod > 65535 then .err (decimal (decimalValue digits % sizeMod) ++ cstr " is too big to be a port")
        else .ok (.port (UInt16.ofNat (decimalValue digits % sizeMod))), parserNew tail) := by
  obtain ⟨less, rfl⟩ : ∃ less, fuel = less + 1 := ⟨fuel - 1, by omega⟩
  obtain ⟨typed, skipped⟩ := toValue supply (cstr "port ") tail (show (cstr "port", LineDataType.port) ∈ configLookups by decide) rfl
    (digits_start ends all) (show (cstr "port ").length < less + 1 by simp [cstr]; omega)
  have read := parseLen_span all tail ends.digit (show digits.length < less + 1 by omega)
  simp only [configParserParseLine, typed, ok_bind, skipped, configParserParsePort, read, ends.skipSpaces, configLineGoesOn, ends.comment,
    pure_eq_ok, Bool.false_eq_true, ↓reduceIte]
  split <;> rfl

theorem configParserParseLine_databasesDigits (supply : Supply) (ends : LineEnds tail) (all : ∀ byte ∈ digits, isDigit byte = true)
    (enough : digits.length + 11 < fuel) :
    configParserParseLine supply fuel (parserNew (cstr "databases " ++ digits ++ tail)) =
      .ok (.ok (.databases (decimalValue digits % sizeMod)), parserNew tail) := by
  obtain ⟨less, rfl⟩ : ∃ less, fuel = less + 1 := ⟨fuel - 1, by omega⟩
  obtain ⟨typed, skipped⟩ := toValue supply (cstr "databases ") tail (show (cstr "databases", LineDataType.databases) ∈ configLookups by decide) rfl
    (digits_start ends all) (show (cstr "databases ").length < less + 1 by simp [cstr]; omega)
  have read := parseLen_span all tail ends.digit (show digits.length < less + 1 by omega)
  simp only [configParserParseLine, typed, ok_bind, skipped, configParserParseNumDatabases, read, ends.skipSpaces, configLineGoesOn,
    ends.comment, pure_eq_ok, Bool.false_eq_true, ↓reduceIte, Result.map]

theorem configParserParseLine_port (supply : Supply) (ends : LineEnds tail) (all : ∀ byte ∈ digits, isDigit byte = true)
    (small : decimalValue digits ≤ 65535) (enough : digits.length + 6 < fuel) :
    configParserParseLine supply fuel (parserNew (cstr "port " ++ digits ++ tail)) =
      .ok (.ok (.port (UInt16.ofNat (decimalValue digits))), parserNew tail) := by
  have whole : decimalValue digits % sizeMod = decimalValue digits := Nat.mod_eq_of_lt (Nat.lt_of_le_of_lt small (by decide))
  rw [configParserParseLine_portDigits supply ends all enough, whole, if_neg (Nat.not_lt.mpr small)]

theorem configParserParseLine_databases (supply : Supply) (ends : LineEnds tail) (all : ∀ byte ∈ digits, isDigit byte = true)
    (small : decimalValue digits < sizeMod) (enough : digits.length + 11 < fuel) :
    configParserParseLine supply fuel (parserNew (cstr "databases " ++ digits ++ tail)) =
      .ok (.ok (.databases (decimalValue digits)), parserNew tail) := by
  rw [configParserParseLine_databasesDigits supply ends all enough, Nat.mod_eq_of_lt small]

/-- A user without a password. -/
theorem configParserParseLine_name (grants : supply.Grants) (ends : LineEnds tail) (writable : Writable (name, [])) :
    ∃ user : User, user.IsOf (name, []) ∧ ∀ fuel, name.length + 6 < fuel →
      configParserParseLine supply fuel (parserNew (cstr "user " ++ name ++ tail)) = .ok (.ok (.user user), parserNew tail) := by
  obtain ⟨s, valid, content, read⟩ := configParserReadString_span grants name tail (fun byte member => (writable.name byte member).1)
    ends.string writable.short.1
  refine ⟨{ User.zero with name := s, password := vstrNew }, ⟨⟨valid, content⟩, vstrNew_valid, vstrNew_bytes⟩, fun fuel enough => ?_⟩
  obtain ⟨less, rfl⟩ : ∃ less, fuel = less + 1 := ⟨fuel - 1, by omega⟩
  obtain ⟨typed, skipped⟩ := toValue supply (cstr "user ") tail (show (cstr "user", LineDataType.user) ∈ configLookups by decide) rfl
    (start_of writable.some_ fun byte member => (writable.name byte member).2) (show (cstr "user ").length < less + 1 by simp [cstr]; omega)
  simp only [configParserParseLine, typed, ok_bind, skipped, configParserParseUser, read (less + 1) (by omega), ends.skipSpaces,
    configParserPasswords, configLineGoesOn, ends.comment, pure_eq_ok, Bool.false_eq_true, ↓reduceIte, Result.map]

end Values

section Files

variable {supply : Supply} {config : Config}

private theorem filterMap_none {f : ConfigLine → Option β} (before : List ConfigLine) (skipped : f line = none) :
    (before ++ [line]).filterMap f = before.filterMap f := by
  rw [List.filterMap_append, List.filterMap_cons_none skipped, List.filterMap_nil, List.append_nil]

/-- What may be set once and is set last was not set before. -/
private theorem filterMap_some {f : ConfigLine → Option β} {before : List ConfigLine}
    (once : ((before ++ [line]).filterMap f).length ≤ 1) (set : f line = some value) :
    before.filterMap f = [] ∧ (before ++ [line]).filterMap f = [value] := by
  have whole : (before ++ [line]).filterMap f = before.filterMap f ++ [value] := by
    rw [List.filterMap_append, List.filterMap_cons_some set, List.filterMap_nil]
  rw [whole, List.length_append, List.length_singleton] at once
  have none_ : before.filterMap f = [] := List.eq_nil_of_length_eq_zero (by omega)
  exact ⟨none_, by rw [whole, none_, List.nil_append]⟩

private theorem vstrLen_of_bytes {s : Vstr} (valid : s.Valid) (empty : s.bytes = []) : vstrLen s = 0 := by
  rw [← valid.length, empty]
  rfl

/-- What a line does not set stays. -/
private theorem Config.Has.kept {before : List ConfigLine} (has : config.Has before) (line : ConfigLine) :
    (line.address? = none → config.address.Valid ∧
      config.address.bytes = ((before ++ [line]).filterMap ConfigLine.address?).headD []) ∧
    (line.loglevel? = none → config.loglevel.Valid ∧
      config.loglevel.bytes = ((before ++ [line]).filterMap ConfigLine.loglevel?).headD []) ∧
    (line.port? = none → config.port.toNat = ((before ++ [line]).filterMap ConfigLine.port?).headD 0) ∧
    (line.databases? = none → config.databases = ((before ++ [line]).filterMap ConfigLine.databases?).headD 0) ∧
    (line.user? = none → config.users.Valid ∧
      List.Forall₂ (fun (credentials : List UInt8 × List UInt8) (user : User) => user.IsOf credentials)
        ((before ++ [line]).filterMap ConfigLine.user?) config.users.elems) := by
  refine ⟨fun none_ => ?_, fun none_ => ?_, fun none_ => ?_, fun none_ => ?_, fun none_ => ?_⟩
  · exact (filterMap_none before none_).symm ▸ has.address
  · exact (filterMap_none before none_).symm ▸ has.loglevel
  · exact (filterMap_none before none_).symm ▸ has.port
  · exact (filterMap_none before none_).symm ▸ has.databases
  · exact (filterMap_none before none_).symm ▸ has.users

/-- A user is pushed behind the ones before. -/
private theorem Config.Has.user {before : List ConfigLine} (has : config.Has before) {user : User} {name : List UInt8}
    (password : Option (List UInt8)) (isOf : user.IsOf (name, password.getD [])) (granted : realloc.isSome) :
    ∃ after, config.add realloc (.user user) = .ok after ∧ after.Has (before ++ [.user name password]) := by
  obtain ⟨address, loglevel, port, databases, _⟩ := has.kept (.user name password)
  obtain ⟨pushed, same, kept, content⟩ := vecPush_spec has.users.1 (fun _ => granted) user
  refine ⟨{ config with users := pushed }, by simp only [Config.add, same],
    address rfl, loglevel rfl, port rfl, databases rfl, kept, ?_⟩
  have listed : (before ++ [ConfigLine.user name password]).filterMap ConfigLine.user? =
      before.filterMap ConfigLine.user? ++ [(name, password.getD [])] := by
    rw [List.filterMap_append, List.filterMap_cons_some (by rfl), List.filterMap_nil]
  rw [listed, content]
  exact List.rel_append has.users.2 (.cons isOf .nil)

/-- A line is passed and what it sets is set: what follows is parsed from the
configuration with that line. -/
theorem Config.Has.line (grants : supply.Grants) {before : List ConfigLine} (has : config.Has before) {line : ConfigLine}
    (formed : line.WellFormed) (once : SetOnce (before ++ [line])) {tail : List UInt8} (ends : LineEnds tail) :
    ∃ after : Config, after.Has (before ++ [line]) ∧
      ∀ result, after.Leads supply (parserNew tail) result → config.Leads supply (parserNew (line.text ++ tail)) result := by
  have granted : (supply.mem (parserNew tail).rest.length 2).realloc.isSome := (grants _ _).2
  have kept := has.kept line
  cases line with
  | blank =>
    obtain ⟨address, loglevel, port, databases, users⟩ := kept
    exact ⟨config, ⟨address rfl, loglevel rfl, port rfl, databases rfl, users rfl⟩, fun result leads => leads⟩
  | comment text =>
    obtain ⟨address, loglevel, port, databases, users⟩ := kept
    have each : ∀ byte ∈ text, configCommentByte byte = true := by
      intro byte member
      simpa [configCommentByte] using formed byte member
    exact ⟨config, ⟨address rfl, loglevel rfl, port rfl, databases rfl, users rfl⟩,
      fun result leads => leads.skip (Parser.skipsTo_comment each ends.comment)⟩
  | user name password =>
    cases password with
    | none =>
      obtain ⟨user, isOf, parsed⟩ := configParserParseLine_name grants ends formed
      obtain ⟨after, added, next⟩ := has.user none isOf granted
      exact ⟨after, next, fun result leads => leads.directive (by simp [ConfigLine.text, cstr]; decide) (name.length + 7) parsed added⟩
    | some password =>
      obtain ⟨user, isOf, parsed⟩ := configParserParseLine_user grants formed ends.ends
      obtain ⟨after, added, next⟩ := has.user (some password) isOf granted
      exact ⟨after, next, fun result leads => leads.directive (by simp [ConfigLine.text, userLine, cstr]; decide) _ parsed added⟩
  | address text =>
    obtain ⟨_, loglevel, port, databases, users⟩ := kept
    obtain ⟨some_, each, short⟩ := formed
    obtain ⟨s, valid, content, parsed⟩ := configParserParseLine_address grants ends some_ each short
    obtain ⟨unset, set⟩ := filterMap_some once.address rfl
    have empty : vstrLen config.address = 0 := vstrLen_of_bytes has.address.1 (by rw [has.address.2, unset]; rfl)
    refine ⟨{ config with address := s }, ⟨by rw [set]; exact ⟨valid, content⟩, loglevel rfl, port rfl, databases rfl, users rfl⟩,
      fun result leads => leads.directive (by simp [ConfigLine.text, cstr]; decide) (text.length + 10) parsed ?_⟩
    simp [Config.add, empty]
  | loglevel text =>
    obtain ⟨address, _, port, databases, users⟩ := kept
    obtain ⟨s, valid, content, parsed⟩ := configParserParseLine_loglevel grants ends formed
    obtain ⟨unset, set⟩ := filterMap_some once.loglevel rfl
    have empty : vstrLen config.loglevel = 0 := vstrLen_of_bytes has.loglevel.1 (by rw [has.loglevel.2, unset]; rfl)
    refine ⟨{ config with loglevel := s }, ⟨address rfl, by rw [set]; exact ⟨valid, content⟩, port rfl, databases rfl, users rfl⟩,
      fun result leads => leads.directive (by simp [ConfigLine.text, cstr]; decide) (text.length + 11) parsed ?_⟩
    simp [Config.add, empty]
  | port digits =>
    obtain ⟨address, loglevel, _, databases, users⟩ := kept
    obtain ⟨all, _, small⟩ := formed
    obtain ⟨unset, set⟩ := filterMap_some once.port rfl
    have empty : config.port = 0 := UInt16.toNat_inj.mp (has.port.trans (by rw [unset]; rfl))
    refine ⟨{ config with port := UInt16.ofNat (decimalValue digits) },
      ⟨address rfl, loglevel rfl, by rw [set]; exact UInt16.toNat_ofNat_of_lt' (Nat.lt_of_le_of_lt small (by decide)), databases rfl, users rfl⟩,
      fun result leads => leads.directive (by simp [ConfigLine.text, cstr]; decide) (digits.length + 7)
        (fun fuel enough => configParserParseLine_port supply ends all small enough) ?_⟩
    simp [Config.add, empty]
  | databases digits =>
    obtain ⟨address, loglevel, port, _, users⟩ := kept
    obtain ⟨all, _, small⟩ := formed
    obtain ⟨unset, set⟩ := filterMap_some once.databases rfl
    have empty : config.databases = 0 := has.databases.trans (by rw [unset]; rfl)
    refine ⟨{ config with databases := decimalValue digits },
      ⟨address rfl, loglevel rfl, port rfl, by rw [set]; rfl, users rfl⟩,
      fun result leads => leads.directive (by simp [ConfigLine.text, cstr]; decide) (digits.length + 12)
        (fun fuel enough => configParserParseLine_databases supply ends all small enough) ?_⟩
    simp [Config.add, empty]

/-- What the file goes on with behind a line. -/
def lineTail (lines : List ConfigLine) (final : Bool) : List UInt8 :=
  lines.flatMap (fun line => ascii '\n' :: line.text) ++ if final then [ascii '\n'] else []

theorem lineTail_ends (lines : List ConfigLine) (final : Bool) : LineEnds (lineTail lines final) := by
  refine lineEnds_of ?_
  cases lines with
  | nil =>
    cases final with
    | false => exact .inl rfl
    | true => exact .inr rfl
  | cons line lines => exact .inr rfl

theorem configFile_cons (line : ConfigLine) (lines : List ConfigLine) (final : Bool) :
    configFile (line :: lines) final = line.text ++ lineTail lines final := by
  have joined : ∀ text : List UInt8, List.intercalate [ascii '\n'] (text :: lines.map ConfigLine.text) =
      text ++ lines.flatMap (fun line => ascii '\n' :: line.text) := by
    induction lines with
    | nil => simp
    | cons next lines ih =>
      intro text
      have rest := ih next.text
      simp only [List.map_cons, List.flatMap_cons] at rest ⊢
      rw [List.intercalate_cons_cons, rest]
      simp
  simp only [configFile, List.map_cons, joined, lineTail, List.append_assoc]

/-- No line starts with a blank. -/
private theorem text_start (line : ConfigLine) {tail : List UInt8} (ends : LineEnds tail) :
    configWhitespace (parserNew (line.text ++ tail)).ch = false ∨ (parserNew (line.text ++ tail)).ch = ascii '\n' := by
  cases line with
  | blank =>
    rcases ends.ends with zero | newline
    · refine .inl ?_
      simp only [ConfigLine.text, List.nil_append, zero]
      decide
    · exact .inr newline
  | comment text => exact .inl (show configWhitespace (ascii '#') = false by decide)
  | user name password =>
    cases password with
    | none => exact .inl (show configWhitespace (ascii 'u') = false by decide)
    | some password => exact .inl (show configWhitespace (ascii 'u') = false by decide)
  | address text => exact .inl (show configWhitespace (ascii 'a') = false by decide)
  | loglevel text => exact .inl (show configWhitespace (ascii 'l') = false by decide)
  | port digits => exact .inl (show configWhitespace (ascii 'p') = false by decide)
  | databases digits => exact .inl (show configWhitespace (ascii 'd') = false by decide)

private theorem SetOnce.front {before lines : List ConfigLine} (once : SetOnce (before ++ line :: lines)) : SetOnce (before ++ [line]) := by
  have shorter : (before ++ [line]).Sublist (before ++ line :: lines) := by simp
  exact ⟨Nat.le_trans (shorter.filterMap _).length_le once.address, Nat.le_trans (shorter.filterMap _).length_le once.loglevel,
    Nat.le_trans (shorter.filterMap _).length_le once.port, Nat.le_trans (shorter.filterMap _).length_le once.databases⟩

/-- Behind the last line there is nothing, or a newline. -/
theorem Config.leads_lineTail (config : Config) (final : Bool) : config.Leads supply (parserNew (lineTail [] final)) (.ok config) := by
  cases final with
  | false => exact config.leads_end rfl
  | true => exact (config.leads_end rfl).skip (Parser.skipsTo_newline (.inl (show configWhitespace 0 = false by decide)))

/-- One line after the other, up to the end of the file. -/
theorem Config.Has.lines (grants : supply.Grants) (final : Bool) {lines : List ConfigLine} (formed : ∀ line ∈ lines, line.WellFormed) :
    ∀ {before : List ConfigLine} {config : Config}, config.Has before → SetOnce (before ++ lines) →
      ∃ after : Config, after.Has (before ++ lines) ∧ config.Leads supply (parserNew (lineTail lines final)) (.ok after) := by
  induction lines with
  | nil =>
    intro before config has _
    exact ⟨config, by rwa [List.append_nil], config.leads_lineTail final⟩
  | cons line lines ih =>
    intro before config has once
    obtain ⟨next, nextHas, leads⟩ :=
      has.line grants (formed line (List.mem_cons_self ..)) once.front (lineTail_ends lines final)
    have split : before ++ line :: lines = before ++ [line] ++ lines := by simp
    rw [split] at once ⊢
    obtain ⟨after, afterHas, rest⟩ := ih (fun other member => formed other (List.mem_cons_of_mem _ member)) nextHas once
    have tail : lineTail (line :: lines) final = ascii '\n' :: (line.text ++ lineTail lines final) := by
      simp only [lineTail, List.flatMap_cons, List.cons_append, List.append_assoc]
    refine ⟨after, afterHas, ?_⟩
    rw [tail]
    exact (leads _ rest).skip (Parser.skipsTo_newline (text_start line (lineTail_ends lines final)))

theorem configNew_has (address : Nat) : (configNew address).Has [] :=
  ⟨⟨vstrNew_valid, vstrNew_bytes⟩, ⟨vstrNew_valid, vstrNew_bytes⟩, rfl, rfl, vecNew_valid address, .nil⟩

/-- A file of well-formed lines, none of which sets again what one before it has set,
is accepted, and its settings are those of its lines. -/
theorem parseConfig_lines (grants : supply.Grants) (lines : List ConfigLine) (formed : ∀ line ∈ lines, line.WellFormed)
    (once : SetOnce lines) (final : Bool) :
    ∃ (config : Config) (enough : Nat), config.Has lines ∧
      ∀ fuel, enough ≤ fuel → parseConfig supply fuel (configFile lines final) = .ok (.ok config) := by
  obtain ⟨address, granted⟩ := Option.isSome_iff_exists.mp (grants (configFile lines final).length 0).1
  have fresh := configNew_has address
  have parsed : ∃ after : Config, after.Has lines ∧ (configNew address).Leads supply (parserNew (configFile lines final)) (.ok after) := by
    cases lines with
    | nil => exact fresh.lines grants final formed once
    | cons line lines =>
      have first : SetOnce ([] ++ line :: lines) := once
      obtain ⟨next, nextHas, leads⟩ := fresh.line grants (formed line (List.mem_cons_self ..)) first.front (lineTail_ends lines final)
      obtain ⟨after, afterHas, rest⟩ :=
        nextHas.lines grants final (fun other member => formed other (List.mem_cons_of_mem _ member)) once
      rw [configFile_cons]
      exact ⟨after, afterHas, leads _ rest⟩
  obtain ⟨config, has, enough, parsed⟩ := parsed
  exact ⟨config, enough, has, fun fuel more => by simp only [parseConfig, granted, parsed fuel more]⟩

/-- Every kind of line. -/
def sampleConfigLines : List ConfigLine :=
  [.comment (cstr " users"), .user (cstr "root") (some (cstr "root")), .user (cstr "guest") none, .blank, .port (cstr "1234"),
    .loglevel (cstr "info"), .address (cstr "127.0.0.1"), .databases (cstr "16")]

private theorem string_of_all {text : List UInt8} (plain : text.all (fun byte => configStringByte byte && !configSpace byte) = true) :
    ∀ byte ∈ text, configStringByte byte = true ∧ configSpace byte = false := by
  intro byte member
  simpa using List.all_eq_true.mp plain byte member

theorem sampleConfigLines_formed : ∀ line ∈ sampleConfigLines, line.WellFormed := by
  simp only [sampleConfigLines, List.forall_mem_cons, List.not_mem_nil, false_implies, implies_true, and_true]
  refine ⟨?_, ⟨by decide, string_of_all (by decide), List.all_eq_true.mp (by decide), by decide⟩,
    ⟨by decide, string_of_all (by decide), List.all_eq_true.mp (by decide), by decide⟩, trivial,
    ⟨List.all_eq_true.mp (by decide), by decide, by decide⟩, ⟨by decide, ?_, by decide⟩, ⟨by decide, ?_, by decide⟩,
    ⟨List.all_eq_true.mp (by decide), by decide, by decide⟩⟩
  · intro byte member
    simpa using List.all_eq_true.mp (show (cstr " users").all (fun byte => byte ≠ ascii '\n' && byte ≠ 0) = true by decide) byte member
  · intro byte member
    simpa [and_assoc] using List.all_eq_true.mp (show (cstr "info").all (fun byte => byte ≠ ascii ' ' && byte ≠ ascii '\t' &&
      byte ≠ ascii '\n' && byte ≠ 0) = true by decide) byte member
  · intro byte member
    simpa using List.all_eq_true.mp (show (cstr "127.0.0.1").all (fun byte => isDigit byte || byte = ascii '.') = true by decide) byte member

theorem parseConfig_lines_sample :
    ∃ (config : Config) (enough : Nat), config.Has sampleConfigLines ∧
      ∀ fuel, enough ≤ fuel → parseConfig (.granted fun unread _ => unread) fuel (configFile sampleConfigLines true) = .ok (.ok config) :=
  parseConfig_lines (Supply.granted_grants fun unread _ => unread) sampleConfigLines sampleConfigLines_formed
    ⟨by decide, by decide, by decide, by decide⟩ true

/-- A file that only lists users. -/
theorem parseConfig_users (grants : supply.Grants) (all : List (List UInt8 × List UInt8)) (writable : ∀ one ∈ all, Writable one) :
    ∃ enough config, config.users.Valid ∧
      List.Forall₂ (fun (credentials : List UInt8 × List UInt8) (user : User) => user.IsOf credentials) all config.users.elems ∧
      ∀ fuel, enough ≤ fuel → parseConfig supply fuel (userFile all) = .ok (.ok config) := by
  let lines := ConfigLine.blank :: all.map fun credentials => .user credentials.1 (some credentials.2)
  have formed : ∀ line ∈ lines, line.WellFormed := by
    simp only [lines, List.forall_mem_cons, List.forall_mem_map]
    exact ⟨trivial, writable⟩
  have unset {β : Type} (f : ConfigLine → Option β) (blank : f .blank = none) (user : ∀ name password, f (.user name password) = none) :
      (lines.filterMap f).length ≤ 1 := by
    have none_ : lines.filterMap f = [] := by
      simp only [lines, List.filterMap_eq_nil_iff, List.forall_mem_cons, List.forall_mem_map]
      exact ⟨blank, fun _ _ => user _ _⟩
    rw [none_]
    exact Nat.zero_le 1
  have once : SetOnce lines :=
    ⟨unset _ rfl fun _ _ => rfl, unset _ rfl fun _ _ => rfl, unset _ rfl fun _ _ => rfl, unset _ rfl fun _ _ => rfl⟩
  obtain ⟨config, enough, has, parsed⟩ := parseConfig_lines grants lines formed once false
  have file : configFile lines false = userFile all := by
    rw [configFile_cons]
    simp [ConfigLine.text, lineTail, userFile, List.flatMap_map]
  have listed : lines.filterMap ConfigLine.user? = all := by
    have each : (all.map fun credentials => ConfigLine.user credentials.1 (some credentials.2)).filterMap ConfigLine.user? = all := by
      rw [List.filterMap_map]
      exact List.filterMap_some
    exact each
  rw [file] at parsed
  exact ⟨enough, config, has.users.1, listed ▸ has.users.2, parsed⟩

end Files

end LexiDB
