import LexiDB.ConfigTermination

/-! The directives that are parsed of a file, and which of them the configuration
heeds. -/

namespace LexiDB

open Lib

section Directives

/-- The lines of a file as `config_parser_parse` has them parsed one after the other,
each with the parser behind it: up to the end of the file or to the first that is not
a line. -/
def configParserLines (supply : Supply) : Nat → Parser → Except Halt (List (LineData × Parser) × Bool)
  | 0, _ => .error .fuel
  | fuel + 1, p =>
    if p.ch = 0 then .ok ([], true)
    else do
      let p ← configParserSkipEmptyLinesAndComments fuel p
      if p.ch = 0 then return ([], true)
      let (line, p) ← configParserParseLine supply fuel p
      match line with
      | .err _ => return ([], false)
      | .ok line => do
        let (lines, ended) ← configParserLines supply fuel p
        return ((line, p) :: lines, ended)

/-- All of them are added, until one is refused. -/
def Config.addAll (supply : Supply) (config : Config) : List (LineData × Parser) → Result Config
  | [] => .ok config
  | (line, p) :: lines =>
    match config.add (supply.mem p.rest.length 2).realloc line with
    | .err text => .err text
    | .ok config => config.addAll supply lines

variable {supply : Supply}

/-- Each line that is parsed takes at least a byte. -/
theorem configParserLines_total (grants : supply.Grants) (p : Parser) : Total fun fuel => configParserLines supply fuel p := by
  induction count : p.pending using Nat.strongRecOn generalizing p with
  | _ pending ih =>
    refine .of_succ rfl ?_
    simp only [configParserLines]
    split
    · exact .pure _
    · refine (configParserSkipEmptyLinesAndComments_total p).bind fun start fuel skipped => ?_
      have blank := configParserSkipEmptyLinesAndComments_pending fuel p start skipped
      split
      · exact .pure _
      · refine (configParserParseLine_total grants start).bind ?_
        rintro ⟨line, behind⟩ _ parsed
        cases line with
        | err text => exact .pure _
        | ok line =>
          have fewer := (configParserParseLine_kept grants parsed).1
          exact (ih behind.pending (by omega) behind rfl).bind fun _ _ _ => .pure _

/-- Parsing is to parse the lines and to add them. -/
theorem configParserParse_lines (fuel : Nat) : ∀ (config : Config) (p : Parser) {lines ended},
    configParserLines supply fuel p = .ok (lines, ended) → ∃ result, configParserParse supply fuel config p = .ok result ∧
      ∀ after, result = .ok after ↔ ended = true ∧ config.addAll supply lines = .ok after := by
  induction fuel with
  | zero =>
    intro config p lines ended parsed
    cases parsed
  | succ fuel ih =>
    intro config p lines ended parsed
    simp only [configParserLines] at parsed
    simp only [configParserParse]
    split at parsed
    · cases parsed
      rename_i ends
      exact ⟨.ok config, by rw [if_pos ends], fun after => by simp [Config.addAll]⟩
    · rename_i some_
      obtain ⟨start, skipped, parsed⟩ := bind_eq_ok.mp parsed
      simp only [if_neg some_, skipped, ok_bind]
      split at parsed
      · cases parsed
        rename_i ends
        exact ⟨.ok config, by rw [if_pos ends]; rfl, fun after => by simp [Config.addAll]⟩
      · rename_i here
        obtain ⟨⟨line, behind⟩, read, parsed⟩ := bind_eq_ok.mp parsed
        simp only [if_neg here, read, ok_bind]
        cases line with
        | err text =>
          cases parsed
          exact ⟨.err text, rfl, fun after => by simp⟩
        | ok line =>
          obtain ⟨⟨rest, last⟩, later, parsed⟩ := bind_eq_ok.mp parsed
          cases parsed
          simp only [Config.addAll]
          cases added : config.add (supply.mem behind.rest.length 2).realloc line with
          | err text => exact ⟨.err text, rfl, fun after => by simp⟩
          | ok next => exact ih next behind later

end Directives

section Settings

def LineData.type : LineData → LineDataType
  | .address _ => .address
  | .loglevel _ => .logLevel
  | .port _ => .port
  | .databases _ => .databases
  | .user _ => .user

/-- A value that a second setting does not see, and a user, which none looks for. -/
def LineData.blank : LineData → Bool
  | .address s | .loglevel s => vstrLen s = 0
  | .port number => number = 0
  | .databases count => count = 0
  | .user _ => true

/-- The configuration can take a line of this type. -/
def Config.free (config : Config) : LineDataType → Bool
  | .address => vstrLen config.address = 0
  | .logLevel => vstrLen config.loglevel = 0
  | .port => config.port = 0
  | .databases => config.databases = 0
  | .user => true

/-- The value is the one of the configuration. -/
def Config.Holds (config : Config) : LineData → Prop
  | .address s => config.address = s
  | .loglevel s => config.loglevel = s
  | .port number => config.port = number
  | .databases count => config.databases = count
  | .user _ => True

/-- A configuration that has this line added. -/
structure Config.Took (config after : Config) (line : LineData) : Prop where
  holds : after.Holds line
  free : ∀ type, after.free type = if type = line.type then line.blank else config.free type
  others : ∀ other, other.type ≠ line.type → config.Holds other → after.Holds other

/-- The configuration with this line in it. -/
def Config.put (realloc : Option Nat) (config : Config) : LineData → Config
  | .address s => { config with address := s }
  | .loglevel s => { config with loglevel := s }
  | .port number => { config with port := number }
  | .databases count => { config with databases := count }
  | .user user => { config with users := (vecPush realloc config.users user).2 }

theorem Config.add_free (realloc : Option Nat) {config : Config} {line : LineData} (free : config.free line.type = true) :
    config.add realloc line = .ok (config.put realloc line) := by
  cases line with
  | user => rfl
  | address | loglevel | port | databases => exact if_neg (not_not.mpr (of_decide_eq_true free))

theorem Config.add_taken (realloc : Option Nat) {config : Config} {line : LineData} (taken : config.free line.type = false) :
    ∃ text, config.add realloc line = .err text := by
  cases line with
  | user => cases taken
  | address | loglevel | port | databases => exact ⟨_, if_pos (of_decide_eq_false taken)⟩

/-- Nothing else of the configuration changes. -/
theorem Config.took_put (realloc : Option Nat) (config : Config) (line : LineData) : config.Took (config.put realloc line) line where
  holds := by cases line <;> trivial
  free type := by cases line <;> cases type <;> rfl
  others other different holds := by
    cases line <;> cases other <;> first | exact holds | exact absurd rfl different

variable {supply : Supply}

/-- All of the lines are taken if there is room for each, and each that is set again
was blank before. -/
theorem Config.addAll_ok_iff (supply : Supply) (lines : List (LineData × Parser)) (config : Config) :
    (∃ after, config.addAll supply lines = .ok after) ↔
      (∀ line ∈ lines, config.free line.1.type = true) ∧
        lines.Pairwise fun first second => first.1.type = second.1.type → first.1.blank = true := by
  induction lines generalizing config with
  | nil => simp [Config.addAll]
  | cons head lines ih =>
    obtain ⟨line, p⟩ := head
    simp only [Config.addAll, List.forall_mem_cons, List.pairwise_cons]
    by_cases free : config.free line.type = true
    · rw [Config.add_free _ free]
      simp only [ih, (config.took_put _ line).free]
      constructor
      · rintro ⟨room, later⟩
        refine ⟨⟨free, fun other member => ?_⟩, fun other member same => ?_, later⟩
        · have here := room other member
          split at here
          · rename_i same
            rwa [same]
          · exact here
        · have here := room other member
          rwa [if_pos same.symm] at here
      · rintro ⟨⟨_, room⟩, blank, later⟩
        refine ⟨fun other member => ?_, later⟩
        split
        · rename_i same
          exact blank other member same.symm
        · exact room other member
    · obtain ⟨text, refused⟩ := Config.add_taken (supply.mem p.rest.length 2).realloc (Bool.not_eq_true _ ▸ free)
      rw [refused]
      constructor
      · rintro ⟨after, same⟩
        cases same
      · rintro ⟨⟨taken, _⟩, _⟩
        exact absurd taken free

/-- Where nothing is set twice the configuration has every value. -/
theorem Config.addAll_holds {lines : List (LineData × Parser)}
    (once : lines.Pairwise fun first second => first.1.type = second.1.type → first.1.type = .user) :
    ∀ {config after : Config}, config.addAll supply lines = .ok after →
      (∀ line ∈ lines, after.Holds line.1) ∧
        ∀ other : LineData, (∀ line ∈ lines, other.type ≠ line.1.type) → config.Holds other → after.Holds other := by
  induction lines with
  | nil =>
    intro config after done
    cases done
    exact ⟨by simp, fun other _ holds => holds⟩
  | cons head lines ih =>
    intro config after done
    obtain ⟨line, p⟩ := head
    obtain ⟨apart, later⟩ := List.pairwise_cons.mp once
    simp only [Config.addAll] at done
    by_cases free : config.free line.type = true
    · rw [Config.add_free _ free] at done
      have took := config.took_put (supply.mem p.rest.length 2).realloc line
      obtain ⟨holds, others⟩ := ih later done
      refine ⟨List.forall_mem_cons.mpr ⟨?_, holds⟩, fun other different kept => ?_⟩
      · by_cases user : line.type = .user
        · cases line <;> trivial
        · exact others line (fun other member same => user (apart other member same)) took.holds
      · obtain ⟨first, rest⟩ := List.forall_mem_cons.mp different
        exact others other rest (took.others other first kept)
    · obtain ⟨text, refused⟩ := Config.add_taken (supply.mem p.rest.length 2).realloc (Bool.not_eq_true _ ▸ free)
      rw [refused] at done
      cases done

/-- No line of the file goes unheeded: nothing but the users is set twice, and each
address and loglevel ends its line and is the one of the configuration. -/
structure Config.Heeds (config : Config) (lines : List (LineData × Parser)) : Prop where
  once : lines.Pairwise fun first second => first.1.type = second.1.type → first.1.type = .user
  whole : ∀ line ∈ lines, line.1.type = .address ∨ line.1.type = .logLevel →
    configLineGoesOn line.2 = false ∧ config.Holds line.1

/-- The file is one whose lines all parse, where only what is empty or zero is set
again, and yet something is set again or an address or a loglevel has text behind it. -/
structure Unheeded (lines : List (LineData × Parser)) (ended : Bool) : Prop where
  parses : ended = true
  blank : lines.Pairwise fun first second => first.1.type = second.1.type → first.1.blank = true
  slip : (¬lines.Pairwise fun first second => first.1.type = second.1.type → first.1.type = .user) ∨
    ∃ line ∈ lines, (line.1.type = .address ∨ line.1.type = .logLevel) ∧ configLineGoesOn line.2 = true

private theorem configNew_free (address : Nat) (type : LineDataType) : (configNew address).free type = true := by
  cases type <;> rfl

/-- Every file is parsed to an end, and every configuration that is accepted heeds its
file unless the file is of that kind. -/
theorem parseConfig_heeds_iff (grants : supply.Grants) (input : List UInt8) :
    ∃ (lines : List (LineData × Parser)) (ended : Bool) (enough : Nat), ∀ fuel, enough ≤ fuel →
      configParserLines supply fuel (parserNew input) = .ok (lines, ended) ∧
        ∃ result, parseConfig supply fuel input = .ok result ∧
          ((∀ config, result = .ok config → config.Heeds lines) ↔ ¬Unheeded lines ended) := by
  obtain ⟨address, granted⟩ := Option.isSome_iff_exists.mp (grants input.length 0).1
  obtain ⟨⟨lines, ended⟩, enough, seen⟩ := (configParserLines_total grants (parserNew input)).seen
  refine ⟨lines, ended, enough, fun fuel more => ⟨seen fuel more, ?_⟩⟩
  obtain ⟨result, parsed, accepted⟩ := configParserParse_lines fuel (configNew address) (parserNew input) (seen fuel more)
  refine ⟨result, by simp only [parseConfig, granted, parsed], ?_⟩
  have all := Config.addAll_ok_iff supply lines (configNew address)
  constructor
  · intro heeds slips
    obtain ⟨config, added⟩ := all.mpr ⟨fun line _ => configNew_free address line.1.type, slips.blank⟩
    obtain ⟨once, whole⟩ := heeds config ((accepted config).mpr ⟨slips.parses, added⟩)
    rcases slips.slip with again | ⟨line, member, type, goesOn⟩
    · exact again once
    · rw [(whole line member type).1] at goesOn
      cases goesOn
  · intro sound config same
    obtain ⟨parses, added⟩ := (accepted config).mp same
    obtain ⟨_, blank⟩ := all.mp ⟨config, added⟩
    have once : lines.Pairwise fun first second => first.1.type = second.1.type → first.1.type = .user := by
      by_contra again
      exact sound ⟨parses, blank, .inl again⟩
    refine ⟨once, fun line member type => ⟨?_, (Config.addAll_holds once added).1 line member⟩⟩
    by_contra goesOn
    exact sound ⟨parses, blank, .inr ⟨line, member, type, Bool.not_eq_false _ ▸ goesOn⟩⟩

/-- The supply of the examples. -/
def sampleConfigSupply : Supply := .granted fun unread _ => unread

theorem parseConfig_heeds_iff_sample :
    ∃ (lines : List (LineData × Parser)) (ended : Bool) (enough : Nat), ∀ fuel, enough ≤ fuel →
      configParserLines sampleConfigSupply fuel (parserNew (cstr "port 80")) = .ok (lines, ended) ∧
        ∃ result, parseConfig sampleConfigSupply fuel (cstr "port 80") = .ok result ∧
          ((∀ config, result = .ok config → config.Heeds lines) ↔ ¬Unheeded lines ended) :=
  parseConfig_heeds_iff (Supply.granted_grants _) (cstr "port 80")

/-- An address with a directive behind it is dropped, and a port of zero is set again. -/
theorem parseConfig_unheeded :
    (∃ lines config, configParserLines sampleConfigSupply 40 (parserNew (cstr "address 127.0.0.1 port 80")) = .ok (lines, true) ∧
      parseConfig sampleConfigSupply 40 (cstr "address 127.0.0.1 port 80") = .ok (.ok config) ∧ config.address.bytes = [] ∧
        ¬config.Heeds lines) ∧
    ∃ lines config, configParserLines sampleConfigSupply 40 (parserNew (cstr "port 0\nport 80")) = .ok (lines, true) ∧
      parseConfig sampleConfigSupply 40 (cstr "port 0\nport 80") = .ok (.ok config) ∧ config.port = 80 ∧ ¬config.Heeds lines := by
  refine ⟨⟨_, _, rfl, rfl, by decide, fun heeds => ?_⟩, _, _, rfl, rfl, by decide, fun heeds => ?_⟩
  · exact absurd (heeds.whole _ (List.mem_cons_self ..) (.inl rfl)).1 (by decide)
  · exact absurd heeds.once (by decide)

end Settings

end LexiDB
