import LexiDB.ConfigParser
import LexiDB.ParserInvariant
import LexiDB.VstrInvariant

/-! What every configuration that is accepted has: users whose names hold no NUL,
and no more of them than there are bytes in the file. -/

namespace LexiDB

open Lib

/-- A name that `vstr_cmp` reads to its end. -/
structure User.Named (user : User) : Prop where
  name : user.name.Valid
  free : 0 ∉ user.name.bytes
  password : user.password.Valid

section Loops

variable {supply : Supply}

/-- What a loop that stops at a zero byte collects, out of the bytes it passes. -/
private theorem parserCollect_kept (grants : supply.Grants) (stops : more 0 = false) {s t : Vstr} (valid : s.Valid) (free : 0 ∉ s.bytes)
    (done : parserCollect supply more fuel s p = .ok (t, q)) :
    t.Valid ∧ 0 ∉ t.bytes ∧ t.bytes.length + q.pending ≤ s.bytes.length + p.pending := by
  have kept := whileFuel_invariant
    (fun state : Vstr × Parser => state.1.Valid ∧ 0 ∉ state.1.bytes ∧
      state.1.bytes.length + state.2.pending ≤ s.bytes.length + p.pending) ?_
    fuel (s, p) (t, q) ⟨valid, free, Nat.le_refl _⟩ done
  · exact kept.1
  · rintro ⟨text, here⟩ ⟨valid, free, counted⟩ again
    have some_ : here.ch ≠ 0 := by
      intro zero
      simp only [zero, stops, Bool.false_eq_true] at again
    have drops := Parser.pending_drops some_
    simp only at valid free counted
    obtain ⟨next, content⟩ := vstrPushChar_kept (grants here.rest.length 1) valid here.ch
    simp only [parserPush]
    rcases content with content | content
    · refine ⟨next, ?_, ?_⟩
      · rw [content]
        simpa [free] using Ne.symm some_
      · rw [content, List.length_append, List.length_singleton]
        omega
    · refine ⟨next, ?_, ?_⟩
      · rw [content]
        exact free
      · rw [content]
        omega

theorem configParserReadString_kept (grants : supply.Grants) (done : configParserReadString supply fuel p = .ok (s, q)) :
    s.Valid ∧ 0 ∉ s.bytes ∧ s.bytes.length + q.pending ≤ p.pending := by
  have kept := parserCollect_kept grants (show configStringByte 0 = false by decide) vstrNew_valid (by simp) done
  simpa using kept

theorem parserSkip_pending (stops : skipped 0 = false) (done : parserSkip skipped fuel p = .ok q) :
    q.pending ≤ p.pending := by
  have kept := whileFuel_invariant (fun here : Parser => here.pending ≤ p.pending) ?_ fuel p q (Nat.le_refl _) done
  · exact kept.1
  · intro here counted again
    have some_ : here.ch ≠ 0 := by
      intro zero
      simp only [zero, stops, Bool.false_eq_true] at again
    have drops := Parser.pending_drops some_
    omega

theorem configParserSkipSpaces_pending (done : configParserSkipSpaces fuel p = .ok q) : q.pending ≤ p.pending :=
  parserSkip_pending (by decide) done

private theorem parseLen_pending (done : parseLen fuel p = .ok (num, q)) : q.pending ≤ p.pending := by
  have kept := whileFuel_invariant (fun state : Nat × Parser => state.2.pending ≤ p.pending) ?_ fuel (0, p) (num, q)
    (Nat.le_refl _) done
  · exact kept.1
  · rintro ⟨num, here⟩ counted again
    have some_ : here.ch ≠ 0 := by
      intro zero
      simp [zero, isDigit] at again
    have drops := Parser.pending_drops some_
    simp only at counted ⊢
    omega

theorem configParserSkipEmptyLinesAndComments_pending (fuel : Nat) :
    ∀ p q, configParserSkipEmptyLinesAndComments fuel p = .ok q → q.pending ≤ p.pending := by
  induction fuel with
  | zero =>
    intro p q done
    cases done
  | succ fuel ih =>
    intro p q done
    simp only [configParserSkipEmptyLinesAndComments] at done
    split at done
    · obtain ⟨middle, skipped, done⟩ := bind_eq_ok.mp done
      exact Nat.le_trans (ih _ _ done) (parserSkip_pending (by decide) skipped)
    · split at done
      · obtain ⟨middle, skipped, done⟩ := bind_eq_ok.mp done
        exact Nat.le_trans (ih _ _ done) (parserSkip_pending (by decide) skipped)
      · cases done
        exact Nat.le_refl _

end Loops

section Lines

variable {supply : Supply}

private theorem configParserPasswords_kept (grants : supply.Grants) (fuel : Nat) :
    ∀ (user : User) p res q, user.Named → configParserPasswords supply fuel user p = .ok (res, q) →
      q.pending ≤ p.pending ∧ ∀ other, res = .ok other → other.Named := by
  induction fuel with
  | zero =>
    intro user p res q _ done
    cases done
  | succ fuel ih =>
    intro user p res q named done
    simp only [configParserPasswords] at done
    split at done
    · rename_i goesOn
      split at done
      · have some_ : p.ch ≠ 0 := by
          intro zero
          simp [configLineGoesOn, configCommentByte, zero] at goesOn
        obtain ⟨⟨password, behind⟩, read, done⟩ := bind_eq_ok.mp done
        obtain ⟨last, skipped, done⟩ := bind_eq_ok.mp done
        obtain ⟨valid, _, counted⟩ := configParserReadString_kept grants read
        obtain ⟨fewer, found⟩ := ih { user with password := password } _ _ _ ⟨named.name, named.free, valid⟩ done
        have drops := Parser.pending_drops some_
        have spaces : last.pending ≤ behind.pending := configParserSkipSpaces_pending skipped
        exact ⟨by omega, found⟩
      · cases done
        exact ⟨Nat.le_refl _, by simp⟩
    · cases done
      exact ⟨Nat.le_refl _, by rintro _ ⟨⟩; exact named⟩

private theorem configParserParseUser_kept (grants : supply.Grants) (done : configParserParseUser supply fuel p = .ok (res, q)) :
    q.pending ≤ p.pending ∧ ∀ user, res = .ok user → user.Named := by
  obtain ⟨⟨name, middle⟩, read, done⟩ := bind_eq_ok.mp done
  obtain ⟨next, trimmed, done⟩ := bind_eq_ok.mp done
  obtain ⟨valid, free, counted⟩ := configParserReadString_kept grants read
  have spaces : next.pending ≤ middle.pending := configParserSkipSpaces_pending trimmed
  obtain ⟨fewer, named⟩ := configParserPasswords_kept grants fuel { User.zero with name := name, password := vstrNew } _ _ _
    ⟨valid, free, vstrNew_valid⟩ done
  exact ⟨by omega, named⟩

private theorem configParserParseAddress_pending (grants : supply.Grants)
    (done : configParserParseAddress supply fuel p = .ok (res, q)) : q.pending ≤ p.pending := by
  obtain ⟨⟨text, middle⟩, collected, done⟩ := bind_eq_ok.mp done
  obtain ⟨last, trimmed, done⟩ := bind_eq_ok.mp done
  have counted := (parserCollect_kept grants (show configAddressByte 0 = false by decide) vstrNew_valid (by simp) collected).2.2
  have spaces : last.pending ≤ middle.pending := configParserSkipSpaces_pending trimmed
  cases done
  simp only [vstrNew_bytes, List.length_nil] at counted
  omega

private theorem configParserParseLogLevel_pending (grants : supply.Grants)
    (done : configParserParseLogLevel supply fuel p = .ok (res, q)) : q.pending ≤ p.pending := by
  obtain ⟨⟨text, middle⟩, read, done⟩ := bind_eq_ok.mp done
  obtain ⟨last, trimmed, done⟩ := bind_eq_ok.mp done
  have counted := (configParserReadString_kept grants read).2.2
  have spaces : last.pending ≤ middle.pending := configParserSkipSpaces_pending trimmed
  cases done
  omega

private theorem configParserParseNumDatabases_pending (done : configParserParseNumDatabases fuel p = .ok (res, q)) :
    q.pending ≤ p.pending := by
  obtain ⟨⟨num, middle⟩, digits, done⟩ := bind_eq_ok.mp done
  obtain ⟨last, trimmed, done⟩ := bind_eq_ok.mp done
  have counted := parseLen_pending digits
  have spaces : last.pending ≤ middle.pending := configParserSkipSpaces_pending trimmed
  split at done <;>
  · cases done
    omega

private theorem configParserParsePort_pending (done : configParserParsePort fuel p = .ok (res, q)) : q.pending ≤ p.pending := by
  obtain ⟨⟨num, middle⟩, digits, done⟩ := bind_eq_ok.mp done
  obtain ⟨last, trimmed, done⟩ := bind_eq_ok.mp done
  have counted := parseLen_pending digits
  have spaces : last.pending ≤ middle.pending := configParserSkipSpaces_pending trimmed
  split at done
  · cases done
    omega
  · split at done <;>
    · cases done
      omega

private theorem configLookups_long : ∀ lookup ∈ configLookups, 0 < lookup.1.length := by decide

private theorem configParserParseLineDataType_pending (grants : supply.Grants)
    (done : configParserParseLineDataType supply fuel p = .ok (.ok type, q)) : q.pending < p.pending := by
  obtain ⟨⟨word, after⟩, read, done⟩ := bind_eq_ok.mp done
  obtain ⟨valid, _, counted⟩ := configParserReadString_kept grants read
  simp only at done
  split at done
  · rename_i lookup found
    cases done
    have matched := List.find?_some found
    simp only [Bool.and_eq_true, decide_eq_true_eq] at matched
    have long := configLookups_long lookup (List.mem_of_find?_eq_some found)
    rw [valid.length, ← matched.1] at counted
    omega
  · cases done

private theorem Result.map_ok {res : Result α} {make : α → β} (same : res.map make = .ok value) : ∃ inner, res = .ok inner ∧ make inner = value := by
  cases res with
  | ok inner =>
    cases same
    exact ⟨inner, rfl, rfl⟩
  | err text => cases same

/-- A line that is accepted has its first word behind it. -/
theorem configParserParseLine_kept (grants : supply.Grants) (done : configParserParseLine supply fuel p = .ok (.ok line, q)) :
    q.pending < p.pending ∧ ∀ user, line = .user user → user.Named := by
  obtain ⟨⟨type, behind⟩, typed, done⟩ := bind_eq_ok.mp done
  cases type with
  | err text => cases done
  | ok type =>
    have fewer := configParserParseLineDataType_pending grants typed
    obtain ⟨start, skipped, done⟩ := bind_eq_ok.mp done
    have spaces : start.pending ≤ behind.pending := configParserSkipSpaces_pending skipped
    cases type with
    | address =>
      obtain ⟨⟨res, last⟩, parsed, done⟩ := bind_eq_ok.mp done
      have rest := configParserParseAddress_pending grants parsed
      cases done
      exact ⟨by omega, by simp⟩
    | logLevel =>
      obtain ⟨⟨res, last⟩, parsed, done⟩ := bind_eq_ok.mp done
      have rest := configParserParseLogLevel_pending grants parsed
      cases done
      exact ⟨by omega, by simp⟩
    | port =>
      obtain ⟨⟨res, last⟩, parsed, done⟩ := bind_eq_ok.mp done
      have rest := configParserParsePort_pending parsed
      obtain ⟨made, rfl⟩ := Prod.mk.inj (Except.ok.inj done)
      obtain ⟨port, _, rfl⟩ := Result.map_ok made
      exact ⟨by omega, by simp⟩
    | databases =>
      obtain ⟨⟨res, last⟩, parsed, done⟩ := bind_eq_ok.mp done
      have rest := configParserParseNumDatabases_pending parsed
      obtain ⟨made, rfl⟩ := Prod.mk.inj (Except.ok.inj done)
      obtain ⟨databases, _, rfl⟩ := Result.map_ok made
      exact ⟨by omega, by simp⟩
    | user =>
      obtain ⟨⟨res, last⟩, parsed, done⟩ := bind_eq_ok.mp done
      obtain ⟨rest, named⟩ := configParserParseUser_kept grants parsed
      obtain ⟨made, rfl⟩ := Prod.mk.inj (Except.ok.inj done)
      obtain ⟨user, found, rfl⟩ := Result.map_ok made
      refine ⟨by omega, ?_⟩
      rintro _ ⟨⟩
      exact named user found

/-- The vector of the users is sound, and so is every user. -/
structure Config.Sound (config : Config) : Prop where
  valid : config.users.Valid
  named : ∀ user ∈ config.users.elems, user.Named

theorem configNew_sound (address : Nat) : (configNew address).Sound := ⟨vecNew_valid address, by simp [configNew]⟩

private theorem Config.Sound.add {config after : Config} {line : LineData} (sound : config.Sound) (granted : realloc.isSome)
    (named : ∀ user, line = .user user → user.Named) (done : config.add realloc line = .ok after) :
    after.Sound ∧ after.users.len ≤ config.users.len + 1 := by
  cases line with
  | user user =>
    obtain ⟨pushed, same, valid, content⟩ := vecPush_spec sound.valid (fun _ => granted) user
    simp only [Config.add, same] at done
    cases done
    have longer : pushed.len = config.users.len + 1 := by
      rw [← valid.length, ← sound.valid.length, content, List.length_append, List.length_singleton]
    refine ⟨⟨valid, ?_⟩, Nat.le_of_eq longer⟩
    intro other member
    simp only [content, List.mem_append, List.mem_singleton] at member
    rcases member with old | rfl
    · exact sound.named other old
    · exact named other rfl
  | address | loglevel | port | databases =>
    simp only [Config.add] at done
    split at done
    · cases done
    · cases done
      exact ⟨⟨sound.valid, sound.named⟩, Nat.le_succ _⟩

/-- Every line that is accepted takes at least one byte of the file. -/
private theorem configParserParse_sound (grants : supply.Grants) (fuel : Nat) :
    ∀ (config : Config) p after, config.Sound → configParserParse supply fuel config p = .ok (.ok after) →
      after.Sound ∧ after.users.len ≤ config.users.len + p.pending := by
  induction fuel with
  | zero =>
    intro config p after _ done
    cases done
  | succ fuel ih =>
    intro config p after sound done
    simp only [configParserParse] at done
    split at done
    · cases done
      exact ⟨sound, Nat.le_add_right _ _⟩
    · obtain ⟨start, skipped, done⟩ := bind_eq_ok.mp done
      have blank := configParserSkipEmptyLinesAndComments_pending fuel p start skipped
      split at done
      · cases done
        exact ⟨sound, Nat.le_add_right _ _⟩
      · obtain ⟨⟨line, behind⟩, parsed, done⟩ := bind_eq_ok.mp done
        cases line with
        | err text => cases done
        | ok line =>
          obtain ⟨fewer, named⟩ := configParserParseLine_kept grants parsed
          simp only at done
          split at done
          · cases done
          · rename_i next added
            obtain ⟨kept, longer⟩ := sound.add (grants behind.rest.length 2).2 named added
            obtain ⟨last, counted⟩ := ih _ _ _ kept done
            exact ⟨last, by omega⟩

theorem parseConfig_sound (grants : supply.Grants) (done : parseConfig supply fuel input = .ok (.ok config)) :
    config.Sound ∧ config.users.len ≤ input.length := by
  simp only [parseConfig] at done
  split at done
  · cases done
  · rename_i address granted
    obtain ⟨sound, counted⟩ := configParserParse_sound grants fuel _ _ _ (configNew_sound address) done
    have all : (parserNew input).pending ≤ input.length := by
      cases input with
      | nil => decide
      | cons byte rest =>
        by_cases zero : byte = 0 <;> simp [parserNew, parserReadChar, Parser.pending, Parser.unread, zero]
    have none_ : (configNew address).users.len = 0 := rfl
    exact ⟨sound, by omega⟩

end Lines

end LexiDB
