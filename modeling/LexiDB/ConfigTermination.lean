import LexiDB.ConfigInvariant

/-! The functions of config_parser.c return on every input. -/

namespace LexiDB

open Lib

variable {supply : Supply}

private theorem pending_drops {more : UInt8 → Bool} (zero : more 0 = false) (p : Parser) (again : more p.ch = true) :
    (parserReadChar p).pending < p.pending := by
  apply Parser.pending_drops
  intro same
  rw [same, zero] at again
  cases again

private theorem parserCollect_total {more : UInt8 → Bool} (zero : more 0 = false) (p : Parser) :
    Total fun fuel => parserCollect supply more fuel vstrNew p :=
  whileFuel_total (fun state : Vstr × Parser => state.2.pending) (fun state again => pending_drops zero state.2 again) (vstrNew, p)

private theorem parserSkip_total {skipped : UInt8 → Bool} (zero : skipped 0 = false) (p : Parser) :
    Total fun fuel => parserSkip skipped fuel p :=
  whileFuel_total Parser.pending (pending_drops zero) p

private theorem parseLen_total (p : Parser) : Total fun fuel => parseLen fuel p :=
  whileFuel_total (fun state : Nat × Parser => state.2.pending) (fun state again => pending_drops (by decide) state.2 again) (0, p)

theorem configParserReadString_total (p : Parser) : Total fun fuel => configParserReadString supply fuel p :=
  parserCollect_total (by decide) p

theorem configParserSkipSpaces_total (p : Parser) : Total fun fuel => configParserSkipSpaces fuel p := parserSkip_total (by decide) p

theorem configParserParseLineDataType_total (p : Parser) : Total fun fuel => configParserParseLineDataType supply fuel p := by
  refine (configParserReadString_total p).bind ?_
  rintro ⟨s, q⟩ _ _
  simp only
  split <;> exact .pure _

theorem configParserParseAddress_total (p : Parser) : Total fun fuel => configParserParseAddress supply fuel p :=
  (parserCollect_total (by decide) p).bind fun value _ _ => (configParserSkipSpaces_total value.2).bind fun _ _ _ => .pure _

theorem configParserParseLogLevel_total (p : Parser) : Total fun fuel => configParserParseLogLevel supply fuel p :=
  (configParserReadString_total p).bind fun value _ _ =>
    (configParserSkipSpaces_total value.2).bind fun _ _ _ => .pure _

theorem configParserParseNumDatabases_total (p : Parser) : Total fun fuel => configParserParseNumDatabases fuel p := by
  refine (parseLen_total p).bind fun value _ _ => (configParserSkipSpaces_total value.2).bind fun q _ _ => ?_
  split <;> exact .pure _

theorem configParserParsePort_total (p : Parser) : Total fun fuel => configParserParsePort fuel p := by
  refine (parseLen_total p).bind fun value _ _ => (configParserSkipSpaces_total value.2).bind fun q _ _ => ?_
  split
  · exact .pure _
  · split <;> exact .pure _

/-- Each password takes at least the byte in front of it. -/
theorem configParserPasswords_total (grants : supply.Grants) (user : User) (p : Parser) :
    Total fun fuel => configParserPasswords supply fuel user p := by
  induction count : p.pending using Nat.strongRecOn generalizing user p with
  | _ pending ih =>
    refine .of_succ rfl ?_
    simp only [configParserPasswords]
    split
    · rename_i goesOn
      have drops : (parserReadChar p).pending < p.pending := by
        apply Parser.pending_drops
        intro zero
        simp [configLineGoesOn, configCommentByte, zero] at goesOn
      split
      · refine (configParserReadString_total _).bind ?_
        rintro ⟨password, behind⟩ _ read
        obtain ⟨_, _, counted⟩ := configParserReadString_kept grants read
        refine (configParserSkipSpaces_total behind).bind fun q _ skipped => ?_
        have spaces : q.pending ≤ behind.pending := configParserSkipSpaces_pending skipped
        exact ih q.pending (by omega) _ q rfl
      · exact .pure _
    · exact .pure _

theorem configParserParseUser_total (grants : supply.Grants) (p : Parser) : Total fun fuel => configParserParseUser supply fuel p :=
  (configParserReadString_total p).bind fun value _ _ =>
    (configParserSkipSpaces_total value.2).bind fun q _ _ => configParserPasswords_total grants _ q

theorem configParserParseLine_total (grants : supply.Grants) (p : Parser) : Total fun fuel => configParserParseLine supply fuel p := by
  refine (configParserParseLineDataType_total p).bind ?_
  rintro ⟨type, q⟩ _ _
  cases type with
  | err text => exact .pure _
  | ok type =>
    refine (configParserSkipSpaces_total q).bind fun start _ _ => ?_
    cases type with
    | address => exact (configParserParseAddress_total start).bind fun _ _ _ => .pure _
    | logLevel => exact (configParserParseLogLevel_total start).bind fun _ _ _ => .pure _
    | port => exact (configParserParsePort_total start).bind fun _ _ _ => .pure _
    | user => exact (configParserParseUser_total grants start).bind fun _ _ _ => .pure _
    | databases => exact (configParserParseNumDatabases_total start).bind fun _ _ _ => .pure _

private theorem parserSkip_progress {skipped : UInt8 → Bool} (stops : skipped 0 = false) (here : skipped p.ch = true)
    (done : parserSkip skipped fuel p = .ok q) : q.pending < p.pending := by
  cases fuel with
  | zero => cases done
  | succ fuel =>
    have some_ : p.ch ≠ 0 := by
      intro zero
      rw [zero, stops] at here
      cases here
    have behind : parserSkip skipped fuel (parserReadChar p) = .ok q := by
      simpa only [parserSkip, whileFuel, here, ↓reduceIte] using done
    exact Nat.lt_of_le_of_lt (parserSkip_pending stops behind) (Parser.pending_drops some_)

/-- Each comment and each run of blanks takes at least a byte. -/
theorem configParserSkipEmptyLinesAndComments_total (p : Parser) : Total fun fuel => configParserSkipEmptyLinesAndComments fuel p := by
  induction count : p.pending using Nat.strongRecOn generalizing p with
  | _ pending ih =>
    refine .of_succ rfl ?_
    simp only [configParserSkipEmptyLinesAndComments]
    split
    · rename_i comment
      refine (show Total fun fuel => configParserSkipComment fuel p from parserSkip_total (by decide) p).bind fun q fuel skipped => ih q.pending ?_ q rfl
      have less : q.pending < p.pending := parserSkip_progress (by decide) (by rw [comment]; decide) skipped
      omega
    · split
      · rename_i newline
        refine (show Total fun fuel => configParserSkipWhitespace fuel p from parserSkip_total (by decide) p).bind fun q fuel skipped => ih q.pending ?_ q rfl
        have less : q.pending < p.pending := parserSkip_progress (by decide) (by rw [newline]; decide) skipped
        omega
      · exact .pure _

end LexiDB
