import LexiDB.ParserInvariant

/-! Which loop of the parser can run for ever, and on which inputs it does. -/

namespace LexiDB

open Lib

section Loops

variable {env : Env} {supply : Supply}

theorem parseLen_stops (p : Parser) : Stops fun fuel => parseLen fuel p := by
  obtain ⟨last, done⟩ := whileFuel_stops (fun state : Nat × Parser => isDigit state.2.ch)
    (fun state => (pushDigit state.1 state.2.ch % sizeMod, parserReadChar state.2))
    (fun state => state.2.pending)
    (fun state digit => Parser.pending_drops (by
      intro zero
      rw [zero] at digit
      exact absurd digit (by decide)))
    (p.pending + 1) (0, p) (by simp)
  exact ⟨p.pending + 1, by simp only [parseLen, done, settled_ok]⟩

theorem parseHeader_stops (p : Parser) : Stops fun fuel => parseHeader fuel p := by
  unfold parseHeader
  split
  · exact ⟨0, settled_ok _⟩
  · refine (parseLen_stops _).bind (whileFuel_mono _) (fun _ => .const _) ?_
    intro value fuel _
    refine ⟨0, ?_⟩
    simp only
    split
    · exact settled_ok _
    · split <;> exact settled_ok _

/-- A loop that collects up to a zero byte at the latest. -/
theorem parserCollect_stops {more : UInt8 → Bool} (zero : more 0 = false) (s : Vstr) (p : Parser) :
    Stops fun fuel => parserCollect supply more fuel s p := by
  obtain ⟨last, done⟩ := whileFuel_stops (fun state : Vstr × Parser => more state.2.ch) (parserPush supply)
    (fun state => state.2.pending)
    (fun state again => Parser.pending_drops (by
      intro same
      rw [same, zero] at again
      cases again))
    (p.pending + 1) (s, p) (by simp)
  exact ⟨p.pending + 1, by simp only [parserCollect, done, settled_ok]⟩

theorem parseLine_stops (s : Vstr) (p : Parser) : Stops fun fuel => parseLine supply fuel s p := by
  refine (parserCollect_stops (by decide) s _).bind (parserCollect_mono _ _ _) (fun _ => .const _) ?_
  intro value fuel _
  refine ⟨0, ?_⟩
  simp only
  split
  · exact settled_ok _
  · split <;> exact settled_ok _

theorem vstrNewLen_settled (mem : Mem) (len : Nat) : Settled (vstrNewLen mem len) := by
  unfold vstrNewLen vstrLgNewLen
  split
  · split
    · cases mem.calloc <;> simp [Settled]
    · simp [Settled]
  · exact settled_ok _

theorem parseSimpleString_stops (p : Parser) : Stops fun fuel => parseSimpleString supply fuel p :=
  Stops.bind ⟨0, vstrNewLen_settled _ _⟩ (.const _) (fun s => parseLine_mono s p) fun s _ _ => parseLine_stops s p

theorem parseBulk_stops (p : Parser) : Stops fun fuel => parseBulk supply fuel p := by
  refine (parseHeader_stops p).bind (parseHeader_mono p) (fun _ => .const _) ?_
  rintro ⟨len, q⟩ fuel _
  refine ⟨0, ?_⟩
  cases len with
  | none => exact settled_ok _
  | some len =>
    exact Settled.bind (Settled.bind (vstrNewLen_settled _ _) fun _ _ => settled_ok _) fun _ _ => settled_ok _

/-- The loop of `parse_double` needs a carriage return to come. -/
theorem parserCollect_double_stops : ∀ (rest : List UInt8) (s : Vstr) (ch : UInt8), ascii '\r' ∈ ch :: rest →
    Stops fun fuel => parserCollect supply doubleByte fuel s ⟨ch, rest⟩ := by
  intro rest
  induction rest with
  | nil =>
    intro s ch found
    have here : doubleByte ch = false := by simp [doubleByte, (List.mem_singleton.mp found).symm]
    exact ⟨1, by simp [parserCollect, whileFuel, here]⟩
  | cons byte rest ih =>
    intro s ch found
    by_cases here : doubleByte ch = true
    · have later : ascii '\r' ∈ byte :: rest := by
        rcases List.mem_cons.mp found with same | later
        · simp [doubleByte, same.symm] at here
        · exact later
      obtain ⟨fuel, settled⟩ := ih (parserPush supply (s, ⟨ch, byte :: rest⟩)).1 byte later
      refine ⟨fuel + 1, ?_⟩
      simp only [parserCollect, whileFuel, here, ↓reduceIte]
      exact settled
    · exact ⟨1, by simp [parserCollect, whileFuel, here]⟩

/-- Without one it goes round for ever, on the zero that reading past the end
yields. -/
theorem parserCollect_double_spins (s : Vstr) (p : Parser) (missing : ascii '\r' ∉ p.ch :: p.rest) (fuel : Nat) :
    parserCollect supply doubleByte fuel s p = .error .fuel := by
  refine whileFuel_spins (fun state : Vstr × Parser => ascii '\r' ∉ state.2.ch :: state.2.rest)
    ?_ ?_ fuel (s, p) missing
  · intro state absent
    have other : state.2.ch ≠ ascii '\r' := by
      intro same
      exact absent (by simp [same])
    simp [doubleByte, other]
  · intro state absent
    simp only [parserPush, parserReadChar]
    cases rest : state.2.rest with
    | nil => decide
    | cons byte tail =>
      rw [rest] at absent
      exact fun found => absent (List.mem_cons_of_mem _ found)

private theorem return_ahead (p : Parser) :
    ascii '\r' ∈ (parserReadChar p).ch :: (parserReadChar p).rest ↔ ascii '\r' ∈ p.rest := by
  unfold parserReadChar
  split
  · rename_i empty
    rw [empty]
    decide
  · rename_i byte rest input
    rw [input]

theorem parseDouble_stops {p : Parser} (found : ascii '\r' ∈ p.rest) :
    Stops fun fuel => parseDouble env supply fuel p :=
  (parserCollect_double_stops _ vstrNew _ ((return_ahead p).mpr found)).bind (parserCollect_mono _ _ _)
    (fun _ => .const _) fun _ _ _ => ⟨0, settled_ok _⟩

theorem parseDouble_spins {p : Parser} (missing : ascii '\r' ∉ p.rest) (fuel : Nat) :
    parseDouble env supply fuel p = .error .fuel := by
  unfold parseDouble
  rw [parserCollect_double_spins _ _ (mt (return_ahead p).mp missing) fuel]
  rfl

end Loops

section Calls

variable (env : Env) (supply : Supply)

/-- `parse_object` was called `count` times in a row, from `p` on, returned each
time and left the parser at the last one. -/
inductive Walks : Nat → Parser → Parser → Prop where
  | done : Walks 0 p p
  | next (parsed : parseObject env supply fuel p = .ok (obj, q)) (rest : Walks count q r) : Walks (count + 1) p r

/-- A call of `parse_object` at the first parser comes to a call of
`parse_double` at the second: its own, or one made for an element or a pair
after the ones before it were parsed. -/
inductive EntersDouble : Parser → Parser → Prop where
  | here (type : wireType p.ch = some .double) : EntersDouble p p
  | elem (type : wireType p.ch = some .array) (header : parseHeader fuel p = .ok (some len, middle))
      (opened : (supply.mem p.rest.length 0).calloc.isSome)
      (before : Walks env supply count (parserReadChar middle) q) (inside : count < len)
      (enters : EntersDouble q r) : EntersDouble p r
  | pair (type : wireType p.ch = some .ht) (header : parseHeader fuel p = .ok (some len, middle))
      (opened : (supply.mem p.rest.length 0).calloc.isSome)
      (before : Walks env supply count (parserReadChar middle) q) (inside : count < 2 * len)
      (enters : EntersDouble q r) : EntersDouble p r

/-- The number of arguments a command has on the wire. -/
def Cmdt.arity : Cmdt → Nat
  | .auth | .set => 2
  | .select | .get | .del | .push | .enque | .zset | .zhas | .zdel => 1
  | _ => 0

/-- `parse` calls `parse_object` at `p` for an argument of a command of the
right length. -/
inductive ArgumentAt (input : List UInt8) : Parser → Prop where
  | first (frame : wireType (parserNew input).ch = some .array)
      (header : parseHeader fuel (parserNew input) = .ok (some len, middle))
      (typed : parseCmdType env supply more (parserReadChar middle) = .ok (type, p))
      (takes : 0 < type.arity) (complete : len = type.arity + 1) : ArgumentAt input p
  | second (frame : wireType (parserNew input).ch = some .array)
      (header : parseHeader fuel (parserNew input) = .ok (some len, middle))
      (typed : parseCmdType env supply more (parserReadChar middle) = .ok (type, p))
      (takes : type.arity = 2) (complete : len = 3)
      (parsed : parseObject env supply most p = .ok (obj, q)) (kept : obj ≠ .null) : ArgumentAt input q

end Calls

section Spins

variable {env : Env} {supply : Supply}

/-- The element the loop is stuck in keeps the whole array from returning. -/
private theorem parseElems_spins (walks : Walks env supply count p q)
    (stuck : ∀ fuel, parseObject env supply fuel q = .error .fuel) :
    ∀ len vec fuel, count < len → parseElems (parseObject env supply fuel) realloc len vec p = .error .fuel := by
  induction walks with
  | done =>
    intro len vec fuel inside
    obtain ⟨less, rfl⟩ := Nat.exists_eq_add_of_lt inside
    simp [parseElems, stuck]
  | next parsed _ ih =>
    intro len vec fuel inside
    cases len with
    | zero => omega
    | succ len =>
      rcases (parseObject_mono _).spent_or parsed fuel with spent | same
      · simp [parseElems, spent]
      · simp [parseElems, same, ih stuck len _ fuel (by omega)]

private theorem parsePairs_spins (walks : Walks env supply count p q)
    (stuck : ∀ fuel, parseObject env supply fuel q = .error .fuel) :
    ∀ len ht fuel, count < 2 * len →
      parsePairs env (parseObject env supply fuel) calloc len ht p = .error .fuel := by
  -- pairs use the walk two objects at a time
  induction count using Nat.strong_induction_on generalizing p with
  | _ count ih =>
    intro len ht fuel inside
    cases len with
    | zero => omega
    | succ len =>
      cases walks with
      | done => simp [parsePairs, stuck]
      | next keyed rest =>
        rcases (parseObject_mono _).spent_or keyed fuel with spent | same
        · simp [parsePairs, spent]
        · cases rest with
          | done => simp [parsePairs, same, stuck]
          | next valued rest =>
            rcases (parseObject_mono _).spent_or valued fuel with spent | value
            · simp [parsePairs, same, spent]
            · simp [parsePairs, same, value, ih _ (by omega) rest len _ fuel (by omega)]

/-- A `parse_double` without a carriage return ahead is never returned from,
however deep it was reached. -/
theorem parseObject_spins (enters : EntersDouble env supply p q) (missing : ascii '\r' ∉ q.rest) :
    ∀ fuel, parseObject env supply fuel p = .error .fuel := by
  induction enters with
  | here type =>
    intro fuel
    cases fuel with
    | zero => rfl
    | succ fuel => simp [parseObject, type, parseDouble_spins missing]
  | elem type header opened before inside _ ih =>
    intro other
    cases other with
    | zero => rfl
    | succ other =>
      obtain ⟨address, granted⟩ := Option.isSome_iff_exists.mp opened
      rcases (parseHeader_mono _).spent_or header other with spent | same
      · simp [parseObject, type, parseArray, spent]
      · simp [parseObject, type, parseArray, same, granted, parseElems_spins before (ih missing) _ _ other inside]
  | pair type header opened before inside _ ih =>
    intro other
    cases other with
    | zero => rfl
    | succ other =>
      obtain ⟨address, granted⟩ := Option.isSome_iff_exists.mp opened
      rcases (parseHeader_mono _).spent_or header other with spent | same
      · simp [parseObject, type, parseHt, spent]
      · simp [parseObject, type, parseHt, same, granted, parsePairs_spins before (ih missing) _ _ other inside]

end Spins

section Stops

variable {env : Env} {supply : Supply}

private theorem Walks.unread (walks : Walks env supply count p q) : q.unread ≤ p.unread := by
  induction walks with
  | done => exact Nat.le_refl _
  | next parsed _ ih => exact Nat.le_trans ih (parseObject_passes _ _ _ _ parsed).1.unread

private theorem parseElems_stops :
    ∀ len vec p, (∀ count q, count < len → Walks env supply count p q → Stops fun fuel => parseObject env supply fuel q) →
      Stops fun fuel => parseElems (parseObject env supply fuel) realloc len vec p := by
  intro len
  induction len with
  | zero => exact fun vec p _ => ⟨0, settled_ok _⟩
  | succ len ih =>
    intro vec p each
    refine (each 0 p (by omega) .done).bind (parseObject_mono p)
      (fun _ => parseElems_mono _ _ _ _) ?_
    rintro ⟨cur, q⟩ fuel parsed
    exact ih _ q fun count r inside walks => each (count + 1) r (by omega) (.next parsed walks)

private theorem parsePairs_stops :
    ∀ len ht p,
      (∀ count q, count < 2 * len → Walks env supply count p q → Stops fun fuel => parseObject env supply fuel q) →
      Stops fun fuel => parsePairs env (parseObject env supply fuel) calloc len ht p := by
  intro len
  induction len with
  | zero => exact fun ht p _ => ⟨0, settled_ok _⟩
  | succ len ih =>
    intro ht p each
    refine (each 0 p (by omega) .done).bind (parseObject_mono p) (fun _ =>
      .bind (parseObject_mono _) fun _ => parsePairs_mono _ _ _ _) ?_
    rintro ⟨key, q⟩ fuel keyed
    refine (each 1 q (by omega) (.next keyed .done)).bind (parseObject_mono q)
      (fun _ => parsePairs_mono _ _ _ _) ?_
    rintro ⟨value, r⟩ more valued
    exact ih _ r fun count last inside walks => each (count + 2) last (by omega) (.next keyed (.next valued walks))

/-- Every other loop and the recursion itself stop, so `parse_object` does when
each `parse_double` it comes to does. -/
theorem parseObject_stops (n : Nat) : ∀ p : Parser, p.unread = n →
    (∀ q, EntersDouble env supply p q → ascii '\r' ∈ q.rest) → Stops fun fuel => parseObject env supply fuel p := by
  -- an element starts behind the header of its array, with less left to read
  induction n using Nat.strong_induction_on with
  | _ n ih =>
    intro p size returns
    suffices unfolded : Stops fun fuel => parseObject env supply (fuel + 1) p by
      obtain ⟨fuel, settled⟩ := unfolded
      exact ⟨fuel + 1, settled⟩
    simp only [parseObject]
    cases type : wireType p.ch with
    | none => exact ⟨0, settled_ok _⟩
    | some found =>
      cases found with
      | string => exact parseBulk_stops p
      | int =>
        refine Stops.bind ?_ (parseInteger_mono p) (fun _ => .const _) fun _ _ _ => ⟨0, settled_ok _⟩
        exact (parserCollect_stops (by decide) _ _).bind (parserCollect_mono _ _ _) (fun _ => .const _)
          fun _ _ _ => ⟨0, settled_ok _⟩
      | double =>
        exact (parseDouble_stops (returns p (.here type))).bind (parseDouble_mono p) (fun _ => .const _)
          fun _ _ _ => ⟨0, settled_ok _⟩
      | bool => exact ⟨0, settled_ok _⟩
      | simple =>
        exact (parseSimpleString_stops p).bind (parseSimpleString_mono p) (fun _ => .const _)
          fun _ _ _ => ⟨0, settled_ok _⟩
      | error =>
        exact (parseLine_stops vstrNew p).bind (parseLine_mono vstrNew p) (fun _ => .const _)
          fun _ _ _ => ⟨0, settled_ok _⟩
      | array =>
        refine (parseHeader_stops p).bind (parseHeader_mono p) ?_ ?_
        · rintro ⟨len, middle⟩
          cases len with
          | none => exact .const _
          | some len =>
            cases (supply.mem p.rest.length 0).calloc with
            | none => exact .const _
            | some address =>
              exact .bind (parseElems_mono _ _ _ _) fun _ => .const _
        · rintro ⟨len, middle⟩ fuel header
          cases len with
          | none => exact ⟨0, settled_ok _⟩
          | some len =>
            have shorter := ((parseHeader_reaches header).2 rfl).2
            have onward := parserReadChar_unread middle
            cases opened : (supply.mem p.rest.length 0).calloc with
            | none => exact ⟨0, by simp [Settled]⟩
            | some address =>
              refine (parseElems_stops len _ _ ?_).bind
                (parseElems_mono _ _ _ _) (fun _ => .const _)
                fun _ _ _ => ⟨0, settled_ok _⟩
              intro count q inside walks
              have behind := walks.unread
              exact ih q.unread (by omega) q rfl
                fun r enters => returns r (.elem type header (by simp [opened]) walks inside enters)
      | ht =>
        refine (parseHeader_stops p).bind (parseHeader_mono p) ?_ ?_
        · rintro ⟨len, middle⟩
          cases len with
          | none => exact .const _
          | some len =>
            cases (supply.mem p.rest.length 0).calloc with
            | none => exact .const _
            | some table =>
              exact .bind (parsePairs_mono _ _ _ _) fun _ => .const _
        · rintro ⟨len, middle⟩ fuel header
          cases len with
          | none => exact ⟨0, settled_ok _⟩
          | some len =>
            have shorter := ((parseHeader_reaches header).2 rfl).2
            have onward := parserReadChar_unread middle
            cases opened : (supply.mem p.rest.length 0).calloc with
            | none => exact ⟨0, by simp [Settled]⟩
            | some table =>
              refine (parsePairs_stops len _ _ ?_).bind
                (parsePairs_mono _ _ _ _) (fun _ => .const _)
                fun _ _ _ => ⟨0, settled_ok _⟩
              intro count q inside walks
              have behind := walks.unread
              exact ih q.unread (by omega) q rfl
                fun r enters => returns r (.pair type header (by simp [opened]) walks inside enters)

private theorem parseCmdType_stops (p : Parser) : Stops fun fuel => parseCmdType env supply fuel p := by
  unfold parseCmdType
  split
  · rename_i type
    refine (parseObject_stops p.unread p rfl ?_).bind (parseObject_mono p) (fun _ => .const _) ?_
    · intro q enters
      cases enters <;> simp_all
    · rintro ⟨obj, q⟩ _ _
      cases obj <;> exact ⟨0, settled_ok _⟩
  · exact (parseSimpleString_stops p).bind (parseSimpleString_mono p) (fun _ => .const _) fun _ _ _ => ⟨0, settled_ok _⟩
  · exact ⟨0, settled_ok _⟩

private theorem parseOne_stops (len : Nat) (make : Object → Cmd) (p : Parser)
    (argument : len = 2 → Stops fun fuel => parseObject env supply fuel p) :
    Stops fun fuel => parseOne env supply fuel len make p := by
  unfold parseOne
  split
  · exact ⟨0, settled_ok _⟩
  · refine (argument (by omega)).bind (parseObject_mono p) (fun _ => .const _) ?_
    rintro ⟨value, q⟩ _ _
    cases value <;> exact ⟨0, settled_ok _⟩

private theorem parseSelect_stops (len : Nat) (p : Parser)
    (argument : len = 2 → Stops fun fuel => parseObject env supply fuel p) :
    Stops fun fuel => parseSelect env supply fuel len p := by
  unfold parseSelect
  split
  · exact ⟨0, settled_ok _⟩
  · refine (argument (by omega)).bind (parseObject_mono p) (fun _ => .const _) ?_
    rintro ⟨value, q⟩ _ _
    cases value <;> exact ⟨0, settled_ok _⟩

private theorem parseTwo_stops (len : Nat) (make : Object → Object → Cmd) (p : Parser)
    (argument : len = 3 → Stops fun fuel => parseObject env supply fuel p)
    (other : len = 3 → ∀ fuel obj q, parseObject env supply fuel p = .ok (obj, q) → obj ≠ .null →
      Stops fun fuel => parseObject env supply fuel q) :
    Stops fun fuel => parseTwo env supply fuel len make p := by
  unfold parseTwo
  split
  · exact ⟨0, settled_ok _⟩
  · have three : len = 3 := by omega
    refine (argument three).bind (parseObject_mono p) ?_ ?_
    · rintro ⟨first, q⟩
      cases first with
      | null => exact .const _
      | _ => exact .bind (parseObject_mono q) fun _ => .const _
    · rintro ⟨first, q⟩ fuel parsed
      cases first with
      | null => exact ⟨0, settled_ok _⟩
      | _ =>
        refine (other three fuel _ q parsed (by simp)).bind (parseObject_mono q) (fun _ => .const _) ?_
        rintro ⟨second, r⟩ _ _
        cases second <;> exact ⟨0, settled_ok _⟩

private theorem parseArgs_stops (len : Nat) (type : Cmdt) (p : Parser)
    (argument : 0 < type.arity → len = type.arity + 1 → Stops fun fuel => parseObject env supply fuel p)
    (other : type.arity = 2 → len = 3 → ∀ fuel obj q, parseObject env supply fuel p = .ok (obj, q) → obj ≠ .null →
      Stops fun fuel => parseObject env supply fuel q) :
    Stops fun fuel => parseArgs env supply fuel len type p := by
  unfold parseArgs
  cases type with
  | help =>
    refine (parseCmdType_stops p).bind (parseCmdType_mono p) (fun _ => .const _) fun value _ _ => ⟨0, ?_⟩
    simp only
    split <;> exact settled_ok _
  | auth | set => exact parseTwo_stops len _ p (argument (by decide)) (other rfl)
  | get | del | push | enque | zset | zhas | zdel => exact parseOne_stops len _ p (argument (by decide))
  | select => exact parseSelect_stops len p (argument (by decide))
  | _ => exact ⟨0, settled_ok _⟩

/-- `parse` stops when its arguments do: the frame and the command word never
hang. -/
private theorem parse_stops (input : List UInt8)
    (arguments : ∀ p, ArgumentAt env supply input p → Stops fun fuel => parseObject env supply fuel p) :
    Stops fun fuel => parse env supply fuel input := by
  unfold parse parseCmd
  split
  · rename_i frame
    refine (parseHeader_stops _).bind (parseHeader_mono _) ?_ ?_
    · rintro ⟨len, middle⟩
      cases len with
      | none => exact .const _
      | some len =>
        simp only
        split
        · exact .const _
        · refine .bind (parseCmdType_mono _) fun ⟨type, last⟩ => ?_
          simp only
          split
          · exact .const _
          · exact parseArgs_mono len type last
    · rintro ⟨len, middle⟩ _ header
      cases len with
      | none => exact ⟨0, settled_ok _⟩
      | some len =>
        simp only
        split
        · exact ⟨0, settled_ok _⟩
        · refine (parseCmdType_stops _).bind (parseCmdType_mono _) ?_ ?_
          · rintro ⟨type, last⟩
            simp only
            split
            · exact .const _
            · exact parseArgs_mono len type last
          · rintro ⟨type, last⟩ _ typed
            simp only
            split
            · exact ⟨0, settled_ok _⟩
            · exact parseArgs_stops len type last
                (fun takes complete => arguments last (.first frame header typed takes complete))
                (fun takes complete _ _ _ parsed kept =>
                  arguments _ (.second frame header typed takes complete parsed kept))
  · exact Stops.bind ((parseSimpleString_stops _).bind (parseSimpleString_mono _) (fun _ => .const _)
      fun _ _ _ => ⟨0, settled_ok _⟩) (.bind (parseSimpleString_mono _) fun _ => .const _) (fun _ => .const _)
      fun _ _ _ => ⟨0, settled_ok _⟩
  · exact (parseCmdType_stops _).bind (parseCmdType_mono _) (fun _ => .const _) fun _ _ _ => ⟨0, settled_ok _⟩
  · exact ⟨0, settled_ok _⟩

end Stops

section Frames

variable {env : Env} {supply : Supply}

private theorem parseArgs_spins_first (takes : 0 < type.arity)
    (stuck : ∀ fuel, parseObject env supply fuel p = .error .fuel) :
    ∀ fuel, parseArgs env supply fuel (type.arity + 1) type p = .error .fuel := by
  intro fuel
  cases type <;> simp_all [parseArgs, parseOne, parseTwo, parseSelect, Cmdt.arity]

private theorem parseArgs_spins_second (takes : type.arity = 2) (kept : obj ≠ .null)
    (parsed : parseObject env supply fuel p = .ok (obj, q))
    (stuck : ∀ fuel, parseObject env supply fuel q = .error .fuel) :
    ∀ fuel, parseArgs env supply fuel 3 type p = .error .fuel := by
  have both : ∀ make fuel, parseTwo env supply fuel 3 make p = .error .fuel := by
    intro make other
    rcases (parseObject_mono p).spent_or parsed other with spent | same
    · simp [parseTwo, spent]
    · cases obj <;> simp_all [parseTwo]
  intro fuel
  cases type <;> simp_all [parseArgs, Cmdt.arity]

/-- An argument that hangs hangs the whole `parse`. -/
private theorem parse_spins (argument : ArgumentAt env supply input p)
    (stuck : ∀ fuel, parseObject env supply fuel p = .error .fuel) (fuel : Nat) :
    parse env supply fuel input = .error .fuel := by
  have framed : ∀ {len middle type last one two}, wireType (parserNew input).ch = some .array →
      parseHeader one (parserNew input) = .ok (some len, middle) →
      parseCmdType env supply two (parserReadChar middle) = .ok (type, last) → 0 < type.arity → 0 < len →
      (∀ fuel, parseArgs env supply fuel len type last = .error .fuel) →
      parse env supply fuel input = .error .fuel := by
    intro len middle type last one two frame header typed takes positive args
    have legal : type ≠ .illegal := by
      intro same
      rw [same] at takes
      exact absurd takes (by decide)
    rcases (parseHeader_mono _).spent_or header fuel with spent | same
    · simp [parse, parseCmd, frame, parseArrayCmd, spent]
    · rcases (parseCmdType_mono _).spent_or typed fuel with spent | word
      · simp [parse, parseCmd, frame, parseArrayCmd, same, Nat.ne_of_gt positive, spent]
      · simp [parse, parseCmd, frame, parseArrayCmd, same, Nat.ne_of_gt positive, word, legal, args]
  cases argument with
  | first frame header typed takes complete =>
    subst complete
    exact framed frame header typed takes (by omega) (parseArgs_spins_first takes stuck)
  | second frame header typed takes complete parsed kept =>
    subst complete
    exact framed frame header typed (by omega) (by omega) (parseArgs_spins_second takes kept parsed stuck)

/-- `parse` and `parse_from_server` return exactly when every `parse_double`
they come to has a carriage return among the bytes not yet read. -/
theorem parser_stops_iff (env : Env) (supply : Supply) (input : List UInt8) :
    ((Stops fun fuel => parse env supply fuel input) ↔
      ∀ p q, ArgumentAt env supply input p → EntersDouble env supply p q → ascii '\r' ∈ q.rest) ∧
    ((Stops fun fuel => parseFromServer env supply fuel input) ↔
      ∀ q, EntersDouble env supply (parserNew input) q → ascii '\r' ∈ q.rest) := by
  refine ⟨⟨?_, ?_⟩, ⟨?_, ?_⟩⟩
  · rintro ⟨fuel, settled⟩ p q argument enters
    by_contra missing
    exact settled (parse_spins argument (parseObject_spins enters missing) fuel)
  · intro returns
    exact parse_stops input fun p argument => parseObject_stops p.unread p rfl fun q enters => returns p q argument enters
  · rintro ⟨fuel, settled⟩ q enters
    by_contra missing
    exact settled (by simp [parseFromServer, parseObject_spins enters missing])
  · intro returns
    exact (parseObject_stops _ _ rfl returns).bind (parseObject_mono _) (fun _ => .const _)
      fun _ _ _ => ⟨0, settled_ok _⟩

/-- `*2`, `+GET` and a double without its line end; and the double alone. -/
theorem parser_stops_counterexample :
    (¬ Stops fun fuel => parse .sample (.granted fun _ _ => 1) fuel (cstr "*2\r\n+GET\r\n,1")) ∧
      ¬ Stops fun fuel => parseFromServer .sample (.granted fun _ _ => 1) fuel (cstr ",1") := by
  have header : parseHeader 9 (parserNew (cstr "*2\r\n+GET\r\n,1")) = .ok (some 2, ⟨ascii '\n', cstr "+GET\r\n,1"⟩) := by
    decide
  have word : parseCmdType .sample (.granted fun _ _ => 1) 9 (parserReadChar ⟨ascii '\n', cstr "+GET\r\n,1"⟩) =
      .ok (.get, ⟨ascii ',', cstr "1"⟩) := by
    decide
  have argument : ArgumentAt .sample (.granted fun _ _ => 1) (cstr "*2\r\n+GET\r\n,1") ⟨ascii ',', cstr "1"⟩ :=
    .first (by decide) header word (by decide) rfl
  have alone : EntersDouble .sample (.granted fun _ _ => 1) ⟨ascii ',', cstr "1"⟩ ⟨ascii ',', cstr "1"⟩ :=
    .here (by decide)
  refine ⟨?_, ?_⟩
  · rintro ⟨fuel, settled⟩
    exact settled (parse_spins argument (parseObject_spins alone (by decide)) fuel)
  · rintro ⟨fuel, settled⟩
    exact settled (by
      have start : parserNew (cstr ",1") = ⟨ascii ',', cstr "1"⟩ := by decide
      simp [parseFromServer, start, parseObject_spins alone (by decide)])

end Frames

end LexiDB
