import LexiDB.Refinement

/-! Keys that a client can rely on: non-empty strings that stay in the struct, and
Ints of one window of 2^32. How they come out of the parser decides how they are
hashed and compared. -/

namespace LexiDB

open Lib

/-- Short contents are in the struct, with zeros behind them. -/
structure Vstr.Compact (s : Vstr) : Prop where
  valid : s.Valid
  cleared : s.Cleared
  inside : s.bytes.length < vstrMaxSmallSize → ∃ data, s.strData = .sm data

theorem vstrNew_compact : vstrNew.Compact := ⟨vstrNew_valid, vstrNew_cleared, fun _ => ⟨_, rfl⟩⟩

/-- Compact strings of the same short contents are the same bytes. -/
theorem Vstr.Compact.raw_eq {s t : Vstr} (first : s.Compact) (second : t.Compact) (short : s.bytes.length < vstrMaxSmallSize)
    (same : s.bytes = t.bytes) : s.raw = t.raw := by
  obtain ⟨data, small⟩ := first.inside short
  obtain ⟨other, small'⟩ := second.inside (same ▸ short)
  obtain ⟨strData, avail⟩ := s
  obtain ⟨strData', avail'⟩ := t
  cases small
  cases small'
  have split := first.cleared.data_eq first.valid
  have split' := second.cleared.data_eq second.valid
  obtain ⟨size, free⟩ := Vstr.valid_sm.mp first.valid
  obtain ⟨size', free'⟩ := Vstr.valid_sm.mp second.valid
  have length := first.valid.length
  have length' := second.valid.length
  simp only [vstrLen] at length length'
  have avails : avail = avail' := by
    rw [same, length'] at length
    omega
  subst avails
  have equal : data = other := by rw [split, split', same]
  rw [equal]

section Parsing

variable {env : Env} {supply : Supply} (grants : supply.Grants)
include grants

theorem parserPush_compact {state : Vstr × Parser} (compact : state.1.Compact) : (parserPush supply state).1.Compact := by
  obtain ⟨valid, cleared, inside⟩ := compact
  obtain ⟨kept, appended⟩ := vstrPushChar_kept (grants state.2.rest.length 1) valid state.2.ch
  refine ⟨kept, vstrPushChar_cleared (grants _ _) valid cleared _, fun short => ?_⟩
  obtain ⟨⟨strData, avail⟩, p⟩ := state
  have shorter : (Vstr.mk strData avail).bytes.length < vstrMaxSmallSize ∧
      (Vstr.mk strData avail).bytes.length ≤ (parserPush supply (⟨strData, avail⟩, p)).1.bytes.length := by
    simp only [parserPush] at short appended ⊢
    rcases appended with more | same
    · rw [more, List.length_append] at short ⊢
      omega
    · rw [same] at short ⊢
      omega
  obtain ⟨data, small⟩ := inside shorter.1
  cases small
  obtain ⟨size, free⟩ := Vstr.valid_sm.mp valid
  have length := valid.length
  simp only [vstrLen] at length
  have room : [p.ch].length ≤ avail := by
    simp only [List.length_singleton]
    omega
  obtain ⟨after, pushed, _⟩ := vstrSmPush_fits size free room
  refine ⟨after, ?_⟩
  simp only [parserPush, vstrPushChar, pushed]

theorem parserPushes_compact : ∀ (count : Nat) (state : Vstr × Parser), state.1.Compact → (parserPushes supply count state).1.Compact := by
  intro count
  induction count with
  | zero => exact fun state compact => compact
  | succ count ih => exact fun state compact => ih _ (parserPush_compact grants compact)

/-- The counted loop fills the string, up to what a vstr can hold. -/
theorem parserPushes_fill : ∀ (count : Nat) (state : Vstr × Parser), state.1.Valid → state.1.Cleared →
    (parserPushes supply count state).1.Valid ∧ (parserPushes supply count state).1.Cleared ∧
      (parserPushes supply count state).1.bytes.length = min (state.1.bytes.length + count) vstrMaxLargeSize := by
  intro count
  induction count with
  | zero =>
    intro state valid cleared
    exact ⟨valid, cleared, (Nat.min_eq_left valid.length_le).symm⟩
  | succ count ih =>
    intro state valid cleared
    obtain ⟨kept, taken⟩ := vstrPushChar_take (grants state.2.rest.length 1) valid state.2.ch
    have clean := vstrPushChar_cleared (grants state.2.rest.length 1) valid cleared state.2.ch
    obtain ⟨last, zeros, length⟩ := ih (parserPush supply state) kept clean
    refine ⟨last, zeros, ?_⟩
    have one : (parserPush supply state).1.bytes.length = min (state.1.bytes.length + 1) vstrMaxLargeSize := by
      simp only [parserPush, taken, List.length_take, List.length_append, List.length_singleton]
      omega
    rw [parserPushes, length, one]
    omega

theorem parserCollect_compact {s t : Vstr} (compact : s.Compact) (done : parserCollect supply more fuel s p = .ok (t, q)) : t.Compact := by
  have kept := whileFuel_invariant (fun state : Vstr × Parser => state.1.Compact)
    (fun state holds _ => parserPush_compact grants holds) fuel (s, p) (t, q) compact done
  exact kept.1

/-- A line without its end is emptied and keeps its bytes. -/
theorem parseLine_compact {s t : Vstr} (compact : s.Compact) (done : parseLine supply fuel s p = .ok (t, q)) (some_ : t.bytes ≠ []) :
    t.Compact := by
  obtain ⟨⟨text, middle⟩, collected, done⟩ := bind_eq_ok.mp done
  have kept := parserCollect_compact grants compact collected
  simp only at done
  split at done
  · cases done
    exact absurd (vstrFree_spec kept.valid).2 some_
  · split at done
    · cases done
      exact absurd (vstrFree_spec kept.valid).2 some_
    · cases done
      exact kept

/-- A string that is announced long is made long, and filled. -/
theorem parseString_compact {s : Vstr} (done : parseString supply p len = .ok (s, q)) : s.Compact := by
  obtain ⟨empty, created, pushed⟩ := bind_eq_ok.mp done
  have result := congrArg Prod.fst (Except.ok.inj pushed)
  simp only at result
  by_cases large : (len + 1) % sizeMod > vstrMaxSmallSize
  · by_cases room : (len + 1) % sizeMod ≤ vstrMaxLargeSize
    · obtain ⟨t, made, valid, cleared, nothing⟩ := vstrNewLen_spec (grants p.rest.length 0) room
      rw [made] at created
      cases created
      obtain ⟨kept, clean, length⟩ := parserPushes_fill grants len (empty, p) valid cleared
      rw [result] at kept clean length
      refine ⟨kept, clean, fun short => ?_⟩
      have announced : vstrMaxSmallSize ≤ len := by
        have modulus := Nat.mod_le (len + 1) sizeMod
        omega
      simp only [nothing, List.length_nil] at length
      simp only [vstrMaxSmallSize, vstrMaxLargeSize] at *
      omega
    · simp [vstrNewLen, large, room] at created
  · have made : vstrNew = empty := by simpa [vstrNewLen, large] using created
    have kept := parserPushes_compact grants len (empty, p) (made ▸ vstrNew_compact)
    rwa [result] at kept

/-- A string object that is not empty is compact. -/
def Object.Tidy : Object → Prop
  | .string s => s.bytes ≠ [] → s.Compact
  | _ => True

theorem parseObject_tidy (done : parseObject env supply fuel p = .ok (obj, q)) : obj.Tidy := by
  have finished : ∀ (value : Object) (from_ : Parser), value.Tidy → (parserFinish value from_).1.Tidy := by
    intro value from_ tidy
    unfold parserFinish
    split
    · trivial
    · split
      · trivial
      · exact tidy
  cases fuel with
  | zero => cases done
  | succ fuel =>
    unfold parseObject at done
    split at done
    · obtain ⟨⟨len, middle⟩, header, done⟩ := bind_eq_ok.mp done
      cases len with
      | none =>
        cases done
        trivial
      | some len =>
        obtain ⟨⟨s, last⟩, read, done⟩ := bind_eq_ok.mp done
        have compact := parseString_compact grants read
        have final := finished (.string s) last fun _ => compact
        rwa [Except.ok.inj done] at final
    · obtain ⟨⟨val, middle⟩, _, done⟩ := bind_eq_ok.mp done
      have final := finished (.int val) middle trivial
      rwa [Except.ok.inj done] at final
    · obtain ⟨⟨val, middle⟩, _, done⟩ := bind_eq_ok.mp done
      have final := finished (.double val) middle trivial
      rwa [Except.ok.inj done] at final
    · have final : (parseBoolean p).1.Tidy := by
        unfold parseBoolean
        simp only
        split
        · trivial
        · split
          · trivial
          · split <;> trivial
      rwa [Except.ok.inj done] at final
    · obtain ⟨⟨s, middle⟩, read, done⟩ := bind_eq_ok.mp done
      obtain ⟨empty, created, line⟩ := bind_eq_ok.mp read
      cases created
      cases done
      exact parseLine_compact grants vstrNew_compact line
    · obtain ⟨⟨s, middle⟩, line, done⟩ := bind_eq_ok.mp done
      cases done
      exact parseLine_compact grants vstrNew_compact line
    · obtain ⟨⟨len, middle⟩, _, done⟩ := bind_eq_ok.mp done
      cases len with
      | none =>
        cases done
        trivial
      | some len =>
        simp only at done
        split at done
        · cases done
        · obtain ⟨_, _, done⟩ := bind_eq_ok.mp done
          cases done
          trivial
    · obtain ⟨⟨len, middle⟩, _, done⟩ := bind_eq_ok.mp done
      cases len with
      | none =>
        cases done
        trivial
      | some len =>
        simp only at done
        split at done
        · cases done
        · obtain ⟨_, _, done⟩ := bind_eq_ok.mp done
          cases done
          trivial
    · cases done
      trivial

end Parsing

section Keys

variable {env : Env}

/-- A key or element that is told from all others of its kind: an Int of the window
that starts at `low`, or a string that is short, not empty and free of NUL. -/
def Scalar.Handy (low : Int) : Scalar → Prop
  | .int num => low ≤ num.toInt ∧ num.toInt < low + 2 ^ 32
  | .bool _ => False
  | .string bytes => bytes ≠ [] ∧ bytes.length < vstrMaxSmallSize ∧ 0 ∉ bytes

/-- No two of these values are confused. -/
theorem Scalar.Handy.tells {x y : Scalar} (first : x.Handy low) (second : y.Handy low) : x.Confused y ↔ x = y := by
  refine ⟨?_, fun same => same ▸ .refl _⟩
  cases x <;> cases y <;> simp only [Confused, Handy, Scalar.int.injEq, Scalar.string.injEq, reduceCtorEq, false_imp_iff] at first second ⊢
  case int.int a b =>
    rintro ⟨k, apart⟩
    have same : a.toInt = b.toInt := by omega
    exact Int64.toInt_inj.mp same
  case string.string a b =>
    rintro ⟨length, same⟩
    rw [untilNul_of_free first.2.2, untilNul_of_free second.2.2] at same
    exact same

/-- An object with such a value, as the parser represents it. -/
structure Object.Handy (low : Int) (obj : Object) : Prop where
  valued : ∃ x, obj.scalar = some x ∧ x.Handy low
  tidy : obj.Tidy
  valid : obj.StringValid

theorem Object.Handy.clear {a b : Object} (first : a.Handy low) (second : b.Handy low) : ClearOf env a b := by
  obtain ⟨⟨x, readA, handyA⟩, tidyA, _⟩ := first
  obtain ⟨⟨y, readB, handyB⟩, tidyB, _⟩ := second
  intro x' y' readA' readB'
  rw [readA, Option.some.injEq] at readA'
  rw [readB, Option.some.injEq] at readB'
  subst readA' readB'
  refine ⟨?_, fun different confused => different ((handyA.tells handyB).mp confused)⟩
  rintro rfl
  cases a <;> simp only [Object.scalar, Option.some.injEq, reduceCtorEq] at readA <;> subst readA <;>
  cases b <;> simp only [Object.scalar, Option.some.injEq, reduceCtorEq, Scalar.int.injEq, Scalar.string.injEq] at readB
  case int.int => rw [readB]
  case string.string s t =>
    have compactA := tidyA handyA.1
    have compactB := tidyB (readB ▸ handyA.1)
    have same := compactB.raw_eq compactA (readB ▸ handyA.2.1) readB
    simp only [Object.raw, Object.payload, Object.type, same]
  case bool.bool => exact absurd handyA (by simp [Scalar.Handy])

/-- The database holds what the store says, under handy keys. -/
structure Lexidb.Tells (env : Env) (low : Int) (db : Lexidb) (a : Store) : Prop extends db.Stands env a where
  handyKeys : ∀ entry ∈ db.dict.items, entry.key.Handy low
  handyElems : ∀ stored ∈ db.set.items, stored.Handy low

/-- A queue node is allocated at an address no queue has in use, the key or element
is handy, and a value to be handed out can be sent. -/
structure Request.Plain (low : Int) (r : Request) : Prop where
  unused : ∀ db ∈ r.before.db, ∀ node, r.ans.node = some node → db.queue.nodes node = none
  named : ∀ key, r.cmd.dictKey = some key ∨ r.cmd.setValue = some key → ∃ x, key.scalar = some x ∧ x.Handy low
  kept : ∀ obj ∈ r.cmd.kept, obj.Sendable ∧ obj.Built

variable {low : Int} {r : Request} (plain : r.Plain low) (grants : r.ans.Grants)
  (parsed : parse env r.ans.supply r.fuel (r.client.readBuf.take r.client.readPos) = .ok r.cmd)
include plain grants parsed

theorem Request.Plain.handy (named : (r.client.obeys r.cmd).dictKey = some key ∨ (r.client.obeys r.cmd).setValue = some key) :
    key.Handy low := by
  unfold Client.obeys at named
  split at named
  · rcases named with clash | clash <;> cases clash
  · have arg : key ∈ r.cmd.args := by
      rcases named with same | same <;> cases cmd : r.cmd <;> simp_all [Cmd.dictKey, Cmd.setValue, Cmd.args]
    have tidy := parse_args (P := Object.Tidy) (fun _ _ _ _ done => parseObject_tidy grants.supply done) trivial parsed key arg
    have valid := parse_args (P := Object.StringValid)
      (fun _ _ _ _ done => parseObject_stringValid grants.supply done) trivial parsed key arg
    exact ⟨plain.named key named, tidy, valid⟩

/-- What is obeyed fits any database with handy keys. -/
theorem Request.Plain.fit (tells : db.Tells env low a) : (r.client.obeys r.cmd).Fit env db := by
  have clear : ∀ {key other : Object}, key.Handy low → other.Handy low → key.scalar.isSome ∧ ClearOf env key other := by
    intro key other handy stored
    obtain ⟨x, read, _⟩ := handy.valued
    exact ⟨by simp [read], handy.clear stored⟩
  refine ⟨?_, fun key named => ?_, fun value named => ?_⟩
  · intro obj member
    unfold Client.obeys at member
    split at member
    · cases member
    · exact plain.kept obj member
  · have handy := plain.handy grants parsed (.inl named)
    exact ⟨(clear handy handy).1, fun entry member => (clear handy (tells.handyKeys entry member)).2⟩
  · have handy := plain.handy grants parsed (.inr named)
    exact ⟨(clear handy handy).1, fun stored member => (clear handy (tells.handyElems stored member)).2⟩

/-- And leaves it one. -/
theorem Request.Plain.operates : r.Operates env fun _ db a => db.Tells env low a := by
  intro db a found strings tells
  have stands := tells.toStands.operate (plain.fit grants parsed tells) strings grants
    (plain.unused db (List.mem_of_getElem? found))
  have handy : ∀ {key : Object}, (r.client.obeys r.cmd).dictKey = some key ∨ (r.client.obeys r.cmd).setValue = some key →
      key.Handy low := plain.handy grants parsed
  obtain ⟨⟨dictPlaced, _, _, setPlaced, _, _, _, _⟩, keys, elems⟩ := tells
  refine ⟨stands, ?_, ?_⟩
  · intro entry member
    cases obeyed : r.client.obeys r.cmd with
    | set key value =>
      rw [obeyed] at member handy
      rcases htInsert_keys dictPlaced r.ans.resize key value entry member with same | ⟨old, present, same⟩
      · rw [same]
        exact handy (.inl rfl)
      · rw [← same]
        exact keys old present
    | del key =>
      rw [obeyed] at member
      exact keys entry (htDelete_subset dictPlaced key entry member)
    | _ =>
      rw [obeyed] at member
      exact keys entry member
  · intro stored member
    cases obeyed : r.client.obeys r.cmd with
    | zset value =>
      rw [obeyed] at member handy
      rcases setInsert_items setPlaced r.ans.set value stored member with same | old
      · rw [same]
        exact handy (.inr rfl)
      · exact elems stored old
    | zdel value =>
      rw [obeyed] at member
      exact elems stored (setDelete_subset setPlaced value stored member)
    | _ =>
      rw [obeyed] at member
      exact elems stored member

end Keys

theorem lexidbNew_tells {mem : Nat → LexidbMem} (env : Env) (low : Int) {d : Nat} (found : (lexidbNew mem n)[d]? = some db) :
    db.Tells env low .empty := by
  refine ⟨lexidbNew_stands env found, ?_, ?_⟩ <;>
  · rw [lexidbNew_getElem found]
    simp

end LexiDB
