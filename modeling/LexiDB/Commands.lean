import LexiDB.Frames
import LexiDB.Server

/-! Client and server agree on every command: the frame of a call is parsed as
the command of its type with its arguments. -/

namespace LexiDB

open Lib

section Parse

variable {env : Env} {supply : Supply} {Q : Object → Object → Prop}

/-- The frame with these arguments is parsed as the command of the call, each of
its arguments related to the one passed. -/
def Call.Parsed (env : Env) (supply : Supply) (Q : Object → Object → Prop) (call : Call) (texts : List (List UInt8)) : Prop :=
  ∃ fuel cmd, parse env supply fuel (call.frame texts) = .ok cmd ∧ cmd.type = call.type ∧
    List.Forall₂ Q call.args cmd.args

/-- The encoding of an argument is read as a related object other than Null. -/
def ReadsAs (env : Env) (supply : Supply) (Q : Object → Object → Prop) (arg : Object) (text : List UInt8) : Prop :=
  Reads env supply text fun obj => obj ≠ .null ∧ Q arg obj

section Cases

variable {call : Call} {texts : List (List UInt8)}

private theorem parsed_one (grants : supply.Grants) {arg : Object} (make : Object → Cmd) (args : call.args = [arg])
    (each : List.Forall₂ (ReadsAs env supply Q) call.args texts)
    (framed : ∀ text, call.frame [text] = arrayTypeByte :: decimal 2 ++ crlf ++ bulkString call.word ++ text)
    (branch : ∀ fuel p, parseArgs env supply fuel 2 call.type p = parseOne env supply fuel 2 make p)
    (makes : ∀ obj, (make obj).type = call.type ∧ (make obj).args = [obj]) : call.Parsed env supply Q texts := by
  rw [args] at each
  obtain ⟨text, rest, reads, ended, rfl⟩ := List.forall₂_cons_left_iff.mp each
  cases ended
  obtain ⟨few, head⟩ := parse_command env grants call.listed (show 0 < 2 by decide) (by decide) text
  obtain ⟨many, obj, holds, read⟩ := parseOne_reads reads make
  refine ⟨few + many, make obj, ?_, (makes obj).1, ?_⟩
  · rw [framed, head _ (by omega), branch, read _ (by omega)]
  · rw [args, (makes obj).2]
    exact .cons holds .nil

private theorem parsed_two (grants : supply.Grants) {arg other : Object} (make : Object → Object → Cmd)
    (args : call.args = [arg, other]) (each : List.Forall₂ (ReadsAs env supply Q) call.args texts)
    (framed : ∀ text more,
      call.frame [text, more] = arrayTypeByte :: decimal 3 ++ crlf ++ bulkString call.word ++ (text ++ more))
    (branch : ∀ fuel p, parseArgs env supply fuel 3 call.type p = parseTwo env supply fuel 3 make p)
    (makes : ∀ obj last, (make obj last).type = call.type ∧ (make obj last).args = [obj, last]) :
    call.Parsed env supply Q texts := by
  rw [args] at each
  obtain ⟨text, rest, first, remaining, rfl⟩ := List.forall₂_cons_left_iff.mp each
  obtain ⟨more, rest, second, ended, rfl⟩ := List.forall₂_cons_left_iff.mp remaining
  cases ended
  obtain ⟨few, head⟩ := parse_command env grants call.listed (show 0 < 3 by decide) (by decide) (text ++ more)
  obtain ⟨many, obj, last, holds, also_, read⟩ := parseTwo_reads first second make
  refine ⟨few + many, make obj last, ?_, (makes obj last).1, ?_⟩
  · rw [framed, head _ (by omega), branch, read _ (by omega)]
  · rw [args, (makes obj last).2]
    exact .cons holds (.cons also_ .nil)

private theorem parsed_bulk (grants : supply.Grants) (args : call.args = [])
    (framed : call.frame texts = bulkString call.word)
    (bare : (Cmd.bare call.type).type = call.type ∧ (Cmd.bare call.type).args = []) : call.Parsed env supply Q texts := by
  obtain ⟨fuel, parsed⟩ := parse_bulk env grants call.listed []
  rw [List.append_nil] at parsed
  refine ⟨fuel, _, by rw [framed, parsed], bare.1, ?_⟩
  rw [args, bare.2]
  exact .nil

private theorem parsed_select (grants : supply.Grants) (dbNum : Nat)
    (each : List.Forall₂ (ReadsAs env supply Q) (Call.select dbNum).args texts)
    (ints : ∀ num obj, Q (.int num) obj → ∃ other, obj = .int other) : (Call.select dbNum).Parsed env supply Q texts := by
  obtain ⟨text, rest, reads, ended, rfl⟩ := List.forall₂_cons_left_iff.mp each
  cases ended
  obtain ⟨few, head⟩ := parse_command env grants (Call.select dbNum).listed (show 0 < 2 by decide) (by decide) text
  obtain ⟨many, obj, parsed, _, holds⟩ := reads []
  obtain ⟨num, rfl⟩ := ints _ obj holds
  rw [List.append_nil] at parsed
  have read := (parseObject_mono _).ok_le parsed (Nat.le_add_left many few)
  refine ⟨few + many, .select (.int num), ?_, rfl, .cons holds .nil⟩
  have framed : (Call.select dbNum).frame [text] =
      arrayTypeByte :: decimal 2 ++ crlf ++ bulkString (Call.select dbNum).word ++ text := by simp [Call.frame]
  rw [framed, head _ (Nat.le_add_right _ _)]
  simp [Call.type, parseArgs, parseSelect, read]

end Cases

/-- Whatever the arguments are read as, the call is parsed as its command with
these. SELECT wants an Int. -/
theorem Call.parsed (grants : supply.Grants) (call : Call) {texts : List (List UInt8)}
    (each : List.Forall₂ (ReadsAs env supply Q) call.args texts)
    (ints : ∀ num obj, Q (.int num) obj → ∃ other, obj = .int other) : call.Parsed env supply Q texts := by
  cases call with
  | ping =>
    cases each
    obtain ⟨fuel, parsed⟩ := parse_simple env grants Call.ping.listed []
    exact ⟨fuel, _, by simpa [Call.frame] using parsed, rfl, .nil⟩
  | info => exact parsed_bulk grants rfl rfl ⟨rfl, rfl⟩
  | keys => exact parsed_bulk grants rfl rfl ⟨rfl, rfl⟩
  | pop => exact parsed_bulk grants rfl rfl ⟨rfl, rfl⟩
  | deque => exact parsed_bulk grants rfl rfl ⟨rfl, rfl⟩
  | select dbNum => exact parsed_select grants dbNum each ints
  | authenticate => exact parsed_two grants .auth rfl each (by simp [Call.frame]) (fun _ _ => rfl) (fun _ _ => ⟨rfl, rfl⟩)
  | set => exact parsed_two grants .set rfl each (by simp [Call.frame]) (fun _ _ => rfl) (fun _ _ => ⟨rfl, rfl⟩)
  | get => exact parsed_one grants .get rfl each (by simp [Call.frame]) (fun _ _ => rfl) (fun _ => ⟨rfl, rfl⟩)
  | del => exact parsed_one grants .del rfl each (by simp [Call.frame]) (fun _ _ => rfl) (fun _ => ⟨rfl, rfl⟩)
  | push => exact parsed_one grants .push rfl each (by simp [Call.frame]) (fun _ _ => rfl) (fun _ => ⟨rfl, rfl⟩)
  | enque => exact parsed_one grants .enque rfl each (by simp [Call.frame]) (fun _ _ => rfl) (fun _ => ⟨rfl, rfl⟩)
  | zset => exact parsed_one grants .zset rfl each (by simp [Call.frame]) (fun _ _ => rfl) (fun _ => ⟨rfl, rfl⟩)
  | zhas => exact parsed_one grants .zhas rfl each (by simp [Call.frame]) (fun _ _ => rfl) (fun _ => ⟨rfl, rfl⟩)
  | zdel => exact parsed_one grants .zdel rfl each (by simp [Call.frame]) (fun _ _ => rfl) (fun _ => ⟨rfl, rfl⟩)

end Parse

section Scalars

variable {mem : Mem} {env : Env} {supply : Supply}

/-- A scalar as a tree of one node. -/
def Scalar.value : Scalar → Value
  | .int num => .int num
  | .bool boolean => .bool boolean
  | .string bytes => .string bytes

theorem Scalar.scalar_of_is (x : Scalar) {obj : Object} (is : x.value.Is obj) : obj.scalar = some x := by
  cases x <;> cases obj <;> simp_all [Scalar.value, Value.Is, Object.scalar]

/-- The encoding of a scalar object. -/
def Object.wire (obj : Object) : List UInt8 := (obj.scalar.map fun x => x.value.wire).getD []

theorem scalar_sendsWith (grants : mem.Grants) (env : Env) (fuel : Nat) {obj : Object} (known : obj.scalar.isSome) :
    SendsWith mem env (fuel + 1) obj obj.wire := by
  cases obj with
  | int num =>
    refine ⟨.int, fun b valid fits => ?_⟩
    obtain ⟨after, added, appended⟩ := builderAddInt_spec grants valid num (fits.le (by simp [Object.wire, Object.scalar, Scalar.value, Value.wire, crlf]))
    exact ⟨after, by simpa [BuilderCall.object, builderAddObject] using added, appended⟩
  | bool boolean =>
    have text : (Object.bool boolean).wire = booleanTypeByte :: (if boolean ≠ 0 then ascii 't' else ascii 'f') :: crlf := by
      simp [Object.wire, Object.scalar, Scalar.value, Value.wire]
    rw [text]
    refine ⟨.bool, fun b valid fits => ?_⟩
    obtain ⟨after, added, appended⟩ := builderAddBoolean_spec grants valid boolean (fits.le (by simp [crlf]))
    exact ⟨after, by simpa [BuilderCall.object, builderAddObject] using added, appended⟩
  | string s =>
    refine ⟨.string, fun b valid fits => ?_⟩
    obtain ⟨after, added, appended⟩ := builderAddString_spec grants valid s.bytes fits
    exact ⟨after, by simpa [BuilderCall.object, builderAddObject] using added, appended⟩
  | _ => simp [Object.scalar] at known

theorem scalar_readsAs (grants : supply.Grants) (exact_ : ∀ num : Int64, env.strtold (signedDecimal num.toInt) = num)
    {obj : Object} (known : obj.scalar.isSome) (fits : obj.wire.length ≤ vstrMaxLargeSize) :
    ReadsAs env supply (fun arg obj => obj.scalar = arg.scalar) obj obj.wire := by
  obtain ⟨x, value⟩ := Option.isSome_iff_exists.mp known
  have text : obj.wire = x.value.wire := by simp [Object.wire, value]
  intro rest
  rw [text] at fits ⊢
  obtain ⟨fuel, read, parsed, is⟩ := parseObject_wire grants exact_ x.value fits rest
  have same := x.scalar_of_is is
  refine ⟨fuel, read, parsed, ?_, same.trans value.symm⟩
  rintro rfl
  cases same

end Scalars

/-- The command is the one of the call, with exactly its arguments. -/
def Call.Carried : Call → Cmd → Prop
  | .authenticate username password, .auth u p =>
    u.scalar = some (.string username) ∧ p.scalar = some (.string password)
  | .ping, .ping => True
  | .info, .infoc => True
  | .select dbNum, .select value => ∃ num : Int64, value = .int num ∧ num.toInt = dbNum
  | .keys, .keys => True
  | .set key value, .set k v => k.scalar = key.scalar ∧ v.scalar = value.scalar
  | .get key, .get k => k.scalar = key.scalar
  | .del key, .del k => k.scalar = key.scalar
  | .push value, .push v => v.scalar = value.scalar
  | .pop, .pop => True
  | .enque value, .enque v => v.scalar = value.scalar
  | .deque, .deque => True
  | .zset value, .zset v => v.scalar = value.scalar
  | .zhas value, .zhas v => v.scalar = value.scalar
  | .zdel value, .zdel v => v.scalar = value.scalar
  | _, _ => False

/-- Objects are Int, Bool or String, C strings end at their NUL, and the number of
a database is an int64. -/
structure Call.Allowed (call : Call) : Prop where
  scalars : ∀ obj ∈ call.args, obj.scalar.isSome
  strings : ∀ username password, call = .authenticate username password → 0 ∉ username ∧ 0 ∉ password
  small : ∀ dbNum, call = .select dbNum → dbNum < 2 ^ 63

/-- The frame of a call of scalar arguments. -/
def Call.wire (call : Call) : List UInt8 := call.frame (call.args.map Object.wire)

/-- Every argument has its encoding inside the frame. -/
theorem Call.length_le_wire (call : Call) (member : obj ∈ call.args) : obj.wire.length ≤ call.wire.length := by
  have inside : ∀ texts : List (List UInt8), obj.wire ∈ texts → obj.wire.length ≤ texts.flatten.length := by
    intro texts listed
    exact (List.sublist_flatten_of_mem listed).length_le
  cases call with
  | ping | info | keys | pop | deque => cases member
  | _ =>
    refine Nat.le_trans (inside _ (List.mem_map_of_mem member)) ?_
    simp only [Call.wire, Call.frame, List.length_append]
    omega

private theorem forall₂_map_self {R : α → β → Prop} {f : α → β} {l : List α} (each : ∀ a ∈ l, R a (f a)) :
    List.Forall₂ R l (l.map f) := by
  rw [List.forall₂_map_right_iff]
  exact List.forall₂_same.mpr each

theorem Call.carried_of_args {call : Call} {cmd : Cmd} (allowed : call.Allowed) (type : cmd.type = call.type)
    (args : List.Forall₂ (fun arg obj : Object => obj.scalar = arg.scalar) call.args cmd.args) : call.Carried cmd := by
  cases call <;> cases cmd <;> simp only [Cmd.type, Call.type, reduceCtorEq] at type <;>
    simp only [Call.args, Cmd.args, List.forall₂_cons, List.forall₂_nil_left_iff, and_true] at args
  case authenticate.auth username password u p =>
    obtain ⟨name, secret⟩ := allowed.strings username password rfl
    simpa [Call.Carried, untilNul_of_free name, untilNul_of_free secret] using args
  case select.select dbNum value =>
    cases value with
    | int num =>
      have same : num = Int64.ofNat dbNum := by simpa [Object.scalar] using args
      refine ⟨num, rfl, ?_⟩
      rw [same]
      exact Int64.toInt_ofNat_of_lt (allowed.small dbNum rfl)
    | _ => cases args
  all_goals exact args

/-- For every request function and all arguments it may be given, the server reads
what the function puts in its builder as that command with those arguments. -/
theorem call_carried {mem : Mem} {env : Env} {supply : Supply} (builds : mem.Grants) (grants : supply.Grants)
    (exact_ : ∀ num : Int64, env.strtold (signedDecimal num.toInt) = num) {call : Call} (allowed : call.Allowed)
    {b : Builder} (valid : b.Valid) (empty : b.bytes = []) (fits : call.wire.length ≤ vstrMaxLargeSize) (rounds : Nat) :
    ∃ after, call.build mem env (rounds + 1) b = .ok (some after) ∧
      ∃ fuel cmd, parse env supply fuel after.bytes = .ok cmd ∧ call.Carried cmd := by
  have sends : List.Forall₂ (SendsWith mem env (rounds + 1)) call.args (call.args.map Object.wire) :=
    forall₂_map_self fun obj member => scalar_sendsWith builds env rounds (allowed.scalars obj member)
  have reads : List.Forall₂ (ReadsAs env supply fun arg obj => obj.scalar = arg.scalar) call.args
      (call.args.map Object.wire) :=
    forall₂_map_self fun obj member => scalar_readsAs grants exact_ (allowed.scalars obj member)
      (Nat.le_trans (call.length_le_wire member) fits)
  obtain ⟨after, built, appended⟩ := call.adds builds sends b valid (by simpa [Fits, empty, Call.wire] using fits)
  have content : after.bytes = call.frame (call.args.map Object.wire) := by simpa [empty] using appended.bytes
  have ints : ∀ (num : Int64) (obj : Object), obj.scalar = (Object.int num).scalar → ∃ other, obj = .int other := by
    intro num obj same
    cases obj <;> simp [Object.scalar] at same ⊢
  obtain ⟨fuel, cmd, parsed, type, args⟩ := call.parsed grants reads ints
  refine ⟨after, built, fuel, cmd, by rw [content, parsed], Call.carried_of_args allowed type args⟩

theorem call_carried_set :
    ∃ after, (Call.set (.int (-9223372036854775808)) (.ofBytes (cstr "a\r\n\x00b"))).build (.granted 1) .sample 1 builderNew =
        .ok (some after) ∧
      ∃ fuel cmd, parse .sample (.granted fun unread _ => unread) fuel after.bytes = .ok cmd ∧
        (Call.set (.int (-9223372036854775808)) (.ofBytes (cstr "a\r\n\x00b"))).Carried cmd := by
  have allowed : (Call.set (.int (-9223372036854775808)) (.ofBytes (cstr "a\r\n\x00b"))).Allowed :=
    ⟨by simp [Call.args, Object.ofBytes, Object.scalar], by rintro _ _ ⟨⟩, by rintro _ ⟨⟩⟩
  exact call_carried (Mem.granted_grants 1) (Supply.granted_grants _)
    (fun num => by simp [Env.sample, signedValue_signedDecimal]) allowed vstrNew_valid vstrNew_bytes (by decide) 0

end LexiDB
