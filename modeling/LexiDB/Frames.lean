import LexiDB.Hilexi
import LexiDB.Encoding
import LexiDB.ParserObjects
import LexiDB.RoundTrip

/-! The frames the request functions of the client put on the wire. -/

namespace LexiDB

open Lib

/-- A string object of these bytes. -/
def Object.ofBytes (bytes : List UInt8) : Object := .string ⟨.lg ⟨0, bytes ++ [0], bytes.length + 1, bytes.length⟩, 0⟩

@[simp] theorem Object.ofBytes_scalar (bytes : List UInt8) : (Object.ofBytes bytes).scalar = some (.string bytes) := by
  simp [Object.ofBytes, Object.scalar, Vstr.bytes_lg]

namespace Call

/-- The word a call is sent under. -/
def word : Call → List UInt8
  | .authenticate _ _ => cstr "AUTH"
  | .ping => cstr "PING"
  | .info => cstr "INFO"
  | .select _ => cstr "SELECT"
  | .keys => cstr "KEYS"
  | .set _ _ => cstr "SET"
  | .get _ => cstr "GET"
  | .del _ => cstr "DEL"
  | .push _ => cstr "PUSH"
  | .pop => cstr "POP"
  | .enque _ => cstr "ENQUE"
  | .deque => cstr "DEQUE"
  | .zset _ => cstr "ZSET"
  | .zhas _ => cstr "ZHAS"
  | .zdel _ => cstr "ZDEL"

def type : Call → Cmdt
  | .authenticate _ _ => .auth
  | .ping => .ping
  | .info => .infoc
  | .select _ => .select
  | .keys => .keys
  | .set _ _ => .set
  | .get _ => .get
  | .del _ => .del
  | .push _ => .push
  | .pop => .pop
  | .enque _ => .enque
  | .deque => .deque
  | .zset _ => .zset
  | .zhas _ => .zhas
  | .zdel _ => .zdel

/-- The arguments as objects, the C strings and the size among them too. -/
def args : Call → List Object
  | .authenticate username password => [.ofBytes (untilNul username), .ofBytes (untilNul password)]
  | .select dbNum => [.int (Int64.ofNat dbNum)]
  | .set key value => [key, value]
  | .get key | .del key => [key]
  | .push value | .enque value | .zset value | .zhas value | .zdel value => [value]
  | .ping | .info | .keys | .pop | .deque => []

/-- The bytes of a call whose arguments have these encodings. -/
def frame (call : Call) (texts : List (List UInt8)) : List UInt8 :=
  match call with
  | .ping => ascii '+' :: call.word ++ crlf
  | .info | .keys | .pop | .deque => bulkString call.word
  | _ => arrayTypeByte :: decimal (texts.length + 1) ++ crlf ++ bulkString call.word ++ texts.flatten

end Call

theorem Call.listed (call : Call) : (call.word, call.type) ∈ lookup := by
  cases call <;> simp [Call.word, Call.type, lookup]

section Build

variable {mem : Mem} {env : Env} {fuel : Nat}

/-- Given room, the call succeeds and appends exactly this text. -/
def BuilderCall.Appends (call : BuilderCall) (text : List UInt8) : Prop :=
  ∀ b : Builder, b.Valid → Fits b text.length → ∃ after, call.add b = .ok (0, after) ∧ Appended b text after

/-- A sequence of builder calls appends what each of them appends. -/
theorem builderCalls_spec {calls : List BuilderCall} {texts : List (List UInt8)}
    (each : List.Forall₂ BuilderCall.Appends calls texts) :
    ∀ b : Builder, b.Valid → Fits b texts.flatten.length →
      ∃ after, builderCalls calls b = .ok (none, after) ∧ Appended b texts.flatten after := by
  induction each with
  | nil => exact fun b valid _ => ⟨b, rfl, .refl valid⟩
  | cons head _ ih =>
    intro b valid fits
    rw [List.flatten_cons, List.length_append] at fits
    obtain ⟨middle, added, first⟩ := head b valid (fits.le (Nat.le_add_right _ _))
    obtain ⟨after, more, rest⟩ := ih middle first.valid (fits.next first rfl)
    exact ⟨after, by simp [builderCalls, added, more], first.trans rest⟩

theorem BuilderCall.array_appends (grants : mem.Grants) (bound : arrLen < sizeMod) (err : List UInt8) :
    (BuilderCall.array mem arrLen err).Appends (arrayTypeByte :: decimal arrLen ++ crlf) := by
  intro b valid fits
  exact builderAddArray_spec grants valid bound (fits.le (by simp [crlf]))

theorem BuilderCall.string_appends (grants : mem.Grants) (str err : List UInt8) :
    (BuilderCall.string mem str err).Appends (bulkString str) :=
  fun _ valid fits => builderAddString_spec grants valid str fits

theorem BuilderCall.int_appends (grants : mem.Grants) (val : Int64) (err : List UInt8) :
    (BuilderCall.int mem val err).Appends (intTypeByte :: signedDecimal val.toInt ++ crlf) := by
  intro b valid fits
  exact builderAddInt_spec grants valid val (fits.le (by simp [crlf]))

/-- With this fuel the object is appended as this encoding. -/
structure SendsWith (mem : Mem) (env : Env) (fuel : Nat) (obj : Object) (text : List UInt8) : Prop where
  encodes : Encodes obj text
  appends : (BuilderCall.object mem env fuel obj []).Appends text

/-- The calls for a command of some arguments. -/
theorem commandCalls_appends (grants : mem.Grants) (word err : List UInt8) {args : List (Object × List UInt8)}
    {texts : List (List UInt8)} (few : args.length + 1 < sizeMod)
    (each : List.Forall₂ (SendsWith mem env fuel) (args.map Prod.fst) texts) :
    List.Forall₂ BuilderCall.Appends (commandCalls mem env fuel word err args)
      ((arrayTypeByte :: decimal (texts.length + 1) ++ crlf) :: bulkString word :: texts) := by
  have count : args.length = texts.length := by simpa using each.length_eq
  rw [← count]
  refine .cons (BuilderCall.array_appends grants few _) (.cons (BuilderCall.string_appends grants word err) ?_)
  rw [List.forall₂_map_left_iff] at each ⊢
  exact each.imp fun _ _ sends => sends.appends

/-- A sequence of builder calls that succeeds starts with one that does. -/
theorem builderCalls_passes {call : BuilderCall} {rest : List BuilderCall} {b after : Builder}
    (done : builderCalls (call :: rest) b = .ok (none, after)) :
    ∃ add middle, add ≠ -1 ∧ call.add b = .ok (add, middle) ∧ builderCalls rest middle = .ok (none, after) := by
  obtain ⟨⟨add, middle⟩, added, done⟩ := bind_eq_ok.mp done
  simp only at done
  split at done
  · cases done
  · rename_i passed
    exact ⟨add, middle, passed, added, done⟩

theorem builderCalls_passed {calls : List BuilderCall} {after : Builder} :
    ∀ b : Builder, builderCalls calls b = .ok (none, after) →
      ∀ call ∈ calls, ∃ before add middle, call.add before = .ok (add, middle) ∧ add ≠ -1 := by
  induction calls with
  | nil => simp
  | cons head rest ih =>
    intro b done call member
    obtain ⟨add, middle, passed, added, done⟩ := builderCalls_passes done
    rcases List.mem_cons.mp member with rfl | later
    · exact ⟨b, add, middle, added, passed⟩
    · exact ih middle done call later

/-- As long as nothing fails `hilexi_authenticate` is a command of two strings. -/
theorem authenticateCalls_of_calls {b after : Builder} {username password err : List UInt8}
    (done : builderCalls [.array mem 3 err, .string mem (cstr "AUTH") err, .string mem (untilNul username) err,
      .string mem (untilNul password) err] b = .ok (none, after)) :
    ∃ add, add ≠ -1 ∧ authenticateCalls username password mem b = .ok (add, after) := by
  obtain ⟨_, one, _, first, done⟩ := builderCalls_passes done
  obtain ⟨_, two, named, second, done⟩ := builderCalls_passes done
  obtain ⟨_, three, user, third, done⟩ := builderCalls_passes done
  obtain ⟨add, four, secret, fourth, done⟩ := builderCalls_passes done
  cases done
  refine ⟨add, secret, ?_⟩
  simp only [BuilderCall.array, BuilderCall.string] at first second third fourth
  simp [authenticateCalls, first, second, named, third, user, fourth]

private theorem encodes_ofBytes (encodes : Encodes (.ofBytes bytes) text) : text = bulkString bytes := by
  cases encodes
  simp [Vstr.bytes_lg]

/-- What a call appends: its frame. -/
def Call.Adds (mem : Mem) (env : Env) (fuel : Nat) (call : Call) (texts : List (List UInt8)) : Prop :=
  ∀ b : Builder, b.Valid → Fits b (call.frame texts).length →
    ∃ after, call.build mem env fuel b = .ok (some after) ∧ Appended b (call.frame texts) after

section Cases

variable {call : Call} {texts : List (List UInt8)}

private theorem adds_of_calls {fn : RequestFn} {pieces : List (List UInt8)} (known : call.fn mem env fuel = some fn)
    (appends : List.Forall₂ BuilderCall.Appends fn.calls pieces) (same : pieces.flatten = call.frame texts) :
    call.Adds mem env fuel texts := by
  intro b valid fits
  rw [← same] at fits ⊢
  obtain ⟨after, called, appended⟩ := builderCalls_spec appends b valid fits
  exact ⟨after, by simp [Call.build, known, called], appended⟩

private theorem adds_word {fn : RequestFn} {err : List UInt8} (grants : mem.Grants) (known : call.fn mem env fuel = some fn)
    (listed : fn.calls = [.string mem call.word err]) (same : call.frame texts = bulkString call.word) :
    call.Adds mem env fuel texts := by
  have appends : List.Forall₂ BuilderCall.Appends fn.calls [bulkString call.word] := by
    rw [listed]
    exact .cons (BuilderCall.string_appends grants _ _) .nil
  exact adds_of_calls known appends (by simp [same])

private theorem adds_command {fn : RequestFn} {err : List UInt8} {args : List (Object × List UInt8)} (grants : mem.Grants)
    (each : List.Forall₂ (SendsWith mem env fuel) call.args texts) (known : call.fn mem env fuel = some fn)
    (listed : fn.calls = commandCalls mem env fuel call.word err args) (same : args.map Prod.fst = call.args)
    (few : args.length < 3)
    (framed : call.frame texts = arrayTypeByte :: decimal (texts.length + 1) ++ crlf ++ bulkString call.word ++ texts.flatten) :
    call.Adds mem env fuel texts := by
  have bound : args.length + 1 < sizeMod := by
    unfold sizeMod
    omega
  have appends := commandCalls_appends grants call.word err bound (same.symm ▸ each)
  rw [← listed] at appends
  exact adds_of_calls known appends (by simp [framed])

private theorem adds_authenticate (grants : mem.Grants) (username password : List UInt8) :
    (Call.authenticate username password).Adds mem env fuel
      [bulkString (untilNul username), bulkString (untilNul password)] := by
  intro b valid fits
  have pieces : List.Forall₂ BuilderCall.Appends
      [.array mem 3 [], .string mem (cstr "AUTH") [], .string mem (untilNul username) [],
        .string mem (untilNul password) []]
      [arrayTypeByte :: decimal 3 ++ crlf, bulkString (cstr "AUTH"), bulkString (untilNul username),
        bulkString (untilNul password)] :=
    .cons (BuilderCall.array_appends grants (by decide) _) (.cons (BuilderCall.string_appends grants _ _)
      (.cons (BuilderCall.string_appends grants _ _) (.cons (BuilderCall.string_appends grants _ _) .nil)))
  have framed : [arrayTypeByte :: decimal 3 ++ crlf, bulkString (cstr "AUTH"), bulkString (untilNul username),
      bulkString (untilNul password)].flatten =
      (Call.authenticate username password).frame [bulkString (untilNul username), bulkString (untilNul password)] := by
    simp [Call.frame, Call.word]
  rw [← framed] at fits ⊢
  obtain ⟨after, called, appended⟩ := builderCalls_spec pieces b valid fits
  obtain ⟨add, succeeded, done⟩ := authenticateCalls_of_calls called
  exact ⟨after, by simp [Call.build, Call.fn, done, succeeded], appended⟩

private theorem adds_select {text err : List UInt8} (grants : mem.Grants) (dbNum : Nat)
    (known : (hilexiSelect mem dbNum).calls =
      [.array mem 2 (cstr "failed to add array to builder"), .string mem (cstr "SELECT") err, number])
    (appends : number.Appends text) : (Call.select dbNum).Adds mem env fuel [text] := by
  have pieces : List.Forall₂ BuilderCall.Appends (hilexiSelect mem dbNum).calls
      [arrayTypeByte :: decimal 2 ++ crlf, bulkString (cstr "SELECT"), text] := by
    rw [known]
    exact .cons (BuilderCall.array_appends grants (by decide) _)
      (.cons (BuilderCall.string_appends grants _ _) (.cons appends .nil))
  exact adds_of_calls rfl pieces (by simp [Call.frame, Call.word])

end Cases

/-- A call whose arguments can be sent appends its frame. -/
theorem Call.adds (grants : mem.Grants) (call : Call) {texts : List (List UInt8)}
    (each : List.Forall₂ (SendsWith mem env fuel) call.args texts) : call.Adds mem env fuel texts := by
  cases call with
  | authenticate username password =>
    cases each with
    | cons first rest =>
      cases rest with
      | cons second rest =>
        cases rest
        rw [encodes_ofBytes first.encodes, encodes_ofBytes second.encodes]
        exact adds_authenticate grants username password
  | ping =>
    have appends : List.Forall₂ BuilderCall.Appends (hilexiPing mem).calls [ascii '+' :: cstr "PING" ++ crlf] := by
      refine .cons ?_ .nil
      intro b valid fits
      obtain ⟨after, pushed, appended⟩ := pushString_appends grants valid (cstr "+PING\r\n") fits
      exact ⟨after, congrArg Except.ok pushed, appended⟩
    exact adds_of_calls rfl appends (by simp [Call.frame, Call.word])
  | select dbNum =>
    cases each with
    | cons first rest =>
      cases rest
      cases first.encodes
      exact adds_select grants dbNum rfl (BuilderCall.int_appends grants _ _)
  | info => exact adds_word grants rfl rfl rfl
  | keys => exact adds_word grants rfl rfl rfl
  | pop => exact adds_word grants rfl rfl rfl
  | deque => exact adds_word grants rfl rfl rfl
  | set key value => exact adds_command grants each rfl rfl rfl (by simp) rfl
  | get key => exact adds_command grants each rfl rfl rfl (by simp) rfl
  | del key => exact adds_command grants each rfl rfl rfl (by simp) rfl
  | push value => exact adds_command grants each rfl rfl rfl (by simp) rfl
  | enque value => exact adds_command grants each rfl rfl rfl (by simp) rfl
  | zset value => exact adds_command grants each rfl rfl rfl (by simp) rfl
  | zhas value => exact adds_command grants each rfl rfl rfl (by simp) rfl
  | zdel value => exact adds_command grants each rfl rfl rfl (by simp) rfl

/-- The same calls with more fuel. -/
private theorem builderCalls_below {calls others : List BuilderCall}
    (each : List.Forall₂ (fun call other => call.err = other.err ∧ ∀ b, Below (call.add b) (other.add b)) calls others) :
    ∀ b, Below (builderCalls calls b) (builderCalls others b) := by
  induction each with
  | nil => exact fun b => .refl _
  | cons head _ ih =>
    intro b
    refine (head.2 b).bind fun added => ?_
    simp only [head.1]
    split
    · exact .refl _
    · exact ih _

/-- More fuel shows the same frame, if any was shown. -/
theorem Call.build_mono (call : Call) (b : Builder) : FuelMono fun fuel => call.build mem env fuel b := by
  intro fuel
  have same : ∀ call : BuilderCall, call.err = call.err ∧ ∀ b, Below (call.add b) (call.add b) :=
    fun _ => ⟨rfl, fun _ => .refl _⟩
  have command : ∀ (word err : List UInt8) (args : List (Object × List UInt8)),
      Below (builderCalls (commandCalls mem env fuel word err args) b)
        (builderCalls (commandCalls mem env (fuel + 1) word err args) b) := by
    intro word err args
    refine builderCalls_below (.cons (same _) (.cons (same _) ?_)) b
    rw [List.forall₂_map_left_iff, List.forall₂_map_right_iff]
    exact List.forall₂_same.mpr fun arg _ => ⟨rfl, fun b => builderAddObject_mono b arg.1 fuel⟩
  cases call with
  | authenticate | ping | info | select | keys | pop | deque => exact .refl _
  | set | get | del | push | enque | zset | zhas | zdel => exact (command _ _ _).bind fun _ => .refl _

/-- A frame is only made of objects that can be sent. -/
theorem Call.sendable_of_built {call : Call} {b after : Builder} (built : call.build mem env fuel b = .ok (some after))
    (objects : ∀ obj ∈ call.args, obj.Built) : ∀ obj ∈ call.args, obj.Sendable := by
  have command : ∀ {word err : List UInt8} {args : List (Object × List UInt8)}, args.map Prod.fst = call.args →
      (builderCalls (commandCalls mem env fuel word err args) b >>= fun result =>
        .ok (if result.1.isSome then none else some result.2)) = .ok (some after) → ∀ obj ∈ call.args, obj.Sendable := by
    intro word err args same done obj member
    obtain ⟨⟨failed, last⟩, called, done⟩ := bind_eq_ok.mp done
    cases failed with
    | some text => simp at done
    | none =>
      rw [← same] at member
      obtain ⟨arg, listed, rfl⟩ := List.mem_map.mp member
      obtain ⟨before, add, middle, added, passed⟩ := builderCalls_passed b called
        (.object mem env fuel arg.1 arg.2) (by simp only [commandCalls, List.mem_cons, List.mem_map]; exact .inr (.inr ⟨arg, listed, rfl⟩))
      exact sendable_of_added (objects arg.1 (same ▸ member)) added passed
  cases call with
  | authenticate => simp [Call.args, Object.ofBytes, Object.Sendable.string]
  | select => simp [Call.args, Object.Sendable.int]
  | ping | info | keys | pop | deque => simp [Call.args]
  | set | get | del | push | enque | zset | zhas | zdel => exact command rfl built

/-- One fuel that is enough for all. -/
private theorem forall₂_enough {R : Nat → α → β → Prop}
    (each : List.Forall₂ (fun a b => ∃ enough, ∀ fuel, enough ≤ fuel → R fuel a b) l m) :
    ∃ enough, ∀ fuel, enough ≤ fuel → List.Forall₂ (R fuel) l m := by
  induction each with
  | nil => exact ⟨0, fun _ _ => .nil⟩
  | cons head _ ih =>
    obtain ⟨one, first⟩ := head
    obtain ⟨two, rest⟩ := ih
    exact ⟨one + two, fun fuel more => .cons (first fuel (by omega)) (rest fuel (by omega))⟩

/-- A call of objects that can be sent appends its frame, given enough fuel. -/
theorem Call.adds_of_sendable (env : Env) (grants : mem.Grants) {call : Call} (sendable : ∀ obj ∈ call.args, obj.Sendable)
    (objects : ∀ obj ∈ call.args, obj.Built) {texts : List (List UInt8)} (encodes : List.Forall₂ Encodes call.args texts) :
    ∃ enough, call.Adds mem env enough texts := by
  -- the encoding of an object that can be sent is the one the encoder appends
  have each : List.Forall₂ (fun obj text => ∃ enough, ∀ fuel, enough ≤ fuel → SendsWith mem env fuel obj text) call.args texts := by
    have known : List.Forall₂ (fun obj text => (obj.Sendable ∧ obj.Built) ∧ Encodes obj text) call.args texts :=
      (List.forall₂_and_left _ _).mpr
      ⟨fun obj member => ⟨sendable obj member, objects obj member⟩, encodes⟩
    refine known.imp ?_
    rintro obj text ⟨⟨sendable, built⟩, encodes⟩
    obtain ⟨bytes, same, enough, renders⟩ := sendable.sends env built grants
    rw [sendable.encodes_unique _ _ encodes same]
    exact ⟨enough, fun fuel more => ⟨same, renders fuel more⟩⟩
  obtain ⟨enough, sends⟩ := forall₂_enough each
  exact ⟨enough, call.adds grants (sends enough (Nat.le_refl _))⟩

/-- What a call that succeeded has appended. -/
theorem Call.built_frame (grants : mem.Grants) {call : Call} {b after : Builder} (valid : b.Valid)
    (built : call.build mem env fuel b = .ok (some after)) (objects : ∀ obj ∈ call.args, obj.Built)
    {texts : List (List UInt8)} (encodes : List.Forall₂ Encodes call.args texts) (fits : Fits b (call.frame texts).length) :
    Appended b (call.frame texts) after := by
  have sendable := call.sendable_of_built built objects
  obtain ⟨enough, adds⟩ := call.adds_of_sendable env grants sendable objects encodes
  obtain ⟨other, added, appended⟩ := adds b valid fits
  have agree : call.build mem env fuel b = call.build mem env enough b :=
    (call.build_mono b).agree (by rw [built]; exact settled_ok _) (by rw [added]; exact settled_ok _)
  rw [built, added] at agree
  cases agree
  exact appended

end Build

section Words

/-- The type a word stands for. -/
def lookupWord (word : List UInt8) : Cmdt :=
  match lookup.find? fun l => l.1 = word with
  | some l => l.2
  | none => .illegal

/-- `lookup_cmd` goes by the bytes of the string. -/
theorem lookupCmd_eq {s : Vstr} (valid : s.Valid) : lookupCmd s = lookupWord s.bytes := by
  rw [lookupCmd, valid.isEntry]
  rfl

theorem lookupWord_of_mem (listed : (word, type) ∈ lookup) : lookupWord word = type := by
  have all : ∀ l ∈ lookup, lookupWord l.1 = l.2 := by decide
  exact all _ listed

theorem listed_of_lookupWord (known : lookupWord word ≠ .illegal) : (word, lookupWord word) ∈ lookup := by
  unfold lookupWord at known ⊢
  split
  · rename_i l found
    have here := List.find?_some found
    have member := List.mem_of_find?_eq_some found
    simp only [decide_eq_true_eq] at here
    rw [← here]
    exact member
  · rename_i missing
    simp [missing] at known

end Words

section Parse

variable {env : Env} {supply : Supply}

theorem word_inLine (listed : (word, type) ∈ lookup) : ∀ byte ∈ word, lineByte byte = true := by
  have all : ∀ l ∈ lookup, l.1.all lineByte = true := by decide
  exact List.all_eq_true.mp (all _ listed)

theorem word_short (listed : (word, type) ∈ lookup) : word.length ≤ 6 := by
  have all : ∀ l ∈ lookup, l.1.length ≤ 6 := by decide
  exact all _ listed

theorem listed_legal (listed : (word, type) ∈ lookup) : type ≠ .illegal := by
  have all : ∀ l ∈ lookup, l.2 ≠ .illegal := by decide
  exact all _ listed

theorem word_bulk_fits (listed : (word, type) ∈ lookup) : (bulkString word).length ≤ vstrMaxLargeSize := by
  have short := word_short listed
  have digits := decimal_length_le (show word.length < 2 ^ 64 by omega)
  simp only [bulkString, crlf, List.length_append, List.length_cons, List.length_nil, vstrMaxLargeSize]
  omega

/-- `parse_cmd_type` recognises a word that is sent as a bulk string. -/
theorem parseCmdType_bulk (env : Env) (grants : supply.Grants) (listed : (word, type) ∈ lookup) (rest : List UInt8) :
    ∃ enough, ∀ fuel, enough ≤ fuel →
      parseCmdType env supply fuel (parserNew (bulkString word ++ rest)) = .ok (type, parserNew rest) := by
  obtain ⟨enough, s, parsed, valid, _, content⟩ := parseObject_string env grants word (word_bulk_fits listed) rest
  refine ⟨enough, ?_⟩
  intro fuel more
  have read := (parseObject_mono _).ok_le parsed more
  have known : lookupCmd s = type := by rw [lookupCmd_eq valid, content, lookupWord_of_mem listed]
  have first : wireType stringTypeByte = some .string := by decide
  simp only [bulkString, List.cons_append, List.append_assoc, parserNew_cons] at read ⊢
  simp [parseCmdType, first, read, known]

/-- What is left to parse of an array that starts with a word. -/
theorem parse_command (env : Env) (grants : supply.Grants) (listed : (word, type) ∈ lookup) (positive : 0 < count)
    (bound : count < sizeMod) (rest : List UInt8) :
    ∃ enough, ∀ fuel, enough ≤ fuel →
      parse env supply fuel (arrayTypeByte :: decimal count ++ crlf ++ bulkString word ++ rest) =
        parseArgs env supply fuel count type (parserNew rest) := by
  obtain ⟨one, named⟩ := parseCmdType_bulk env grants listed rest
  refine ⟨one + (decimal count).length + 1, ?_⟩
  intro fuel more
  have header := parseHeader_decimal bound arrayTypeByte (bulkString word ++ rest) (show _ < fuel by omega)
  have first : wireType arrayTypeByte = some .array := by decide
  simp only [List.append_assoc] at header
  simp only [List.cons_append, List.append_assoc, parse, parserNew_cons, parseCmd, first, parseArrayCmd, header, ok_bind,
    parserReadChar_mk, named fuel (by omega), if_neg (Nat.pos_iff_ne_zero.mp positive), if_neg (listed_legal listed)]

/-- A word alone, as a bulk string. -/
theorem parse_bulk (env : Env) (grants : supply.Grants) (listed : (word, type) ∈ lookup) (rest : List UInt8) :
    ∃ fuel, parse env supply fuel (bulkString word ++ rest) = .ok (.bare type) := by
  obtain ⟨fuel, named⟩ := parseCmdType_bulk env grants listed rest
  have first : wireType stringTypeByte = some .string := by decide
  have read := named fuel (Nat.le_refl _)
  refine ⟨fuel, ?_⟩
  simp only [bulkString, List.cons_append, List.append_assoc, parserNew_cons] at read ⊢
  simp [parse, parseCmd, first, read]

/-- A word alone, as a simple string. -/
theorem parse_simple (env : Env) (grants : supply.Grants) (listed : (word, type) ∈ lookup) (rest : List UInt8) :
    ∃ fuel, parse env supply fuel (ascii '+' :: word ++ crlf ++ rest) = .ok (.bare type) := by
  have short := word_short listed
  obtain ⟨s, read, valid, content⟩ := parseSimpleString_spec grants (word_inLine listed)
    (Nat.le_trans short (by decide)) (ascii '+') rest (Nat.lt_succ_self word.length)
  have known : lookupCmd s = type := by rw [lookupCmd_eq valid, content, lookupWord_of_mem listed]
  have first : wireType (ascii '+') = some .simple := by decide
  refine ⟨word.length + 1, ?_⟩
  simp only [List.cons_append, parse, parserNew_cons, parseCmd, first, parseSimpleStringCmd, read, ok_bind, known, pure_eq_ok]

/-- An argument that is read as an object other than Null. -/
theorem parseOne_reads {Q : Object → Prop} (reads : Reads env supply text fun obj => obj ≠ .null ∧ Q obj)
    (make : Object → Cmd) : ∃ enough obj, Q obj ∧ ∀ fuel, enough ≤ fuel →
      parseOne env supply fuel 2 make (parserNew text) = .ok (make obj) := by
  obtain ⟨enough, obj, parsed, kept, holds⟩ := reads []
  rw [List.append_nil] at parsed
  refine ⟨enough, obj, holds, ?_⟩
  intro fuel more
  have read := (parseObject_mono _).ok_le parsed more
  cases obj with
  | null => exact absurd rfl kept
  | _ => simp [parseOne, read]

theorem parseTwo_reads {Q R : Object → Prop} (first : Reads env supply text fun obj => obj ≠ .null ∧ Q obj)
    (second : Reads env supply other fun obj => obj ≠ .null ∧ R obj) (make : Object → Object → Cmd) :
    ∃ enough one two, Q one ∧ R two ∧ ∀ fuel, enough ≤ fuel →
      parseTwo env supply fuel 3 make (parserNew (text ++ other)) = .ok (make one two) := by
  obtain ⟨few, one, parsed, kept, holds⟩ := first other
  obtain ⟨many, two, later, stays, also_⟩ := second []
  rw [List.append_nil] at later
  refine ⟨few + many, one, two, holds, also_, ?_⟩
  intro fuel more
  have read := (parseObject_mono _).ok_le parsed (show few ≤ fuel by omega)
  have last := (parseObject_mono _).ok_le later (show many ≤ fuel by omega)
  cases one with
  | null => exact absurd rfl kept
  | _ =>
    cases two with
    | null => exact absurd rfl stays
    | _ => simp [parseTwo, read, last]

end Parse

end LexiDB
