import LexiDB.Answered
import LexiDB.Commands
import LexiDB.Framing
import LexiDB.OneReply
import LexiDB.VstrCalls

/-! What a caller of the client library is told: the calls made over one connection,
against the event loop with all its other clients. -/

namespace LexiDB

open Lib

variable {α : Type}

section Objects

/-- How an object comes out at the other end of the wire: Null as the text that is
sent for it, everything else as it was. -/
inductive Object.Arrives : Object → Object → Prop where
  | null {s : Vstr} (valid : s.Valid) (text : s.bytes = cstr "NONE") : Arrives .null (.string s)
  | int {num : Int64} : Arrives (.int num) (.int num)
  | bool {boolean other : Int32} (same : decide (other ≠ 0) = decide (boolean ≠ 0)) : Arrives (.bool boolean) (.bool other)
  | string {s t : Vstr} (valid : t.Valid) (same : t.bytes = s.bytes) : Arrives (.string s) (.string t)
  | array {vec after : Vec Object} (valid : after.Valid) (elems : List.Forall₂ Arrives vec.elems after.elems) :
      Arrives (.array vec) (.array after)
  | ht {table after : Ht Object Object} (empty : table.items = []) (none_ : after.items = []) : Arrives (.ht table) (.ht after)

variable {env : Env} {supply : Supply}

/-- The loop over elements that arrive. -/
theorem parseElems_arrives {objs : List Object} {texts : List (List UInt8)}
    (each : List.Forall₂ (fun obj text => Reads env supply text obj.Arrives) objs texts) (rest : List UInt8)
    {realloc : Nat → Option Nat} (granted : ∀ i, (realloc i).isSome) : ∀ vec : Vec Object, vec.Valid → ∃ fuel after got,
      parseElems (parseObject env supply fuel) realloc texts.length vec (parserNew (texts.flatten ++ rest)) =
        .ok (after, parserNew rest) ∧ after.Valid ∧ after.elems = vec.elems ++ got ∧ List.Forall₂ Object.Arrives objs got := by
  induction each with
  | nil => exact fun vec valid => ⟨0, vec, [], rfl, valid, by simp, .nil⟩
  | @cons obj text objs texts head _ ih =>
    intro vec valid
    obtain ⟨one, first, parsed, arrives⟩ := head (texts.flatten ++ rest)
    obtain ⟨pushed, stored, kept, content⟩ := vecPush_spec valid (fun _ => granted texts.length) first
    obtain ⟨two, after, got, looped, last, whole, all⟩ := ih pushed kept
    have begins := (parseObject_mono _).ok_le parsed (Nat.le_add_right one two)
    have goes := (parseElems_mono _ _ _ _).ok_le looped (Nat.le_add_left two one)
    refine ⟨one + two, after, first :: got, ?_, last, by rw [whole, content]; simp, .cons arrives all⟩
    simp only [List.flatten_cons, List.length_cons, List.append_assoc, parseElems, begins, ok_bind, stored, goes]

/-- A stored object arrives where its encoding is read. -/
theorem Object.Sendable.arrives (grants : supply.Grants) (exact_ : ∀ num : Int64, env.strtold (signedDecimal num.toInt) = num)
    {obj : Object} (sendable : obj.Sendable) : ∀ {text}, obj.Built → Encodes obj text → text.length ≤ vstrMaxLargeSize →
      Reads env supply text obj.Arrives := by
  induction sendable with
  | null =>
    intro text _ encodes _
    cases encodes
    refine (none_reads env grants).imp fun obj is => ?_
    cases obj with
    | string s => exact .null is.1 is.2
    | _ => cases is
  | @int num =>
    intro text _ encodes fits
    cases encodes
    refine (parseObject_wire grants exact_ (.int num) fits).imp fun obj is => ?_
    cases obj with
    | int other =>
      cases is
      exact .int
    | _ => cases is
  | @bool boolean =>
    intro text _ encodes fits
    cases encodes
    have same : (Value.bool (decide (boolean ≠ 0))).wire =
        booleanTypeByte :: (if boolean ≠ 0 then ascii 't' else ascii 'f') :: crlf := by simp [Value.wire]
    rw [← same] at fits ⊢
    refine (parseObject_wire grants exact_ _ fits).imp fun obj is => ?_
    cases obj with
    | bool other => exact .bool is
    | _ => cases is
  | @string s =>
    intro text _ encodes fits
    cases encodes
    refine (parseObject_wire grants exact_ (.string s.bytes) fits).imp fun obj is => ?_
    cases obj with
    | string t => exact .string is.1 is.2
    | _ => cases is
  | @array vec _ _ ih =>
    intro text built encodes fits
    cases encodes with
    | array elems =>
      cases built with
      | array valid bound parts =>
        obtain ⟨texts, each, rfl⟩ := elems.texts
        have count : texts.length = vec.len := by rw [← each.length_eq, valid.length]
        have small : vec.len ≤ vec.cap := valid.room
        rw [← count] at fits ⊢
        simp only [List.length_append] at fits
        have reads : List.Forall₂ (fun obj text => Reads env supply text obj.Arrives) vec.elems texts := by
          refine (List.forall₂_iff_get.mpr ⟨each.length_eq, fun i inside within => ?_⟩)
          have shorter := (List.sublist_flatten_of_mem (texts.get_mem ⟨i, within⟩)).length_le
          have member := vec.elems.get_mem ⟨i, inside⟩
          exact ih _ member (parts _ member) (each.get inside within) (by omega)
        intro rest
        have elements : ∀ realloc : Nat → Option Nat, (∀ i, (realloc i).isSome) → ∀ fresh : Vec Object, fresh.Valid → fresh.elems = [] →
            ∃ fuel after q, parseElems (parseObject env supply fuel) realloc texts.length fresh (parserNew (texts.flatten ++ rest)) =
              .ok (after, q) ∧ q = parserNew rest ∧ after.Valid ∧ List.Forall₂ Object.Arrives vec.elems after.elems := by
          intro realloc granted fresh valid empty
          obtain ⟨fuel, after, got, looped, kept, whole, all⟩ := parseElems_arrives reads rest granted fresh valid
          rw [empty, List.nil_append] at whole
          exact ⟨fuel, after, _, looped, rfl, kept, whole ▸ all⟩
        obtain ⟨fuel, after, q, parsed, rfl, kept, all⟩ :=
          parseObject_elements env grants (Q := fun after q => q = parserNew rest ∧ after.Valid ∧
            List.Forall₂ Object.Arrives vec.elems after.elems) (by omega) elements
        exact ⟨fuel, .array after, by simpa using parsed, .array kept all⟩
  | @ht table empty =>
    intro text built encodes _
    cases encodes with
    | ht order pairs =>
      cases built with
      | ht counted _ _ _ =>
        rw [empty] at order
        cases order.eq_nil
        cases pairs
        have count : table.numEntries = 0 := by rw [counted.count, empty, List.length_nil]
        intro rest
        have type : wireType htTypeByte = some .ht := by decide
        obtain ⟨address, granted⟩ := Option.isSome_iff_exists.mp (grants (decimal 0 ++ (crlf ++ rest)).length 0).1
        have header := parseHeader_decimal (show 0 < sizeMod by decide) htTypeByte rest (Nat.lt_succ_self (decimal 0).length)
        refine ⟨(decimal 0).length + 2, .ht (htNew (supply.seed (decimal 0 ++ (crlf ++ rest)).length) address), ?_,
          .ht empty (htNew_items _ _)⟩
        simp only [List.append_assoc] at header
        simp only [count, List.cons_append, List.append_assoc, List.append_nil, parserNew_cons, parseObject, type, parseHt, header,
          ok_bind, parserReadChar_mk, granted, parsePairs, pure_eq_ok]

end Objects

section Answers

/-- The call returned this line, as a string. -/
def CallResult.Says (result : CallResult) (line : List UInt8) : Prop := ∃ s : Vstr, s.bytes = line ∧ result = .object (.ok (.string s))

/-- The call returned the value, if there is one. -/
def CallResult.Gets (result : CallResult) : Option Object → Prop
  | none => result.Says (cstr "NONE")
  | some obj => ∃ got, obj.Arrives got ∧ result = .object (.ok got)

/-- What a call returns to who is logged in. INFO and KEYS tell more than a store
knows. -/
def Store.Returns (a : Store) (numDatabases : Nat) (result : CallResult) : Call → Prop
  | .ping => result.Says (cstr "PONG")
  | .select dbNum => result.Says (if dbNum < numDatabases then cstr "OK" else errDbrange)
  | .set _ _ | .push _ | .enque _ | .zset _ => result.Says (cstr "OK")
  | .get key => result.Gets (a.dict key.scalar)
  | .del key => result.Says (if (a.dict key.scalar).isSome then cstr "OK" else errInvalidKey)
  | .pop => result.Gets a.stack.getLast?
  | .deque => result.Gets a.queue.head?
  | .zhas value => result.Gets (if (a.set value.scalar).isSome then some (.int 1) else none)
  | .zdel value => result.Says (if (a.set value.scalar).isSome then cstr "OK" else errInvalidKey)
  | .authenticate _ _ | .info | .keys => True

/-- The user is configured with this password, up to the digest. -/
def Knows (env : Env) (users : List User) (username password : List UInt8) : Prop :=
  ∃ user ∈ users, user.name.bytes = username ∧ env.sha256 password = env.sha256 user.password.bytes

/-- What a call over a connection returns. -/
def Service.Returns (a : Service) (env : Env) (users : List User) (numDatabases who : Nat) (call : Call) (result : CallResult) : Prop :=
  ∃ s, a.sessions who = some s ∧
    match call with
    | .authenticate username password => ∃ code, result = .code code ∧ (code = 0 ↔ Knows env users username password)
    | call => if s.authed then (a.stores s.database).Returns numDatabases result call else result.Says errUnauthed

variable {env : Env} {supply : Supply} {users : List User}

theorem credentials_iff {u p : Object} (name : u.scalar = some (.string username)) (secret : p.scalar = some (.string password)) :
    Credentials env users u p ↔ Knows env users username password := by
  have string : ∀ {obj : Object} {bytes : List UInt8}, obj.scalar = some (.string bytes) → ∃ s : Vstr, obj = .string s ∧ s.bytes = bytes := by
    intro obj bytes scalar
    cases obj <;> simp_all [Object.scalar]
  obtain ⟨s, rfl, rfl⟩ := string name
  obtain ⟨t, rfl, rfl⟩ := string secret
  simp [Credentials, Knows]

/-- The caller's check for OK. -/
theorem vstrCmp_ok (mem : Mem) {s : Vstr} (valid : s.Valid) : vstrCmp s (vstrFrom mem (cstr "OK")) = 0 ↔ s.bytes = cstr "OK" := by
  have made : vstrFrom mem (cstr "OK") = vstrFrom (.granted 0) (cstr "OK") := rfl
  have fresh : (vstrFrom (.granted 0) (cstr "OK")).Fresh (cstr "OK") :=
    vstrFromLen_fresh (Mem.granted_grants 0) (show 2 ≤ (cstr "OK").length by decide)
  have bytes := fresh.bytes (by decide)
  rw [made, vstrCmp_name valid fresh.valid (by rw [bytes]; decide), bytes]

/-- What the server writes in a line is told as it is. -/
theorem okLine_decodes (env : Env) (grants : supply.Grants) :
    ∃ s : Vstr, Decodes env supply okLine (.string s) ∧ s.Valid ∧ s.bytes = cstr "OK" := by
  have inLine : (cstr "OK").all lineByte = true := by decide
  obtain ⟨obj, decodes, is⟩ := (simple_reads env grants (List.all_eq_true.mp inLine) (by decide)).decodes
  cases obj with
  | string s => exact ⟨s, decodes, is⟩
  | _ => cases is

theorem noneLine_decodes (env : Env) (grants : supply.Grants) :
    ∃ s : Vstr, Decodes env supply noneLine (.string s) ∧ s.Valid ∧ s.bytes = cstr "NONE" := by
  obtain ⟨obj, decodes, is⟩ := (none_reads env grants).decodes
  cases obj with
  | string s => exact ⟨s, decodes, is⟩
  | _ => cases is

theorem errLine_decodes (env : Env) (grants : supply.Grants) (listed : err ∈ serverErrors) :
    ∃ s : Vstr, Decodes env supply (errLine err) (.string s) ∧ s.Valid ∧ s.bytes = err := by
  obtain ⟨obj, decodes, is⟩ := (error_reads env grants (serverErrors_inLine listed)
    (Nat.le_trans (serverErrors_short listed) (by decide))).decodes
  cases obj with
  | string s => exact ⟨s, decodes, is⟩
  | _ => cases is

variable (grants : supply.Grants) (exact_ : ∀ num : Int64, env.strtold (signedDecimal num.toInt) = num)
include grants exact_

/-- A value that is handed out is what the caller gets. -/
theorem yields_decodes {obj : Option Object} (yields : Yields obj text) (sends : ∀ value, obj = some value → value.Sendable ∧ value.Built)
    (fits : text.length ≤ vstrMaxLargeSize) :
    ∃ got, Decodes env supply text got ∧ (CallResult.object (.ok got)).Gets obj := by
  cases yields with
  | nothing =>
    obtain ⟨s, decodes, _, line⟩ := noneLine_decodes env grants
    exact ⟨.string s, decodes, s, line, rfl⟩
  | @value obj _ encodes =>
    obtain ⟨sendable, built⟩ := sends obj rfl
    obtain ⟨got, decodes, arrives⟩ := (sendable.arrives grants exact_ built encodes fits).decodes
    exact ⟨got, decodes, got, arrives, rfl⟩

/-- What the store answers to a command is told to who called for it. -/
theorem Store.Reply.returns {a : Store} (reply : a.Reply numDatabases text cmd) {call : Call} (carried : call.Carried cmd)
    (other : cmd.type ≠ .auth ∧ cmd.type ≠ .infoc ∧ cmd.type ≠ .keys) (sends : ∀ obj, a.Yielded obj → obj.Sendable ∧ obj.Built)
    (fits : text.length ≤ vstrMaxLargeSize) :
    ∃ got, Decodes env supply text got ∧ a.Returns numDatabases (.object (.ok got)) call := by
  have ok : ∀ {result : CallResult → Prop}, text = okLine → (∀ r : CallResult, r.Says (cstr "OK") → result r) →
      ∃ got, Decodes env supply text got ∧ result (.object (.ok got)) := by
    rintro result rfl told
    obtain ⟨s, decodes, _, line⟩ := okLine_decodes env grants
    exact ⟨.string s, decodes, told _ ⟨s, line, rfl⟩⟩
  have judged : ∀ {holds : Bool} {err : List UInt8}, err ∈ serverErrors → text = (if holds then okLine else errLine err) →
      ∃ got, Decodes env supply text got ∧ (CallResult.object (.ok got)).Says (if holds then cstr "OK" else err) := by
    intro holds err listed same
    cases holds with
    | true => exact ok same fun _ told => told
    | false =>
      obtain ⟨s, decodes, _, line⟩ := errLine_decodes env grants listed
      exact ⟨.string s, same ▸ decodes, s, line, rfl⟩
  have pong : Reads env supply (cstr "+PONG\r\n") (Value.string (cstr "PONG")).Is := by
    have inLine : (cstr "PONG").all lineByte = true := by decide
    exact simple_reads env grants (List.all_eq_true.mp inLine) (by decide)
  cases call <;> cases cmd <;> simp only [Call.Carried] at carried
  case authenticate.auth => exact absurd rfl other.1
  case info.infoc => exact absurd rfl other.2.1
  case keys.keys => exact absurd rfl other.2.2
  case ping.ping =>
    obtain ⟨obj, decodes, is⟩ := pong.decodes
    cases obj with
    | string s => exact ⟨.string s, reply ▸ decodes, s, is.2, rfl⟩
    | _ => cases is
  case select.select dbNum value =>
    obtain ⟨num, rfl, same⟩ := carried
    have number : num.toUInt64.toNat = dbNum := by
      have wraps := Int64.toInt_wraps num
      have bound : num.toUInt64.toNat < sizeMod := UInt64.toNat_lt _
      unfold sizeMod at *
      split at wraps <;> omega
    simp only [Store.Reply, Object.num, number] at reply
    have same : text = if decide (dbNum < numDatabases) = true then okLine else errLine errDbrange := by simpa using reply
    simpa [Store.Returns] using judged (by decide) same
  case set.set => exact ok reply fun _ told => told
  case push.push => exact ok reply fun _ told => told
  case enque.enque => exact ok reply fun _ told => told
  case zset.zset => exact ok reply fun _ told => told
  case get.get key k =>
    simp only [Store.Reply, carried] at reply
    exact yields_decodes grants exact_ reply (fun value stored => sends value (.inl ⟨_, stored⟩)) fits
  case pop.pop => exact yields_decodes grants exact_ reply (fun value stored => sends value (.inr (.inl (List.mem_of_getLast? stored)))) fits
  case deque.deque => exact yields_decodes grants exact_ reply (fun value stored => sends value (.inr (.inr (List.mem_of_head? stored)))) fits
  case del.del key k =>
    simp only [Store.Reply, carried] at reply
    exact judged (by decide) reply
  case zdel.zdel value v =>
    simp only [Store.Reply, carried] at reply
    exact judged (by decide) reply
  case zhas.zhas value v =>
    simp only [Store.Reply, carried] at reply
    refine yields_decodes grants exact_ ?_ ?_ fits
    · rw [reply]
      split
      · exact .value .int
      · exact .nothing
    · intro obj found
      split at found
      · cases found
        exact ⟨.int, .int⟩
      · cases found

omit grants exact_ in
theorem Call.Carried.type {call : Call} (carried : call.Carried cmd) : cmd.type = call.type := by
  cases call <;> cases cmd <;> simp only [Call.Carried] at carried <;> rfl

omit grants exact_ in
/-- No call is answered nothing. -/
theorem Service.Reply.some_ {a : Service} (reply : a.Reply (Credentials env users) numDatabases who cmd text) {call : Call}
    (carried : call.Carried cmd) (other : call.type ≠ .infoc ∧ call.type ≠ .keys) : text ≠ [] := by
  obtain ⟨s, _, reply⟩ := reply
  have yields : ∀ {obj : Option Object}, Yields obj text → text ≠ [] := by
    rintro obj (_ | encodes)
    · decide
    · exact List.ne_nil_of_length_pos (Nat.lt_of_lt_of_le (by decide) encodes.two_le)
  split at reply
  · simp [reply, errLine]
  · split at reply
    · simp [reply, errLine]
    · cases call <;> cases cmd <;> simp only [Call.Carried] at carried
      case authenticate.auth => rcases reply with ⟨_, rfl⟩ | ⟨_, rfl⟩ <;> simp [okLine, errLine, cstr]
      case info.infoc => exact absurd rfl other.1
      case keys.keys => exact absurd rfl other.2
      case ping.ping | set.set | push.push | enque.enque | zset.zset =>
        rw [show text = _ from reply]
        decide
      case get.get | pop.pop | deque.deque => exact yields reply
      all_goals
        rw [show text = _ from reply]
        split <;> simp [okLine, noneLine, errLine, Value.wire, cstr]

/-- What the service answers to a request is told to who called for it. -/
theorem Service.Reply.returns {a : Service} (reply : a.Reply (Credentials env users) numDatabases who cmd text) {call : Call}
    (carried : call.Carried cmd) (other : call.type ≠ .infoc ∧ call.type ≠ .keys)
    (sends : ∀ s, a.sessions who = some s → ∀ obj, (a.stores s.database).Yielded obj → obj.Sendable ∧ obj.Built)
    (fits : text.length ≤ vstrMaxLargeSize) (mem : Mem) :
    ∃ got, Decodes env supply text got ∧ a.Returns env users numDatabases who call (call.answer mem got) := by
  obtain ⟨s, stood, reply⟩ := reply
  have type := carried.type
  rw [if_neg (by rw [type]; cases call <;> simp [Call.type])] at reply
  have told : call.type ≠ .auth → ∃ got, Decodes env supply text got ∧
      if s.authed = true then (a.stores s.database).Returns numDatabases (.object (.ok got)) call
      else (CallResult.object (.ok got)).Says errUnauthed := by
    intro gate
    rw [← type] at gate
    by_cases authed : s.authed = true
    · rw [if_neg (by simp [authed])] at reply
      have stored : (a.stores s.database).Reply numDatabases text cmd := by
        cases cmd with
        | auth => exact absurd rfl gate
        | _ => exact reply
      simp only [if_pos authed]
      exact stored.returns grants exact_ carried ⟨gate, by rw [type]; exact other⟩ (sends s stood) fits
    · rw [if_pos ⟨authed, gate⟩] at reply
      obtain ⟨line, decodes, _, bytes⟩ := errLine_decodes env grants (show errUnauthed ∈ serverErrors by decide)
      refine ⟨.string line, reply ▸ decodes, ?_⟩
      rw [if_neg authed]
      exact ⟨line, bytes, rfl⟩
  cases call with
  | authenticate username password =>
    cases cmd with
    | auth u p =>
      rw [if_neg (by simp [Cmd.type])] at reply
      obtain ⟨name, secret⟩ := carried
      rcases reply with ⟨known, rfl⟩ | ⟨unknown, rfl⟩
      · obtain ⟨line, decodes, valid, bytes⟩ := okLine_decodes env grants
        refine ⟨.string line, decodes, s, stood, _, rfl, ?_⟩
        rw [vstrCmp_ok mem valid, bytes]
        exact iff_of_true rfl ((credentials_iff name secret).mp known)
      · obtain ⟨line, decodes, valid, bytes⟩ := errLine_decodes env grants (show cstr "failed to authenticate" ∈ serverErrors by decide)
        refine ⟨.string line, decodes, s, stood, _, rfl, ?_⟩
        rw [vstrCmp_ok mem valid, bytes]
        exact iff_of_false (by decide) fun known => unknown ((credentials_iff name secret).mpr known)
    | _ => cases carried
  | _ =>
    obtain ⟨got, decodes, returns⟩ := told (by simp [Call.type])
    exact ⟨got, decodes, s, stood, returns⟩

end Answers

/-- A call over a connection, with the step of the run that serves it. -/
structure Visit (α : Type) where
  x : Exchange
  front : List (Fired α × Option Occurrence)
  e : Fired α
  r : Request

/-- The server reads in one burst what the call has written, while nothing else is to
be sent to it, and its reply comes back with EAGAIN only before and behind it. All
allocations of the caller are granted. -/
structure Visit.Made (env : Env) (history : List (Fired α × Option Occurrence)) (who : Nat) (visit : Visit α) : Prop where
  served : ∃ back, history = visit.front ++ (visit.e, some (.asked who visit.r)) :: back
  allowed : visit.x.call.Allowed
  other : visit.x.call.type ≠ .infoc ∧ visit.x.call.type ≠ .keys
  short : visit.x.call.wire.length ≤ vstrMaxLargeSize
  heard : ∃ fuel after, visit.x.call.build visit.x.sys.mem env fuel builderNew = .ok (some after) ∧
    after.bytes = visit.r.client.readBuf.take visit.r.client.readPos ∧
    ∃ written : Nat, hilexiWriteLoop (builderLen after) visit.x.sys.writes 0 = .ok written
  quiet : visit.r.client.builder.bytes = []
  told : visit.x.reply = visit.r.reply.builder.bytes
  delivers : Delivers visit.x.events visit.x.reply
  unbroken : Unbroken visit.x.events
  builds : visit.x.sys.mem.Grants
  grows : ∀ cap, visit.x.sys.grow cap = true
  supplies : visit.x.sys.supply.Grants

section Calls

variable {env : Env} {history : List (Fired α × Option Occurrence)} {visit : Visit α}

theorem Decodes.unique (first : Decodes env supply text obj) (second : Decodes env supply text other) : obj = other := by
  obtain ⟨one, parsed⟩ := first
  obtain ⟨two, again⟩ := second
  exact (parseFromServer_mono text).ok_unique parsed again

variable (exact_ : ∀ num : Int64, env.strtold (signedDecimal num.toInt) = num)
include exact_

/-- A call of scalars, built and parsed by whoever. -/
theorem Call.Allowed.frames {call : Call} (allowed : call.Allowed) (builds : mem.Grants) (short : call.wire.length ≤ vstrMaxLargeSize) :
    (∀ rounds, call.Adds mem env (rounds + 1) (call.args.map Object.wire)) ∧
      ∀ {supply : Supply}, supply.Grants → ∀ {fuel cmd}, parse env supply fuel call.wire = .ok cmd → call.Carried cmd := by
  have reads : ∀ {supply : Supply}, supply.Grants → List.Forall₂ (ReadsAs env supply fun arg obj => obj.scalar = arg.scalar) call.args
      (call.args.map Object.wire) := fun grants => by
    rw [List.forall₂_map_right_iff, List.forall₂_same]
    exact fun obj member => scalar_readsAs grants exact_ (allowed.scalars obj member) (Nat.le_trans (call.length_le_wire member) short)
  refine ⟨fun rounds => call.adds builds ?_, fun {supply} grants fuel cmd parsed => ?_⟩
  · rw [List.forall₂_map_right_iff, List.forall₂_same]
    exact fun obj member => scalar_sendsWith builds env rounds (allowed.scalars obj member)
  · obtain ⟨enough, found, read, type, args⟩ := call.parsed grants (reads grants) fun num obj same => by
      cases obj <;> simp [Object.scalar] at same ⊢
    cases (parse_mono _).ok_unique parsed read
    exact Call.carried_of_args allowed type args

/-- What the server has heard is the frame of the call. -/
theorem Visit.Made.frame (made : visit.Made env history who) :
    visit.r.client.readBuf.take visit.r.client.readPos = visit.x.call.wire ∧ visit.x.Sent env := by
  obtain ⟨fuel, after, built, bytes, written, wrote⟩ := made.heard
  have adds := (made.allowed.frames exact_ made.builds made.short).1
  have fits : ∀ b : Builder, b.bytes = [] → Fits b visit.x.call.wire.length := by
    intro b empty
    simpa [Fits, empty] using made.short
  have added : ∀ b : Builder, b.Valid → b.bytes = [] → ∃ last, visit.x.call.build visit.x.sys.mem env 1 b = .ok (some last) ∧
      last.Valid ∧ last.bytes = visit.x.call.wire := by
    intro b valid empty
    obtain ⟨last, again, appended⟩ := adds 0 b valid (fits b empty)
    exact ⟨last, again, appended.valid, by rw [appended.bytes, empty]; rfl⟩
  obtain ⟨last, again, valid, content⟩ := added builderNew vstrNew_valid vstrNew_bytes
  cases Option.some.inj ((visit.x.call.build_mono builderNew).ok_unique built again)
  refine ⟨bytes.symm.trans content, fun b valid' empty => ?_⟩
  obtain ⟨other, built', kept, same⟩ := added b valid' empty
  have size : builderLen other = builderLen after := by
    have one : other.bytes.length = builderLen other := kept.length
    have two : after.bytes.length = builderLen after := valid.length
    rw [← one, ← two, same, content]
  exact ⟨1, other, built', kept, written, size ▸ wrote⟩

end Calls

section Runs

variable {env : Env} {config : Config} {start w : World α} {history : List (Fired α × Option Occurrence)} {low : Int}
  (launched : start.Launched env config) (digests : ∀ text, (env.sha256 text).length = 32)
  (exact_ : ∀ num : Int64, env.strtold (signedDecimal num.toInt) = num) (granted : ∀ step ∈ history, step.1.k.ans.Grants)
  (plain : ∀ step ∈ history, ∀ who r, step.2 = some (.asked who r) → r.Plain low) (run : Run (Traces env) start history w)
include launched digests exact_ granted plain run

/-- The reply to a call is decoded to what the service answers. -/
theorem Visit.Made.answered {visit : Visit α} (made : visit.Made env history who)
    (values : ∀ d obj text,
      ((service (Credentials env config.users.elems) (serverDatabases config.databases) (occurrences visit.front)).stores d).Yielded obj →
        Encodes obj text → text.length ≤ vstrMaxLargeSize) :
    ∃ got, Decodes env visit.x.sys.supply visit.x.reply got ∧ visit.x.reply ≠ [] ∧ visit.x.reply.length ≤ vstrMaxLargeSize ∧
      (service (Credentials env config.users.elems) (serverDatabases config.databases) (occurrences visit.front)).Returns env
        config.users.elems (serverDatabases config.databases) who visit.x.call (visit.x.call.answer visit.x.sys.mem got) := by
  obtain ⟨back, cut⟩ := made.served
  obtain ⟨v, next, traces, writable, grants, fits, tells⟩ := request_of_run launched digests granted plain run cut
  obtain ⟨_, _, _, parsed, _⟩ := traces.asked rfl
  rw [(made.frame exact_).1] at parsed
  have carried := (made.allowed.frames exact_ made.builds made.short).2 grants.supply parsed
  have type := carried.type
  have room : ∀ size, size ≤ vstrMaxLargeSize → Fits visit.r.client.builder size := fun size small => by
    simpa [Fits, made.quiet] using small
  obtain ⟨text, appended, reply⟩ := tells.plain_replies launched.keeps.2 digests writable grants fits traces
    (by rw [type]; exact made.other) (room 32 (by decide)) fun obj text yielded encodes => room _ (values _ obj text yielded encodes)
  have same : visit.x.reply = text := by rw [made.told, appended.bytes, made.quiet, List.nil_append]
  have small : text.length ≤ vstrMaxLargeSize := by
    have inside := appended.valid.length_le
    rwa [appended.bytes, made.quiet, List.nil_append] at inside
  obtain ⟨got, decodes, returns⟩ := reply.returns made.supplies exact_ carried made.other (fun s stood => by
    have inside := tells.inside who s stood
    rw [← tells.size] at inside
    exact (tells.stores _ _ (List.getElem?_eq_getElem inside)).toStands.sends) small visit.x.sys.mem
  rw [same]
  exact ⟨got, decodes, reply.some_ carried made.other, small, returns⟩

end Runs

section Root

end Root

end LexiDB
