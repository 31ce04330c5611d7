import LexiDB.ServerInvariant
import LexiDB.BuilderInvariant
import LexiDB.ParserObjects
import LexiDB.Lib.Run

/-! Requests as `execute_cmd` handles them, and what their replies look like. -/

namespace LexiDB

open Lib

/-- One call of `execute_cmd`: what it was given and what it left. -/
structure Request where
  before : Server
  client : Client
  ans : Answers
  fuel : Nat
  cmd : Cmd
  after : Server
  reply : Client

/-- An authenticated client on database `d` had the command in its read buffer
and room in its reply, and `execute_cmd` returned with every allocation granted. -/
structure Request.Executed (env : Env) (d : Nat) (r : Request) : Prop where
  authenticated : r.client.Authenticated
  selected : r.client.databaseNum = d
  grants : r.ans.Grants
  builder : r.client.builder.Valid
  room : Fits r.client.builder 32
  parsed : parse env r.ans.supply r.fuel (r.client.readBuf.take r.client.readPos) = .ok r.cmd
  done : executeCmd env r.ans r.fuel r.before r.client = .ok (r.after, r.reply)

/-- The requests of a run, each starting from the server the one before it left. -/
def Request.Step (ok : Request → Prop) (s : Server) (r : Request) (t : Server) : Prop :=
  r.before = s ∧ r.after = t ∧ ok r

/-- A server with one empty database and no users. -/
def oneDatabase : Server :=
  ⟨0, 3, 6969, cstr "/lexidb", vstrNew, vstrNew, vstrNew, 1,
    [⟨htNew [] 0, setNew [], queueNew, vecNew 0⟩], vecNew 0, vecNew 0, 0, 0⟩

/-- An authenticated client with this in its read buffer. -/
def sender (input : List UInt8) : Client :=
  ⟨4, 0, 0, authenticated, input, input.length, input.length, [], 0, 0, builderNew, .zero, 0⟩

/-- The request of that client, run with every allocation answered by one
address. -/
def sent (s : Server) (address : Nat) (input : List UInt8) : Request :=
  let ans := Answers.granted (fun _ _ => address) 0
  let result := (executeCmd .sample ans 64 s (sender input)).toOption.getD (s, sender input)
  ⟨s, sender input, ans, 64, (parse .sample ans.supply 64 input).toOption.getD .illegal, result.1, result.2⟩

/-- A concrete request that parses and runs is an executed one. -/
theorem sent_executed {s : Server} {address : Nat} {input : List UInt8}
    (parsed : parse .sample (.granted fun _ _ => address) 64 (input.take input.length) = .ok (sent s address input).cmd)
    (done : executeCmd .sample (.granted (fun _ _ => address) 0) 64 s (sender input) =
      .ok ((sent s address input).after, (sent s address input).reply)) :
    (sent s address input).Executed .sample 0 where
  authenticated := show (1 : UInt16) &&& 1 ≠ 0 by decide
  selected := rfl
  grants := Answers.granted_grants _ _
  builder := vstrNew_valid
  room := by
    simp only [sent, sender, builderNew, Fits, vstrNew_bytes, vstrMaxLargeSize]
    decide
  parsed := parsed
  done := done

section Dispatching

variable {env : Env} {ans : Answers} {c : Client}

theorem executeCmd_authenticated (known : c.Authenticated) (legal : cmd.type ≠ .illegal)
    (parsed : parse env ans.supply fuel (c.readBuf.take c.readPos) = .ok cmd) (s : Server) :
    executeCmd env ans fuel s c = dispatch env ans fuel s c cmd := by
  simp [executeCmd, parsed, legal, known]

theorem Request.Executed.dispatched {r : Request} (executed : r.Executed env d) (legal : r.cmd.type ≠ .illegal) :
    dispatch env r.ans r.fuel r.before r.client r.cmd = .ok (r.after, r.reply) := by
  rw [← executeCmd_authenticated executed.authenticated legal executed.parsed]
  exact executed.done

end Dispatching

section Replies

variable {c : Client} {mem : Mem}

theorem addOk_appends (grants : mem.Grants) (valid : c.builder.Valid) (room : Fits c.builder 32) :
    Appended c.builder (cstr "+OK\r\n") (c.addOk mem).builder := by
  obtain ⟨after, added, appended⟩ := pushString_appends grants valid (cstr "+OK\r\n") (room.le (by decide))
  simpa [Client.addOk, Client.appended, builderAddOk, added] using appended

theorem addNone_appends (grants : mem.Grants) (valid : c.builder.Valid) (room : Fits c.builder 32) :
    Appended c.builder (cstr "+NONE\r\n") (c.addNone mem).builder := by
  obtain ⟨after, added, appended⟩ := pushString_appends grants valid (cstr "+NONE\r\n") (room.le (by decide))
  simpa [Client.addNone, Client.appended, builderAddNone, added] using appended

theorem addErr_appends (grants : mem.Grants) (valid : c.builder.Valid) (room : Fits c.builder 32)
    (short : err.length ≤ 29) :
    Appended c.builder (simpleErrTypeByte :: err ++ crlf) (c.addErr mem err).builder := by
  obtain ⟨after, added, appended⟩ := builderAddLine_spec grants valid simpleErrTypeByte err (room.le (by omega))
  simpa [Client.addErr, Client.appended, builderAddErr, added] using appended

/-- Only one text can have been appended. -/
theorem Appended.text_eq {b after : Builder} (one : Appended b text after) (two : Appended b other after) :
    text = other :=
  List.append_cancel_left (one.bytes.symm.trans two.bytes)

/-- The reply to a command that can be refused says whether it was. -/
theorem replyOk_appends {ans : Answers} {s : Server} (grants : ans.reply.Grants) (valid : c.builder.Valid)
    (room : Fits c.builder 32) (accepted : Bool) (short : err.length ≤ 29) :
    Appended c.builder (cstr "+OK\r\n") (replyOk ans s c accepted err).2.builder ↔ accepted = true := by
  cases accepted with
  | true => simpa [replyOk] using addOk_appends grants valid room
  | false =>
    have refused := addErr_appends grants valid room short
    simp only [replyOk, Bool.false_eq_true, ↓reduceIte, iff_false]
    intro claimed
    have clash := claimed.text_eq refused
    have first : some (ascii '+') = some simpleErrTypeByte := congrArg List.head? clash
    exact absurd first (by decide)

end Replies

end LexiDB
