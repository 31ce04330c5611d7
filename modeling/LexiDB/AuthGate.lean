import LexiDB.ServerInvariant

/-! What a client that has not authenticated can do: nothing but AUTH, and
nothing it sees depends on the databases. -/

namespace LexiDB

open Lib

/-- `execute_cmd` on the client at an address. -/
def executeCmdAt (env : Env) (ans : Answers) (fuel : Nat) (s : Server) (heap : Heap) (pointer : Nat) :
    Except Halt (Server × Heap) :=
  match heap pointer with
  | none => .error .bounds
  | some c => do
    let (s, c) ← executeCmd env ans fuel s c
    return (s, Function.update heap pointer (some c))

section Gate

variable {env : Env} {ans : Answers} {c : Client}

/-- The password check reads the users and nothing else of the server. -/
theorem executeAuthCommand_users {s t : Server} (same : t.users = s.users) (mem : Mem) (username password : Object) :
    executeAuthCommand env mem t c username password = executeAuthCommand env mem s c username password := by
  unfold executeAuthCommand
  rw [same]

/-- The one answer an unauthenticated client gets, whatever else the server
holds. -/
theorem executeCmd_gated (s : Server) (gated : ¬ c.Authenticated)
    (parsed : parse env ans.supply fuel (c.readBuf.take c.readPos) = .ok cmd) :
    ∃ reply : Client, (∀ t : Server, t.users = s.users → executeCmd env ans fuel t c = .ok (t, reply)) ∧
      reply.databaseNum = c.databaseNum ∧ (cmd.type ≠ .auth → reply.flags = c.flags ∧ reply.user = c.user) := by
  by_cases illegal : cmd.type = .illegal
  · refine ⟨c.addErr ans.reply errInvalidCommand, ?_, rfl, fun _ => ⟨rfl, rfl⟩⟩
    intro t _
    simp [executeCmd, parsed, illegal]
  · by_cases other : cmd.type ≠ .auth
    · refine ⟨c.addErr ans.reply errUnauthed, ?_, rfl, fun _ => ⟨rfl, rfl⟩⟩
      intro t _
      simp [executeCmd, parsed, illegal, gated, other]
    · cases cmd with
      | auth username password =>
        have kept := executeAuthCommand_databaseNum env ans.hash s c username password
        generalize outcome : executeAuthCommand env ans.hash s c username password = result at kept
        obtain ⟨res, after⟩ := result
        refine ⟨if res ≠ 0 then after.addErr ans.reply (cstr "failed to authenticate") else after.addOk ans.reply,
          ?_, ?_, fun different => absurd rfl different⟩
        · intro t same
          have checked := (executeAuthCommand_users same ans.hash username password).trans outcome
          simp [executeCmd, parsed, Cmd.type, dispatch, checked]
        · split <;> exact kept
      | _ => exact absurd (by simp [Cmd.type]) other

/-- The gate, over the whole heap of clients: the server is left as it was, no
other client is touched, only AUTH can change this client's flags and user, and
every server with the same users answers it alike. -/
theorem executeCmdAt_gate (s : Server) {heap : Heap} {pointer : Nat} (found : heap pointer = some c)
    (gated : ¬ c.Authenticated) (parsed : parse env ans.supply fuel (c.readBuf.take c.readPos) = .ok cmd) :
    ∃ reply : Client,
      (∀ (t : Server) (others : Heap), t.users = s.users → others pointer = some c →
        ∃ after : Heap, executeCmdAt env ans fuel t others pointer = .ok (t, after) ∧ after pointer = some reply ∧
          ∀ other, other ≠ pointer → after other = others other) ∧
      (∃ after : Heap, executeCmdAt env ans fuel s heap pointer = .ok (s, after)) ∧
      reply.databaseNum = c.databaseNum ∧ (cmd.type ≠ .auth → reply.flags = c.flags ∧ reply.user = c.user) := by
  obtain ⟨reply, answers, kept, onlyAuth⟩ := executeCmd_gated s gated parsed
  have each : ∀ (t : Server) (others : Heap), t.users = s.users → others pointer = some c →
      executeCmdAt env ans fuel t others pointer = .ok (t, Function.update others pointer (some reply)) := by
    intro t others same here
    simp [executeCmdAt, here, answers t same]
  refine ⟨reply, ?_, ⟨_, each s heap rfl found⟩, kept, onlyAuth⟩
  intro t others same here
  exact ⟨_, each t others same here, by simp, fun other different => Function.update_of_ne different _ _⟩

end Gate

/-- A server without databases and users. -/
private def emptyServer : Server :=
  ⟨0, 3, 6969, cstr "/lexidb", vstrNew, vstrNew, vstrNew, 0, [], vecNew 0, vecNew 0, 0, 0⟩

/-- A client that has just sent a bare KEYS. -/
private def keysClient : Client :=
  ⟨4, 0, 0, 0, cstr "+KEYS\r\n", 7, 7, [], 0, 0, builderNew, .zero, 0⟩

theorem executeCmdAt_gate_keys :
    ∃ reply : Client,
      (∀ (t : Server) (others : Heap), t.users = emptyServer.users → others 1 = some keysClient →
        ∃ after : Heap, executeCmdAt .sample (.granted (fun _ _ => 1) 0) 9 t others 1 = .ok (t, after) ∧
          after 1 = some reply ∧ ∀ other, other ≠ 1 → after other = others other) ∧
      (∃ after : Heap, executeCmdAt .sample (.granted (fun _ _ => 1) 0) 9 emptyServer
        (fun pointer => if pointer = 1 then some keysClient else none) 1 = .ok (emptyServer, after)) ∧
      reply.databaseNum = keysClient.databaseNum ∧
      (Cmd.keys.type ≠ .auth → reply.flags = keysClient.flags ∧ reply.user = keysClient.user) :=
  executeCmdAt_gate emptyServer (by simp) (by decide) (by rfl)

end LexiDB
