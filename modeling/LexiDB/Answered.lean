import LexiDB.Served
import LexiDB.ShortKeys

/-! What every request of a run is answered, for keys a client can rely on. -/

namespace LexiDB

open Lib

variable {α : Type}

/-- The builders of all clients are well formed. -/
def World.Writable (w : World α) : Prop := ∀ who c, w.heap who = some c → c.builder.Valid

namespace World

section Callbacks

variable {env : Env} {k : Kernel α} {w after : World α} (writable : w.Writable)
include writable

theorem Writable.update {s : Server} {who : Nat} {c : Option Client} {fds : Finset Nat} {ev : Ev EvFileFn α}
    (valid : ∀ d, c = some d → d.builder.Valid) : Writable ⟨s, Function.update w.heap who c, fds, ev⟩ := by
  intro other d found
  simp only [Function.update_apply] at found
  split at found
  · exact valid d found
  · exact writable other d found

theorem serverAccept_writable : (w.serverAccept k).Writable := by
  unfold serverAccept
  split
  · exact writable
  · simp only
    split
    · split
      · exact writable
      · rename_i pointer client created
        have new : client.builder.Valid := by
          unfold createClient at created
          split at created
          · cases created
          · split at created
            · cases created
              exact vstrNew_valid
            · cases created
        have added : ∀ s fds ev, Writable (⟨s, Function.update w.heap pointer (some client), fds, ev⟩ : World α) := by
          intro s fds ev
          refine writable.update fun d same => ?_
          cases same
          exact new
        split
        · exact added _ _ _
        · split
          · refine (added w.server w.fds w.ev).update fun d same => ?_
            cases same
          · exact added _ _ _
    · exact writable

theorem readFromClient_writable (granted : k.ans.reply.calloc.isSome) (done : w.readFromClient env k fd mask = .ok after) :
    after.Writable := by
  obtain ⟨found, searched, done⟩ := bind_eq_ok.mp done
  split at done
  · cases done
    exact writable
  · rename_i i pointer c
    obtain ⟨⟨ended, d⟩, looped, done⟩ := bind_eq_ok.mp done
    have valid : d.builder.Valid := by
      obtain ⟨_, _, _, rfl⟩ := readLoop_buffered _ _ _ _ _ looped
      exact writable pointer c (findClient_fd _ _ searched).1
    cases ended with
    | closed =>
      cases done
      exact writable.update (c := none) fun d same => by cases same
    | failed =>
      cases done
      exact writable.update fun e same => by
        cases same
        exact valid
    | burst =>
      obtain ⟨⟨s, e⟩, executed, done⟩ := bind_eq_ok.mp done
      have grown := executeCmd_grows granted valid executed
      simp only at done
      split at done <;>
      · cases done
        exact writable.update fun f same => by
          cases same
          exact grown.valid

theorem writeToClient_writable (done : w.writeToClient k fd mask = .ok (after, chunks)) : after.Writable := by
  obtain ⟨found, searched, done⟩ := bind_eq_ok.mp done
  split at done
  · cases done
    exact writable
  · rename_i i pointer c
    obtain ⟨⟨sent, taken⟩, _, done⟩ := bind_eq_ok.mp done
    have valid := writable pointer c (findClient_fd _ _ searched).1
    simp only at done
    split at done
    · cases done
      exact writable.update fun d same => by
        cases same
        exact (vstrReset_spec valid).1
    · cases done
      exact writable

theorem Writable.step {e : Fired α} (granted : e.k.ans.reply.calloc.isSome) (fires : Fires env w e after) : after.Writable := by
  refine processEvent_keeps (P := Writable) ?_ writable fires.2
  intro fn w after writable called
  unfold callback at called
  split at called
  · cases called
  · cases called
    exact serverAccept_writable writable
  · exact readFromClient_writable writable granted called
  · obtain ⟨⟨_, chunks⟩, wrote, same⟩ := bind_eq_ok.mp called
    cases same
    exact writeToClient_writable writable wrote

end Callbacks

end World

/-- A request over handy keys is answered as the stores it is asked of demand. -/
theorem World.Provides.plain_replies {env : Env} {users : List User} {numDatabases : Nat} {v next : World α} {a : Service} {low : Int}
    (tells : v.Provides env users numDatabases (fun _ db a => db.Tells env low a) a) (unambiguous : Unambiguous env users)
    (digests : ∀ text, (env.sha256 text).length = 32) (writable : v.Writable) {e : Fired α} {r : Request} (grants : r.ans.Grants)
    (plain : r.Plain low) (traces : Traces env v (e, some (.asked who r)) next) (other : r.cmd.type ≠ .infoc ∧ r.cmd.type ≠ .keys)
    (room : Fits r.client.builder 32)
    (values : ∀ obj text, (a.stores r.client.databaseNum).Yielded obj → Encodes obj text → Fits r.client.builder text.length) :
    ∃ text, Appended r.client.builder text r.reply.builder ∧ a.Reply (Credentials env users) numDatabases who r.cmd text := by
  obtain ⟨before, same, ⟨c, found, _, buf, pos, cap, client⟩, parsed, returns⟩ := traces.asked rfl
  refine (tells.mono fun _ _ _ kept => kept.toStands).replies unambiguous digests before (traces.session rfl) parsed returns
    ⟨grants, plain.unused, fun db stored => plain.fit grants parsed (tells.stores _ db (before ▸ stored))⟩ other ⟨?_, room, values⟩
  rw [client]
  exact writable who c found

section Runs

variable {env : Env} {config : Config} {start w : World α} {history : List (Fired α × Option Occurrence)} {low : Int}
  (launched : start.Launched env config) (digests : ∀ text, (env.sha256 text).length = 32)
  (granted : ∀ step ∈ history, step.1.k.ans.Grants)
  (plain : ∀ step ∈ history, ∀ who r, step.2 = some (.asked who r) → r.Plain low)
include launched granted

omit digests plain in
theorem writable_of_run (run : Run (Traces env) start history w) : w.Writable := by
  induction run with
  | start =>
    intro who c found
    rw [launched.heap] at found
    cases found
  | next run last ih =>
    have before := ih fun step member => granted step (List.mem_append_left _ member)
    exact before.step (granted _ (by simp)).reply.1 last.1

include digests plain

/-- Every database tells the keys of its store. -/
theorem tells_of_run (run : Run (Traces env) start history w) :
    w.Provides env config.users.elems (serverDatabases config.databases) (fun _ db a => db.Tells env low a)
      (service (Credentials env config.users.elems) (serverDatabases config.databases) (occurrences history)) := by
  obtain ⟨mem, made⟩ := launched.made
  refine provides_of_run launched digests (fun d db found => lexidbNew_tells env low (made ▸ found)) run ?_
  intro step member who r asked
  have grants := granted_of_run run granted step member who r asked
  obtain ⟨front, back, cut⟩ := List.append_of_mem member
  obtain ⟨v, next, _, traces⟩ := run.split front step back cut
  obtain ⟨_, _, _, parsed, _⟩ := traces.asked asked
  exact ⟨⟨grants.supply, grants.hash⟩, (plain step member who r asked).operates grants parsed⟩

/-- What a request of the run is asked of. -/
theorem request_of_run (run : Run (Traces env) start history w) (cut : history = front ++ (e, some (.asked who r)) :: back) :
    ∃ v next, Traces env v (e, some (.asked who r)) next ∧ v.Writable ∧ r.ans.Grants ∧ r.Plain low ∧
      v.Provides env config.users.elems (serverDatabases config.databases) (fun _ db a => db.Tells env low a)
        (service (Credentials env config.users.elems) (serverDatabases config.databases) (occurrences front)) := by
  obtain ⟨v, next, reached, traces⟩ := run.split front _ back cut
  have earlier : ∀ step ∈ front, step ∈ history := by
    rw [cut]
    exact fun step member => List.mem_append_left _ member
  have here : (e, some (.asked who r)) ∈ history := by
    rw [cut]
    simp
  obtain ⟨_, same, _⟩ := traces.asked rfl
  exact ⟨v, next, traces, writable_of_run launched (fun step member => granted step (earlier step member)) reached,
    same ▸ granted _ here, plain _ here who r rfl, tells_of_run launched digests
      (fun step member => granted step (earlier step member)) (fun step member => plain step (earlier step member)) reached⟩

end Runs

section Root

/-- SET foo 7. -/
private def sets : Fired Unit := sends 5 (cstr "*3\r\n$3\r\nSET\r\n$3\r\nfoo\r\n:7\r\n")

end Root

end LexiDB
