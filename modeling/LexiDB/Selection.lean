import LexiDB.AuthGate
import LexiDB.Registry
import LexiDB.Traffic

/-! The database every client stands on, over all runs of the event loop. -/

namespace LexiDB

open Lib

variable {α : Type}

namespace World

/-- As many databases as the server counts, and every client on one of them. -/
structure Selected (numDatabases : Nat) (w : World α) : Prop where
  counted : w.server.numDatabases = numDatabases
  size : w.server.db.length = numDatabases
  clients : ∀ pointer c, w.heap pointer = some c → c.databaseNum < numDatabases

section Callbacks

variable {env : Env} {k : Kernel α} {w after : World α} (selected : w.Selected numDatabases)

include selected

/-- A client may be rewritten that stays on a database there is. -/
theorem Selected.rewrite {s : Server} (counted : s.numDatabases = numDatabases) (size : s.db.length = numDatabases)
    (pointer : Nat) {c : Client} (inside : c.databaseNum < numDatabases) (fds : Finset Nat) (ev : Ev EvFileFn α) :
    Selected numDatabases ⟨s, Function.update w.heap pointer (some c), fds, ev⟩ := by
  refine ⟨counted, size, ?_⟩
  intro other d found
  simp only [Function.update_apply] at found
  split at found
  · cases found
    exact inside
  · exact selected.clients other d found

theorem Selected.free (pointer : Nat) (c : Client) : (clientFree w pointer c).Selected numDatabases := by
  refine ⟨selected.counted, selected.size, ?_⟩
  intro other d found
  simp only [clientFree, Function.update_apply] at found
  split at found
  · cases found
  · exact selected.clients other d found

theorem serverAccept_selected (positive : 0 < numDatabases) : (w.serverAccept k).Selected numDatabases := by
  have kept : ∀ fds, Selected numDatabases { w with fds := fds } :=
    fun fds => ⟨selected.counted, selected.size, selected.clients⟩
  unfold serverAccept
  split
  · exact selected
  · rename_i cfd accepted
    simp only
    split
    · split
      · exact kept _
      · rename_i pointer client created
        have first : client.databaseNum < numDatabases := by
          unfold createClient at created
          split at created
          · cases created
          · split at created
            · cases created
              exact positive
            · cases created
        have added := selected.rewrite selected.counted selected.size pointer first
        split
        · exact added _ _
        · split
          · refine Selected.free ?_ pointer client
            exact ⟨selected.counted, selected.size, (added w.fds w.ev).clients⟩
          · exact ⟨selected.counted, selected.size, (added w.fds w.ev).clients⟩
    · exact kept _

theorem readFromClient_selected (done : w.readFromClient env k fd mask = .ok after) : after.Selected numDatabases := by
  obtain ⟨found, searched, done⟩ := bind_eq_ok.mp done
  split at done
  · cases done
    exact ⟨selected.counted, selected.size, selected.clients⟩
  · rename_i i pointer c
    have inside : c.databaseNum < numDatabases := selected.clients pointer c (findClient_fd _ _ searched).1
    obtain ⟨⟨ended, d⟩, looped, done⟩ := bind_eq_ok.mp done
    have same : d.databaseNum = c.databaseNum := by
      obtain ⟨_, _, _, rfl⟩ := readLoop_buffered _ _ _ _ _ looped
      rfl
    cases ended with
    | closed =>
      cases done
      refine Selected.free ?_ pointer d
      exact ⟨selected.counted, selected.size, selected.clients⟩
    | failed =>
      cases done
      exact selected.rewrite selected.counted selected.size pointer (same ▸ inside) _ _
    | burst =>
      obtain ⟨⟨s, e⟩, executed, done⟩ := bind_eq_ok.mp done
      obtain ⟨cmd, parsed, _⟩ := bind_eq_ok.mp executed
      obtain ⟨⟨n, operated⟩, moved⟩ := executeCmd_obeys parsed executed
      have counted : s.numDatabases = numDatabases := by
        rw [operated]
        exact selected.counted
      have size : s.db.length = numDatabases := by
        rw [operated]
        simpa [Server.recount] using selected.size
      have stays : e.databaseNum < numDatabases := by
        rw [moved, selected.counted]
        exact Cmd.selects_lt (same ▸ inside)
      simp only at done
      split at done
      · cases done
        exact selected.rewrite counted size pointer (c := e.handOff) stays _ _
      · cases done
        exact selected.rewrite counted size pointer (c := e.handOff.cleared) stays _ _

theorem writeToClient_selected (done : w.writeToClient k fd mask = .ok (after, chunks)) : after.Selected numDatabases := by
  obtain ⟨found, searched, done⟩ := bind_eq_ok.mp done
  split at done
  · cases done
    exact ⟨selected.counted, selected.size, selected.clients⟩
  · rename_i i pointer c
    obtain ⟨⟨sent, taken⟩, _, done⟩ := bind_eq_ok.mp done
    have inside : c.databaseNum < numDatabases := selected.clients pointer c (findClient_fd _ _ searched).1
    simp only at done
    split at done
    · cases done
      exact selected.rewrite selected.counted selected.size pointer (c := { c with builder := builderReset c.builder }) inside _ _
    · cases done
      exact selected

/-- Whichever function a slot leads to. -/
theorem callback_selected (positive : 0 < numDatabases) (done : w.callback env k fn fd mask = .ok after) :
    after.Selected numDatabases := by
  unfold callback at done
  split at done
  · cases done
  · cases done
    exact serverAccept_selected selected positive
  · exact readFromClient_selected selected done
  · obtain ⟨⟨_, chunks⟩, wrote, same⟩ := bind_eq_ok.mp done
    cases same
    exact writeToClient_selected selected wrote

theorem Selected.step (positive : 0 < numDatabases) {e : Fired α} (fires : Fires env w e after) :
    after.Selected numDatabases :=
  processEvent_keeps (fun _ _ _ kept done => callback_selected kept positive done) selected fires.2

end Callbacks

end World

/-- The state `server_new` leaves for a configuration with this many databases, zero
where it names no number. -/
structure World.Configured (databases : Nat) (w : World α) : Prop extends w.Fresh where
  counted : w.server.numDatabases = serverDatabases databases
  made : ∃ mem, w.server.db = lexidbNew mem w.server.numDatabases

theorem serverDatabases_pos (databases : Nat) : 0 < serverDatabases databases := by
  unfold serverDatabases
  split
  · decide
  · omega

/-- An int64 as the signed reading of its 64 bits. -/
theorem Int64.toInt_wraps (num : Int64) :
    num.toInt = if 2 * num.toUInt64.toNat < sizeMod then (num.toUInt64.toNat : Int) else num.toUInt64.toNat - sizeMod :=
  BitVec.toInt_eq_toNat_cond num.toBitVec

/-- Below 2^63 the comparison of the int64 with a size is the one that is meant. -/
theorem select_inside {num : Int64} (small : numDatabases < sizeMod / 2) :
    num.toUInt64.toNat < numDatabases ↔ 0 ≤ num.toInt ∧ num.toInt < numDatabases := by
  have bound : num.toUInt64.toNat < sizeMod := UInt64.toNat_lt _
  rw [Int64.toInt_wraps]
  unfold sizeMod at *
  split <;> omega

theorem executeCmd_select {env : Env} {ans : Answers} {s : Server} {c : Client} {num : Int64} (known : c.Authenticated)
    (parsed : parse env ans.supply fuel (c.readBuf.take c.readPos) = .ok (.select (.int num)))
    (small : s.numDatabases < sizeMod / 2) :
    executeCmd env ans fuel s c = .ok (s,
      if 0 ≤ num.toInt ∧ num.toInt < s.numDatabases then { c with databaseNum := num.toInt.toNat }.addOk ans.reply
      else c.addErr ans.reply errDbrange) := by
  rw [executeCmd_authenticated known (by simp [Cmd.type]) parsed]
  have compared : (Object.int num).num = num := rfl
  simp only [dispatch]
  by_cases inside : 0 ≤ num.toInt ∧ num.toInt < s.numDatabases
  · have reached := (select_inside small).mpr inside
    have same : num.toInt.toNat = num.toUInt64.toNat := by
      rw [Int64.toInt_wraps, if_pos (by omega), Int.toNat_natCast]
    rw [compared, if_pos inside, if_neg (Nat.not_le.mpr reached), same]
  · have missed : s.numDatabases ≤ num.toUInt64.toNat :=
      Nat.not_lt.mp fun reached => inside ((select_inside small).mp reached)
    rw [compared, if_neg inside, if_pos missed]

/-- In every state the event loop reaches each client stands on a database there
is. SELECT with an integer in range moves its own client there and answers OK, with any
other it answers EDBRANGE; nothing else of the server or of any client changes. -/
theorem selected_of_run {env : Env} {start w : World α} (configured : start.Configured databases)
    (small : serverDatabases databases < sizeMod / 2) (run : Run (Fires env) start events w) :
    w.server.numDatabases = serverDatabases databases ∧
      (∀ pointer c, w.heap pointer = some c →
        c.databaseNum < w.server.numDatabases ∧ ∃ db, w.server.db[c.databaseNum]? = some db) ∧
      ∀ (ans : Answers) (fuel : Nat) (heap : Heap) (pointer : Nat) (c : Client) (num : Int64),
        heap pointer = some c → c.Authenticated →
        parse env ans.supply fuel (c.readBuf.take c.readPos) = .ok (.select (.int num)) →
        executeCmdAt env ans fuel w.server heap pointer = .ok (w.server, Function.update heap pointer (some
          (if 0 ≤ num.toInt ∧ num.toInt < w.server.numDatabases then
            { c with databaseNum := num.toInt.toNat }.addOk ans.reply
          else c.addErr ans.reply errDbrange))) := by
  have selected : w.Selected (serverDatabases databases) := by
    refine run.invariant (fun _ w => w.Selected (serverDatabases databases)) ?_ ?_
    · obtain ⟨mem, made⟩ := configured.made
      refine ⟨configured.counted, ?_, ?_⟩
      · rw [made, configured.counted]
        simp [lexidbNew]
      · simp [configured.heap]
    · intro _ w e after selected fires
      exact selected.step (serverDatabases_pos databases) fires
  refine ⟨selected.counted, ?_, ?_⟩
  · intro pointer c found
    have inside := selected.clients pointer c found
    rw [selected.counted]
    rw [← selected.size] at inside ⊢
    exact ⟨inside, _, List.getElem?_eq_getElem inside⟩
  · intro ans fuel heap pointer c num found known parsed
    rw [← selected.counted] at small
    simp only [executeCmdAt, found, executeCmd_select known parsed small, ok_bind]
    rfl

section Runs

/-- The listening server with sixteen databases. -/
private def serving : World Unit :=
  { listening with server := { listening.server with
      numDatabases := serverDatabases 0, db := lexidbNew (fun _ => ⟨[], 0, [], 0⟩) (serverDatabases 0) } }

private theorem serving_configured : serving.Configured 0 :=
  ⟨⟨⟨0, rfl⟩, rfl, by decide, ⟨Kernel.idle.api, (), rfl⟩⟩, rfl, ⟨fun _ => ⟨[], 0, [], 0⟩, rfl⟩⟩

/-- An authenticated client that has sent SELECT with the last database. -/
private def selecting : Client := sender (cstr "*2\r\n$6\r\nSELECT\r\n:15\r\n")

theorem selected_of_run_connects :
    (serving.next (connects 5 1)).server.numDatabases = 16 ∧
      (∀ pointer c, (serving.next (connects 5 1)).heap pointer = some c → c.databaseNum < 16) ∧
      ∃ heap, executeCmdAt .sample (.granted (fun _ _ => 1) 0) 64 (serving.next (connects 5 1)).server
        (fun _ => some selecting) 1 = .ok ((serving.next (connects 5 1)).server, heap) := by
  have fires : Fires .sample serving (connects 5 1) (serving.next (connects 5 1)) :=
    ⟨⟨by rintro cfd ⟨⟩; decide, by rintro pointer ⟨⟩; rfl⟩, rfl⟩
  obtain ⟨counted, clients, selects⟩ := selected_of_run serving_configured (by decide) (.next .start fires)
  refine ⟨counted, fun pointer c found => Nat.lt_of_lt_of_eq (clients pointer c found).1 counted, ?_⟩
  exact ⟨_, selects (.granted (fun _ _ => 1) 0) 64 (fun _ => some selecting) 1 selecting 15 rfl (by decide) (by rfl)⟩

end Runs

end LexiDB
