import LexiDB.Interest
import LexiDB.Refinement

/-! The loop of ev.c: a poll, the events it fired one after the other, and when it
ends. -/

namespace LexiDB

open Lib

variable {α : Type}

/-- `ev_process_events` after the poll: the events in the order of `fired`, and how
many were processed. -/
def World.processEvents (env : Env) : List (Fired α) → World α → Except Halt (World α × Nat)
  | [], w => .ok (w, 0)
  | e :: rest, w => do
    let w ← w.processEvent env e.k e.fd e.mask
    let (w, processed) ← processEvents env rest w
    return (w, processed + 1)

/-- `ev_await`, one batch of fired events for each poll. It ends with the first
round that processes nothing. -/
def World.await (env : Env) : List (List (Fired α)) → World α → Except Halt (World α)
  | [], _ => .error .fuel
  | batch :: polls, w =>
    -- without a registered descriptor there is no poll
    if w.ev.maxFd = -1 then .ok w
    else do
      let (w, processed) ← w.processEvents env batch
      if processed = 0 then return w
      await env polls w

namespace World

/-- The listening socket is open and registered for `server_accept` alone, every
other descriptor for the callbacks of a client. -/
structure Listening (w : World α) : Prop extends w.Routed where
  highest : w.ev.Highest
  opened : w.server.sfd ∈ w.fds
  slot : w.ev.entry w.server.sfd = ⟨evRead, some .serverAccept, none, serverData⟩
  reader : ∀ fd fn, fd ≠ w.server.sfd → (w.ev.entry fd).readFn = some fn → fn = .readFromClient
  clients : ∀ pointer c, w.heap pointer = some c → c.fd ≠ w.server.sfd

theorem Fresh.listens {w : World α} (fresh : w.Fresh) : w.Listening := by
  obtain ⟨ops, api, registered⟩ := fresh.registered
  obtain ⟨sized, _, _, slots⟩ := evAddEvent_spec (evNew_sized api serverBacklog) registered
  have routed : Routed ⟨w.server, w.heap, w.fds, (evNew api serverBacklog : Ev EvFileFn α)⟩ := by
    refine ⟨evNew_sized api serverBacklog, ?_, ?_⟩
    · intro fd
      rw [evNew_entry]
      decide
    · intro fd fn leads
      rw [evNew_entry] at leads
      cases leads
  refine ⟨routed.add (.inl rfl) registered w.server w.heap w.fds,
    evAddEvent_highest (evNew_sized api serverBacklog) (evNew_highest api serverBacklog) (by decide) registered, fresh.listening, ?_, ?_, ?_⟩
  · rw [slots, if_pos rfl, evNew_entry]
    rfl
  · intro fd fn other leads
    rw [slots, if_neg other, evNew_entry] at leads
    cases leads
  · simp [fresh.heap]

section Steps

variable {env : Env} {k : Kernel α} {w after : World α} (listening : w.Listening)
include listening

/-- What does not touch the table keeps the socket, as long as no client gets its
descriptor. -/
theorem Listening.keep {s : Server} {heap : Heap} {fds : Finset Nat} (same : s.sfd = w.server.sfd) (opened : w.server.sfd ∈ fds)
    (clients : ∀ pointer c, heap pointer = some c → c.fd ≠ w.server.sfd) : Listening ⟨s, heap, fds, w.ev⟩ := by
  refine ⟨listening.toRouted.keep s heap fds, listening.highest, ?_, ?_, ?_, ?_⟩
  · rw [same]
    exact opened
  · rw [same]
    exact listening.slot
  · simp only [same]
    exact listening.reader
  · simp only [same]
    exact clients

/-- An event of a client is added. -/
theorem Listening.add {ops : EvApi EvFileFn α} {ev : Ev EvFileFn α}
    (events : mask = evRead ∧ fn = .readFromClient ∨ mask = evWrite ∧ fn = .writeToClient)
    (added : evAddEvent ops w.ev fd mask fn serverData = some ev) (client : fd ≠ w.server.sfd) :
    Listening ⟨w.server, w.heap, w.fds, ev⟩ := by
  obtain ⟨sized, _, _, slots⟩ := evAddEvent_spec listening.sized added
  have some_ : mask ≠ 0 := by rcases events with ⟨rfl, _⟩ | ⟨rfl, _⟩ <;> decide
  refine ⟨listening.toRouted.add (events.imp And.left id) added _ _ _,
    evAddEvent_highest listening.sized listening.highest some_ added, listening.opened, ?_, ?_, listening.clients⟩
  · rw [slots, if_neg client.symm]
    exact listening.slot
  · intro other gn apart leads
    rw [slots] at leads
    split at leads
    · rcases events with ⟨rfl, rfl⟩ | ⟨rfl, rfl⟩
      · simpa [EvFileEvent.add, evRead, eq_comm] using leads
      · simp only [EvFileEvent.add] at leads
        rw [if_neg (by decide)] at leads
        exact listening.reader fd gn client leads
    · exact listening.reader other gn apart leads

/-- The events of a client are deleted. -/
theorem Listening.delete (ops : EvApi EvFileFn α) (mask : UInt32) (client : fd ≠ w.server.sfd) :
    Listening ⟨w.server, w.heap, w.fds, evDeleteEvent ops w.ev fd mask⟩ := by
  obtain ⟨sized, _, slots⟩ := evDeleteEvent_spec ops listening.sized fd mask
  refine ⟨listening.toRouted.delete ops fd mask _ _ _, evDeleteEvent_highest listening.sized listening.highest fd mask,
    listening.opened, ?_, ?_, listening.clients⟩
  · rw [slots, if_neg client.symm]
    exact listening.slot
  · intro other gn apart leads
    rw [slots] at leads
    split at leads
    · exact listening.reader fd gn client leads
    · exact listening.reader other gn apart leads

theorem serverAccept_listening (possible : k.Possible w) : (w.serverAccept k).Listening := by
  unfold serverAccept
  split
  · exact listening
  · rename_i cfd accepted
    have client : cfd ≠ w.server.sfd := fun same => possible.accept cfd accepted (same ▸ listening.opened)
    have opened := Finset.mem_insert_of_mem (b := cfd) listening.opened
    simp only
    split
    · split
      · exact listening.keep rfl opened listening.clients
      · rename_i pointer c created
        have own : c.fd = cfd := by
          unfold createClient at created
          split at created
          · cases created
          · split at created
            · cases created
              rfl
            · cases created
        have apart : ∀ other d, Function.update w.heap pointer (some c) other = some d → d.fd ≠ w.server.sfd := by
          intro other d found
          simp only [Function.update_apply] at found
          split at found
          · cases found
            rw [own]
            exact client
          · exact listening.clients other d found
        split
        · exact listening.keep rfl opened apart
        · split
          · refine listening.keep rfl ?_ ?_
            · exact Finset.mem_erase.mpr ⟨by rw [own]; exact client.symm, opened⟩
            · intro other d found
              simp only [Function.update_apply] at found
              split at found
              · cases found
              · exact listening.clients other d found
          · rename_i ev added
            exact (listening.add (.inl ⟨rfl, rfl⟩) added client).keep rfl opened apart
    · exact listening.keep rfl opened listening.clients

theorem readFromClient_listening (client : fd ≠ w.server.sfd) (done : w.readFromClient env k fd mask = .ok after) : after.Listening := by
  obtain ⟨found, searched, done⟩ := bind_eq_ok.mp done
  have closed : w.server.sfd ∈ w.fds.erase fd := Finset.mem_erase.mpr ⟨client.symm, listening.opened⟩
  split at done
  · cases done
    exact (listening.delete k.api evRead client).keep rfl closed listening.clients
  · rename_i i pointer c
    obtain ⟨here, rfl⟩ := findClient_fd _ _ searched
    obtain ⟨⟨ended, d⟩, looped, done⟩ := bind_eq_ok.mp done
    have same : d.fd = c.fd := by
      obtain ⟨_, _, _, rfl⟩ := readLoop_buffered _ _ _ _ _ looped
      rfl
    have rewritten : ∀ e : Client, e.fd = d.fd → ∀ other f, Function.update w.heap pointer (some e) other = some f → f.fd ≠ w.server.sfd := by
      intro e kept other f found
      simp only [Function.update_apply] at found
      split at found
      · cases found
        rw [kept, same]
        exact client
      · exact listening.clients other f found
    cases ended with
    | closed =>
      cases done
      refine (listening.delete k.api mask client).keep rfl (by rw [same]; exact closed) ?_
      intro other f found
      simp only [Function.update_apply] at found
      split at found
      · cases found
      · exact listening.clients other f found
    | failed =>
      cases done
      exact listening.keep rfl listening.opened (rewritten d rfl)
    | burst =>
      obtain ⟨⟨s, e⟩, executed, done⟩ := bind_eq_ok.mp done
      have kept : e.fd = d.fd := by
        rw [executeCmd_connection executed]
        rfl
      have server : s.sfd = w.server.sfd := by
        obtain ⟨cmd, leaves⟩ := executeCmd_leaves executed
        cases leaves <;> rfl
      simp only at done
      split at done
      · cases done
        exact listening.keep server listening.opened (rewritten e.handOff kept)
      · rename_i ev added
        cases done
        exact (listening.add (.inr ⟨rfl, rfl⟩) added client).keep server listening.opened (rewritten e.handOff.cleared kept)

theorem writeToClient_listening (client : fd ≠ w.server.sfd) (done : w.writeToClient k fd mask = .ok (after, chunks)) :
    after.Listening := by
  obtain ⟨found, searched, done⟩ := bind_eq_ok.mp done
  split at done
  · cases done
    exact (listening.delete k.api mask client).keep rfl (Finset.mem_erase.mpr ⟨client.symm, listening.opened⟩) listening.clients
  · rename_i i pointer c
    obtain ⟨here, rfl⟩ := findClient_fd _ _ searched
    obtain ⟨⟨sent, taken⟩, _, done⟩ := bind_eq_ok.mp done
    simp only at done
    split at done
    · cases done
      refine (listening.delete k.api evWrite client).keep rfl listening.opened ?_
      intro other d found
      simp only [Function.update_apply] at found
      split at found
      · cases found
        exact client
      · exact listening.clients other d found
    · cases done
      exact listening

/-- What an event does: the socket accepts or a client is read, and a client may be
written to. -/
theorem Listening.cases {e : Fired α} (fires : Fires env w e after) :
    ∃ middle, middle.Listening ∧
      (middle = w ∨ e.fd = w.server.sfd ∧ middle = w.serverAccept e.k ∨
        e.fd ≠ w.server.sfd ∧ w.readFromClient env e.k e.fd e.mask = .ok middle) ∧
      (after = middle ∨ e.fd ≠ middle.server.sfd ∧ ∃ chunks, middle.writeToClient e.k e.fd e.mask = .ok (after, chunks)) := by
  obtain ⟨possible, done⟩ := fires
  obtain ⟨middle, reads, writes⟩ := listening.toRouted.cut done
  have read : middle.Listening ∧ (middle = w ∨ e.fd = w.server.sfd ∧ middle = w.serverAccept e.k ∨
      e.fd ≠ w.server.sfd ∧ w.readFromClient env e.k e.fd e.mask = .ok middle) := by
    rcases reads with ⟨_, rfl⟩ | ⟨fires, called⟩
    · exact ⟨listening, .inl rfl⟩
    · by_cases own : e.fd = w.server.sfd
      · rw [own, listening.slot] at called
        cases called
        exact ⟨serverAccept_listening listening possible, .inr (.inl ⟨own, rfl⟩)⟩
      · unfold callback at called
        split at called
        · cases called
        · rename_i leads
          cases listening.reader e.fd _ own leads
        · exact ⟨readFromClient_listening listening own called, .inr (.inr ⟨own, called⟩)⟩
        · rename_i leads
          cases listening.reader e.fd _ own leads
  refine ⟨middle, read.1, read.2, ?_⟩
  rcases writes read.1.toRouted with rfl | ⟨fires, chunks, wrote⟩
  · exact .inl rfl
  · refine .inr ⟨fun own => fires ?_, chunks, wrote⟩
    rw [own, read.1.slot, UInt32.and_assoc, UInt32.and_comm e.mask, ← UInt32.and_assoc]
    exact UInt32.zero_and

theorem Listening.step {e : Fired α} (fires : Fires env w e after) : after.Listening := by
  obtain ⟨middle, read, _, rfl | ⟨client, chunks, wrote⟩⟩ := listening.cases fires
  · exact read
  · exact writeToClient_listening read client wrote

end Steps

section Runs

variable {env : Env} {start w : World α}

theorem listening_of_run (fresh : start.Fresh) (run : Run (Fires env) start events w) : w.Listening :=
  run.invariant (fun _ w => w.Listening) fresh.listens fun _ _ _ _ listening fires => listening.step fires

theorem Listening.polls {w : World α} (listening : w.Listening) : (w.server.sfd : Int) ≤ w.ev.maxFd ∧ w.ev.maxFd ≠ -1 := by
  have below : (w.server.sfd : Int) ≤ w.ev.maxFd := by
    apply listening.highest.above
    rw [listening.slot]
    decide
  exact ⟨below, by omega⟩

theorem processEvents_concat (e : Fired α) : ∀ (batch : List (Fired α)) (w : World α),
    w.processEvents env (batch ++ [e]) = do
      let (w, processed) ← w.processEvents env batch
      let w ← w.processEvent env e.k e.fd e.mask
      return (w, processed + 1) := by
  intro batch
  induction batch with
  | nil =>
    intro w
    simp only [List.nil_append, processEvents, ok_bind]
  | cons first rest ih =>
    intro w
    simp only [List.cons_append, processEvents, ih, bind_assoc, pure_bind]

/-- A run is processed as one batch. -/
theorem processEvents_of_run (run : Run (Fires env) start batch w) : start.processEvents env batch = .ok (w, batch.length) := by
  induction run with
  | start => rfl
  | next run last ih =>
    rw [processEvents_concat, ih]
    simp only [ok_bind, last.2, pure_eq_ok, List.length_append, List.length_singleton]

/-- In every run of the event loop, however its events fall into batches, `ev_await`
goes on: the listening socket stays open and registered for `server_accept`, so only
a poll that fires nothing ends the loop, and the first one does. -/
theorem await_of_run (fresh : start.Fresh) (run : Run (Fires env) start polls.flatten w) (fired : ∀ batch ∈ polls, batch ≠ [])
    (rest : List (List (Fired α))) :
    start.await env (polls ++ rest) = w.await env rest ∧ w.await env ([] :: rest) = .ok w ∧
      w.server.sfd ∈ w.fds ∧ w.ev.entry w.server.sfd = ⟨evRead, some .serverAccept, none, serverData⟩ ∧
      (w.server.sfd : Int) ≤ w.ev.maxFd := by
  have stands : ∀ v : World α, v.await env ([] :: rest) = .ok v := by
    intro v
    unfold await
    split <;> rfl
  have listening := listening_of_run fresh run
  refine ⟨?_, stands w, listening.opened, listening.slot, listening.polls.1⟩
  have start_ := fresh.listens
  clear stands listening fresh
  induction polls generalizing start with
  | nil =>
    rw [run.nil rfl]
    rfl
  | cons batch polls ih =>
    obtain ⟨middle, first, second⟩ := run.cut batch polls.flatten rfl
    have processed : batch.length ≠ 0 := by simpa using fired batch (by simp)
    have kept : middle.Listening := first.invariant (fun _ w => w.Listening) start_ fun _ _ _ _ listening fires => listening.step fires
    rw [List.cons_append, await, if_neg start_.polls.2, processEvents_of_run first]
    simp only [ok_bind, if_neg processed]
    exact ih second (fun other member => fired other (List.mem_cons_of_mem _ member)) kept

end Runs

section Batches

/-- The descriptor is as it was, with its slot and its client. -/
structure Untouched (fd : Nat) (w after : World α) : Prop where
  sfd : after.server.sfd = w.server.sfd
  entry : after.ev.entry fd = w.ev.entry fd
  clients : ∀ pointer c, w.heap pointer = some c → c.fd = fd → after.heap pointer = some c

theorem Untouched.refl (fd : Nat) (w : World α) : Untouched fd w w := ⟨rfl, rfl, fun _ _ here _ => here⟩

theorem Untouched.trans {w middle after : World α} (first : Untouched fd w middle) (second : Untouched fd middle after) :
    Untouched fd w after :=
  ⟨second.sfd.trans first.sfd, second.entry.trans first.entry,
    fun pointer c here own => second.clients pointer c (first.clients pointer c here own) own⟩

variable {env : Env} {k : Kernel α} {w v after : World α}

/-- Another address may be written to. -/
theorem Untouched.update {s : Server} {fds : Finset Nat} {ev : Ev EvFileFn α} {c : Option Client} (sfd : s.sfd = w.server.sfd)
    (entry : ev.entry fd = w.ev.entry fd) (apart : ∀ d, w.heap other = some d → d.fd ≠ fd) :
    Untouched fd w ⟨s, Function.update w.heap other c, fds, ev⟩ := by
  refine ⟨sfd, entry, fun pointer d here own => ?_⟩
  have different : pointer ≠ other := by
    rintro rfl
    exact apart d here own
  simp only [Function.update_of_ne different]
  exact here

theorem serverAccept_untouched (sized : w.ev.Sized) (possible : k.Possible w) (open_ : fd ∈ w.fds) :
    Untouched fd w (w.serverAccept k) := by
  unfold serverAccept
  split
  · exact .refl fd w
  · rename_i cfd accepted
    have other : fd ≠ cfd := fun same => possible.accept cfd accepted (same ▸ open_)
    simp only
    split
    · split
      · exact ⟨rfl, rfl, fun _ _ here _ => here⟩
      · rename_i pointer client created
        have free : w.heap pointer = none := possible.client pointer (createClient_session created).2
        have apart : ∀ d, w.heap pointer = some d → d.fd ≠ fd := fun d here => by
          rw [free] at here
          cases here
        split
        · exact .update rfl rfl apart
        · split
          · have gone : Function.update (Function.update w.heap pointer (some client)) pointer none = w.heap := by
              rw [Function.update_idem, ← free, Function.update_eq_self]
            refine ⟨rfl, rfl, fun p c here _ => ?_⟩
            simp only [clientFree, gone]
            exact here
          · rename_i ev added
            obtain ⟨_, _, _, slots⟩ := evAddEvent_spec sized added
            exact .update rfl (by rw [slots, if_neg other]) apart
    · exact ⟨rfl, rfl, fun _ _ here _ => here⟩

theorem readFromClient_untouched (sized : w.ev.Sized) (different : fd ≠ own) (done : w.readFromClient env k own mask = .ok after) :
    Untouched fd w after := by
  obtain ⟨found, searched, done⟩ := bind_eq_ok.mp done
  have deleted : ∀ mask, (evDeleteEvent k.api w.ev own mask).entry fd = w.ev.entry fd := by
    intro mask
    obtain ⟨_, _, slots⟩ := evDeleteEvent_spec k.api sized own mask
    rw [slots, if_neg different]
  split at done
  · cases done
    exact ⟨rfl, deleted _, fun _ _ here _ => here⟩
  · rename_i i pointer c
    obtain ⟨here, same⟩ := findClient_fd _ _ searched
    have apart : ∀ d, w.heap pointer = some d → d.fd ≠ fd := by
      intro d there
      rw [here] at there
      cases there
      rw [same]
      exact different.symm
    obtain ⟨⟨ended, d⟩, looped, done⟩ := bind_eq_ok.mp done
    cases ended with
    | closed =>
      cases done
      exact .update rfl (deleted _) apart
    | failed =>
      cases done
      exact .update rfl rfl apart
    | burst =>
      obtain ⟨⟨s, e⟩, executed, done⟩ := bind_eq_ok.mp done
      have server : s.sfd = w.server.sfd := by
        obtain ⟨cmd, leaves⟩ := executeCmd_leaves executed
        cases leaves <;> rfl
      simp only at done
      split at done
      · cases done
        exact .update server rfl apart
      · rename_i ev added
        cases done
        obtain ⟨_, _, _, slots⟩ := evAddEvent_spec sized added
        exact .update server (by rw [slots, if_neg different]) apart

theorem writeToClient_untouched (sized : w.ev.Sized) (different : fd ≠ own) (done : w.writeToClient k own mask = .ok (after, chunks)) :
    Untouched fd w after := by
  obtain ⟨found, searched, done⟩ := bind_eq_ok.mp done
  have deleted : ∀ mask, (evDeleteEvent k.api w.ev own mask).entry fd = w.ev.entry fd := by
    intro mask
    obtain ⟨_, _, slots⟩ := evDeleteEvent_spec k.api sized own mask
    rw [slots, if_neg different]
  split at done
  · cases done
    exact ⟨rfl, deleted _, fun _ _ here _ => here⟩
  · rename_i i pointer c
    obtain ⟨here, same⟩ := findClient_fd _ _ searched
    obtain ⟨⟨sent, taken⟩, _, done⟩ := bind_eq_ok.mp done
    simp only at done
    split at done
    · cases done
      refine .update rfl (deleted _) ?_
      intro d there
      rw [here] at there
      cases there
      rw [same]
      exact different.symm
    · cases done
      exact .refl fd _

/-- An event leaves every other open descriptor alone. -/
theorem Listening.untouched (listening : w.Listening) {e : Fired α} (fires : Fires env w e after) (different : fd ≠ e.fd)
    (open_ : fd ∈ w.fds) : Untouched fd w after := by
  obtain ⟨middle, kept, reads, writes⟩ := listening.cases fires
  have read : Untouched fd w middle := by
    rcases reads with rfl | ⟨_, rfl⟩ | ⟨_, called⟩
    · exact .refl fd _
    · exact serverAccept_untouched listening.sized fires.1 open_
    · exact readFromClient_untouched listening.sized different called
  rcases writes with rfl | ⟨_, chunks, wrote⟩
  · exact read
  · exact read.trans (writeToClient_untouched kept.sized different wrote)

end Batches

section Examples

private theorem listening_ready : listening.Fresh := ⟨⟨0, rfl⟩, rfl, by decide, ⟨Kernel.idle.api, (), rfl⟩⟩

private theorem connects_once : Fires .sample listening (connects 5 1) connected :=
  ⟨⟨by rintro cfd ⟨⟩; decide, by rintro pointer ⟨⟩; rfl⟩, rfl⟩

theorem await_of_run_connects : listening.await .sample [[connects 5 1], []] = .ok connected := by
  have run : Run (Fires .sample) listening [[connects 5 1]].flatten connected := .next .start connects_once
  obtain ⟨reached, ends, _⟩ := await_of_run listening_ready run (by simp) [[]]
  exact reached.trans ends

end Examples

end World

end LexiDB
