import LexiDB.EventLoopInvariant
import LexiDB.ServerInvariant
import LexiDB.Lib.Run

/-! The three records of a connection: the pointer in the vector of clients, the
client on the heap and its slot in the event table. -/

namespace LexiDB

open Lib

variable {α : Type}

namespace World

/-- The vector holds exactly the live clients, no two of one fd, and only the
listening socket and these fds are registered. -/
structure Registry (w : World α) : Prop where
  live : ∀ pointer, pointer ∈ w.server.clients.elems ↔ (w.heap pointer).isSome
  nodup : w.server.clients.elems.Nodup
  distinct : ∀ p q c d, w.heap p = some c → w.heap q = some d → c.fd = d.fd → p = q
  masked : ∀ fd, (w.ev.entry fd).mask ≠ evNone →
    fd = w.server.sfd ∨ ∃ p ∈ w.server.clients.elems, ∃ c, w.heap p = some c ∧ c.fd = fd

/-- The callbacks a slot can lead to. -/
structure SlotOk (sfd fd : Nat) (e : EvFileEvent EvFileFn) : Prop where
  reads : e.mask &&& evRead ≠ 0 → e.readFn = some (if fd = sfd then .serverAccept else .readFromClient)
  writes : e.mask &&& evWrite ≠ 0 → e.writeFn = some .writeToClient ∧ fd ≠ sfd
  upright : e.mask &&& evBoth = 0

/-- What every callback keeps: the registry, open descriptors behind it, and slots
that lead where they should. -/
structure Wired (w : World α) : Prop extends Registry w where
  valid : w.server.clients.Valid
  sized : w.ev.Sized
  listening : w.server.sfd ∈ w.fds
  opened : ∀ p c, w.heap p = some c → c.fd ∈ w.fds ∧ c.fd ≠ w.server.sfd
  slots : ∀ fd, SlotOk w.server.sfd fd (w.ev.entry fd)

/-- The state `server_new` leaves: nobody connected, the listening socket alone in
the table. -/
structure Fresh (w : World α) : Prop where
  clients : ∃ address, w.server.clients = vecNew address
  heap : w.heap = fun _ => none
  listening : w.server.sfd ∈ w.fds
  registered : ∃ ops api, evAddEvent ops (evNew api serverBacklog) w.server.sfd evRead .serverAccept serverData = some w.ev

theorem Fresh.wired {w : World α} (fresh : w.Fresh) : w.Wired := by
  obtain ⟨address, clients⟩ := fresh.clients
  obtain ⟨ops, api, registered⟩ := fresh.registered
  obtain ⟨sized, _, _, slots⟩ := evAddEvent_spec (evNew_sized api serverBacklog) registered
  have valid : w.server.clients.Valid := by rw [clients]; exact vecNew_valid address
  have only : ∀ fd, (w.ev.entry fd).mask ≠ evNone → fd = w.server.sfd := by
    intro fd masked
    by_contra other
    rw [slots, if_neg other, evNew_entry] at masked
    exact masked rfl
  refine ⟨⟨?_, ?_, ?_, fun fd masked => .inl (only fd masked)⟩, valid, sized, fresh.listening, ?_, ?_⟩
  · simp [clients, fresh.heap]
  · simp [clients]
  · simp [fresh.heap]
  · simp [fresh.heap]
  · intro fd
    rw [slots, evNew_entry]
    split
    · rename_i same
      exact ⟨fun _ => by simp [EvFileEvent.add, evRead, same], fun written => absurd (by decide) written, by decide⟩
    · rw [evNew_entry]
      exact ⟨fun read => absurd (by decide) read, fun written => absurd (by decide) written, by decide⟩

section Changes

variable {w : World α} (wired : w.Wired)

include wired

/-- A client may change in all but its fd, the server in all but its clients. -/
theorem Wired.rewrite {c : Client} (d : Client) (here : w.heap pointer = some c) (same : d.fd = c.fd) {s : Server}
    (clients : s.clients = w.server.clients) (sfd : s.sfd = w.server.sfd) :
    ({ w with server := s, heap := Function.update w.heap pointer (some d) }).Wired := by
  -- every client is, with its fd, one of the old heap
  have old : ∀ p e, Function.update w.heap pointer (some d) p = some e → ∃ e', w.heap p = some e' ∧ e'.fd = e.fd := by
    intro p e found
    by_cases moved : p = pointer
    · subst moved
      rw [Function.update_self, Option.some.injEq] at found
      exact ⟨c, here, by rw [← found, same]⟩
    · rw [Function.update_of_ne moved] at found
      exact ⟨e, found, rfl⟩
  refine ⟨⟨?_, ?_, ?_, ?_⟩, ?_, wired.sized, ?_, ?_, ?_⟩
  · intro p
    have before := wired.live p
    simp only [clients]
    by_cases moved : p = pointer
    · subst moved
      simpa [here] using before
    · simpa [Function.update_of_ne moved] using before
  · simpa only [clients] using wired.nodup
  · intro p q e f first second equal
    obtain ⟨e', first, fdE⟩ := old p e first
    obtain ⟨f', second, fdF⟩ := old q f second
    exact wired.distinct p q e' f' first second (by rw [fdE, fdF, equal])
  · intro fd masked
    rcases wired.masked fd masked with listening | ⟨p, member, e, found, owned⟩
    · exact .inl (by simpa only [sfd] using listening)
    · refine .inr ⟨p, by simpa only [clients] using member, ?_⟩
      by_cases moved : p = pointer
      · subst moved
        rw [here, Option.some.injEq] at found
        exact ⟨d, Function.update_self .., by rw [same, found, owned]⟩
      · exact ⟨e, by simpa only [Function.update_of_ne moved] using found, owned⟩
  · simpa only [clients] using wired.valid
  · simpa only [sfd] using wired.listening
  · intro p e found
    obtain ⟨e', found, fds⟩ := old p e found
    have open_ := wired.opened p e' found
    rw [fds] at open_
    simpa only [sfd] using open_
  · simpa only [sfd] using wired.slots

/-- The write event of a client may be registered. -/
theorem Wired.watch {c : Client} (here : w.heap pointer = some c) {ops : EvApi EvFileFn α} {ev : Ev EvFileFn α}
    (added : evAddEvent ops w.ev c.fd evWrite .writeToClient serverData = some ev) : ({ w with ev := ev }).Wired := by
  obtain ⟨sized, _, _, slots⟩ := evAddEvent_spec wired.sized added
  have listed := (wired.live pointer).mpr (by simp [here])
  refine ⟨⟨wired.live, wired.nodup, wired.distinct, ?_⟩, wired.valid, sized, wired.listening, wired.opened, ?_⟩
  · intro fd masked
    rw [slots] at masked
    by_cases own : fd = c.fd
    · exact .inr ⟨pointer, listed, c, here, own.symm⟩
    · rw [if_neg own] at masked
      exact wired.masked fd masked
  · intro fd
    rw [slots]
    by_cases own : fd = c.fd
    · subst own
      have before := wired.slots c.fd
      rw [if_pos rfl]
      refine ⟨?_, fun _ => ⟨rfl, (wired.opened pointer c here).2⟩, ?_⟩
      · intro read
        simp only [EvFileEvent.add] at read ⊢
        rw [or_and_of_disjoint _ (by decide)] at read
        exact before.reads read
      · simp only [EvFileEvent.add]
        rw [or_and_of_disjoint _ (by decide)]
        exact before.upright
    · rw [if_neg own]
      exact wired.slots fd

/-- Events may be taken out of the table. -/
theorem Wired.unwatch (ops : EvApi EvFileFn α) (fd : Nat) (mask : UInt32) :
    ({ w with ev := evDeleteEvent ops w.ev fd mask }).Wired := by
  obtain ⟨sized, _, slots⟩ := evDeleteEvent_spec ops wired.sized fd mask
  refine ⟨⟨wired.live, wired.nodup, wired.distinct, ?_⟩, wired.valid, sized, wired.listening, wired.opened, ?_⟩
  · intro other masked
    apply wired.masked other
    rw [slots] at masked
    by_cases own : other = fd
    · subst own
      intro empty
      rw [if_pos rfl, empty] at masked
      exact masked UInt32.zero_and
    · rwa [if_neg own] at masked
  · intro other
    rw [slots]
    by_cases own : other = fd
    · subst own
      have before := wired.slots other
      rw [if_pos rfl]
      refine ⟨?_, ?_, and_not_and_zero before.upright _⟩
      · intro read
        exact before.reads fun clear => read (and_not_and_zero clear _)
      · intro written
        exact before.writes fun clear => written (and_not_and_zero clear _)
    · rw [if_neg own]
      exact wired.slots other

/-- A client may go when its slot is empty. -/
theorem Wired.remove {c d : Client} (here : w.heap pointer = some c) (same : d.fd = c.fd)
    (place : w.server.clients.elems[i]? = some pointer) (quiet : (w.ev.entry c.fd).mask = evNone) :
    (clientFree { w with server := { w.server with clients := (vecRemoveAt w.server.clients i).2 } } pointer d).Wired := by
  obtain ⟨inside, at_⟩ := List.getElem?_eq_some_iff.mp place
  obtain ⟨after, removed, valid, elems⟩ := vecRemoveAt_spec wired.valid (by rwa [wired.valid.length] at inside)
  have members : ∀ p, p ∈ after.elems ↔ p ≠ pointer ∧ p ∈ w.server.clients.elems := by
    intro p
    rw [elems, ← wired.nodup.erase_getElem i inside, at_, wired.nodup.mem_erase_iff]
  have left : ∀ p e, Function.update w.heap pointer none p = some e → p ≠ pointer ∧ w.heap p = some e := by
    intro p e found
    by_cases gone : p = pointer
    · subst gone
      simp at found
    · exact ⟨gone, by rwa [Function.update_of_ne gone] at found⟩
  rw [removed]
  refine ⟨⟨?_, ?_, ?_, ?_⟩, valid, wired.sized, ?_, ?_, wired.slots⟩
  · intro p
    simp only [clientFree]
    rw [members]
    by_cases gone : p = pointer
    · subst gone
      simp
    · simp [gone, wired.live]
  · simp only [clientFree]
    rw [elems]
    exact wired.nodup.eraseIdx i
  · intro p q e f first second
    exact wired.distinct p q e f (left p e first).2 (left q f second).2
  · intro fd masked
    rcases wired.masked fd masked with listening | ⟨p, member, e, found, owned⟩
    · exact .inl listening
    · have other : p ≠ pointer := by
        intro gone
        subst gone
        rw [here, Option.some.injEq] at found
        subst found owned
        exact masked quiet
      refine .inr ⟨p, (members p).mpr ⟨other, member⟩, e, ?_, owned⟩
      simpa only [clientFree, Function.update_of_ne other] using found
  · refine Finset.mem_erase.mpr ⟨?_, wired.listening⟩
    rw [same]
    exact (wired.opened pointer c here).2.symm
  · intro p e found
    obtain ⟨other, found⟩ := left p e found
    have open_ := wired.opened p e found
    refine ⟨Finset.mem_erase.mpr ⟨?_, open_.1⟩, open_.2⟩
    intro shared
    exact other (wired.distinct p pointer e c found here (by rw [shared, same]))

/-- Nothing is registered for a closed descriptor. -/
theorem Wired.idle (free : fd ∉ w.fds) : (w.ev.entry fd).mask = evNone := by
  by_contra masked
  rcases wired.masked fd masked with listening | ⟨p, _, d, found, owned⟩
  · exact free (listening ▸ wired.listening)
  · exact free (owned ▸ (wired.opened p d found).1)

/-- A client on a descriptor and an address that were free may be added. -/
theorem Wired.insert {c : Client} {clients : Vec Nat} (free : c.fd ∉ w.fds) (fresh : w.heap pointer = none)
    (valid : clients.Valid) (elems : clients.elems = w.server.clients.elems ++ [pointer])
    {ops : EvApi EvFileFn α} {ev : Ev EvFileFn α}
    (added : evAddEvent ops w.ev c.fd evRead .readFromClient serverData = some ev) :
    ({ server := { w.server with clients := clients }, heap := Function.update w.heap pointer (some c),
       fds := insert c.fd w.fds, ev := ev } : World α).Wired := by
  obtain ⟨sized, _, _, slots⟩ := evAddEvent_spec wired.sized added
  have unlisted : pointer ∉ w.server.clients.elems := by simp [wired.live, fresh]
  have notListening : c.fd ≠ w.server.sfd := fun same => free (same ▸ wired.listening)
  have idle := wired.idle free
  have known : ∀ p e, Function.update w.heap pointer (some c) p = some e → p = pointer ∧ e = c ∨ p ≠ pointer ∧ w.heap p = some e := by
    intro p e found
    by_cases new : p = pointer
    · subst new
      rw [Function.update_self, Option.some.injEq] at found
      exact .inl ⟨rfl, found.symm⟩
    · exact .inr ⟨new, by rwa [Function.update_of_ne new] at found⟩
  have apart : ∀ p e, w.heap p = some e → e.fd ≠ c.fd := fun p e found same => free (same ▸ (wired.opened p e found).1)
  refine ⟨⟨?_, ?_, ?_, ?_⟩, valid, sized, ?_, ?_, ?_⟩
  · intro p
    simp only [elems, List.mem_append, List.mem_singleton]
    by_cases new : p = pointer
    · subst new
      simp
    · simp [new, wired.live]
  · simp only [elems]
    exact List.nodup_append.mpr ⟨wired.nodup, List.nodup_singleton _, by
      intro p member q last
      rw [List.mem_singleton] at last
      subst last
      rintro rfl
      exact unlisted member⟩
  · intro p q e f first second equal
    rcases known p e first with ⟨newP, newE⟩ | ⟨_, oldP⟩ <;> rcases known q f second with ⟨newQ, newF⟩ | ⟨_, oldQ⟩
    · rw [newP, newQ]
    · exact absurd (by rw [← equal, newE]) (apart q f oldQ)
    · exact absurd (by rw [equal, newF]) (apart p e oldP)
    · exact wired.distinct p q e f oldP oldQ equal
  · intro fd masked
    rw [slots] at masked
    by_cases own : fd = c.fd
    · exact .inr ⟨pointer, by simp [elems], c, by simp, own.symm⟩
    · rw [if_neg own] at masked
      rcases wired.masked fd masked with listening | ⟨p, member, e, found, owned⟩
      · exact .inl listening
      · have other : p ≠ pointer := by
          rintro rfl
          exact unlisted member
        exact .inr ⟨p, by simp [elems, member], e, by simpa only [Function.update_of_ne other] using found, owned⟩
  · exact Finset.mem_insert_of_mem wired.listening
  · intro p e found
    rcases known p e found with ⟨rfl, rfl⟩ | ⟨_, found⟩
    · exact ⟨Finset.mem_insert_self _ _, notListening⟩
    · exact ⟨Finset.mem_insert_of_mem (wired.opened p e found).1, (wired.opened p e found).2⟩
  · intro fd
    rw [slots]
    by_cases own : fd = c.fd
    · subst own
      rw [if_pos rfl]
      have alone : ((w.ev.entry c.fd).add evRead .readFromClient serverData).mask = evRead := by
        simp only [EvFileEvent.add, idle]
        decide
      refine ⟨fun _ => by simp [EvFileEvent.add, evRead, notListening], ?_, by rw [alone]; decide⟩
      intro written
      rw [alone] at written
      exact absurd (by decide) written
    · rw [if_neg own]
      exact wired.slots fd

end Changes

/-- Descriptors may be opened. -/
theorem Wired.open {w : World α} (wired : w.Wired) (fd : Nat) : ({ w with fds := Insert.insert fd w.fds }).Wired :=
  ⟨⟨wired.live, wired.nodup, wired.distinct, wired.masked⟩, wired.valid, wired.sized, Finset.mem_insert_of_mem wired.listening,
    fun p c here => ⟨Finset.mem_insert_of_mem (wired.opened p c here).1, (wired.opened p c here).2⟩, wired.slots⟩

end World

/-- `accept` hands out a closed descriptor, the allocator an unused address. -/
structure Kernel.Possible (k : Kernel α) (w : World α) : Prop where
  accept : ∀ cfd, k.accept = some cfd → cfd ∉ w.fds
  client : ∀ pointer, k.client = some pointer → w.heap pointer = none

/-- A client that could be created gets its place in the vector and in the event
table. -/
def Kernel.AcceptsCleanly (k : Kernel α) (w : World α) : Prop :=
  ∀ cfd client, k.accept = some cfd → k.nonblocking = true → createClient k cfd = some client →
    (w.server.clients.len = w.server.clients.cap → k.push.isSome) ∧ cfd < w.ev.numFds ∧
      (k.api.addEvent w.ev cfd evRead).isSome

/-- Where the reads end the connection, the fired mask has every event that is
registered. -/
def Kernel.ClosesCleanly (k : Kernel α) (w : World α) (fd : Nat) (mask : UInt32) : Prop :=
  ∀ i pointer c d, findClient w.heap fd 0 w.server.clients.elems = .ok (some (i, pointer, c)) →
    readLoop k.grow (Arrival.rounds k.arrivals) k.arrivals c = .ok (.closed, d) → (w.ev.entry fd).mask &&& ~~~mask = 0

namespace World

section Callbacks

variable {env : Env} {k : Kernel α} {w after : World α} (wired : w.Wired)

include wired

theorem serverAccept_wired (possible : k.Possible w) (clean : k.AcceptsCleanly w) : (w.serverAccept k).Wired := by
  unfold serverAccept
  split
  · exact wired
  · rename_i cfd accepted
    simp only
    split
    · rename_i nonblocking
      split
      · exact wired.open cfd
      · rename_i pointer client created
        obtain ⟨granted, inside, answered⟩ := clean cfd _ accepted nonblocking created
        have fresh : w.heap pointer = none ∧ client.fd = cfd := by
          unfold createClient at created
          split at created
          · cases created
          · rename_i address allocated
            split at created
            · cases created
              exact ⟨possible.client _ allocated, rfl⟩
            · cases created
        obtain ⟨clients, pushed, valid, elems⟩ := vecPush_spec wired.valid granted pointer
        obtain ⟨ev, added⟩ := evAddEvent_granted k.api inside evRead answered EvFileFn.readFromClient serverData
        obtain ⟨fresh, rfl⟩ := fresh
        simp only [pushed, added]
        exact wired.insert (possible.accept _ accepted) fresh valid elems added
    · exact wired.open cfd

/-- The search finds the client that a registered fd belongs to. -/
theorem Wired.findClient (masked : (w.ev.entry fd).mask ≠ evNone) (client : fd ≠ w.server.sfd) :
    ∃ i pointer c, LexiDB.findClient w.heap fd 0 w.server.clients.elems = .ok (some (i, pointer, c)) ∧
      w.server.clients.elems[i]? = some pointer ∧ w.heap pointer = some c ∧ c.fd = fd := by
  rcases wired.masked fd masked with listening | ⟨p, member, c, here, same⟩
  · exact absurd listening client
  · obtain ⟨j, other, d, found, place, alive, owned⟩ :=
      findClient_found (fun pointer => (wired.live pointer).mp) member here same 0
    exact ⟨0 + j, other, d, found, by simpa using place, alive, owned⟩

theorem readFromClient_wired (masked : (w.ev.entry fd).mask ≠ evNone) (client : fd ≠ w.server.sfd)
    (clean : k.ClosesCleanly w fd mask) (done : w.readFromClient env k fd mask = .ok after) : after.Wired := by
  obtain ⟨i, pointer, c, found, place, here, rfl⟩ := wired.findClient masked client
  simp only [readFromClient, found, ok_bind] at done
  obtain ⟨⟨ended, d⟩, looped, done⟩ := bind_eq_ok.mp done
  have same : d.fd = c.fd := by
    obtain ⟨_, _, _, rfl⟩ := readLoop_buffered _ _ _ _ _ looped
    rfl
  cases ended with
  | closed =>
    cases done
    have quiet : ((evDeleteEvent k.api w.ev c.fd mask).entry c.fd).mask = evNone := by
      obtain ⟨_, _, slots⟩ := evDeleteEvent_spec k.api wired.sized c.fd mask
      rw [slots, if_pos rfl]
      exact and_not_deletedMask (clean i pointer c d found looped)
    exact (wired.unwatch k.api c.fd mask).remove here same place quiet
  | failed =>
    cases done
    exact wired.rewrite d here same rfl rfl
  | burst =>
    obtain ⟨⟨s, e⟩, executed, done⟩ := bind_eq_ok.mp done
    have kept : e.fd = d.fd := by
      rw [executeCmd_connection executed]
      rfl
    obtain ⟨cmd, leaves⟩ := executeCmd_leaves executed
    have server : s.clients = w.server.clients ∧ s.sfd = w.server.sfd := by
      cases leaves <;> exact ⟨rfl, rfl⟩
    simp only at done
    split at done
    · cases done
      exact wired.rewrite e.handOff here (kept.trans same) server.1 server.2
    · rename_i ev added
      cases done
      exact (wired.watch here added).rewrite e.handOff.cleared here (kept.trans same) server.1 server.2

theorem writeToClient_wired (masked : (w.ev.entry fd).mask ≠ evNone) (client : fd ≠ w.server.sfd)
    (done : w.writeToClient k fd mask = .ok (after, chunks)) : after.Wired := by
  obtain ⟨i, pointer, c, found, place, here, rfl⟩ := wired.findClient masked client
  simp only [writeToClient, found, ok_bind] at done
  obtain ⟨⟨sent, taken⟩, _, done⟩ := bind_eq_ok.mp done
  simp only at done
  split at done
  · cases done
    exact (wired.unwatch k.api c.fd evWrite).rewrite { c with builder := builderReset c.builder } here rfl rfl rfl
  · cases done
    exact wired

end Callbacks

end World

/-- One fired event, with what the system answers to its callbacks. -/
structure Fired (α : Type) where
  k : Kernel α
  fd : Nat
  mask : UInt32

/-- The event is processed, and the callbacks return. -/
def Fires (env : Env) (w : World α) (e : Fired α) (after : World α) : Prop :=
  e.k.Possible w ∧ w.processEvent env e.k e.fd e.mask = .ok after

/-- Where the event reads: accepting and closing go through to all three
records. -/
def Fired.Clean (e : Fired α) (w : World α) : Prop :=
  (w.ev.entry e.fd).mask &&& e.mask &&& evRead ≠ 0 →
    if e.fd = w.server.sfd then e.k.AcceptsCleanly w else e.k.ClosesCleanly w e.fd e.mask

namespace World

variable {env : Env} {w after : World α}

theorem Wired.step (wired : w.Wired) {e : Fired α} (clean : e.Clean w) (fires : Fires env w e after) : after.Wired := by
  obtain ⟨possible, done⟩ := fires
  have upright := (wired.slots e.fd).upright
  obtain ⟨⟨middle, fired⟩, first, done⟩ := bind_eq_ok.mp done
  have read : middle.Wired := by
    unfold callIf at first
    split at first
    · rename_i guard
      obtain ⟨registered, masked⟩ := registered_of_fired guard.2
      obtain ⟨_, called, same⟩ := bind_eq_ok.mp first
      cases same
      rw [(wired.slots e.fd).reads registered] at called
      have clean := clean guard.2
      by_cases listening : e.fd = w.server.sfd
      · rw [if_pos listening] at called clean
        cases called
        exact serverAccept_wired wired possible clean
      · rw [if_neg listening] at called clean
        exact readFromClient_wired wired masked listening clean called
    · cases first
      exact wired
  obtain ⟨⟨last, again⟩, second, done⟩ := bind_eq_ok.mp done
  have written : last.Wired := by
    unfold callIf at second
    split at second
    · rename_i guard
      obtain ⟨registered, masked⟩ := registered_of_fired guard.1
      obtain ⟨writer, client⟩ := (read.slots e.fd).writes registered
      obtain ⟨_, called, same⟩ := bind_eq_ok.mp second
      cases same
      rw [writer] at called
      obtain ⟨⟨_, chunks⟩, wrote, same⟩ := bind_eq_ok.mp called
      cases same
      exact writeToClient_wired read masked client wrote
    · cases second
      exact read
  -- without the bit `EV_BOTH` the read callback does not come last
  obtain ⟨⟨final, _⟩, third, done⟩ := bind_eq_ok.mp done
  unfold callIf at third
  rw [if_neg (fun guard => guard.1 upright)] at third
  cases third
  cases done
  exact written

/-- In every run whose steps accept and close cleanly the registry is right in
every state. -/
theorem registry_of_clean {start : World α} (fresh : start.Fresh)
    (run : Run (fun w e after => Fires env w e after ∧ e.Clean w) start events w) : w.Registry := by
  have wired : w.Wired := by
    refine run.invariant (fun _ w => w.Wired) fresh.wired ?_
    intro _ w e after wired step
    exact wired.step step.2 step.1
  exact wired.toRegistry

end World

section Runs

/-- A server on descriptor 3 with no databases. -/
private def listener : Server :=
  ⟨0, 3, 6969, cstr "/lexidb", vstrNew, vstrNew, vstrNew, 0, [], vecNew 0, vecNew 0, 0, 0⟩

/-- A system that grants everything and has nothing to say. -/
def Kernel.idle : Kernel Unit where
  accept := none
  nonblocking := true
  addr := 0
  port := 0
  now := 0
  client := none
  readBuf := true
  push := some 1
  api := ⟨fun _ _ _ => some (), fun _ _ _ => ()⟩
  arrivals := []
  grow := fun _ => true
  ans := .granted (fun _ _ => 1) 0
  fuel := 64
  writes := []

/-- The world once `server_new` has returned. -/
def listening : World Unit where
  server := listener
  heap := fun _ => none
  fds := {0, 1, 2, 3, 4}
  ev := (evAddEvent Kernel.idle.api (evNew () serverBacklog) 3 evRead .serverAccept serverData).getD (evNew () serverBacklog)

private theorem listening_fresh : listening.Fresh :=
  ⟨⟨0, rfl⟩, rfl, by decide, ⟨Kernel.idle.api, (), rfl⟩⟩

def connects (fd pointer : Nat) : Fired Unit := ⟨{ Kernel.idle with accept := some fd, client := some pointer }, 3, evRead⟩

def sends (fd : Nat) (bytes : List UInt8) : Fired Unit := ⟨{ Kernel.idle with arrivals := [.data bytes] }, fd, evRead⟩

private def hangsUp (fd : Nat) (mask : UInt32) : Fired Unit := ⟨{ Kernel.idle with arrivals := [.eof] }, fd, mask⟩

/-- The world after an event whose callbacks return. -/
def World.next (w : World Unit) (e : Fired Unit) : World Unit :=
  ((w.processEvent .sample e.k e.fd e.mask).toOption).getD w

def connected : World Unit := listening.next (connects 5 1)

/-- The world with a reply handed over to `write_to_client`. -/
def pinged : World Unit := connected.next (sends 5 (cstr "+PING\r\n"))

private theorem connects_fires : Fires .sample listening (connects 5 1) connected :=
  ⟨⟨by rintro cfd ⟨⟩; decide, by rintro pointer ⟨⟩; rfl⟩, rfl⟩

private theorem sends_fires : Fires .sample connected (sends 5 (cstr "+PING\r\n")) pinged :=
  ⟨⟨by rintro cfd ⟨⟩, by rintro pointer ⟨⟩⟩, rfl⟩

private theorem hangsUp_fires (mask : UInt32) (done : pinged.processEvent .sample (hangsUp 5 mask).k 5 mask = .ok w) :
    Fires .sample pinged (hangsUp 5 mask) w :=
  ⟨⟨by rintro cfd ⟨⟩, by rintro pointer ⟨⟩⟩, done⟩

theorem registry_of_clean_hangsUp : (pinged.next (hangsUp 5 (evRead ||| evWrite))).Registry := by
  have accepts : (connects 5 1).Clean listening := by
    intro _
    rw [if_pos (by decide)]
    rintro cfd client ⟨⟩ _ _
    exact ⟨fun _ => rfl, by decide, rfl⟩
  have stays : (sends 5 (cstr "+PING\r\n")).Clean connected := by
    intro _
    rw [if_neg (by decide)]
    intro i pointer c d found looped
    cases found
    cases looped
  have closes : (hangsUp 5 (evRead ||| evWrite)).Clean pinged := by
    intro _
    rw [if_neg (by decide)]
    intro i pointer c d _ _
    decide
  exact World.registry_of_clean listening_fresh
    (.next (.next (.next .start ⟨connects_fires, accepts⟩) ⟨sends_fires, stays⟩) ⟨hangsUp_fires _ rfl, closes⟩)

/-- A client whose descriptor is past the table of ten is freed and stays in the
vector; one that hangs up with its reply pending leaves the slot of its
descriptor registered. -/
theorem registry_counterexample :
    listening.Fresh ∧
      (∃ w, Run (Fires .sample) listening [connects 10 1] w ∧ ¬ w.Registry) ∧
      ∃ w, Run (Fires .sample) listening [connects 5 1, sends 5 (cstr "+PING\r\n"), hangsUp 5 evRead] w ∧ ¬ w.Registry := by
  refine ⟨listening_fresh, ⟨listening.next (connects 10 1), ?_, ?_⟩, pinged.next (hangsUp 5 evRead), ?_, ?_⟩
  · exact .next .start ⟨⟨by rintro cfd ⟨⟩; decide, by rintro pointer ⟨⟩; rfl⟩, rfl⟩
  · intro registry
    exact absurd ((registry.live 1).mp (by decide)) (by decide)
  · exact .next (.next (.next .start connects_fires) sends_fires) (hangsUp_fires _ rfl)
  · intro registry
    rcases registry.masked 5 (by decide) with clash | ⟨p, member, _⟩
    · exact absurd clash (by decide)
    · cases member

end Runs
end LexiDB
