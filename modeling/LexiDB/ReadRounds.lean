import LexiDB.EventLoopInvariant
import LexiDB.Lib.Run

/-! The calls of `read` that `read_from_client` makes until one would block. -/

namespace LexiDB

open Lib

/-- A call of `read`: the client at the head of the loop, the client that the call is
made for, and the bytes it stores. -/
structure ReadCall where
  head : Client
  ready : Client
  bytes : List UInt8

/-- `c->read_cap - c->read_pos` -/
def ReadCall.asked (call : ReadCall) : Nat := call.ready.readCap - call.ready.readPos

/-- A round of the loop whose `read` returns at least one byte and no more than it was
asked for. -/
structure ReadStep (grow : Nat → Bool) (c : Client) (call : ReadCall) (after : Client) : Prop where
  head : call.head = c
  reserved : c.reserve grow = some call.ready
  some_ : 0 < call.bytes.length
  fits : call.bytes.length ≤ call.asked
  stored : after = call.ready.received call.bytes

/-- The call is made for some bytes, with its position in the buffer, and what was read
before is there as it was. -/
structure ReadCall.Sound (call : ReadCall) : Prop where
  asks : 0 < call.asked
  room : call.head.readPos ≤ call.head.readCap ∧ call.ready.readPos ≤ call.ready.readCap
  pos : call.ready.readPos = call.head.readPos
  kept : call.ready.request = call.head.request

/-- What the bytes of some calls are to `readLoop`. -/
def ReadCall.arrivals (calls : List ReadCall) : List Arrival := calls.map fun call => .data call.bytes

section Run

variable {grow : Nat → Bool} {c d after : Client} {call : ReadCall} {calls : List ReadCall}

/-- A client whose buffer the allocator can have given. -/
structure Client.Buffering (c : Client) : Prop extends c.Reading where
  object : c.readCap < sizeMod / 2

/-- Room is made, if at all, by an object twice as large. -/
theorem Client.Buffering.reserve (limit : ∀ cap, grow cap = true → cap < sizeMod / 2) (buffering : c.Buffering)
    (reserved : c.reserve grow = some d) (bytes : List UInt8) : d.Buffering ∧ (ReadCall.mk c d bytes).Sound := by
  have room := buffering.room
  have object := buffering.object
  obtain ⟨ready, pos, free, same, grown⟩ := buffering.toReading.reserve (by omega) reserved
  refine ⟨⟨ready, ?_⟩, by simp only [ReadCall.asked]; omega, ⟨room, ready.room⟩, pos, same⟩
  obtain old | granted := grown
  · rwa [old]
  · exact limit _ granted

theorem ReadStep.keeps (limit : ∀ cap, grow cap = true → cap < sizeMod / 2) (step : ReadStep grow c call after)
    (buffering : c.Buffering) : call.Sound ∧ after.Buffering ∧ after.request = c.request ++ call.bytes := by
  obtain ⟨head, ready, bytes⟩ := call
  obtain ⟨same, reserved, _, fits, stored⟩ := step
  simp only at same reserved stored
  subst same stored
  obtain ⟨kept, sound⟩ := buffering.reserve limit reserved bytes
  have room := kept.room
  have inside : ready.readPos + bytes.length ≤ ready.readCap := by
    simp only [ReadCall.asked] at fits
    omega
  obtain ⟨reading, content⟩ := received_spec kept.toReading inside
  exact ⟨sound, ⟨reading, kept.object⟩, content.trans (congrArg (· ++ bytes) sound.kept)⟩

/-- Every call of a run is sound, and the request has grown by what they stored. -/
theorem readRun_invariant (limit : ∀ cap, grow cap = true → cap < sizeMod / 2) (buffering : c.Buffering)
    (run : Run (ReadStep grow) c calls d) :
    (∀ call ∈ calls, call.Sound) ∧ d.Buffering ∧ d.request = c.request ++ (calls.map ReadCall.bytes).flatten := by
  refine run.invariant (fun calls d => (∀ call ∈ calls, call.Sound) ∧ d.Buffering ∧
    d.request = c.request ++ (calls.map ReadCall.bytes).flatten) ⟨by simp, buffering, by simp⟩ ?_
  rintro labels s call t ⟨sound, kept, request⟩ step
  obtain ⟨here, next, stored⟩ := step.keeps limit kept
  refine ⟨?_, next, by rw [stored, request]; simp⟩
  intro other member
  rcases List.mem_append.mp member with earlier | last
  · exact sound other earlier
  · rw [List.mem_singleton.mp last]
    exact here

/-- A call of a run is a round of the loop on its bytes. -/
theorem ReadStep.round (step : ReadStep grow c call after) (fuel : Nat) (rest : List Arrival) :
    readLoop grow (fuel + 1) (.data call.bytes :: rest) c = readLoop grow fuel rest after := by
  rw [step.stored]
  exact readLoop_whole step.reserved step.some_ step.fits fuel rest

theorem readLoop_run (run : Run (ReadStep grow) c calls d) : ∀ (rest : List Arrival) (fuel : Nat),
    readLoop grow (fuel + calls.length) (ReadCall.arrivals calls ++ rest) c = readLoop grow fuel rest d := by
  induction run with
  | start => exact fun _ _ => rfl
  | next run last ih =>
    rename_i labels s call t
    intro rest fuel
    have longer : fuel + (labels ++ [call]).length = fuel + 1 + labels.length := by
      simp only [List.length_append, List.length_singleton]
      omega
    rw [longer, ReadCall.arrivals, List.map_append, List.append_assoc, List.map_singleton, List.singleton_append]
    exact (ih (.data call.bytes :: rest) (fuel + 1)).trans (last.round fuel rest)

/-- One round for each call is within the fuel of the loop. -/
theorem readRun_rounds (run : Run (ReadStep grow) c calls d) : calls.length < Arrival.rounds (ReadCall.arrivals calls) := by
  have rounds : ∀ (calls : List ReadCall) (rest : List Arrival), (∀ call ∈ calls, 0 < call.bytes.length) →
      calls.length + Arrival.rounds rest ≤ Arrival.rounds (ReadCall.arrivals calls ++ rest) := by
    intro calls rest
    induction calls with
    | nil => simp [ReadCall.arrivals]
    | cons call calls ih =>
      intro some_
      obtain ⟨here, later⟩ := List.forall_mem_cons.mp some_
      have fewer := ih later
      simp only [ReadCall.arrivals, List.map_cons, List.cons_append, Arrival.rounds, List.length_cons] at fewer ⊢
      omega
  have some_ : ∀ call ∈ calls, 0 < call.bytes.length := by
    refine run.invariant (fun calls _ => ∀ call ∈ calls, 0 < call.bytes.length) (by simp) ?_
    intro labels s call t earlier step other member
    rcases List.mem_append.mp member with front | last
    · exact earlier other front
    · rw [List.mem_singleton.mp last]
      exact step.some_
  have enough := rounds calls [] some_
  rw [List.append_nil] at enough
  exact enough

/-- A run, and a last call that would block, are what the loop does. -/
theorem readLoop_blocks {last : Client} (run : Run (ReadStep grow) c calls d) (reserved : d.reserve grow = some last) :
    readLoop grow (Arrival.rounds (ReadCall.arrivals calls)) (ReadCall.arrivals calls) c = .ok (.burst, last) := by
  obtain ⟨less, rounds⟩ := Nat.exists_eq_add_of_lt (readRun_rounds run)
  have looped := readLoop_run run [] (less + 1)
  rw [List.append_nil] at looped
  rw [rounds, show calls.length + less + 1 = less + 1 + calls.length by omega, looped]
  exact readLoop_blocked reserved less

end Run

section Burst

variable {α : Type}

/-- What `read_from_client` does with what `execute_cmd` leaves. -/
def World.answered (k : Kernel α) (w : World α) (fd pointer : Nat) (left : Server × Client) : World α :=
  let c := left.2.handOff
  match evAddEvent k.api w.ev fd evWrite .writeToClient serverData with
  | none => { w with server := left.1, heap := Function.update w.heap pointer (some c) }
  | some ev => { w with server := left.1, ev := ev, heap := Function.update w.heap pointer (some c.cleared) }

/-- Where the loop ends with a burst, `execute_cmd` is called for the client it leaves. -/
theorem readFromClient_burst (env : Env) {k : Kernel α} {w : World α} {c d : Client} (fd : Nat)
    (found : findClient w.heap fd 0 w.server.clients.elems = .ok (some (i, pointer, c)))
    (read : readLoop k.grow (Arrival.rounds k.arrivals) k.arrivals c = .ok (.burst, d)) (mask : UInt32) :
    w.readFromClient env k fd mask =
      executeCmd env k.ans k.fuel w.server d >>= fun left => .ok (w.answered k fd pointer left) := by
  simp only [World.readFromClient, found, read, ok_bind, World.answered]
  congr 1
  funext left
  cases evAddEvent k.api w.ev fd evWrite .writeToClient serverData <;> rfl

end Burst

/-- However `read` cuts up what arrives, no call of it is for no bytes, the position stays
in the buffer, a larger buffer holds what was read, and `execute_cmd` finds what was there
followed by what was received. The allocator gives no object of more than PTRDIFF_MAX bytes. -/
theorem readRun_received {grow : Nat → Bool} {c d last : Client} {calls : List ReadCall}
    (limit : ∀ cap, grow cap = true → cap < sizeMod / 2) (buffering : c.Buffering) (run : Run (ReadStep grow) c calls d)
    (blocks : d.reserve grow = some last) :
    (∀ call ∈ calls ++ [⟨d, last, []⟩], call.Sound) ∧ last.readPos ≤ last.readCap ∧
      last.readBuf.take last.readPos = c.readBuf.take c.readPos ++ (calls.map ReadCall.bytes).flatten ∧
      ∀ (α : Type) (env : Env) (k : Kernel α) (w : World α) (fd i pointer : Nat) (mask : UInt32),
        k.grow = grow → k.arrivals = ReadCall.arrivals calls →
        findClient w.heap fd 0 w.server.clients.elems = .ok (some (i, pointer, c)) →
        w.readFromClient env k fd mask =
          executeCmd env k.ans k.fuel w.server last >>= fun left => .ok (w.answered k fd pointer left) := by
  obtain ⟨sound, kept, request⟩ := readRun_invariant limit buffering run
  obtain ⟨ready, ends⟩ := kept.reserve limit blocks []
  refine ⟨?_, ready.room, ends.kept.trans request, ?_⟩
  · intro call member
    rcases List.mem_append.mp member with earlier | final
    · exact sound call earlier
    · rw [List.mem_singleton.mp final]
      exact ends
  · intro α env k w fd i pointer mask same arrivals found
    have looped := readLoop_blocks run blocks
    rw [← arrivals, ← same] at looped
    exact readFromClient_burst env fd found looped mask

section Sample

/-- An allocator that gives whatever an object can be. -/
private def objects (cap : Nat) : Bool := cap < sizeMod / 2

/-- A client whose buffer is full with the start of a request. -/
private def halfRead : Client := ⟨5, 0, 0, 0, cstr "*1", 2, 2, [], 0, 0, builderNew, .zero, 0⟩

/-- The rest of the line fills the buffer that is made for it. -/
private def restRead : ReadCall := ⟨halfRead, halfRead.buffered (cstr "*1" ++ [0, 0]) 2 4, cstr "\r\n"⟩

private def lineRead : Client := restRead.ready.received restRead.bytes

theorem readRun_received_sample :
    ∃ last, (∀ call ∈ [restRead, ⟨lineRead, last, []⟩], call.Sound) ∧ last.readPos ≤ last.readCap ∧
      last.readBuf.take last.readPos = cstr "*1\r\n" ∧ last.readCap = 8 := by
  have run : Run (ReadStep objects) halfRead [restRead] lineRead :=
    .next .start ⟨rfl, rfl, by decide, by decide, rfl⟩
  have blocks : lineRead.reserve objects = some (lineRead.buffered (cstr "*1\r\n" ++ [0, 0, 0, 0]) 4 8) := rfl
  obtain ⟨sound, room, content, _⟩ := readRun_received (fun cap granted => of_decide_eq_true granted)
    ⟨⟨by decide, by decide, by decide⟩, by decide⟩ run blocks
  exact ⟨_, sound, room, content, rfl⟩

end Sample

end LexiDB
