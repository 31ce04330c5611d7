import LexiDB.Registry

/-! The bytes of a reply on their way through `write_to_client`. -/

namespace LexiDB

open Lib

variable {α : Type}

section Loop

/-- What the loop took is what the writes up to its end say, each from the start
of the buffer. -/
theorem writeLoop_spec {size : Nat} : ∀ writes sent done chunks, writeLoop size writes sent = .ok (done, chunks) →
    (∀ chunk ∈ chunks, chunk.start = 0) ∧
      ∃ rest, writes = chunks.map (fun chunk => .sent chunk.amount) ++ rest ∧
        (done = true → size ≤ sent + (chunks.map Chunk.amount).sum) ∧
        (done = false → rest.head? = some .again ∨ rest.head? = some .fail) := by
  intro writes
  induction writes with
  | nil =>
    intro sent done chunks looped
    unfold writeLoop at looped
    split at looped
    · cases looped
    · cases looped
      exact ⟨by simp, [], rfl, fun _ => by simp; omega, by simp⟩
  | cons write writes ih =>
    intro sent done chunks looped
    unfold writeLoop at looped
    split at looped
    · cases write with
      | again =>
        cases looped
        exact ⟨by simp, .again :: writes, rfl, by simp, by simp⟩
      | fail =>
        cases looped
        exact ⟨by simp, .fail :: writes, rfl, by simp, by simp⟩
      | sent amount =>
        obtain ⟨⟨ended, more⟩, inner, same⟩ := bind_eq_ok.mp looped
        cases same
        obtain ⟨starts, rest, split, enough, stopped⟩ := ih _ _ _ inner
        refine ⟨?_, rest, by simp [split], ?_, stopped⟩
        · intro chunk member
          rcases List.mem_cons.mp member with same | later
          · rw [same]
          · exact starts chunk later
        · intro all
          have total := enough all
          simp only [List.map_cons, List.sum_cons]
          omega
    · cases looped
      exact ⟨by simp, write :: writes, rfl, fun _ => by simp; omega, by simp⟩

end Loop

/-- One call of `write_to_client` and what its writes took. -/
structure WriteCall (α : Type) where
  k : Kernel α
  mask : UInt32
  chunks : List Chunk

/-- The write event of `fd` fires and `write_to_client` returns. -/
def Writes (fd : Nat) (w : World α) (call : WriteCall α) (after : World α) : Prop :=
  (w.ev.entry fd).mask &&& evWrite ≠ 0 ∧ w.writeToClient call.k fd call.mask = .ok (after, call.chunks)

/-- `write` takes at least one of the bytes it is given, or none and fails. -/
def WriteCall.Possible (call : WriteCall α) (size : Nat) : Prop :=
  ∀ amount, .sent amount ∈ call.k.writes → 0 < amount ∧ amount ≤ size

/-- The reply of the client on `fd` is handed over. -/
structure World.Sending (w : World α) (fd : Nat) (c : Client) : Prop where
  registered : (w.ev.entry fd).mask &&& evWrite ≠ 0
  found : ∃ i pointer, findClient w.heap fd 0 w.server.clients.elems = .ok (some (i, pointer, c))
  buf : c.writeBuf = vstrData c.builder
  size : c.writeSize = vstrLen c.builder
  sized : w.ev.Sized

/-- The offsets in `write_buf` of the bytes that were taken, in their order. -/
def offsets (calls : List (WriteCall α)) : List Nat :=
  calls.flatMap fun call => call.chunks.flatMap fun chunk => List.range' chunk.start chunk.amount

/-- The bytes that were taken, in their order. -/
def delivered (writeBuf : List UInt8) (calls : List (WriteCall α)) : List UInt8 :=
  calls.flatMap fun call => call.chunks.flatMap fun chunk => (writeBuf.drop chunk.start).take chunk.amount

/-- The content, each byte once and in order. -/
def DeliveredExactly (c : Client) (calls : List (WriteCall α)) : Prop :=
  delivered c.writeBuf calls = c.builder.bytes ∧ offsets calls = List.range c.builder.bytes.length

section HandOff

/-- The search finds the client again after it was written to. -/
private theorem findClient_update {heap : Heap} {c d : Client} (same : d.fd = c.fd) :
    ∀ pointers i, findClient heap fd i pointers = .ok (some (j, pointer, c)) →
      findClient (Function.update heap pointer (some d)) fd i pointers = .ok (some (j, pointer, d)) := by
  intro pointers
  induction pointers with
  | nil =>
    intro i found
    cases found
  | cons first rest ih =>
    intro i found
    unfold findClient at found ⊢
    cases alive : heap first with
    | none => simp [alive] at found
    | some e =>
      simp only [alive] at found
      by_cases hit : fd = e.fd
      · rw [if_pos hit] at found
        cases found
        simp [same, hit]
      · rw [if_neg hit] at found
        by_cases again : first = pointer
        · -- its fd is the wrong one, so the search cannot end at this pointer
          subst again
          have clash := findClient_fd _ _ found
          rw [alive, Option.some.injEq] at clash
          exact absurd clash.2.symm (by rw [← clash.1]; exact hit)
        · simp only [Function.update_of_ne again, alive, if_neg hit]
          exact ih (i + 1) found

/-- `read_from_client` leaves the reply ready to be written. -/
theorem readFromClient_sending {env : Env} {k : Kernel α} {w : World α} {c d e : Client} {s : Server} {ev : Ev EvFileFn α}
    (sized : w.ev.Sized) (found : findClient w.heap fd 0 w.server.clients.elems = .ok (some (i, pointer, c)))
    (read : readLoop k.grow (Arrival.rounds k.arrivals) k.arrivals c = .ok (.burst, d))
    (executed : executeCmd env k.ans k.fuel w.server d = .ok (s, e))
    (added : evAddEvent k.api w.ev fd evWrite .writeToClient serverData = some ev) (mask : UInt32) :
    ∃ after, w.readFromClient env k fd mask = .ok after ∧ after.Sending fd e.handOff.cleared := by
  refine ⟨{ w with server := s, ev := ev, heap := Function.update w.heap pointer (some e.handOff.cleared) }, ?_, ?_⟩
  · simp [World.readFromClient, found, read, executed, added]
  · obtain ⟨kept, _, _, slots⟩ := evAddEvent_spec sized added
    have same : e.handOff.cleared.fd = c.fd := by
      obtain ⟨_, _, _, rfl⟩ := readLoop_buffered _ _ _ _ _ read
      change e.fd = _
      rw [executeCmd_connection executed]
      rfl
    obtain ⟨cmd, leaves⟩ := executeCmd_leaves executed
    have clients : s.clients = w.server.clients := by cases leaves <;> rfl
    refine ⟨?_, ⟨i, pointer, ?_⟩, rfl, rfl, kept⟩
    · simp only
      rw [slots, if_pos rfl]
      simp only [EvFileEvent.add, or_and_self]
      decide
    · simp only [clients]
      exact findClient_update same _ _ found

end HandOff

section Calls

variable {w after last : World α} {fd : Nat} {c : Client}

/-- A call either blocks and leaves everything as it was, or the write event is
deleted. -/
theorem World.Sending.step (sending : w.Sending fd c) {call : WriteCall α} (writes : Writes fd w call after) :
    (after = w ∧ writeLoop c.writeSize call.k.writes 0 = .ok (false, call.chunks)) ∨
      ((after.ev.entry fd).mask &&& evWrite = 0 ∧ writeLoop c.writeSize call.k.writes 0 = .ok (true, call.chunks)) := by
  obtain ⟨i, pointer, found⟩ := sending.found
  obtain ⟨_, done⟩ := writes
  simp only [World.writeToClient, found, ok_bind] at done
  obtain ⟨⟨all, chunks⟩, looped, done⟩ := bind_eq_ok.mp done
  cases all with
  | true =>
    cases done
    refine .inr ⟨?_, looped⟩
    obtain ⟨_, _, slots⟩ := evDeleteEvent_spec call.k.api sending.sized fd evWrite
    simp only
    rw [slots, if_pos rfl]
    simp only
    rw [UInt32.and_assoc]
    have clear : ~~~deletedMask evWrite &&& evWrite = 0 := by decide
    rw [clear]
    exact UInt32.and_zero
  | false =>
    cases done
    exact .inl ⟨rfl, looped⟩

/-- Up to the last call every one blocked. -/
theorem World.Sending.run (sending : w.Sending fd c) (run : Run (Writes fd) w calls last) :
    (last = w ∧ ∀ call ∈ calls, writeLoop c.writeSize call.k.writes 0 = .ok (false, call.chunks)) ∨
      ((last.ev.entry fd).mask &&& evWrite = 0 ∧ ∃ front final, calls = front ++ [final] ∧
        (∀ call ∈ front, writeLoop c.writeSize call.k.writes 0 = .ok (false, call.chunks)) ∧
        writeLoop c.writeSize final.k.writes 0 = .ok (true, final.chunks)) := by
  refine run.invariant (fun calls last =>
    (last = w ∧ ∀ call ∈ calls, writeLoop c.writeSize call.k.writes 0 = .ok (false, call.chunks)) ∨
      ((last.ev.entry fd).mask &&& evWrite = 0 ∧ ∃ front final, calls = front ++ [final] ∧
        (∀ call ∈ front, writeLoop c.writeSize call.k.writes 0 = .ok (false, call.chunks)) ∧
        writeLoop c.writeSize final.k.writes 0 = .ok (true, final.chunks))) (.inl ⟨rfl, by simp⟩) ?_
  rintro calls s call t (⟨rfl, blocked⟩ | ⟨deleted, _⟩) writes
  · rcases sending.step writes with ⟨rfl, again⟩ | ⟨gone, finished⟩
    · refine .inl ⟨rfl, ?_⟩
      intro other member
      rcases List.mem_append.mp member with old | new
      · exact blocked other old
      · rw [List.mem_singleton.mp new]
        exact again
    · exact .inr ⟨gone, calls, call, rfl, blocked, finished⟩
  · exact absurd deleted writes.1

/-- Pieces that all start at the start give each offset once only if there is one
of them. -/
private theorem chunks_of_range {chunks : List Chunk} (starts : ∀ chunk ∈ chunks, chunk.start = 0)
    (positive : ∀ chunk ∈ chunks, 0 < chunk.amount)
    (once : (chunks.flatMap fun chunk => List.range' chunk.start chunk.amount) = List.range n) (some_ : 0 < n) :
    chunks = [⟨0, n⟩] := by
  have first : ∀ chunk ∈ chunks, 0 ∈ List.range' chunk.start chunk.amount := by
    intro chunk member
    simp [List.mem_range', starts chunk member, positive chunk member]
  cases chunks with
  | nil =>
    have lengths := congrArg List.length once
    simp at lengths
    omega
  | cons chunk rest =>
    cases rest with
    | nil =>
      have lengths := congrArg List.length once
      simp at lengths
      have start := starts chunk (List.mem_cons_self ..)
      cases chunk
      simp_all
    | cons second rest =>
      exfalso
      have nodup : (List.range n).Nodup := List.nodup_range
      rw [← once, List.flatMap_cons, List.nodup_append] at nodup
      have zero : 0 ∈ (second :: rest).flatMap fun chunk => List.range' chunk.start chunk.amount :=
        List.mem_flatMap.mpr ⟨second, List.mem_cons_self .., first second (by simp)⟩
      exact nodup.2.2 0 (first chunk (List.mem_cons_self ..)) 0 zero rfl

/-- A blocked call has taken something exactly if its first write did. -/
private theorem chunks_nil_iff (looped : writeLoop size writes 0 = .ok (false, chunks)) :
    chunks = [] ↔ ∀ amount, writes.head? ≠ some (.sent amount) := by
  obtain ⟨_, rest, split, _, stopped⟩ := writeLoop_spec _ _ _ _ looped
  cases chunks with
  | nil =>
    simp only [List.map_nil, List.nil_append] at split
    rw [split]
    rcases stopped rfl with again | fail
    · simp [again]
    · simp [fail]
  | cons chunk chunks => simp [split]

private theorem writeLoop_empty (writes : List WriteOutcome) : writeLoop 0 writes 0 = .ok (true, []) := by
  unfold writeLoop
  rfl

private theorem writeLoop_all (some_ : 0 < size) (rest : List WriteOutcome) :
    writeLoop size (.sent size :: rest) 0 = .ok (true, [⟨0, size⟩]) := by
  have complete : writeLoop size rest size = .ok (true, []) := by
    unfold writeLoop
    exact if_neg (Nat.lt_irrefl _)
  unfold writeLoop
  simp [some_, complete]

/-- Blocked calls that took nothing do not show. -/
private theorem flatMap_silent {front : List (WriteCall α)} (silent : ∀ call ∈ front, call.chunks = []) (f : Chunk → List β) :
    (front.flatMap fun call => call.chunks.flatMap f) = [] := by
  apply List.flatMap_eq_nil_iff.mpr
  intro call member
  rw [silent call member]
  rfl

/-- The pieces of a call start at the start and hold something. -/
private theorem chunks_positive {call : WriteCall α} (possible : call.Possible size)
    (looped : writeLoop size call.k.writes 0 = .ok (done, call.chunks)) :
    ∀ chunk ∈ call.chunks, chunk.start = 0 ∧ 0 < chunk.amount := by
  obtain ⟨starts, rest, split, _, _⟩ := writeLoop_spec _ _ _ _ looped
  intro chunk taken
  have written : .sent chunk.amount ∈ call.k.writes := by
    rw [split]
    exact List.mem_append_left _ (List.mem_map.mpr ⟨chunk, taken, rfl⟩)
  exact ⟨starts chunk taken, (possible chunk.amount written).1⟩

/-- Calls that give each offset once took everything in one piece. -/
private theorem pieces_of_once {calls : List (WriteCall α)} (possible : ∀ call ∈ calls, call.Possible size)
    (looped : ∀ call ∈ calls, ∃ done, writeLoop size call.k.writes 0 = .ok (done, call.chunks))
    (once : offsets calls = List.range size) (some_ : 0 < size) : calls.flatMap WriteCall.chunks = [⟨0, size⟩] := by
  have each : ∀ chunk ∈ calls.flatMap WriteCall.chunks, chunk.start = 0 ∧ 0 < chunk.amount := by
    intro chunk member
    obtain ⟨call, inside, taken⟩ := List.mem_flatMap.mp member
    obtain ⟨done, ran⟩ := looped call inside
    exact chunks_positive (possible call inside) ran chunk taken
  refine chunks_of_range ?_ ?_ (by rw [List.flatMap_assoc]; exact once) some_
  · exact fun chunk member => (each chunk member).1
  · exact fun chunk member => (each chunk member).2

/-- What one piece from the start delivers. -/
private theorem delivered_piece {front : List (WriteCall α)} {final : WriteCall α} (silent : ∀ call ∈ front, call.chunks = [])
    (all : final.chunks = [⟨0, n⟩]) (writeBuf : List UInt8) :
    delivered writeBuf (front ++ [final]) = writeBuf.take n ∧ offsets (front ++ [final]) = List.range n := by
  simp only [delivered, offsets, List.flatMap_append, flatMap_silent silent, List.flatMap_cons, List.flatMap_nil, all,
    List.nil_append, List.append_nil, List.drop_zero, List.range_eq_range', and_self]

/-- Once the write event is deleted, the content has been delivered exactly if it is
empty, or no call but the last took anything and the first write of that one
took all. -/
theorem deliveredExactly_iff (sending : w.Sending fd c) (valid : c.builder.Valid) (run : Run (Writes fd) w calls last)
    (possible : ∀ call ∈ calls, call.Possible c.builder.bytes.length)
    (deleted : (last.ev.entry fd).mask &&& evWrite = 0) :
    DeliveredExactly c calls ↔ c.builder.bytes = [] ∨
      ∃ front final, calls = front ++ [final] ∧ (∀ call ∈ front, ∀ amount, call.k.writes.head? ≠ some (.sent amount)) ∧
        final.k.writes.head? = some (.sent c.builder.bytes.length) := by
  rcases sending.run run with ⟨rfl, _⟩ | ⟨_, front, final, rfl, blocked, finished⟩
  · exact absurd deleted sending.registered
  have size : c.writeSize = c.builder.bytes.length := sending.size.trans valid.length.symm
  have whole : c.writeBuf.take c.builder.bytes.length = c.builder.bytes := by
    rw [sending.buf, valid.length]
    rfl
  rw [size] at blocked finished
  by_cases empty : c.builder.bytes = []
  · refine ⟨fun _ => .inl empty, fun _ => ?_⟩
    have zero : c.builder.bytes.length = 0 := by rw [empty]; rfl
    rw [zero] at blocked finished
    rw [writeLoop_empty, Except.ok.injEq, Prod.mk.injEq] at finished
    have none : front = [] := by
      apply List.eq_nil_iff_forall_not_mem.mpr
      intro call member
      have clash := blocked call member
      rw [writeLoop_empty, Except.ok.injEq, Prod.mk.injEq] at clash
      exact absurd clash.1 (by decide)
    subst none
    simp [DeliveredExactly, delivered, offsets, ← finished.2, empty]
  · have some_ : 0 < c.builder.bytes.length := List.length_pos_iff.mpr empty
    obtain ⟨starts, rest, split, enough, _⟩ := writeLoop_spec _ _ _ _ finished
    constructor
    · rintro ⟨_, once⟩
      refine .inr ⟨front, final, rfl, ?_⟩
      have looped : ∀ call ∈ front ++ [final], ∃ done,
          writeLoop c.builder.bytes.length call.k.writes 0 = .ok (done, call.chunks) := by
        intro call member
        rcases List.mem_append.mp member with old | new
        · exact ⟨_, blocked call old⟩
        · rw [List.mem_singleton.mp new]
          exact ⟨_, finished⟩
      have only := pieces_of_once possible looped once some_
      rw [List.flatMap_append, List.flatMap_singleton] at only
      rcases List.append_eq_singleton_iff.mp only with ⟨silent, all⟩ | ⟨_, none⟩
      · refine ⟨?_, by rw [split, all]; rfl⟩
        intro call member
        exact (chunks_nil_iff (blocked call member)).mp (List.flatMap_eq_nil_iff.mp silent call member)
      · have total := enough rfl
        rw [none] at total
        simp only [List.map_nil, List.sum_nil] at total
        omega
    · rintro (none | ⟨other, last, same, silent, all⟩)
      · exact absurd none empty
      · obtain ⟨rfl, here⟩ := List.append_inj' same rfl
        cases here
        obtain ⟨tail, writes⟩ : ∃ tail, final.k.writes = .sent c.builder.bytes.length :: tail :=
          List.head?_eq_some_iff.mp all
        rw [writes, writeLoop_all some_, Except.ok.injEq, Prod.mk.injEq] at finished
        obtain ⟨bytes, once⟩ := delivered_piece (fun call member => (chunks_nil_iff (blocked call member)).mpr (silent call member))
          finished.2.symm c.writeBuf
        exact ⟨bytes.trans whole, once⟩

end Calls

section Runs

/-- The client of `pinged`, with `-EUNAUTHED` to be written. -/
private def waiting : Client := (pinged.heap 1).get rfl

private theorem pinged_sending : pinged.Sending 5 waiting :=
  ⟨by decide, ⟨0, 1, rfl⟩, rfl, rfl, rfl⟩

private theorem waiting_valid : waiting.builder.Valid := by
  exact Vstr.valid_sm.mpr ⟨by decide, by decide⟩

private theorem waiting_length : waiting.builder.bytes.length = 12 := by decide

/-- A call whose writes have these outcomes. -/
private def call (writes : List WriteOutcome) (chunks : List Chunk) : WriteCall Unit :=
  ⟨{ Kernel.idle with writes := writes }, evWrite, chunks⟩

private def written (writes : List WriteOutcome) : World Unit :=
  ((pinged.writeToClient { Kernel.idle with writes := writes } 5 evWrite).toOption.map Prod.fst).getD pinged

theorem deliveredExactly_iff_blocked : DeliveredExactly waiting [call [.again] [], call [.sent 12] [⟨0, 12⟩]] := by
  have run : Run (Writes 5) pinged [call [.again] [], call [.sent 12] [⟨0, 12⟩]] (written [.sent 12]) :=
    .next (.next .start ⟨by decide, rfl⟩) ⟨by decide, rfl⟩
  have possible : ∀ other ∈ [call [.again] [], call [.sent 12] [⟨0, 12⟩]], other.Possible waiting.builder.bytes.length := by
    simp [WriteCall.Possible, call, waiting_length]
  exact (deliveredExactly_iff pinged_sending waiting_valid run possible (by decide)).mpr
    (.inr ⟨[call [.again] []], call [.sent 12] [⟨0, 12⟩], rfl, by simp [call], rfl⟩)

/-- A short write of five bytes: the next one starts over. -/
theorem deliveredExactly_counterexample :
    pinged.Sending 5 waiting ∧ waiting.builder.Valid ∧
      Run (Writes 5) pinged [call [.sent 5, .sent 12] [⟨0, 5⟩, ⟨0, 12⟩]] (written [.sent 5, .sent 12]) ∧
      (call [.sent 5, .sent 12] [⟨0, 5⟩, ⟨0, 12⟩]).Possible waiting.builder.bytes.length ∧
      ((written [.sent 5, .sent 12]).ev.entry 5).mask &&& evWrite = 0 ∧
      delivered waiting.writeBuf [call [.sent 5, .sent 12] [⟨0, 5⟩, ⟨0, 12⟩]] = cstr "-EUNA-EUNAUTHED\r\n" ∧
      ¬ DeliveredExactly waiting [call [.sent 5, .sent 12] [⟨0, 5⟩, ⟨0, 12⟩]] := by
  refine ⟨pinged_sending, waiting_valid, .next .start ⟨by decide, rfl⟩, ?_, by decide, by decide, ?_⟩
  · simp [WriteCall.Possible, call, waiting_length]
  · rintro ⟨_, once⟩
    exact absurd once (by decide)

end Runs
end LexiDB
