import LexiDB.Frames
import LexiDB.Reading
import LexiDB.Lib.Buffer

/-! Where a client takes a reply to end: at the first EAGAIN behind its first
bytes. -/

namespace LexiDB

open Lib

/-- A call with what the system answers during it. `events` is what the reads of
the socket report of the reply. -/
structure Exchange where
  sys : HilexiSys
  call : Call
  reply : List UInt8
  events : List Incoming

/-- What a call returned, and what it left to be read. -/
structure Outcome where
  result : CallResult
  left : List Incoming

/-- The calls of a client in order. What a call leaves to be read comes before the
next reply. -/
def converse (env : Env) (fuel : Nat) : List Exchange → List Incoming → Hilexi → Except Halt (List Outcome)
  | [], _, _ => .ok []
  | x :: rest, pending, l => do
    let (result, pending, l) ← x.call.perform env { x.sys with fuel := fuel } (pending ++ x.events) l
    let more ← converse env fuel rest pending l
    return ⟨result, pending⟩ :: more

def Incoming.bytes : Incoming → List UInt8
  | .data bytes => bytes
  | .again | .eof | .fail => []

/-- The reply in pieces, none of them empty, with EAGAIN anywhere. -/
structure Delivers (events : List Incoming) (reply : List UInt8) : Prop where
  each : ∀ event ∈ events, event = .again ∨ ∃ chunk, chunk ≠ [] ∧ event = .data chunk
  whole : events.flatMap Incoming.bytes = reply

/-- No EAGAIN between two pieces. -/
def Unbroken (events : List Incoming) : Prop :=
  ∃ (before : Nat) (chunks : List (List UInt8)) (after : Nat), events =
    List.replicate before .again ++ chunks.map .data ++ List.replicate after .again

/-- What a call makes of a reply. -/
def Call.answer (mem : Mem) (call : Call) (obj : Object) : CallResult :=
  match call with
  | .authenticate _ _ =>
    .code (match obj with
      | .string s => vstrCmp s (vstrFrom mem (cstr "OK"))
      | _ => -1)
  | _ => .object (.ok obj)

/-- From an empty builder the request is built, and `write` takes all of it. -/
def Exchange.Sent (env : Env) (x : Exchange) : Prop :=
  ∀ b : Builder, b.Valid → b.bytes = [] → ∃ fuel after, x.call.build x.sys.mem env fuel b = .ok (some after) ∧ after.Valid ∧
    ∃ written : Nat, hilexiWriteLoop (builderLen after) x.sys.writes 0 = .ok written

/-- The request is sent, and a reply that can be decoded is delivered. No buffer
takes half the address space. -/
structure Exchange.Possible (env : Env) (x : Exchange) : Prop where
  sent : x.Sent env
  granted : ∀ cap, x.sys.grow cap = true
  delivers : Delivers x.events x.reply
  decodes : ∃ obj, Decodes env x.sys.supply x.reply obj
  some_ : x.reply ≠ []
  bound : x.reply.length < sizeMod / 2

/-- The call returned what the whole of its reply decodes to, and none of the reply
is left. -/
structure Outcome.Answers (env : Env) (x : Exchange) (outcome : Outcome) : Prop where
  right : ∃ obj, Decodes env x.sys.supply x.reply obj ∧ outcome.result = x.call.answer x.sys.mem obj
  idle : ∀ event ∈ outcome.left, event = .again

/-- Every call is answered by its own reply. -/
def RepliesMatched (env : Env) (exchanges : List Exchange) (pending : List Incoming) (l : Hilexi) : Prop :=
  ∃ enough, ∀ fuel, enough ≤ fuel → ∃ outcomes, converse env fuel exchanges pending l = .ok outcomes ∧
    List.Forall₂ (fun x outcome => outcome.Answers env x) exchanges outcomes

section Read

variable {grow : Nat → Bool} {l : Hilexi} {tail : List Incoming}

/-- The reply received so far. -/
def Hilexi.Holds (l : Hilexi) (content : List UInt8) : Prop := Lib.Holds l.readBuf l.readPos l.readCap content

/-- The check at the head of the loop makes room for at least one byte. -/
private theorem reserve_room (granted : ∀ cap, grow cap = true) (holds : l.Holds content)
    (bound : content.length < sizeMod / 2) :
    ∃ m, (if l.readPos = l.readCap then reallocReadBuf grow l else some l) = some m ∧ m.Holds content ∧
      m.readPos < m.readCap ∧ m.builder = l.builder := by
  have length := holds.length
  have room := holds.room
  have positive := holds.positive
  by_cases full : l.readPos = l.readCap
  · have wrap : l.readCap * 2 % sizeMod = l.readCap * 2 := Nat.mod_eq_of_lt (by simp only [sizeMod] at *; omega)
    have grown := Lib.Holds.grow holds (show l.readCap ≤ l.readCap * 2 by omega) 0
    refine ⟨{ l with readBuf := l.readBuf.take l.readPos ++ List.replicate (l.readCap * 2 - l.readPos) 0,
                     readCap := l.readCap * 2 }, ?_, grown, ?_, rfl⟩
    · simp only [if_pos full, reallocReadBuf, granted, wrap, ↓reduceIte]
    · simp only
      omega
  · exact ⟨l, if_neg full, holds, by omega, rfl⟩

/-- Once a byte has arrived, the pieces up to the next EAGAIN are read, whatever
stands behind it. -/
private theorem hilexiRead_pieces (granted : ∀ cap, grow cap = true) (quiet : tail = [] ∨ ∃ rest, tail = .again :: rest)
    {chunks : List (List UInt8)} (pieces : [] ∉ chunks) (holds : l.Holds content)
    (bound : content.length + chunks.flatten.length < sizeMod / 2) :
    ∃ m : Hilexi, m.Holds (content ++ chunks.flatten) ∧ m.builder = l.builder ∧ ∀ fuel, chunks.flatten.length < fuel →
      hilexiRead grow fuel true (chunks.map .data ++ tail) l = .ok (m.readPos, tail.tail, m) := by
  induction size : chunks.flatten.length using Nat.strongRecOn generalizing chunks content l with
  | _ count ih =>
    obtain ⟨m, reserved, kept, free, same⟩ := reserve_room granted holds (by omega)
    cases chunks with
    | nil =>
      refine ⟨m, by simpa using kept, same, fun fuel more => ?_⟩
      obtain ⟨fuel, rfl⟩ : ∃ less, fuel = less + 1 := ⟨fuel - 1, by omega⟩
      rcases quiet with rfl | ⟨rest, rfl⟩
      · simp [hilexiRead, reserved]
      · simp [hilexiRead, reserved]
    | cons chunk rest =>
      have nonempty : chunk ≠ [] := fun empty => pieces (by simp [empty])
      have later : [] ∉ rest := fun member => pieces (List.mem_cons_of_mem _ member)
      have some_ := List.length_pos_iff.mpr nonempty
      simp only [List.flatten_cons, List.length_append] at size bound
      have taken : (chunk.take (m.readCap - m.readPos)).length = min (m.readCap - m.readPos) chunk.length := List.length_take
      have part : chunk.take (m.readCap - m.readPos) ≠ [] := by
        apply List.length_pos_iff.mp
        omega
      have stored : (m.received (chunk.take (m.readCap - m.readPos))).Holds
          (content ++ chunk.take (m.readCap - m.readPos)) := Lib.Holds.store kept (by omega)
      by_cases all : (chunk.take (m.readCap - m.readPos)).length = chunk.length
      · have whole : chunk.take (m.readCap - m.readPos) = chunk := List.take_of_length_le (by omega)
        rw [whole] at stored part
        obtain ⟨last, done, unchanged, reads⟩ := ih rest.flatten.length (by omega) later stored
          (by simp only [List.length_append]; omega) rfl
        refine ⟨last, by simpa using done, unchanged.trans same, fun fuel more => ?_⟩
        obtain ⟨fuel, rfl⟩ : ∃ less, fuel = less + 1 := ⟨fuel - 1, by omega⟩
        simp only [hilexiRead, reserved, List.map_cons, List.cons_append, whole, if_neg part, ↓reduceIte]
        exact reads fuel (by omega)
      · -- the buffer is full before the piece ends: the rest of it is the next piece
        have left : chunk.drop (chunk.take (m.readCap - m.readPos)).length ≠ [] := by
          apply List.length_pos_iff.mp
          rw [List.length_drop]
          omega
        have again : [] ∉ chunk.drop (chunk.take (m.readCap - m.readPos)).length :: rest := by
          intro member
          rcases List.mem_cons.mp member with empty | old
          · exact left empty.symm
          · exact later old
        have joined : chunk.take (m.readCap - m.readPos) ++ chunk.drop (chunk.take (m.readCap - m.readPos)).length = chunk := by
          rw [taken, Nat.min_eq_left (by omega)]
          exact List.take_append_drop _ _
        have fewer : (chunk.drop (chunk.take (m.readCap - m.readPos)).length :: rest).flatten.length +
            (chunk.take (m.readCap - m.readPos)).length = count := by
          simp only [List.flatten_cons, List.length_append, List.length_drop]
          omega
        obtain ⟨last, done, unchanged, reads⟩ := ih _ (by omega) again stored (by simp only [List.length_append]; omega) rfl
        refine ⟨last, ?_, unchanged.trans same, fun fuel more => ?_⟩
        · rw [List.flatten_cons, ← List.append_assoc, List.append_assoc content, joined] at done
          simpa using done
        · obtain ⟨fuel, rfl⟩ : ∃ less, fuel = less + 1 := ⟨fuel - 1, by omega⟩
          simp only [hilexiRead, reserved, List.map_cons, List.cons_append, if_neg part, if_neg all]
          exact reads fuel (by omega)

/-- Before the first byte EAGAIN is waited out. -/
private theorem hilexiRead_reply (granted : ∀ cap, grow cap = true) (quiet : tail = [] ∨ ∃ rest, tail = .again :: rest)
    {chunks : List (List UInt8)} (pieces : [] ∉ chunks) (some_ : chunks ≠ []) (holds : l.Holds [])
    (bound : chunks.flatten.length < sizeMod / 2) (before : Nat) :
    ∃ m : Hilexi, m.Holds chunks.flatten ∧ m.builder = l.builder ∧ ∀ fuel, before + chunks.flatten.length < fuel →
      hilexiRead grow fuel false (List.replicate before .again ++ chunks.map .data ++ tail) l =
        .ok (m.readPos, tail.tail, m) := by
  obtain ⟨m, kept, same, reads⟩ := hilexiRead_pieces granted quiet pieces holds (by simpa using bound)
  refine ⟨m, by simpa using kept, same, ?_⟩
  have empty := holds.length
  have positive := holds.positive
  have free : ¬ l.readPos = l.readCap := by
    simp only [List.length_nil] at empty
    omega
  induction before with
  | zero =>
    intro fuel more
    obtain ⟨less, rfl⟩ : ∃ less, fuel = less + 1 := ⟨fuel - 1, by omega⟩
    obtain ⟨chunk, rest, rfl⟩ := List.exists_cons_of_ne_nil some_
    -- the flag is only read where `read` fails
    exact reads (less + 1) (by omega)
  | succ before ih =>
    intro fuel more
    obtain ⟨less, rfl⟩ : ∃ less, fuel = less + 1 := ⟨fuel - 1, by omega⟩
    have waits := ih less (by omega)
    simpa [List.replicate_succ, hilexiRead, free] using waits

end Read

section Calls

variable {env : Env} {l : Hilexi}

/-- What a client is between two calls. -/
structure Hilexi.Ready (l : Hilexi) : Prop where
  valid : l.builder.Valid
  empty : l.builder.bytes = []
  holds : l.Holds []

theorem hilexiNew_ready : hilexiNew.Ready :=
  ⟨vstrNew_valid, rfl, ⟨List.length_replicate, Nat.zero_le _, by decide, rfl⟩⟩

/-- A request that was built is written and the reply awaited, in every function of
the library alike. -/
private theorem Call.perform_built (sys : HilexiSys) {call : Call} {after : Builder} {written : Nat} {m : Hilexi}
    (built : call.build sys.mem env sys.fuel l.builder = .ok (some after))
    (wrote : hilexiWriteLoop (builderLen after) sys.writes 0 = .ok written)
    (read : hilexiRead sys.grow sys.fuel false incoming { l with builder := builderReset after } = .ok (m.readPos, left, m)) :
    call.perform env sys incoming l =
      (parseFromServer env sys.supply sys.fuel (m.readBuf.take m.readPos)).map fun obj =>
        (call.answer sys.mem obj, left,
          { m with readBuf := List.replicate m.readPos 0 ++ m.readBuf.drop m.readPos, readPos := 0 }) := by
  have passed : ¬ (written : Int) = -1 := by omega
  have got : ¬ (m.readPos : Int) = -1 := by omega
  cases known : call.fn sys.mem env sys.fuel with
  | some fn =>
    simp only [Call.build, known] at built
    obtain ⟨⟨failed, b⟩, called, done⟩ := bind_eq_ok.mp built
    cases failed with
    | some text => simp at done
    | none =>
      cases done
      have answers : ∀ obj, call.answer sys.mem obj = .object (.ok obj) := by
        intro obj
        cases call with
        | authenticate => cases known
        | _ => rfl
      simp only [Call.perform, known, hilexiRequest, called, ok_bind, hilexiWrite, wrote, pure_eq_ok, if_neg passed, read,
        if_neg got, hilexiParse, answers]
      cases parseFromServer env sys.supply sys.fuel (m.readBuf.take m.readPos) <;> rfl
  | none =>
    cases call with
    | authenticate username password =>
      simp only [Call.build, known] at built
      obtain ⟨⟨add, b⟩, called, done⟩ := bind_eq_ok.mp built
      simp only [pure_eq_ok, Except.ok.injEq] at done
      split at done
      · cases done
      · rename_i added
        cases done
        simp only [Call.perform, known, hilexiAuthenticate, called, ok_bind, if_neg added, hilexiWrite, wrote, pure_eq_ok,
          if_neg passed, read, if_neg got, hilexiParse, Call.answer]
        cases parseFromServer env sys.supply sys.fuel (m.readBuf.take m.readPos) with
        | error => rfl
        | ok obj => cases obj <;> rfl
    | _ => cases known

/-- Every delivery starts with EAGAINs, then pieces, then EAGAIN or nothing. -/
private theorem exists_pieces {events : List Incoming} (each : ∀ event ∈ events, event = .again ∨ ∃ chunk, chunk ≠ [] ∧ event = .data chunk) :
    ∃ (before : Nat) (chunks : List (List UInt8)) (tail : List Incoming), [] ∉ chunks ∧ (chunks = [] → tail = []) ∧
      (tail = [] ∨ ∃ rest, tail = .again :: rest) ∧ events = List.replicate before .again ++ chunks.map .data ++ tail := by
  induction events with
  | nil => exact ⟨0, [], [], by simp, fun _ => rfl, .inl rfl, rfl⟩
  | cons event rest ih =>
    obtain ⟨before, chunks, tail, pieces, ends, quiet, rfl⟩ := ih fun event member => each event (List.mem_cons_of_mem _ member)
    rcases each _ (List.mem_cons_self ..) with rfl | ⟨chunk, some_, rfl⟩
    · exact ⟨before + 1, chunks, tail, pieces, ends, quiet, rfl⟩
    · cases before with
      | zero =>
        refine ⟨0, chunk :: chunks, tail, ?_, by simp, quiet, rfl⟩
        simpa [Ne.symm some_] using pieces
      | succ before =>
        exact ⟨0, [chunk], _, by simp [Ne.symm some_], by simp, .inr ⟨_, rfl⟩, rfl⟩

private theorem waits_silent (count : Nat) : (List.replicate count Incoming.again).flatMap Incoming.bytes = [] := by
  simp [List.flatMap_replicate, Incoming.bytes]

private theorem bytes_pieces (before : Nat) (chunks : List (List UInt8)) (tail : List Incoming) :
    (List.replicate before Incoming.again ++ chunks.map Incoming.data ++ tail).flatMap Incoming.bytes =
      chunks.flatten ++ tail.flatMap Incoming.bytes := by
  have joined : (chunks.map Incoming.data).flatMap Incoming.bytes = chunks.flatten := by
    simp [List.flatMap_map, Incoming.bytes, List.flatMap_id']
  rw [List.flatMap_append, List.flatMap_append, waits_silent, joined, List.nil_append]

/-- EAGAINs left by earlier calls are waited out with those before the reply. -/
private theorem waits_append {pending : List Incoming} (idle : ∀ event ∈ pending, event = .again) (before : Nat)
    (rest : List Incoming) : pending ++ (List.replicate before .again ++ rest) =
      List.replicate (pending.length + before) .again ++ rest := by
  have only := List.eq_replicate_of_mem idle
  rw [← List.append_assoc, List.replicate_add, ← only]

/-- A call decodes the pieces up to the first EAGAIN behind them. -/
private theorem Exchange.perform_pieces {x : Exchange} {pending tail : List Incoming} {chunks : List (List UInt8)}
    (possible : x.Possible env) (ready : l.Ready) (idle : ∀ event ∈ pending, event = .again)
    (cut : x.events = List.replicate before .again ++ chunks.map .data ++ tail)
    (quiet : tail = [] ∨ ∃ rest, tail = .again :: rest) (pieces : [] ∉ chunks) (some_ : chunks ≠ []) :
    ∃ enough m, m.Ready ∧ ∀ fuel, enough ≤ fuel →
      x.call.perform env { x.sys with fuel := fuel } (pending ++ x.events) l =
        (parseFromServer env x.sys.supply fuel chunks.flatten).map fun obj => (x.call.answer x.sys.mem obj, tail.tail, m) := by
  have bound : chunks.flatten.length < sizeMod / 2 := by
    have whole := possible.bound
    rw [← possible.delivers.whole, cut, bytes_pieces, List.length_append] at whole
    omega
  obtain ⟨enough, after, built, valid, written, wrote⟩ := possible.sent l.builder ready.valid ready.empty
  obtain ⟨m, kept, same, reads⟩ := hilexiRead_reply possible.granted quiet pieces some_
    (show ({ l with builder := builderReset after } : Hilexi).Holds [] from ready.holds) bound (pending.length + before)
  obtain ⟨reset, none_⟩ := vstrReset_spec valid
  refine ⟨enough + pending.length + before + chunks.flatten.length + 1,
    { m with readBuf := List.replicate m.readPos 0 ++ m.readBuf.drop m.readPos, readPos := 0 },
    ⟨?_, ?_, Lib.Holds.clear kept 0⟩, fun fuel more => ?_⟩
  · simp only [same]
    exact reset
  · simp only [same]
    exact none_
  · have laterBuilt := (x.call.build_mono l.builder).ok_le built (show enough ≤ fuel by omega)
    rw [cut, List.append_assoc, waits_append idle, ← List.append_assoc,
      Call.perform_built { x.sys with fuel := fuel } laterBuilt wrote (reads fuel (by omega)), kept.front]

/-- A call of a conversation, where `perform` is known. -/
private theorem converse_cons {x : Exchange} {rest : List Exchange} {m : Hilexi}
    (performed : x.call.perform env { x.sys with fuel := fuel } (pending ++ x.events) l =
      (parseFromServer env x.sys.supply fuel text).map fun obj => (x.call.answer x.sys.mem obj, left, m)) :
    converse env fuel (x :: rest) pending l = .ok outcomes ↔
      ∃ obj more, parseFromServer env x.sys.supply fuel text = .ok obj ∧ converse env fuel rest left m = .ok more ∧
        outcomes = ⟨x.call.answer x.sys.mem obj, left⟩ :: more := by
  simp only [converse, performed]
  cases parseFromServer env x.sys.supply fuel text with
  | error => simp [Except.map]
  | ok obj =>
    simp only [Except.map, ok_bind, bind_eq_ok, pure_eq_ok, Except.ok.injEq]
    constructor
    · rintro ⟨more, ran, rfl⟩
      exact ⟨obj, more, rfl, ran, rfl⟩
    · rintro ⟨_, more, rfl, ran, rfl⟩
      exact ⟨more, ran, rfl⟩

private theorem Delivers.pieces {events : List Incoming} {chunks : List (List UInt8)} {tail : List Incoming}
    (delivers : Delivers events reply) (cut : events = List.replicate before .again ++ chunks.map .data ++ tail) :
    [] ∉ chunks := by
  intro member
  have listed : Incoming.data [] ∈ events := by
    rw [cut]
    exact List.mem_append_left _ (List.mem_append_right _ (List.mem_map_of_mem member))
  rcases delivers.each _ listed with again | ⟨chunk, some_, same⟩
  · cases again
  · cases same
    exact some_ rfl

/-- What is left is only EAGAIN where no piece stood behind the first one. -/
private theorem unbroken_of_idle {events tail : List Incoming} {chunks : List (List UInt8)}
    (cut : events = List.replicate before .again ++ chunks.map .data ++ tail) (quiet : tail = [] ∨ ∃ rest, tail = .again :: rest)
    (idle : ∀ event ∈ tail.tail, event = .again) : Unbroken events := by
  rcases quiet with rfl | ⟨rest, rfl⟩
  · exact ⟨before, chunks, 0, cut⟩
  · have only : rest = List.replicate rest.length .again := List.eq_replicate_of_mem idle
    refine ⟨before, chunks, rest.length + 1, ?_⟩
    rw [cut, List.replicate_succ, ← only]

/-- The calls are answered one by one, from any state between two of them. -/
theorem matched_from {exchanges : List Exchange} (possible : ∀ x ∈ exchanges, x.Possible env) :
    ∀ (pending : List Incoming) (l : Hilexi), (∀ event ∈ pending, event = .again) → l.Ready →
      (RepliesMatched env exchanges pending l ↔ ∀ x ∈ exchanges, Unbroken x.events) := by
  induction exchanges with
  | nil =>
    intro pending l _ _
    constructor
    · intro _ x member
      cases member
    · exact fun _ => ⟨0, fun _ _ => ⟨[], rfl, .nil⟩⟩
  | cons x rest ih =>
    intro pending l idle ready
    have one := possible x (List.mem_cons_self ..)
    have later := ih fun x member => possible x (List.mem_cons_of_mem _ member)
    constructor
    · rintro ⟨enough, matched⟩
      obtain ⟨before, chunks, tail, _, ends, quiet, cut⟩ := exists_pieces one.delivers.each
      have some_ : chunks ≠ [] := by
        rintro rfl
        apply one.some_
        rw [← one.delivers.whole, cut, ends rfl, bytes_pieces]
        rfl
      obtain ⟨more, m, again, performs⟩ := Exchange.perform_pieces one ready idle cut quiet (one.delivers.pieces cut) some_
      -- what the run with enough fuel shows of this call, and of those behind it
      have shown : ∀ fuel, enough + more ≤ fuel → (∀ event ∈ tail.tail, event = .again) ∧
          ∃ outcomes, converse env fuel rest tail.tail m = .ok outcomes ∧
            List.Forall₂ (fun x outcome => outcome.Answers env x) rest outcomes := by
        intro fuel enoughToo
        obtain ⟨outcomes, ran, all⟩ := matched fuel (by omega)
        obtain ⟨obj, others, _, continued, rfl⟩ := (converse_cons (performs fuel (by omega))).mp ran
        cases all with
        | cons head tail => exact ⟨head.idle, others, continued, tail⟩
      have idleAfter := (shown _ (Nat.le_refl _)).1
      have behind : RepliesMatched env rest tail.tail m := ⟨_, fun fuel more => (shown fuel more).2⟩
      intro y member
      rcases List.mem_cons.mp member with rfl | member
      · exact unbroken_of_idle cut quiet idleAfter
      · exact (later tail.tail m idleAfter again).mp behind y member
    · intro unbroken
      obtain ⟨before, chunks, after, cut⟩ := unbroken x (List.mem_cons_self ..)
      have whole : chunks.flatten = x.reply := by
        rw [← one.delivers.whole, cut, bytes_pieces, waits_silent, List.append_nil]
      have some_ : chunks ≠ [] := by
        rintro rfl
        exact one.some_ whole.symm
      have quiet : List.replicate after Incoming.again = [] ∨ ∃ rest, List.replicate after Incoming.again = .again :: rest := by
        cases after with
        | zero => exact .inl rfl
        | succ after => exact .inr ⟨_, List.replicate_succ⟩
      have idleAfter : ∀ event ∈ (List.replicate after Incoming.again).tail, event = .again :=
        fun event member => List.eq_of_mem_replicate (List.mem_of_mem_tail member)
      obtain ⟨more, m, again, performs⟩ := Exchange.perform_pieces one ready idle cut quiet (one.delivers.pieces cut) some_
      obtain ⟨enough, matched⟩ := (later _ m idleAfter again).mpr fun y member => unbroken y (List.mem_cons_of_mem _ member)
      obtain ⟨obj, known, decoded⟩ := one.decodes
      refine ⟨more + enough + known, fun fuel enoughToo => ?_⟩
      obtain ⟨outcomes, ran, all⟩ := matched fuel (by omega)
      have parsed := (parseFromServer_mono x.reply).ok_le decoded (show known ≤ fuel by omega)
      exact ⟨_, (converse_cons (performs fuel (by omega))).mpr ⟨obj, outcomes, whole ▸ parsed, ran, rfl⟩,
        .cons ⟨⟨obj, ⟨known, decoded⟩, rfl⟩, idleAfter⟩ all⟩

/-- However the replies are delivered, every call returns what its whole reply
decodes to and leaves none of it, exactly where EAGAIN is reported only before and
behind the pieces of a reply. -/
theorem repliesMatched_iff {exchanges : List Exchange} (possible : ∀ x ∈ exchanges, x.Possible env) :
    RepliesMatched env exchanges [] hilexiNew ↔ ∀ x ∈ exchanges, Unbroken x.events :=
  matched_from possible [] hilexiNew (by simp) hilexiNew_ready

end Calls

section Runs

/-- A call without arguments, written in one piece. -/
private def exchange (call : Call) (size : Nat) (reply : List UInt8) (events : List Incoming) : Exchange :=
  ⟨⟨.granted 1, [some size], fun _ => true, .granted fun unread _ => unread, 11, fun _ => [], 0⟩, call, reply, events⟩

private theorem exchange_sent {call : Call} (plain : call.args = []) (size : (call.frame []).length = count)
    (short : count ≤ vstrMaxLargeSize) (some_ : 0 < count) (reply : List UInt8) (events : List Incoming) :
    (exchange call count reply events).Sent .sample := by
  intro b valid empty
  have sends : List.Forall₂ (SendsWith (Mem.granted 1) .sample 0) call.args [] := by rw [plain]; exact .nil
  obtain ⟨after, built, appended⟩ := call.adds (Mem.granted_grants 1) sends b valid (by simpa [Fits, empty, size] using short)
  have length : builderLen after = count := by
    have content : after.bytes.length = vstrLen after := Vstr.Valid.length appended.valid
    have appendedLength := appended.length
    rw [content, empty, size] at appendedLength
    simpa [builderLen] using appendedLength
  refine ⟨0, after, built, appended.valid, count, ?_⟩
  rw [length]
  simp [exchange, hilexiWriteLoop, some_]

private def popped : List UInt8 := cstr "$5\r\nhello\r\n"

private theorem popped_decodes : ∃ obj, Decodes .sample (.granted fun unread _ => unread) popped obj := ⟨_, 64, rfl⟩

/-- Two calls, the first reply in two pieces, EAGAIN before and behind. -/
theorem repliesMatched_iff_popped :
    RepliesMatched .sample [exchange .pop 9 popped [.again, .data (cstr "$5\r\nhe"), .data (cstr "llo\r\n"), .again, .again],
      exchange .ping 7 (cstr "+PONG\r\n") [.data (cstr "+PONG\r\n")]] [] hilexiNew := by
  refine (repliesMatched_iff ?_).mpr ?_
  · intro x member
    simp only [List.mem_cons, List.not_mem_nil, or_false] at member
    rcases member with rfl | rfl
    · exact ⟨exchange_sent rfl (by decide) (by decide) (by decide) _ _, fun _ => rfl,
        ⟨by simp [exchange, cstr], by decide⟩, popped_decodes, by decide, by decide⟩
    · exact ⟨exchange_sent rfl (by decide) (by decide) (by decide) _ _, fun _ => rfl,
        ⟨by simp [exchange, cstr], by decide⟩, ⟨_, 64, rfl⟩, by decide, by decide⟩
  · intro x member
    simp only [List.mem_cons, List.not_mem_nil, or_false] at member
    rcases member with rfl | rfl
    · exact ⟨1, [cstr "$5\r\nhe", cstr "llo\r\n"], 2, rfl⟩
    · exact ⟨0, [cstr "+PONG\r\n"], 0, rfl⟩

private def broken : List Incoming := [.data (cstr "$5\r\nhe"), .again, .data (cstr "llo\r\n"), .again]

/-- The same reply with EAGAIN between its pieces: the call returns Null and leaves
the second piece to the next call. -/
theorem repliesMatched_counterexample :
    (exchange .pop 9 popped broken).Possible .sample ∧
      converse .sample 64 [exchange .pop 9 popped broken] [] hilexiNew =
        .ok [⟨.object (.ok .null), [.data (cstr "llo\r\n"), .again]⟩] ∧
      ¬ RepliesMatched .sample [exchange .pop 9 popped broken] [] hilexiNew := by
  have possible : (exchange .pop 9 popped broken).Possible .sample :=
    ⟨exchange_sent rfl (by decide) (by decide) (by decide) _ _, fun _ => rfl, ⟨by simp [exchange, broken, cstr], by decide⟩,
      popped_decodes, by decide, by decide⟩
  refine ⟨possible, rfl, fun matched => ?_⟩
  have only : ∀ x ∈ [exchange .pop 9 popped broken], x.Possible .sample := by simpa using possible
  obtain ⟨before, chunks, after, cut⟩ :=
    (matched_from only [] hilexiNew (by simp) hilexiNew_ready).mp matched _ (List.mem_cons_self ..)
  simp only [exchange, broken] at cut
  cases before with
  | succ before => cases cut
  | zero =>
    cases chunks with
    | nil => cases after <;> cases cut
    | cons chunk rest =>
      cases rest with
      | cons next more => cases cut
      | nil =>
        cases after with
        | zero => cases cut
        | succ after =>
          cases after with
          | zero => cases cut
          | succ after => cases cut

end Runs

end LexiDB
