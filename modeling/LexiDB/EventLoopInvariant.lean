import LexiDB.EventLoop
import LexiDB.VstrInvariant
import LexiDB.Lib.Buffer

/-! What the loops of the callbacks do: finding a client, reading a burst, writing
a reply. -/

namespace LexiDB

open Lib

section Find

variable {heap : Heap} {fd : Nat}

/-- As long as no pointer dangles, the search ends at a client of this fd if there
is one. -/
theorem findClient_found {pointers : List Nat} (live : ∀ pointer ∈ pointers, (heap pointer).isSome)
    (member : pointer ∈ pointers) (here : heap pointer = some c) (same : c.fd = fd) (i : Nat) :
    ∃ j other d, findClient heap fd i pointers = .ok (some (i + j, other, d)) ∧ pointers[j]? = some other ∧
      heap other = some d ∧ d.fd = fd := by
  induction pointers generalizing i with
  | nil => cases member
  | cons first rest ih =>
    obtain ⟨d, alive⟩ := Option.isSome_iff_exists.mp (live first (List.mem_cons_self ..))
    by_cases match_ : fd = d.fd
    · exact ⟨0, first, d, by simp only [findClient, alive, if_pos match_, Nat.add_zero], rfl, alive, match_.symm⟩
    · have later : pointer ∈ rest := by
        rcases List.mem_cons.mp member with head | tail
        · subst head
          rw [here, Option.some.injEq] at alive
          subst alive
          exact absurd same.symm match_
        · exact tail
      obtain ⟨j, other, e, found, place, alive', fds⟩ :=
        ih (fun pointer inside => live pointer (List.mem_cons_of_mem _ inside)) later (i + 1)
      rw [Nat.add_assoc, Nat.add_comm 1 j] at found
      exact ⟨j + 1, other, e, by simp only [findClient, alive, if_neg match_, found], by simpa using place, alive', fds⟩

/-- The search ends at a client of this fd only. -/
theorem findClient_fd : ∀ pointers i, findClient heap fd i pointers = .ok (some (j, pointer, c)) →
    heap pointer = some c ∧ c.fd = fd := by
  intro pointers
  induction pointers with
  | nil =>
    intro i found
    cases found
  | cons first rest ih =>
    intro i found
    unfold findClient at found
    cases alive : heap first with
    | none => simp [alive] at found
    | some d =>
      simp only [alive] at found
      split at found
      · rename_i hit
        cases found
        exact ⟨alive, hit.symm⟩
      · exact ih (i + 1) found

end Find

section Read

variable {grow : Nat → Bool}

/-- The client with another read buffer. -/
def Client.buffered (c : Client) (readBuf : List UInt8) (readPos readCap : Nat) : Client :=
  { c with readBuf := readBuf, readPos := readPos, readCap := readCap }

@[simp] theorem Client.buffered_buffered (c : Client) (readBuf other : List UInt8) (readPos readCap otherPos otherCap : Nat) :
    (c.buffered other otherPos otherCap).buffered readBuf readPos readCap = c.buffered readBuf readPos readCap := rfl

/-- The loop touches nothing but the read buffer. -/
theorem readLoop_buffered : ∀ fuel arrivals c ended d, readLoop grow fuel arrivals c = .ok (ended, d) →
    ∃ readBuf readPos readCap, d = c.buffered readBuf readPos readCap := by
  intro fuel
  induction fuel with
  | zero =>
    intro arrivals c ended d done
    cases done
  | succ fuel ih =>
    intro arrivals c ended d done
    simp only [readLoop] at done
    split at done
    · cases done
      exact ⟨_, _, _, rfl⟩
    · rename_i grown reserved
      have kept : ∃ readBuf readPos readCap, grown = c.buffered readBuf readPos readCap := by
        split at reserved
        · simp only [reallocClientReadBuf] at reserved
          split at reserved
          · cases reserved
            exact ⟨_, _, _, rfl⟩
          · cases reserved
        · cases reserved
          exact ⟨_, _, _, rfl⟩
      obtain ⟨buf, pos, cap, rfl⟩ := kept
      split at done
      · cases done
        exact ⟨_, _, _, rfl⟩
      · cases done
        exact ⟨_, _, _, rfl⟩
      · cases done
        exact ⟨_, _, _, rfl⟩
      · split at done
        · cases done
          exact ⟨_, _, _, rfl⟩
        · split at done
          · obtain ⟨_, _, _, rfl⟩ := ih _ _ _ _ done
            exact ⟨_, _, _, rfl⟩
          · obtain ⟨_, _, _, rfl⟩ := ih _ _ _ _ done
            exact ⟨_, _, _, rfl⟩

/-- The read buffer has the size it says it has, and the position is in it. -/
structure Client.Reading (c : Client) : Prop where
  size : c.readBuf.length = c.readCap
  room : c.readPos ≤ c.readCap
  positive : 0 < c.readCap

/-- The request received so far. -/
def Client.request (c : Client) : List UInt8 := c.readBuf.take c.readPos

theorem Client.Reading.holds {c : Client} (reading : c.Reading) : Holds c.readBuf c.readPos c.readCap c.request :=
  ⟨reading.size, reading.room, reading.positive, rfl⟩

/-- The check at the head of the loop of `read_from_client`. -/
def Client.reserve (grow : Nat → Bool) (c : Client) : Option Client :=
  if c.readPos ≥ c.readCap then reallocClientReadBuf grow c else some c

/-- It makes room for at least one byte and keeps those that were read. -/
theorem Client.Reading.reserve {c d : Client} (reading : c.Reading) (bound : c.readPos < sizeMod / 2)
    (reserved : c.reserve grow = some d) :
    d.Reading ∧ d.readPos = c.readPos ∧ d.readPos < d.readCap ∧ d.request = c.request ∧
      (d.readCap = c.readCap ∨ grow d.readCap = true) := by
  have room := reading.room
  have positive := reading.positive
  unfold Client.reserve at reserved
  split at reserved
  · rename_i full
    have wrap : c.readCap * 2 % sizeMod = c.readCap * 2 := Nat.mod_eq_of_lt (by simp only [sizeMod] at *; omega)
    have grown := reading.holds.grow (show c.readCap ≤ c.readCap * 2 by omega) 0
    simp only [reallocClientReadBuf, wrap] at reserved
    split at reserved
    · rename_i granted
      cases reserved
      exact ⟨⟨grown.size, grown.room, grown.positive⟩, rfl, by simp only; omega, grown.front, .inr granted⟩
    · cases reserved
  · cases reserved
    exact ⟨reading, rfl, by omega, rfl, .inl rfl⟩

theorem Client.reserve_granted (granted : ∀ cap, grow cap = true) (c : Client) : ∃ d, c.reserve grow = some d := by
  unfold Client.reserve reallocClientReadBuf
  simp only [granted, ↓reduceIte]
  split <;> exact ⟨_, rfl⟩

/-- Bytes that fit are stored behind those that were there. -/
theorem received_spec {c : Client} (reading : c.Reading) (fits : c.readPos + bytes.length ≤ c.readCap) :
    (c.received bytes).Reading ∧ (c.received bytes).request = c.request ++ bytes := by
  have stored := reading.holds.store fits
  exact ⟨⟨stored.size, stored.room, stored.positive⟩, stored.front⟩

/-- Clearing leaves an empty buffer of the same size. -/
theorem Client.Reading.cleared {c : Client} (reading : c.Reading) : c.cleared.Reading := by
  have cleared := reading.holds.clear 0
  exact ⟨cleared.size, cleared.room, cleared.positive⟩

theorem Arrival.rounds_pos (arrivals : List Arrival) : 0 < Arrival.rounds arrivals := by
  induction arrivals with
  | nil => decide
  | cons arrival rest ih => cases arrival <;> simp [Arrival.rounds, ih]

theorem readLoop_blocked {c d : Client} (reserved : c.reserve grow = some d) (fuel : Nat) :
    readLoop grow (fuel + 1) [] c = .ok (.burst, d) := by
  unfold Client.reserve at reserved
  simp only [readLoop, reserved]

/-- A piece that there is room for is read at once. -/
theorem readLoop_whole {c d : Client} (reserved : c.reserve grow = some d) (some_ : 0 < bytes.length)
    (fits : bytes.length ≤ d.readCap - d.readPos) (fuel : Nat) (rest : List Arrival) :
    readLoop grow (fuel + 1) (.data bytes :: rest) c = readLoop grow fuel rest (d.received bytes) := by
  unfold Client.reserve at reserved
  have whole : bytes.take (d.readCap - d.readPos) = bytes := List.take_of_length_le fits
  have nonempty : bytes ≠ [] := List.length_pos_iff.mp some_
  simp only [readLoop, reserved, whole, if_neg nonempty, ↓reduceIte]

/-- Of a longer one, as much as there is room for. -/
theorem readLoop_part {c d : Client} (reserved : c.reserve grow = some d) (free : d.readPos < d.readCap)
    (more : d.readCap - d.readPos < bytes.length) (fuel : Nat) (rest : List Arrival) :
    readLoop grow (fuel + 1) (.data bytes :: rest) c = readLoop grow fuel
      (.data (bytes.drop (d.readCap - d.readPos)) :: rest) (d.received (bytes.take (d.readCap - d.readPos))) := by
  unfold Client.reserve at reserved
  have taken : (bytes.take (d.readCap - d.readPos)).length = d.readCap - d.readPos :=
    List.length_take_of_le (by omega)
  have part : bytes.take (d.readCap - d.readPos) ≠ [] := by
    apply List.length_pos_iff.mp
    omega
  have short : ¬d.readCap - d.readPos = bytes.length := by omega
  simp only [readLoop, reserved, if_neg part, taken, if_neg short]

/-- However `read` cuts up what arrives, the request becomes what was there
followed by it. -/
theorem readLoop_burst (granted : ∀ cap, grow cap = true) :
    ∀ fuel (chunks : List (List UInt8)) (c : Client), Arrival.rounds (chunks.map .data) ≤ fuel → [] ∉ chunks →
      c.Reading → c.readPos + chunks.flatten.length < sizeMod / 2 →
      ∃ d, readLoop grow fuel (chunks.map .data) c = .ok (.burst, d) ∧ d.Reading ∧
        d.request = c.request ++ chunks.flatten := by
  intro fuel
  induction fuel with
  | zero =>
    intro chunks c enough
    exact absurd enough (Nat.not_le.mpr (Arrival.rounds_pos _))
  | succ fuel ih =>
    intro chunks c enough pieces reading bound
    obtain ⟨d, reserved⟩ := c.reserve_granted granted
    obtain ⟨ready, pos, free, same, _⟩ := reading.reserve (by omega) reserved
    cases chunks with
    | nil => exact ⟨d, readLoop_blocked reserved fuel, ready, by simp [same]⟩
    | cons bytes rest =>
      have nonempty : bytes ≠ [] := fun empty => pieces (by simp [empty])
      have later : [] ∉ rest := fun member => pieces (List.mem_cons_of_mem _ member)
      have some_ : 0 < bytes.length := List.length_pos_iff.mpr nonempty
      simp only [List.map_cons, Arrival.rounds] at enough
      simp only [List.flatten_cons, List.length_append] at bound
      by_cases fits : bytes.length ≤ d.readCap - d.readPos
      · obtain ⟨stored, content⟩ := received_spec ready (show d.readPos + bytes.length ≤ d.readCap by omega)
        have moved : (d.received bytes).readPos = c.readPos + bytes.length := by
          rw [← pos]
          rfl
        obtain ⟨e, looped, kept, request⟩ := ih rest (d.received bytes) (by omega) later stored (by omega)
        refine ⟨e, (readLoop_whole reserved some_ fits fuel _).trans looped, kept, ?_⟩
        rw [request, content, same, List.append_assoc, List.flatten_cons]
      · -- the rest of the piece stands at the front again
        have more : d.readCap - d.readPos < bytes.length := Nat.lt_of_not_le fits
        have taken : (bytes.take (d.readCap - d.readPos)).length = d.readCap - d.readPos :=
          List.length_take_of_le (by omega)
        have dropped : (bytes.drop (d.readCap - d.readPos)).length = bytes.length - (d.readCap - d.readPos) :=
          List.length_drop
        obtain ⟨stored, content⟩ := received_spec ready
          (show d.readPos + (bytes.take (d.readCap - d.readPos)).length ≤ d.readCap by omega)
        have moved : (d.received (bytes.take (d.readCap - d.readPos))).readPos = c.readPos + (d.readCap - d.readPos) := by
          rw [← pos]
          exact congrArg (d.readPos + ·) taken
        have again : [] ∉ bytes.drop (d.readCap - d.readPos) :: rest := by
          intro member
          rcases List.mem_cons.mp member with empty | old
          · rw [← empty, List.length_nil] at dropped
            omega
          · exact later old
        obtain ⟨e, looped, kept, request⟩ := ih (bytes.drop (d.readCap - d.readPos) :: rest)
          (d.received (bytes.take (d.readCap - d.readPos)))
          (by simp only [List.map_cons, Arrival.rounds, dropped]; omega) again stored
          (by simp only [List.flatten_cons, List.length_append, dropped]; omega)
        refine ⟨e, (readLoop_part reserved free more fuel _).trans looped, kept, ?_⟩
        rw [request, content, same, List.flatten_cons, List.flatten_cons, List.append_assoc,
          ← List.append_assoc (bytes.take _), List.take_append_drop]

end Read

section Process

variable {α : Type} {env : Env} {k : Kernel α} {P : World α → Prop}

theorem World.callIf_keeps {guard : Prop} [Decidable guard] {w after : World α}
    (called : ∀ fn {w after : World α}, P w → w.callback env k fn fd mask = .ok after → P after) (holds : P w)
    (done : w.callIf env k guard fn fd mask fired = .ok (after, again)) : P after := by
  unfold World.callIf at done
  split at done
  · obtain ⟨_, ran, same⟩ := bind_eq_ok.mp done
    cases same
    exact called fn holds ran
  · cases done
    exact holds

/-- What every callback keeps the loop body keeps. -/
theorem World.processEvent_keeps {w after : World α}
    (called : ∀ fn {w after : World α}, P w → w.callback env k fn fd mask = .ok after → P after) (holds : P w)
    (done : w.processEvent env k fd mask = .ok after) : P after := by
  obtain ⟨⟨first, _⟩, read, done⟩ := bind_eq_ok.mp done
  obtain ⟨⟨second, _⟩, written, done⟩ := bind_eq_ok.mp done
  obtain ⟨⟨third, _⟩, inverted, done⟩ := bind_eq_ok.mp done
  cases done
  exact callIf_keeps called (callIf_keeps called (callIf_keeps called holds read) written) inverted

end Process

end LexiDB
