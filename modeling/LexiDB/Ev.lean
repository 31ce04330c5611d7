import Mathlib.Data.List.Basic

/-! The event table of ev.c over an arbitrary back end. -/

namespace LexiDB

def evNone : UInt32 := 0
def evRead : UInt32 := 1
def evWrite : UInt32 := 2
def evBoth : UInt32 := 4

/-- `ev_file_event`, with callbacks of type `F`. -/
structure EvFileEvent (F : Type) where
  mask : UInt32
  readFn : Option F
  writeFn : Option F
  clientData : Nat

/-- A slot as calloc leaves it. -/
def EvFileEvent.zero : EvFileEvent F := ⟨evNone, none, none, 0⟩

/-- `ev`, less the buffer `fired`, which only carries a poll result to its
callbacks. `api` is the state of the back end. -/
structure Ev (F α : Type) where
  maxFd : Int
  numFds : Nat
  events : List (EvFileEvent F)
  api : α

/-- `ev_api_add_event`, where `none` is -1, and `ev_api_del_event`. -/
structure EvApi (F α : Type) where
  addEvent : Ev F α → Nat → UInt32 → Option α
  delEvent : Ev F α → Nat → UInt32 → α

variable {F α : Type}

def evNew (api : α) (numFds : Nat) : Ev F α :=
  ⟨-1, numFds, List.replicate numFds .zero, api⟩

/-- `ev->events[fd]` -/
def Ev.entry (ev : Ev F α) (fd : Nat) : EvFileEvent F := ev.events.getD fd .zero

def EvFileEvent.add (e : EvFileEvent F) (mask : UInt32) (fn : F) (clientData : Nat) : EvFileEvent F where
  mask := e.mask ||| mask
  readFn := if mask &&& evRead ≠ 0 then some fn else e.readFn
  writeFn := if mask &&& evWrite ≠ 0 then some fn else e.writeFn
  clientData := clientData

/-- `ev_add_event`; `none` is -1, which leaves the table as it was. -/
def evAddEvent (ops : EvApi F α) (ev : Ev F α) (fd : Nat) (mask : UInt32) (fn : F) (clientData : Nat) :
    Option (Ev F α) :=
  if fd ≥ ev.numFds then none
  else
    (ops.addEvent ev fd mask).map fun api =>
      { ev with
        api := api
        events := ev.events.set fd ((ev.entry fd).add mask fn clientData)
        maxFd := if (fd : Int) > ev.maxFd then fd else ev.maxFd }

/-- The highest registered fd below `count`, or -1. -/
def highestBelow (ev : Ev F α) : Nat → Int
  | 0 => -1
  | count + 1 => if (ev.entry count).mask ≠ evNone then count else highestBelow ev count

/-- What `ev_delete_event` takes out for the mask it is given. -/
def deletedMask (mask : UInt32) : UInt32 := if mask &&& evWrite ≠ 0 then mask ||| evBoth else mask

def evDeleteEvent (ops : EvApi F α) (ev : Ev F α) (fd : Nat) (mask : UInt32) : Ev F α :=
  if fd ≥ ev.numFds then ev
  else if (ev.entry fd).mask = evNone then ev
  else
    let mask := deletedMask mask
    let ev := { ev with api := ops.delEvent ev fd mask }
    let left := (ev.entry fd).mask &&& ~~~mask
    let ev := { ev with events := ev.events.set fd { ev.entry fd with mask := left } }
    let ev := if (fd : Int) = ev.maxFd ∧ left = evNone then { ev with maxFd := highestBelow ev fd } else ev
    -- the back end is told a second time, with the table already updated
    { ev with api := ops.delEvent ev fd mask }

/-- The table has the slots it says it has. -/
def Ev.Sized (ev : Ev F α) : Prop := ev.events.length = ev.numFds

theorem evNew_sized (api : α) (numFds : Nat) : (evNew api numFds : Ev F α).Sized := by
  simp [Ev.Sized, evNew]

theorem evNew_entry (api : α) (numFds fd : Nat) : (evNew api numFds : Ev F α).entry fd = .zero := by
  simp only [Ev.entry, evNew, List.getD_eq_getElem?_getD, List.getElem?_replicate]
  split <;> rfl

theorem Ev.Sized.entry_out {ev : Ev F α} (sized : ev.Sized) (out : ev.numFds ≤ fd) : ev.entry fd = .zero := by
  have past : ev.events.length ≤ fd := by rwa [sized]
  simp [Ev.entry, past]

private theorem getD_set {events : List (EvFileEvent F)} (inside : fd < events.length) (e : EvFileEvent F) (other : Nat) :
    (events.set fd e).getD other .zero = if other = fd then e else events.getD other .zero := by
  by_cases same : other = fd
  · subst other
    simp [inside]
  · simp [same, List.getD_eq_getElem?_getD, List.getElem?_set_ne (Ne.symm same)]

/-- Adding changes the slot of the fd and no other. -/
theorem evAddEvent_spec {ops : EvApi F α} {ev after : Ev F α} (sized : ev.Sized)
    (added : evAddEvent ops ev fd mask fn clientData = some after) :
    after.Sized ∧ fd < ev.numFds ∧ after.numFds = ev.numFds ∧
      ∀ other, after.entry other = if other = fd then (ev.entry fd).add mask fn clientData else ev.entry other := by
  unfold evAddEvent at added
  split at added
  · cases added
  · rename_i inside
    obtain ⟨api, _, same⟩ := Option.map_eq_some_iff.mp added
    subst after
    refine ⟨by simpa [Ev.Sized] using sized, by omega, rfl, ?_⟩
    intro other
    exact getD_set (by rw [sized]; omega) _ _

/-- Adding succeeds where the back end does, on every fd of the table. -/
theorem evAddEvent_granted (ops : EvApi F α) {ev : Ev F α} (inside : fd < ev.numFds) (mask : UInt32)
    (granted : (ops.addEvent ev fd mask).isSome) (fn : F) (clientData : Nat) :
    ∃ after, evAddEvent ops ev fd mask fn clientData = some after := by
  obtain ⟨api, found⟩ := Option.isSome_iff_exists.mp granted
  unfold evAddEvent
  rw [if_neg (Nat.not_le.mpr inside), found]
  exact ⟨_, rfl⟩

/-- Deleting clears the mask bits of the fd and changes nothing else of the
slots. -/
theorem evDeleteEvent_spec (ops : EvApi F α) {ev : Ev F α} (sized : ev.Sized) (fd : Nat) (mask : UInt32) :
    (evDeleteEvent ops ev fd mask).Sized ∧ (evDeleteEvent ops ev fd mask).numFds = ev.numFds ∧
      ∀ other, (evDeleteEvent ops ev fd mask).entry other =
        if other = fd then { ev.entry fd with mask := (ev.entry fd).mask &&& ~~~deletedMask mask } else ev.entry other := by
  have idle : (ev.entry fd).mask = evNone → ∀ other, ev.entry other =
      if other = fd then { ev.entry fd with mask := (ev.entry fd).mask &&& ~~~deletedMask mask } else ev.entry other := by
    intro empty other
    split
    · subst other
      have kept : evNone &&& ~~~deletedMask mask = evNone := UInt32.zero_and
      rw [empty, kept, ← empty]
    · rfl
  unfold evDeleteEvent
  split
  · rename_i out
    exact ⟨sized, rfl, idle (by rw [sized.entry_out out]; rfl)⟩
  · rename_i inside
    split
    · rename_i empty
      exact ⟨sized, rfl, idle empty⟩
    · have slot : fd < ev.events.length := by rw [sized]; omega
      have kept : (ev.events.set fd { ev.entry fd with
          mask := (ev.entry fd).mask &&& ~~~deletedMask mask }).length = ev.numFds := by
        rw [List.length_set, sized]
      simp only
      split
      · exact ⟨kept, rfl, fun other => getD_set slot _ other⟩
      · exact ⟨kept, rfl, fun other => getD_set slot _ other⟩

section Masks

/-- Bits outside `other` do not show in it. -/
theorem or_and_of_disjoint {added other : UInt32} (mask : UInt32) (disjoint : added &&& other = 0) :
    (mask ||| added) &&& other = mask &&& other := by
  apply UInt32.toBitVec_inj.mp
  have apart := congrArg UInt32.toBitVec disjoint
  simp only [UInt32.toBitVec_and, UInt32.toBitVec_or] at apart ⊢
  rw [BitVec.and_or_distrib_right, apart]
  exact BitVec.or_zero

theorem and_not_and_zero {mask other : UInt32} (clear : mask &&& other = 0) (removed : UInt32) :
    (mask &&& ~~~removed) &&& other = 0 := by
  rw [UInt32.and_assoc, UInt32.and_comm (~~~removed), ← UInt32.and_assoc, clear]
  exact UInt32.zero_and

/-- Bits that were just added are there. -/
theorem or_and_self (mask added : UInt32) : (mask ||| added) &&& added = added := by
  apply UInt32.toBitVec_inj.mp
  ext i inside
  simpa using fun here => .inr here

/-- What covers a mask still covers it with the bit the deletion adds. -/
theorem and_not_deletedMask {registered mask : UInt32} (covered : registered &&& ~~~mask = 0) :
    registered &&& ~~~deletedMask mask = 0 := by
  unfold deletedMask
  split
  · apply UInt32.toBitVec_inj.mp
    have all := congrArg UInt32.toBitVec covered
    simp only [UInt32.toBitVec_and, UInt32.toBitVec_not, UInt32.toBitVec_or] at all ⊢
    rw [BitVec.not_or, ← BitVec.and_assoc, all]
    exact BitVec.zero_and
  · exact covered

theorem and_bit {bit : UInt32} {i : Nat} (inside : i < 32) (single : bit.toBitVec = BitVec.twoPow 32 i) (mask : UInt32) :
    mask &&& bit ≠ 0 ↔ mask.toBitVec.getLsbD i = true := by
  rw [ne_eq, ← UInt32.toBitVec_inj, UInt32.toBitVec_and, single, BitVec.and_twoPow]
  cases mask.toBitVec.getLsbD i with
  | false => simp
  | true =>
    simp only [↓reduceIte, iff_true]
    intro zero
    have bits := congrArg (fun x => x.getLsbD i) zero
    simp [inside] at bits

theorem read_bit (mask : UInt32) : mask &&& evRead ≠ 0 ↔ mask.toBitVec.getLsbD 0 = true := and_bit (by decide) (by decide) mask

theorem write_bit (mask : UInt32) : mask &&& evWrite ≠ 0 ↔ mask.toBitVec.getLsbD 1 = true := and_bit (by decide) (by decide) mask

/-- An event that is registered and fired is registered. -/
theorem registered_of_fired {registered fired event : UInt32} (both : registered &&& fired &&& event ≠ 0) :
    registered &&& event ≠ 0 ∧ registered ≠ evNone := by
  refine ⟨?_, ?_⟩
  · intro clear
    apply both
    rw [UInt32.and_assoc, UInt32.and_comm fired, ← UInt32.and_assoc, clear]
    exact UInt32.zero_and
  · rintro rfl
    exact both (by simp [evNone])

end Masks

end LexiDB
