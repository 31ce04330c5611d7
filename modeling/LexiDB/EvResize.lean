import LexiDB.Interest

/-! `ev_resize_num_fds` of ev.c, and what it leaves of the registrations. -/

namespace LexiDB

open Lib

/-- What the calls of `realloc` answer in one call of `ev_resize_num_fds`: for the buffer
of the back end, for `events`, where `none` is NULL and the new slots hold anything, and
for `fired`. -/
structure ResizeMem (F : Type) where
  api : Bool
  events : Option (Nat → EvFileEvent F)
  fired : Bool

/-- A build of ev.c: its back end, whether `ev_api_resize` returns 0 for a number of slots
and an answer of `realloc`, and `ev_new`. -/
structure EvBuild (F α : Type) where
  ops : EvApi F α
  apiResize : Nat → Bool → Bool
  new : Nat → Ev F α

variable {F α : Type}

def epollBuild : EvBuild F Interest := ⟨epollApi, fun _ granted => granted, epollNew⟩

/-- `select` needs no buffer, and refuses what an `fd_set` has no room for. -/
def selectBuild : EvBuild F (Option FdSets) := ⟨selectApi, fun slots _ => slots < fdSetSize, selectNew⟩

def evGetNumFds (ev : Ev F α) : Nat := ev.numFds

/-- A block of slots that `realloc` has moved. -/
def movedEvents (events : List (EvFileEvent F)) (slots : Nat) (fresh : Nat → EvFileEvent F) : List (EvFileEvent F) :=
  (List.range slots).map fun fd => events.getD fd (fresh fd)

/-- `ev->events[i].mask = EV_NONE` -/
def EvFileEvent.cleared (e : EvFileEvent F) : EvFileEvent F := { e with mask := evNone }

/-- `ev_resize_num_fds`. The loop at its end clears every mask, and `num_fds` is not
assigned. -/
def evResizeNumFds (b : EvBuild F α) (ev : Ev F α) (numFds : Int) (mem : ResizeMem F) : Int × Ev F α :=
  if (ev.numFds : Int) = numFds then (0, ev)
  else if ev.maxFd ≥ numFds then (-1, ev)
  else if ¬b.apiResize numFds.toNat mem.api then (-1, ev)
  else
    match mem.events with
    -- NULL for no bytes at all has freed the block
    | none => (-1, if numFds = 0 then { ev with events := [] } else ev)
    | some fresh =>
      let ev := { ev with events := movedEvents ev.events numFds.toNat fresh }
      if ¬mem.fired then (-1, ev)
      else (0, { ev with events := ev.events.map EvFileEvent.cleared })

section Claims

/-- What is registered for a descriptor. -/
def Ev.registered (ev : Ev F α) (fd : Nat) : Option (EvFileEvent F) :=
  if fd < ev.numFds ∧ (ev.entry fd).mask ≠ evNone then some (ev.entry fd) else none

/-- The table has been resized and the registrations are the same, or it has not and
they are. -/
structure Ev.Resized (b : EvBuild F α) (ev : Ev F α) (numFds : Int) (result : Int × Ev F α) : Prop where
  size : result.1 = 0 → (evGetNumFds result.2 : Int) = numFds
  maxFd : result.1 = 0 → result.2.maxFd = ev.maxFd
  slots : result.1 = 0 → ∀ fd : Nat, (fd : Int) ≤ ev.maxFd → result.2.entry fd = ev.entry fd
  empty : result.1 = 0 → ∀ fd : Nat, ev.maxFd < fd → (fd : Int) < numFds → (result.2.entry fd).mask = evNone
  accepts : result.1 = 0 → ∀ (fd : Nat) (mask : UInt32) (fn : F) (clientData : Nat), (fd : Int) < numFds → mask ≠ evNone →
    (evAddEvent b.ops result.2 fd mask fn clientData).isSome
  refused : result.1 = -1 → result.2.maxFd = ev.maxFd ∧ result.2.api = ev.api ∧ result.2.registered = ev.registered

/-- One of the calls of `realloc` fails, or the back end refuses. -/
def ResizeMem.Refuses (b : EvBuild F α) (mem : ResizeMem F) (numFds : Int) : Prop :=
  b.apiResize numFds.toNat mem.api = false ∨ mem.events = none ∨ mem.fired = false

/-- The call changes nothing, or is refused before the table has lost slots. -/
def ResizeMem.Spares (b : EvBuild F α) (mem : ResizeMem F) (slots : Nat) (numFds : Int) : Prop :=
  (slots : Int) = numFds ∨ b.apiResize numFds.toNat mem.api = false ∨ (mem.events = none ∧ 0 < numFds) ∨
    (mem.fired = false ∧ (slots : Int) < numFds)

end Claims

section Slots

variable {ev : Ev F α} {b : EvBuild F α} {mem : ResizeMem F} {numFds : Int}

theorem movedEvents_length (events : List (EvFileEvent F)) (slots : Nat) (fresh : Nat → EvFileEvent F) :
    (movedEvents events slots fresh).length = slots := by
  simp [movedEvents]

/-- The slots that were there before are there afterwards, as far as there are slots. -/
theorem movedEvents_get {events : List (EvFileEvent F)} (old : fd < events.length) (slots : Nat) (fresh : Nat → EvFileEvent F) :
    (movedEvents events slots fresh).getD fd .zero = if fd < slots then events.getD fd .zero else .zero := by
  split
  · rename_i inside
    simp [movedEvents, List.getD_eq_getElem?_getD, inside, old]
  · rename_i out
    simp [movedEvents, List.getD_eq_getElem?_getD, out]

theorem movedEvents_take {events : List (EvFileEvent F)} (old : count ≤ events.length) (inside : count ≤ slots)
    (fresh : Nat → EvFileEvent F) : (movedEvents events slots fresh).take count = events.take count := by
  apply List.ext_getElem?
  intro fd
  rw [List.getElem?_take, List.getElem?_take]
  split
  · rename_i below
    simp [movedEvents, Nat.lt_of_lt_of_le below inside, Nat.lt_of_lt_of_le below old]
  · rfl

theorem evResizeNumFds_below (b : EvBuild F α) (below : ¬ev.maxFd < numFds) (mem : ResizeMem F) :
    (evResizeNumFds b ev numFds mem).2 = ev := by
  unfold evResizeNumFds
  split
  · rfl
  · rw [if_pos (Int.not_lt.mp below)]

/-- The outcomes of a resize above `max_fd`. -/
theorem evResizeNumFds_cases (b : EvBuild F α) (above : ev.maxFd < numFds) (mem : ResizeMem F) :
    (ev.numFds : Int) = numFds ∧ evResizeNumFds b ev numFds mem = (0, ev) ∨
    (b.apiResize numFds.toNat mem.api = false ∨ mem.events = none ∧ numFds ≠ 0) ∧ evResizeNumFds b ev numFds mem = (-1, ev) ∨
    (ev.numFds : Int) ≠ numFds ∧ b.apiResize numFds.toNat mem.api = true ∧
      (mem.events = none ∧ numFds = 0 ∧ evResizeNumFds b ev numFds mem = (-1, { ev with events := [] }) ∨
        ∃ fresh, mem.events = some fresh ∧ evResizeNumFds b ev numFds mem = if mem.fired = true then
          (0, { ev with events := (movedEvents ev.events numFds.toNat fresh).map EvFileEvent.cleared })
          else (-1, { ev with events := movedEvents ev.events numFds.toNat fresh })) := by
  unfold evResizeNumFds
  by_cases same : (ev.numFds : Int) = numFds
  · exact .inl ⟨same, if_pos same⟩
  · rw [if_neg same, if_neg (Int.not_le.mpr above)]
    cases granted : b.apiResize numFds.toNat mem.api with
    | false => exact .inr (.inl ⟨.inl rfl, rfl⟩)
    | true =>
      cases moved : mem.events with
      | none =>
        by_cases zero : numFds = 0
        · exact .inr (.inr ⟨same, rfl, .inl ⟨rfl, zero, by simp [zero]⟩⟩)
        · exact .inr (.inl ⟨.inr ⟨rfl, zero⟩, by simp [zero]⟩)
      | some fresh =>
        refine .inr (.inr ⟨same, rfl, .inr ⟨fresh, rfl, ?_⟩⟩)
        cases mem.fired <;> rfl

/-- A granted call for another number leaves no registration, and `num_fds` what it was. -/
theorem evResizeNumFds_granted (other : (ev.numFds : Int) ≠ numFds) (above : ev.maxFd < numFds) (granted : ¬mem.Refuses b numFds) :
    (evResizeNumFds b ev numFds mem).1 = 0 ∧ evGetNumFds (evResizeNumFds b ev numFds mem).2 = ev.numFds ∧
      (evResizeNumFds b ev numFds mem).2.registered = fun _ => none := by
  obtain ⟨same, _⟩ | ⟨refused | ⟨none_, _⟩, _⟩ | ⟨_, _, ⟨none_, _⟩ | ⟨fresh, _, result⟩⟩ :=
    evResizeNumFds_cases b above mem
  · exact absurd same other
  · exact absurd (.inl refused) granted
  · exact absurd (.inr (.inl none_)) granted
  · exact absurd (.inr (.inl none_)) granted
  · have fired : mem.fired = true := by
      by_contra refused
      exact granted (.inr (.inr (Bool.not_eq_true _ ▸ refused)))
    rw [result, if_pos fired]
    refine ⟨rfl, rfl, ?_⟩
    funext fd
    have cleared : (((movedEvents ev.events numFds.toNat fresh).map EvFileEvent.cleared).getD fd .zero).mask = evNone := by
      rw [List.getD_eq_getElem?_getD, List.getElem?_map]
      cases (movedEvents ev.events numFds.toNat fresh)[fd]? <;> rfl
    unfold Ev.registered Ev.entry
    rw [cleared]
    simp

end Slots

section Trimmed

variable {ops : EvApi F α} {ev : Ev F α} {b : EvBuild F α} {mem : ResizeMem F} {numFds : Int}

/-- The table without the slots behind `num_fds`, which a call that fails late leaves. -/
def Ev.trim (ev : Ev F α) : Ev F α := { ev with events := ev.events.take ev.numFds }

/-- Every descriptor below `num_fds` has a slot. -/
def Ev.Wide (ev : Ev F α) : Prop := ev.numFds ≤ ev.events.length

@[simp] theorem Ev.trim_maxFd (ev : Ev F α) : ev.trim.maxFd = ev.maxFd := rfl

@[simp] theorem Ev.trim_numFds (ev : Ev F α) : ev.trim.numFds = ev.numFds := rfl

theorem Ev.trim_entry (ev : Ev F α) (inside : fd < ev.numFds) : ev.trim.entry fd = ev.entry fd := by
  simp [Ev.entry, Ev.trim, List.getD_eq_getElem?_getD, inside]

/-- The back end looks at its own state and at the slot of the descriptor. -/
structure EvApi.Local (ops : EvApi F α) : Prop where
  add : ∀ (ev other : Ev F α) fd mask, ev.api = other.api → ev.entry fd = other.entry fd →
    ops.addEvent ev fd mask = ops.addEvent other fd mask
  del : ∀ (ev other : Ev F α) fd mask, ev.api = other.api → ev.entry fd = other.entry fd →
    ops.delEvent ev fd mask = ops.delEvent other fd mask

theorem epollApi_local : (epollApi : EvApi F Interest).Local where
  add ev other fd mask api slot := by simp only [epollApi, epollAddEvent, api, slot]
  del ev other fd mask api slot := by simp only [epollApi, epollDelEvent, api, slot]

theorem selectApi_local : (selectApi : EvApi F (Option FdSets)).Local where
  add ev other fd mask api _ := by simp only [selectApi, selectAddEvent, api]
  del ev other fd mask api _ := by simp only [selectApi, selectDelEvent, api]

/-- The table that the back end is told of for the second time. -/
def Ev.deleted (ops : EvApi F α) (ev : Ev F α) (fd : Nat) (mask : UInt32) : Ev F α :=
  let left := (ev.entry fd).mask &&& ~~~deletedMask mask
  let told := { ev with
    api := ops.delEvent ev fd (deletedMask mask)
    events := ev.events.set fd { ev.entry fd with mask := left } }
  if (fd : Int) = ev.maxFd ∧ left = evNone then { told with maxFd := highestBelow told fd } else told

theorem evDeleteEvent_deleted (ops : EvApi F α) (inside : fd < ev.numFds) (occupied : (ev.entry fd).mask ≠ evNone) (mask : UInt32) :
    evDeleteEvent ops ev fd mask = { ev.deleted ops fd mask with api := ops.delEvent (ev.deleted ops fd mask) fd (deletedMask mask) } := by
  rw [evDeleteEvent, if_neg (Nat.not_le.mpr inside), if_neg occupied]
  rfl

theorem Ev.deleted_numFds (ops : EvApi F α) (ev : Ev F α) (fd : Nat) (mask : UInt32) : (ev.deleted ops fd mask).numFds = ev.numFds := by
  simp only [Ev.deleted]
  split <;> rfl

theorem evDeleteEvent_wide (ops : EvApi F α) (wide : ev.Wide) (fd : Nat) (mask : UInt32) : (evDeleteEvent ops ev fd mask).Wide := by
  unfold evDeleteEvent
  split
  · exact wide
  · split
    · exact wide
    · simp only
      split <;> simpa [Ev.Wide] using wide

variable (alone : ops.Local)
include alone

theorem evAddEvent_trim (ev : Ev F α) (fd : Nat) (mask : UInt32) (fn : F) (clientData : Nat) :
    evAddEvent ops ev.trim fd mask fn clientData = (evAddEvent ops ev fd mask fn clientData).map Ev.trim := by
  unfold evAddEvent
  by_cases out : fd ≥ ev.numFds
  · rw [Ev.trim_numFds, if_pos out, if_pos out, Option.map_none]
  · have slot := ev.trim_entry (Nat.not_le.mp out)
    rw [Ev.trim_numFds, if_neg out, if_neg out, alone.add ev.trim ev fd mask rfl slot, slot, Option.map_map]
    congr 1
    funext api
    simp [Ev.trim, List.take_set]

theorem Ev.deleted_trim (ev : Ev F α) (inside : fd < ev.numFds) (mask : UInt32) :
    ev.trim.deleted ops fd mask = (ev.deleted ops fd mask).trim := by
  have slot := ev.trim_entry inside
  by_cases last : (fd : Int) = ev.maxFd ∧ (ev.entry fd).mask &&& ~~~deletedMask mask = evNone
  · simp only [Ev.deleted, Ev.trim_maxFd, slot, alone.del ev.trim ev fd (deletedMask mask) rfl slot, if_pos last]
    simp only [Ev.trim, List.take_set, Ev.mk.injEq, and_true]
    refine highestBelow_congr fd fun below small => ?_
    simp [Ev.entry, List.getD_eq_getElem?_getD, ← List.take_set, Nat.lt_trans small inside]
  · simp only [Ev.deleted, Ev.trim_maxFd, slot, alone.del ev.trim ev fd (deletedMask mask) rfl slot, if_neg last]
    simp only [Ev.trim, List.take_set]

theorem evDeleteEvent_trim (ev : Ev F α) (fd : Nat) (mask : UInt32) :
    evDeleteEvent ops ev.trim fd mask = (evDeleteEvent ops ev fd mask).trim := by
  by_cases out : fd ≥ ev.numFds
  · rw [evDeleteEvent, evDeleteEvent, Ev.trim_numFds, if_pos out, if_pos out]
  · have inside := Nat.not_le.mp out
    have slot := ev.trim_entry inside
    by_cases empty : (ev.entry fd).mask = evNone
    · rw [evDeleteEvent, evDeleteEvent, Ev.trim_numFds, if_neg out, if_neg out, slot, if_pos empty, if_pos empty]
    · have size := ev.deleted_numFds ops fd mask
      rw [evDeleteEvent_deleted ops (show fd < ev.trim.numFds from inside) (by rwa [slot]), evDeleteEvent_deleted ops inside empty,
        Ev.deleted_trim alone ev inside,
        alone.del (ev.deleted ops fd mask).trim (ev.deleted ops fd mask) fd _ rfl (Ev.trim_entry _ (by rwa [size]))]
      rfl

end Trimmed

section Runs

/-- A call on the event table. -/
inductive EvTableCall (F : Type) where
  | event (call : EvCall F)
  | resize (numFds : Int) (mem : ResizeMem F)

/-- A call, with the `int` that it returns. -/
def EvBuild.step (b : EvBuild F α) (ev : Ev F α) : EvTableCall F → Option Int × Ev F α
  | .event call => ev.step b.ops call
  | .resize numFds mem => ((evResizeNumFds b ev numFds mem).1, (evResizeNumFds b ev numFds mem).2)

/-- An event is asked for. Nothing is required of a call that deletes. -/
def EvCall.Asks : EvCall F → Prop
  | .add _ mask _ _ => mask ≠ evNone
  | .delete _ _ => True

/-- A resize above `max_fd` spares the table. -/
def EvBuild.Sparing (b : EvBuild F α) (ev : Ev F α) : EvTableCall F → Prop
  | .event call => call.Asks
  | .resize numFds mem => ev.maxFd < numFds → mem.Spares b ev.numFds numFds

/-- The table has its slots, and up to `num_fds` it is in step with the back end. -/
structure Ev.Steady (view : α → Nat → UInt32 → Prop) (slots : Nat) (ev : Ev F α) : Prop where
  wide : ev.Wide
  inStep : ev.trim.InStep view (fun _ => True) slots

/-- The back end follows the table, and looks at nothing else. -/
structure EvBuild.Tracks (b : EvBuild F α) (view : α → Nat → UInt32 → Prop) : Prop where
  follows : b.ops.Follows view fun _ => True
  alone : b.ops.Local

variable {b : EvBuild F α} {ev : Ev F α} {view : α → Nat → UInt32 → Prop} {slots : Nat} {numFds : Int} {mem : ResizeMem F}

theorem Ev.Steady.size (steady : ev.Steady view slots) : ev.numFds = slots := steady.inStep.size

/-- What every descriptor above `max_fd` has. -/
theorem Ev.Steady.above (steady : ev.Steady view slots) (above : ev.maxFd < (fd : Nat)) (inside : fd < ev.numFds) :
    (ev.entry fd).mask = evNone := by
  by_contra occupied
  rw [← ev.trim_entry inside] at occupied
  exact absurd (steady.inStep.highest.above fd occupied) (Int.not_le.mpr above)

/-- Each descriptor with a slot is accepted. -/
theorem Ev.Steady.accepts (tracks : b.Tracks view) (steady : ev.Steady view slots) (inside : fd < slots) (some_ : mask ≠ evNone)
    (fn : F) (clientData : Nat) : ∃ after, evAddEvent b.ops ev fd mask fn clientData = some after ∧ after.Steady view slots := by
  obtain ⟨trimmed, added, inStep, _⟩ := steady.inStep.add tracks.follows inside trivial some_ fn clientData
  rw [evAddEvent_trim tracks.alone] at added
  obtain ⟨after, done, rfl⟩ := Option.map_eq_some_iff.mp added
  refine ⟨after, done, ?_, inStep⟩
  unfold evAddEvent at done
  split at done
  · cases done
  · obtain ⟨api, _, rfl⟩ := Option.map_eq_some_iff.mp done
    simpa [Ev.Wide] using steady.wide

theorem Ev.Steady.event (tracks : b.Tracks view) (steady : ev.Steady view slots) {call : EvCall F} (asks : call.Asks) :
    (ev.step b.ops call).2.Steady view slots := by
  cases call with
  | add fd mask fn clientData =>
    by_cases inside : fd < slots
    · obtain ⟨after, added, next⟩ := steady.accepts tracks inside asks fn clientData
      simp only [Ev.step, added]
      exact next
    · have out : fd ≥ ev.numFds := steady.size ▸ Nat.not_lt.mp inside
      simp only [Ev.step, evAddEvent, if_pos out]
      exact steady
  | delete fd mask =>
    have next := (steady.inStep.delete tracks.follows fd mask).1
    rw [evDeleteEvent_trim tracks.alone] at next
    exact ⟨evDeleteEvent_wide b.ops steady.wide fd mask, next⟩

/-- A call that spares the table leaves all of it up to `num_fds`. -/
theorem Ev.Steady.resize (steady : ev.Steady view slots) (spares : ev.maxFd < numFds → mem.Spares b ev.numFds numFds) :
    (evResizeNumFds b ev numFds mem).2.Steady view slots := by
  by_cases above : ev.maxFd < numFds
  · have spared := spares above
    obtain ⟨_, result⟩ | ⟨_, result⟩ | ⟨other, granted, ⟨none_, zero, _⟩ | ⟨fresh, found, result⟩⟩ :=
      evResizeNumFds_cases b above mem
    · rwa [result]
    · rwa [result]
    · rcases spared with same | refused | ⟨_, positive⟩ | ⟨_, larger⟩
      · exact absurd same other
      · exact absurd (refused.symm.trans granted) Bool.false_ne_true
      · omega
      · omega
    · obtain ⟨fired, larger⟩ : mem.fired = false ∧ (ev.numFds : Int) < numFds := by
        rcases spared with same | refused | ⟨none_, _⟩ | late
        · exact absurd same other
        · exact absurd (refused.symm.trans granted) Bool.false_ne_true
        · exact absurd (none_.symm.trans found) (Option.some_ne_none fresh).symm
        · exact late
      have room : ev.numFds ≤ numFds.toNat := by omega
      rw [result, fired, if_neg Bool.false_ne_true]
      have same : Ev.trim { ev with events := movedEvents ev.events numFds.toNat fresh } = ev.trim := by
        simp only [Ev.trim, movedEvents_take steady.wide room]
      refine ⟨?_, same ▸ steady.inStep⟩
      simpa [Ev.Wide, movedEvents_length] using room
  · rwa [evResizeNumFds_below b above]

/-- A call that returns -1 with the registrations as they were. -/
private theorem Ev.Resized.of_refused {after : Ev F α} (maxFd : after.maxFd = ev.maxFd) (api : after.api = ev.api)
    (registered : after.registered = ev.registered) : ev.Resized b numFds (-1, after) := by
  have other : (-1 : Int) ≠ 0 := by decide
  exact ⟨fun zero => absurd zero other, fun zero => absurd zero other, fun zero => absurd zero other, fun zero => absurd zero other,
    fun zero => absurd zero other, fun _ => ⟨maxFd, api, registered⟩⟩

/-- Slots above `max_fd` can go without a registration being lost. -/
theorem Ev.Steady.registered (steady : ev.Steady view slots) {events : List (EvFileEvent F)}
    (kept : ∀ fd < ev.numFds, events.getD fd .zero = ev.entry fd ∨ ev.maxFd < (fd : Nat) ∧ events.getD fd .zero = .zero) :
    Ev.registered { ev with events := events } = ev.registered := by
  funext fd
  unfold Ev.registered
  by_cases inside : fd < ev.numFds
  · obtain same | ⟨above, zero⟩ := kept fd inside
    · have slot : Ev.entry { ev with events := events } fd = ev.entry fd := same
      rw [slot]
    · have slot : Ev.entry { ev with events := events } fd = .zero := zero
      rw [slot, if_neg fun all => all.2 rfl, if_neg fun all => all.2 (steady.above above inside)]
  · rw [if_neg fun all => inside all.1, if_neg fun all => inside all.1]

/-- A resize above `max_fd` is right exactly if it is for the number of slots there are, or refused. -/
theorem Ev.Steady.resized_iff (tracks : b.Tracks view) (steady : ev.Steady view slots) (above : ev.maxFd < numFds) :
    ev.Resized b numFds (evResizeNumFds b ev numFds mem) ↔ (slots : Int) = numFds ∨ mem.Refuses b numFds := by
  rw [← steady.size]
  constructor
  · intro resized
    by_contra neither
    obtain ⟨other, granted⟩ := not_or.mp neither
    obtain ⟨zero, size, _⟩ := evResizeNumFds_granted other above granted
    exact other (size ▸ resized.size zero)
  · intro either
    obtain ⟨same, result⟩ | ⟨_, result⟩ | ⟨other, granted, ⟨_, zero, result⟩ | ⟨fresh, found, result⟩⟩ :=
      evResizeNumFds_cases b above mem
    · rw [result]
      refine ⟨fun _ => same, fun _ => rfl, fun _ _ _ => rfl, fun _ fd high inside => steady.above high (by omega),
        fun _ fd mask fn clientData inside some_ => ?_, fun minus => absurd minus (show (0 : Int) ≠ -1 by decide)⟩
      have below : fd < slots := by
        rw [← steady.size]
        omega
      obtain ⟨after, added, _⟩ := steady.accepts tracks below some_ fn clientData
      rw [added]
      rfl
    · rw [result]
      exact .of_refused rfl rfl rfl
    · rw [result]
      exact .of_refused rfl rfl (steady.registered fun fd _ => .inr ⟨by omega, rfl⟩)
    · have fired : mem.fired = false := by
        rcases either with same | refused | none_ | late
        · exact absurd same other
        · exact absurd (refused.symm.trans granted) Bool.false_ne_true
        · exact absurd (none_.symm.trans found) (Option.some_ne_none fresh).symm
        · exact late
      rw [result, fired, if_neg Bool.false_ne_true]
      refine .of_refused rfl rfl (steady.registered fun fd inside => ?_)
      rw [movedEvents_get (Nat.lt_of_lt_of_le inside steady.wide)]
      split
      · exact .inl rfl
      · exact .inr ⟨by omega, rfl⟩

/-- After calls that spare the table, the next resize above `max_fd` is right exactly if it is
for the number of slots there are, or refused. -/
theorem EvBuild.Tracks.resized_iff (tracks : b.Tracks view) (start : (b.new slots).Steady view slots) (calls : List (EvTableCall F))
    (sparing : Along b.Sparing b.step (b.new slots) calls) (above : (answers b.step (b.new slots) calls).2.maxFd < numFds) :
    (answers b.step (b.new slots) calls).2.Resized b numFds (evResizeNumFds b (answers b.step (b.new slots) calls).2 numFds mem) ↔
      (slots : Int) = numFds ∨ mem.Refuses b numFds := by
  refine Ev.Steady.resized_iff tracks (answers_keep_along (Ev.Steady view slots) b.Sparing b.step ?_ calls sparing start) above
  intro ev call steady spares
  cases call with
  | event call => exact steady.event tracks spares
  | resize numFds mem => exact steady.resize spares

end Runs

section Builds

variable {F : Type}

theorem epollBuild_tracks : (epollBuild : EvBuild F Interest).Tracks EpollShows := ⟨epollApi_follows, epollApi_local⟩

/-- Nothing is asked of the sets: the back end of `select` accepts every descriptor. -/
theorem selectBuild_tracks : (selectBuild : EvBuild F (Option FdSets)).Tracks fun _ _ _ => True where
  follows := ⟨fun _ _ _ _ _ _ => ⟨_, rfl, fun _ => trivial⟩, fun _ _ _ _ _ _ => trivial⟩
  alone := selectApi_local

theorem evNew_steady {view : α → Nat → UInt32 → Prop} {api : α} (shown : ∀ fd, view api fd evNone) (slots : Nat) :
    (evNew api slots : Ev F α).Steady view slots := by
  have trimmed : (evNew api slots : Ev F α).trim = evNew api slots := by
    simp [Ev.trim, evNew]
  refine ⟨by simp [Ev.Wide, evNew], ?_⟩
  rw [trimmed]
  refine ⟨evNew_sized _ _, rfl, evNew_highest _ _, fun fd => ?_, fun _ _ => trivial⟩
  rw [evNew_entry]
  exact shown fd

/-- In both builds `ev_resize_num_fds` above `max_fd` keeps what is registered, and does what
it returns, exactly if it is for the number of slots there are already or is refused; so after
any calls none of which has resized the table otherwise. -/
theorem resized_iff_spared (slots : Nat) (calls : List (EvTableCall F)) (numFds : Int) (mem : ResizeMem F) :
    let epoll := (answers epollBuild.step (epollNew slots) calls).2
    let select := (answers selectBuild.step (selectNew slots) calls).2
    (Along epollBuild.Sparing epollBuild.step (epollNew slots) calls → epoll.maxFd < numFds →
      (epoll.Resized epollBuild numFds (evResizeNumFds epollBuild epoll numFds mem) ↔
        (slots : Int) = numFds ∨ mem.Refuses (epollBuild (F := F)) numFds)) ∧
    (Along selectBuild.Sparing selectBuild.step (selectNew slots) calls → select.maxFd < numFds →
      (select.Resized selectBuild numFds (evResizeNumFds selectBuild select numFds mem) ↔
        (slots : Int) = numFds ∨ mem.Refuses (selectBuild (F := F)) numFds)) :=
  ⟨epollBuild_tracks.resized_iff (evNew_steady (fun _ => rfl) slots) calls,
    selectBuild_tracks.resized_iff (evNew_steady (fun _ => trivial) slots) calls⟩

end Builds

/-- Every `realloc` is granted, or the last one is not. -/
def sampleResize (fired : Bool) : ResizeMem Unit := ⟨true, some fun _ => .zero, fired⟩

/-- A listener, and a resize that fails late. -/
def sampleTableCalls : List (EvTableCall Unit) := [.event (.add 4 evRead () 0), .resize 32 (sampleResize false)]

theorem sampleTableCalls_sparing : Along epollBuild.Sparing epollBuild.step (epollNew 16) sampleTableCalls := by
  refine ⟨show evRead ≠ evNone by decide, ?_, trivial⟩
  exact fun _ => .inr (.inr (.inr ⟨rfl, by decide⟩))

theorem resized_iff_spared_sample :
    let epoll := (answers epollBuild.step (epollNew 16) sampleTableCalls).2
    epoll.maxFd = 4 ∧ (epoll.Resized epollBuild 16 (evResizeNumFds epollBuild epoll 16 (sampleResize true)) ↔
      ((16 : Nat) : Int) = 16 ∨ (sampleResize true).Refuses epollBuild 16) :=
  ⟨by decide, (resized_iff_spared 16 sampleTableCalls 16 (sampleResize true)).1 sampleTableCalls_sparing (by decide)⟩

/-- Growing the table of a listener returns 0, with no more slots than before and the
listener forgotten. -/
theorem resized_iff_spared_counterexample :
    let ev := (answers epollBuild.step (epollNew 16) [.event (.add 4 evRead () 0)]).2
    let result := evResizeNumFds epollBuild ev 32 (sampleResize true)
    ev.maxFd < 32 ∧ result.1 = 0 ∧ evGetNumFds result.2 = 16 ∧ (ev.entry 4).mask = evRead ∧ (result.2.entry 4).mask = evNone ∧
      (evAddEvent epollApi result.2 20 evRead () 0).isNone ∧ ¬ev.Resized epollBuild 32 result := by
  intro ev result
  have size : evGetNumFds result.2 = 16 := by decide
  refine ⟨by decide, by decide, size, by decide, by decide, by decide, fun resized => ?_⟩
  have grown := resized.size (by decide)
  rw [size] at grown
  exact absurd grown (by decide)

end LexiDB
