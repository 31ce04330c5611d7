import LexiDB.EvApi
import LexiDB.Lib.Lockstep

/-! The event table and what its back end watches, over every sequence of calls. -/

namespace LexiDB

open Lib

section Table

variable {F α : Type} {ops : EvApi F α} {ev : Ev F α}

/-- `max_fd` is the largest descriptor with an event, -1 where there is none. -/
structure Ev.Highest (ev : Ev F α) : Prop where
  above : ∀ fd, (ev.entry fd).mask ≠ evNone → (fd : Int) ≤ ev.maxFd
  reached : ev.maxFd = -1 ∨ ∃ fd : Nat, ev.maxFd = fd ∧ (ev.entry fd).mask ≠ evNone

theorem highestBelow_spec (ev : Ev F α) (count : Nat) :
    (∀ fd < count, (ev.entry fd).mask ≠ evNone → (fd : Int) ≤ highestBelow ev count) ∧
      (highestBelow ev count = -1 ∨ ∃ fd < count, highestBelow ev count = (fd : Nat) ∧ (ev.entry fd).mask ≠ evNone) := by
  induction count with
  | zero => exact ⟨fun fd below => absurd below (Nat.not_lt_zero fd), .inl rfl⟩
  | succ count ih =>
    by_cases here : (ev.entry count).mask ≠ evNone
    · simp only [highestBelow, if_pos here]
      exact ⟨fun fd below _ => by omega, .inr ⟨count, Nat.lt_succ_self count, rfl, here⟩⟩
    · obtain ⟨above, reached⟩ := ih
      simp only [highestBelow, if_neg here]
      constructor
      · intro fd below occupied
        rcases Nat.lt_succ_iff_lt_or_eq.mp below with less | rfl
        · exact above fd less occupied
        · exact absurd occupied here
      · obtain none_ | ⟨fd, below, rest⟩ := reached
        · exact .inl none_
        · exact .inr ⟨fd, by omega, rest⟩

theorem evNew_highest (api : α) (numFds : Nat) : (evNew api numFds : Ev F α).Highest where
  above fd occupied := by
    rw [evNew_entry] at occupied
    exact absurd rfl occupied
  reached := .inl rfl

theorem evAddEvent_highest (sized : ev.Sized) (highest : ev.Highest) (some_ : mask ≠ 0)
    (added : evAddEvent ops ev fd mask fn clientData = some after) : after.Highest := by
  obtain ⟨_, _, _, entries⟩ := evAddEvent_spec sized added
  have occupied : (after.entry fd).mask ≠ evNone := by
    rw [entries fd, if_pos rfl]
    simp only [EvFileEvent.add, evNone, ne_eq, UInt32.or_eq_zero_iff, not_and]
    exact fun _ => some_
  have top : after.maxFd = if (fd : Int) > ev.maxFd then (fd : Int) else ev.maxFd := by
    unfold evAddEvent at added
    split at added
    · cases added
    · obtain ⟨api, _, rfl⟩ := Option.map_eq_some_iff.mp added
      rfl
  have others : ∀ other, other ≠ fd → (after.entry other).mask = (ev.entry other).mask := by
    intro other different
    rw [entries other, if_neg different]
  constructor
  · intro other holds
    by_cases same : other = fd
    · subst other
      rw [top]
      split <;> omega
    · rw [others other same] at holds
      have below := highest.above other holds
      rw [top]
      split <;> omega
  · by_cases over_ : (fd : Int) > ev.maxFd
    · exact .inr ⟨fd, by rw [top, if_pos over_], occupied⟩
    · rw [top, if_neg over_]
      obtain none_ | ⟨other, same, holds⟩ := highest.reached
      · exact .inl none_
      · by_cases equal : other = fd
        · exact .inr ⟨fd, equal ▸ same, occupied⟩
        · exact .inr ⟨other, same, by rwa [others other equal]⟩

/-- Only the slots below are looked at. -/
theorem highestBelow_congr {other : Ev F α} (count : Nat) (same : ∀ fd < count, ev.entry fd = other.entry fd) :
    highestBelow ev count = highestBelow other count := by
  induction count with
  | zero => rfl
  | succ count ih =>
    unfold highestBelow
    rw [ih fun fd below => same fd (Nat.lt_succ_of_lt below), same count (Nat.lt_succ_self count)]

/-- `max_fd` is looked for again where its last event was deleted. -/
theorem evDeleteEvent_maxFd (ops : EvApi F α) (sized : ev.Sized) (fd : Nat) (mask : UInt32) :
    (evDeleteEvent ops ev fd mask).maxFd =
      if (fd : Int) = ev.maxFd ∧ (ev.entry fd).mask ≠ evNone ∧ (ev.entry fd).mask &&& ~~~deletedMask mask = evNone then
        highestBelow (evDeleteEvent ops ev fd mask) fd
      else ev.maxFd := by
  unfold evDeleteEvent
  split
  · rename_i out
    have empty : (ev.entry fd).mask = evNone := by rw [sized.entry_out out]; rfl
    rw [if_neg (fun all => all.2.1 empty)]
  · split
    · rename_i empty
      rw [if_neg (fun all => all.2.1 empty)]
    · rename_i occupied
      simp only
      split
      · rename_i last
        rw [if_pos ⟨last.1, occupied, last.2⟩]
        exact highestBelow_congr fd fun _ _ => rfl
      · rename_i kept
        rw [if_neg (fun all => kept ⟨all.1, all.2.2⟩)]

theorem evDeleteEvent_highest (sized : ev.Sized) (highest : ev.Highest) (fd : Nat) (mask : UInt32) :
    (evDeleteEvent ops ev fd mask).Highest := by
  obtain ⟨_, _, entries⟩ := evDeleteEvent_spec ops sized fd mask
  have maxFd := evDeleteEvent_maxFd ops sized fd mask
  have others : ∀ other, other ≠ fd → ((evDeleteEvent ops ev fd mask).entry other).mask = (ev.entry other).mask := by
    intro other different
    rw [entries other, if_neg different]
  have here : ((evDeleteEvent ops ev fd mask).entry fd).mask = (ev.entry fd).mask &&& ~~~deletedMask mask := by
    rw [entries fd, if_pos rfl]
  -- a descriptor that still has an event had one before
  have before : ∀ other, ((evDeleteEvent ops ev fd mask).entry other).mask ≠ evNone → (ev.entry other).mask ≠ evNone := by
    intro other holds empty
    by_cases same : other = fd
    · subst other
      rw [here, empty] at holds
      exact holds UInt32.zero_and
    · exact holds ((others other same).trans empty)
  split at maxFd
  · rename_i last
    obtain ⟨top, _, left⟩ := last
    obtain ⟨above, reached⟩ := highestBelow_spec (evDeleteEvent ops ev fd mask) fd
    rw [← maxFd] at above reached
    constructor
    · intro other holds
      have below := highest.above other (before other holds)
      have different : other ≠ fd := by
        rintro rfl
        exact holds (here.trans left)
      exact above other (by omega) holds
    · obtain none_ | ⟨other, _, found⟩ := reached
      · exact .inl none_
      · exact .inr ⟨other, found⟩
  · rename_i stays
    constructor
    · intro other holds
      rw [maxFd]
      exact highest.above other (before other holds)
    · obtain none_ | ⟨other, top, holds⟩ := highest.reached
      · exact .inl (maxFd.trans none_)
      · refine .inr ⟨other, maxFd.trans top, ?_⟩
        by_cases same : other = fd
        · subst other
          rw [here]
          exact fun left => stays ⟨top.symm, holds, left⟩
        · rwa [others other same]

/-- What the back end has of every descriptor goes with its mask. -/
def Ev.Watched (view : α → Nat → UInt32 → Prop) (ev : Ev F α) : Prop := ∀ fd, view ev.api fd (ev.entry fd).mask

/-- Adding and deleting, the back end follows the table on these descriptors. -/
structure EvApi.Follows (ops : EvApi F α) (view : α → Nat → UInt32 → Prop) (within : Nat → Prop) : Prop where
  add : ∀ (ev : Ev F α) fd mask, ev.Watched view → within fd → mask ≠ 0 → ∃ api, ops.addEvent ev fd mask = some api ∧
    ∀ other, view api other (if other = fd then (ev.entry fd).mask ||| mask else (ev.entry other).mask)
  del : ∀ (ev : Ev F α) fd mask, ev.Watched view → within fd →
    ∀ other, view (ops.delEvent ev fd mask) other (if other = fd then (ev.entry fd).mask &&& ~~~mask else (ev.entry other).mask)

variable {view : α → Nat → UInt32 → Prop} {within : Nat → Prop}

theorem evAddEvent_watched (follows : ops.Follows view within) (sized : ev.Sized) (watched : ev.Watched view) (inside : fd < ev.numFds)
    (reach : within fd) (some_ : mask ≠ 0) (fn : F) (clientData : Nat) :
    ∃ after, evAddEvent ops ev fd mask fn clientData = some after ∧ after.Watched view := by
  obtain ⟨api, granted, shown⟩ := follows.add ev fd mask watched reach some_
  have added : evAddEvent ops ev fd mask fn clientData = some { ev with
      api := api
      events := ev.events.set fd ((ev.entry fd).add mask fn clientData)
      maxFd := if (fd : Int) > ev.maxFd then fd else ev.maxFd } := by
    rw [evAddEvent, if_neg (Nat.not_le.mpr inside), granted]
    rfl
  obtain ⟨_, _, _, entries⟩ := evAddEvent_spec sized added
  refine ⟨_, added, fun other => ?_⟩
  have here := shown other
  by_cases same : other = fd
  · rw [if_pos same] at here
    rw [entries, if_pos same]
    exact here
  · rw [if_neg same] at here
    rw [entries, if_neg same]
    exact here

/-- The masks a deletion leaves. -/
private theorem evDeleteEvent_masks (ops : EvApi F α) (sized : ev.Sized) (fd : Nat) (mask : UInt32) (other : Nat) :
    ((evDeleteEvent ops ev fd mask).entry other).mask =
      if other = fd then (ev.entry fd).mask &&& ~~~deletedMask mask else (ev.entry other).mask := by
  obtain ⟨_, _, entries⟩ := evDeleteEvent_spec ops sized fd mask
  rw [entries other]
  split <;> rfl

theorem evDeleteEvent_watched (follows : ops.Follows view within) (sized : ev.Sized) (watched : ev.Watched view)
    (reach : (ev.entry fd).mask ≠ evNone → within fd) (mask : UInt32) : (evDeleteEvent ops ev fd mask).Watched view := by
  have masks := evDeleteEvent_masks ops sized fd mask
  by_cases idle : fd ≥ ev.numFds ∨ (ev.entry fd).mask = evNone
  · have same : evDeleteEvent ops ev fd mask = ev := by
      unfold evDeleteEvent
      split
      · rfl
      · rw [if_pos (idle.resolve_left ‹_›)]
    rwa [same]
  · rw [not_or] at idle
    have reached := reach idle.2
    -- the back end is told once with the old table and once with the new one
    obtain ⟨told, twice, first, table⟩ : ∃ told : Ev F α, (evDeleteEvent ops ev fd mask).api = ops.delEvent told fd (deletedMask mask) ∧
        told.api = ops.delEvent ev fd (deletedMask mask) ∧
        ∀ other, told.entry other = (evDeleteEvent ops ev fd mask).entry other := by
      unfold evDeleteEvent
      rw [if_neg idle.1, if_neg idle.2]
      exact ⟨_, rfl, by simp only; split <;> rfl, fun _ => rfl⟩
    have shown : told.Watched view := by
      intro other
      rw [first, table, masks]
      exact follows.del ev fd (deletedMask mask) watched reached other
    intro other
    have here := follows.del told fd (deletedMask mask) shown reached other
    rw [table, table, masks, masks, if_pos rfl, UInt32.and_assoc, UInt32.and_self] at here
    rw [twice, masks]
    by_cases same : other = fd
    · rwa [if_pos same] at here ⊢
    · simpa only [if_neg same] using here

end Table

section BackEnds

variable {F : Type}

/-- A descriptor is registered with the events of its mask, if it has any. -/
def EpollShows (interest : Interest) (fd : Nat) (mask : UInt32) : Prop :=
  interest fd = if mask = evNone then none else some (epollEvents mask)

/-- The sets hold the descriptor as its mask has the bits. -/
def SelectShows (api : Option FdSets) (fd : Nat) (mask : UInt32) : Prop :=
  ∃ sets, api = some sets ∧ sets.rfds.isSet fd = decide (mask &&& evRead ≠ 0) ∧ sets.wfds.isSet fd = decide (mask &&& evWrite ≠ 0)

theorem epollApi_follows : (epollApi : EvApi F Interest).Follows EpollShows fun _ => True where
  add ev fd mask watched _ some_ := by
    have occupied : (ev.entry fd).mask ||| mask ≠ evNone := by
      simp only [evNone, ne_eq, UInt32.or_eq_zero_iff, not_and]
      exact fun _ => some_
    have here := watched fd
    have granted : epollAddEvent ev fd mask = some (Function.update ev.api fd (some (epollEvents ((ev.entry fd).mask ||| mask)))) := by
      unfold EpollShows at here
      rw [UInt32.or_comm]
      by_cases empty : (ev.entry fd).mask = evNone
      · rw [if_pos empty] at here
        simp [epollAddEvent, empty, epollCtl, here]
      · rw [if_neg empty] at here
        simp [epollAddEvent, empty, epollCtl, here]
    refine ⟨_, granted, fun other => ?_⟩
    by_cases same : other = fd
    · subst other
      simp [EpollShows, occupied]
    · simpa [EpollShows, same] using watched other
  del ev fd mask watched _ other := by
    have here := watched fd
    unfold EpollShows at here
    -- the second DEL finds nothing registered and fails
    have removed : epollDelEvent ev fd mask = Function.update ev.api fd
        (if (ev.entry fd).mask &&& ~~~mask = evNone then none else some (epollEvents ((ev.entry fd).mask &&& ~~~mask))) := by
      by_cases empty : (ev.entry fd).mask = evNone
      · rw [if_pos empty] at here
        have left : (ev.entry fd).mask &&& ~~~mask = evNone := by rw [empty]; exact UInt32.zero_and
        have same : Function.update ev.api fd none = ev.api := by rw [← here, Function.update_eq_self]
        simp [epollDelEvent, left, epollCtl, here, same]
      · rw [if_neg empty] at here
        by_cases left : (ev.entry fd).mask &&& ~~~mask = evNone
        · simp [epollDelEvent, left, epollCtl, here]
        · simp [epollDelEvent, left, epollCtl, here]
    have shown := watched other
    simp only [epollApi, removed]
    by_cases same : other = fd
    · subst other
      simp [EpollShows]
    · simpa [EpollShows, same] using shown

private theorem isSet_update (bits : FdSet) (inside : fd < fdSetSize) (on : Bool) (other : Nat) :
    FdSet.isSet (Function.update bits ⟨fd, inside⟩ on) other = if other = fd then on else bits.isSet other := by
  by_cases same : other = fd
  · subst other
    simp [FdSet.isSet, inside]
  · by_cases small : other < fdSetSize
    · simp [FdSet.isSet, small, same]
    · simp [FdSet.isSet, small, same]

private theorem assignIf_spec (bits : FdSet) (inside : fd < fdSetSize) (named on : Bool) :
    ∃ after, bits.assignIf named fd on = some after ∧
      ∀ other, after.isSet other = if other = fd ∧ named = true then on else bits.isSet other := by
  cases named with
  | true =>
    refine ⟨Function.update bits ⟨fd, inside⟩ on, by simp [FdSet.assignIf, FdSet.assign, inside], fun other => ?_⟩
    simp [isSet_update]
  | false => exact ⟨bits, rfl, fun other => by simp⟩

/-- FD_SET and FD_CLR change the bits of the descriptor that the mask names. -/
private theorem FdSets.assign_spec (sets : FdSets) (inside : fd < fdSetSize) (mask : UInt32) (on : Bool) :
    ∃ after, sets.assign fd mask on = some after ∧ ∀ other,
      after.rfds.isSet other = (if other = fd ∧ mask &&& evRead ≠ 0 then on else sets.rfds.isSet other) ∧
        after.wfds.isSet other = (if other = fd ∧ mask &&& evWrite ≠ 0 then on else sets.wfds.isSet other) := by
  obtain ⟨rfds, reads, readBits⟩ := assignIf_spec sets.rfds inside (mask &&& evRead ≠ 0) on
  obtain ⟨wfds, writes, writeBits⟩ := assignIf_spec sets.wfds inside (mask &&& evWrite ≠ 0) on
  refine ⟨⟨rfds, wfds⟩, by rw [FdSets.assign, reads, writes]; rfl, fun other => ⟨?_, ?_⟩⟩
  · simpa using readBits other
  · simpa using writeBits other

theorem selectApi_follows : (selectApi : EvApi F (Option FdSets)).Follows SelectShows fun fd => fd < fdSetSize where
  add ev fd mask watched inside _ := by
    obtain ⟨sets, known, _, _⟩ := watched fd
    obtain ⟨after, assigned, bits⟩ := sets.assign_spec inside mask true
    refine ⟨some after, by simp [selectApi, selectAddEvent, known, assigned], fun other => ⟨after, rfl, ?_⟩⟩
    obtain ⟨found, known_, reads, writes⟩ := watched other
    cases known.symm.trans known_
    rw [(bits other).1, (bits other).2, reads, writes]
    by_cases same : other = fd
    · subst other
      simp only [true_and, ↓reduceIte, read_bit, write_bit, UInt32.toBitVec_or, BitVec.getLsbD_or]
      constructor
      · cases mask.toBitVec.getLsbD 0 <;> simp
      · cases mask.toBitVec.getLsbD 1 <;> simp
    · simp [same]
  del ev fd mask watched inside other := by
    obtain ⟨sets, known, _, _⟩ := watched fd
    obtain ⟨after, assigned, bits⟩ := sets.assign_spec inside mask false
    refine ⟨after, by simp [selectApi, selectDelEvent, known, assigned], ?_⟩
    obtain ⟨found, known_, reads, writes⟩ := watched other
    cases known.symm.trans known_
    rw [(bits other).1, (bits other).2, reads, writes]
    by_cases same : other = fd
    · subst other
      simp only [true_and, ↓reduceIte, read_bit, write_bit, UInt32.toBitVec_and, UInt32.toBitVec_not, BitVec.getLsbD_and,
        BitVec.getLsbD_not]
      constructor
      · cases mask.toBitVec.getLsbD 0 <;> simp
      · cases mask.toBitVec.getLsbD 1 <;> simp
    · simp [same]

end BackEnds

section Calls

variable {F α : Type}

/-- A call on the event table. -/
inductive EvCall (F : Type) where
  | add (fd : Nat) (mask : UInt32) (fn : F) (clientData : Nat)
  | delete (fd : Nat) (mask : UInt32)

/-- A call, with the `int` of `ev_add_event`. -/
def Ev.step (ops : EvApi F α) (ev : Ev F α) : EvCall F → Option Int × Ev F α
  | .add fd mask fn clientData =>
    match evAddEvent ops ev fd mask fn clientData with
    | some after => (some 0, after)
    | none => (some (-1), ev)
  | .delete fd mask => (none, evDeleteEvent ops ev fd mask)

def EvCall.fd : EvCall F → Nat
  | .add fd _ _ _ | .delete fd _ => fd

def EvCall.mask : EvCall F → UInt32
  | .add _ mask _ _ | .delete _ mask => mask

/-- The descriptor has a slot, and the mask is EV_READ, EV_WRITE or both. -/
structure EvCall.Proper (numFds : Nat) (call : EvCall F) : Prop where
  slot : call.fd < numFds
  mask : call.mask = evRead ∨ call.mask = evWrite ∨ call.mask = evRead ||| evWrite

/-- What every proper call keeps: the back end watches what the table has, and the
table has an event only where the back end can go. -/
structure Ev.InStep (view : α → Nat → UInt32 → Prop) (within : Nat → Prop) (slots : Nat) (ev : Ev F α) : Prop where
  sized : ev.Sized
  size : ev.numFds = slots
  highest : ev.Highest
  watched : ev.Watched view
  reach : ∀ fd, (ev.entry fd).mask ≠ evNone → within fd

variable {ops : EvApi F α} {ev : Ev F α} {view : α → Nat → UInt32 → Prop} {within : Nat → Prop} {slots : Nat} {call : EvCall F}

/-- Nothing is asked of a call that deletes. -/
def EvCall.Reaches (within : Nat → Prop) : EvCall F → Prop
  | .add fd _ _ _ => within fd
  | .delete _ _ => True

/-- What a call makes of the slots. -/
def EvCall.table (table : Nat → EvFileEvent F) : EvCall F → Nat → EvFileEvent F
  | .add fd mask fn clientData => Function.update table fd ((table fd).add mask fn clientData)
  | .delete fd mask => Function.update table fd { table fd with mask := (table fd).mask &&& ~~~deletedMask mask }

private theorem proper_mask_ne_zero {mask : UInt32} (proper : mask = evRead ∨ mask = evWrite ∨ mask = evRead ||| evWrite) :
    mask ≠ 0 := by
  rintro rfl
  exact absurd proper (by decide)

variable (follows : ops.Follows view within) (inStep : ev.InStep view within slots)
include follows inStep

theorem Ev.InStep.add (inside : fd < slots) (reach : within fd) (some_ : mask ≠ 0) (fn : F) (clientData : Nat) :
    ∃ after, evAddEvent ops ev fd mask fn clientData = some after ∧ after.InStep view within slots ∧
      after.entry = (EvCall.add fd mask fn clientData).table ev.entry := by
  obtain ⟨after, added, watched⟩ := evAddEvent_watched follows inStep.sized inStep.watched (inStep.size ▸ inside) reach some_ fn clientData
  obtain ⟨sized, _, size, entries⟩ := evAddEvent_spec inStep.sized added
  refine ⟨after, added, ⟨sized, size.trans inStep.size, evAddEvent_highest inStep.sized inStep.highest some_ added, watched, ?_⟩, ?_⟩
  · intro other occupied
    rw [entries] at occupied
    by_cases same : other = fd
    · rw [same]
      exact reach
    · rw [if_neg same] at occupied
      exact inStep.reach other occupied
  · funext other
    simp only [entries, EvCall.table, Function.update_apply]

theorem Ev.InStep.delete (fd : Nat) (mask : UInt32) :
    (evDeleteEvent ops ev fd mask).InStep view within slots ∧
      (evDeleteEvent ops ev fd mask).entry = (EvCall.delete fd mask).table ev.entry := by
  obtain ⟨sized, size, entries⟩ := evDeleteEvent_spec ops inStep.sized fd mask
  refine ⟨⟨sized, size.trans inStep.size, evDeleteEvent_highest inStep.sized inStep.highest fd mask,
    evDeleteEvent_watched follows inStep.sized inStep.watched (inStep.reach fd) mask, ?_⟩, ?_⟩
  · intro other occupied
    refine inStep.reach other fun empty => occupied ?_
    rw [evDeleteEvent_masks ops inStep.sized fd mask other]
    split
    · rename_i same
      rw [← same, empty]
      exact UInt32.zero_and
    · exact empty
  · funext other
    simp only [entries, EvCall.table, Function.update_apply]

/-- The back end goes along with one proper call. -/
theorem Ev.InStep.step (proper : call.Proper slots) (reaches : call.Reaches within) :
    (ev.step ops call).2.InStep view within slots ∧ (ev.step ops call).2.entry = call.table ev.entry := by
  cases call with
  | add fd mask fn clientData =>
    have inside : fd < slots := proper.slot
    have some_ : mask ≠ 0 := proper_mask_ne_zero proper.mask
    obtain ⟨after, added, next, table⟩ := inStep.add follows inside reaches some_ fn clientData
    have stepped : ev.step ops (.add fd mask fn clientData) = (some 0, after) := by simp only [Ev.step, added]
    rw [stepped]
    exact ⟨next, table⟩
  | delete fd mask => exact inStep.delete follows fd mask

/-- It goes along with all of them, and they alone decide the table. -/
theorem Ev.InStep.calls {calls : List (EvCall F)} (proper : ∀ call ∈ calls, call.Proper slots)
    (reaches : ∀ call ∈ calls, call.Reaches within) :
    (answers (Ev.step ops) ev calls).2.InStep view within slots ∧
      (answers (Ev.step ops) ev calls).2.entry = calls.foldl EvCall.table ev.entry := by
  induction calls generalizing ev with
  | nil => exact ⟨inStep, rfl⟩
  | cons call calls ih =>
    obtain ⟨next, table⟩ := inStep.step follows (proper call (List.mem_cons_self ..)) (reaches call (List.mem_cons_self ..))
    obtain ⟨last, tables⟩ := ih next (fun later member => proper later (List.mem_cons_of_mem _ member))
      fun later member => reaches later (List.mem_cons_of_mem _ member)
    refine ⟨last, ?_⟩
    rw [answers_cons, List.foldl_cons, ← table]
    exact tables

end Calls

section Builds

variable {F : Type} {slots : Nat}

/-- The two back ends ask for the same events. -/
def SameInterest (interest : Interest) (api : Option FdSets) : Prop :=
  ∃ sets, api = some sets ∧ ∀ fd,
    (interest fd).any (fun events => events &&& epollin ≠ 0) = sets.rfds.isSet fd ∧
      (interest fd).any (fun events => events &&& epollout ≠ 0) = sets.wfds.isSet fd

theorem epollNew_inStep : (epollNew slots : Ev F Interest).InStep EpollShows (fun _ => True) slots where
  sized := evNew_sized _ _
  size := rfl
  highest := evNew_highest _ _
  watched fd := by
    rw [epollNew, evNew_entry]
    rfl
  reach _ _ := trivial

theorem selectNew_inStep : (selectNew slots : Ev F (Option FdSets)).InStep SelectShows (fun fd => fd < fdSetSize) slots where
  sized := evNew_sized _ _
  size := rfl
  highest := evNew_highest _ _
  watched fd := by
    rw [selectNew, evNew_entry]
    exact ⟨_, rfl, by simp [FdSet.isSet, EvFileEvent.zero, evNone], by simp [FdSet.isSet, EvFileEvent.zero, evNone]⟩
  reach fd occupied := by
    rw [selectNew, evNew_entry] at occupied
    exact absurd rfl occupied

private theorem epollEvents_in (mask : UInt32) : epollEvents mask &&& epollin ≠ 0 ↔ mask &&& evRead ≠ 0 := by
  unfold epollEvents
  split <;> split <;> rename_i reads writes
  · exact iff_of_true (by decide) reads
  · exact iff_of_true (by decide) reads
  · exact iff_of_false (by decide) reads
  · exact iff_of_false (by decide) reads

private theorem epollEvents_out (mask : UInt32) : epollEvents mask &&& epollout ≠ 0 ↔ mask &&& evWrite ≠ 0 := by
  unfold epollEvents
  split <;> split <;> rename_i reads writes
  · exact iff_of_true (by decide) writes
  · exact iff_of_false (by decide) writes
  · exact iff_of_true (by decide) writes
  · exact iff_of_false (by decide) writes

/-- Back ends that go with one table ask for the same events. -/
theorem sameInterest_of_shows {table : Nat → EvFileEvent F} {interest : Interest} {api : Option FdSets}
    (epoll : ∀ fd, EpollShows interest fd (table fd).mask) (select : ∀ fd, SelectShows api fd (table fd).mask) :
    SameInterest interest api := by
  obtain ⟨sets, known, _⟩ := select 0
  refine ⟨sets, known, fun fd => ?_⟩
  obtain ⟨others, also_, reads, writes⟩ := select fd
  cases known.symm.trans also_
  rw [epoll fd, reads, writes]
  by_cases empty : (table fd).mask = evNone
  · simp [empty, evNone]
  · simp only [if_neg empty, Option.any_some, epollEvents_in, epollEvents_out, and_self]

private theorem selectStep_sized {ev : Ev F (Option FdSets)} (sized : ev.Sized) (size : ev.numFds = slots) (call : EvCall F) :
    (ev.step selectApi call).2.Sized ∧ (ev.step selectApi call).2.numFds = slots := by
  cases call with
  | add fd mask fn clientData =>
    simp only [Ev.step]
    split
    · rename_i added
      obtain ⟨kept, _, same, _⟩ := evAddEvent_spec sized added
      exact ⟨kept, same.trans size⟩
    · exact ⟨sized, size⟩
  | delete fd mask =>
    obtain ⟨kept, same, _⟩ := evDeleteEvent_spec selectApi sized fd mask
    exact ⟨kept, same.trans size⟩

/-- Memory that was written to stays so. -/
private theorem selectStep_lost {ev : Ev F (Option FdSets)} (lost : ev.api = none) (call : EvCall F) :
    (ev.step selectApi call).2.api = none := by
  cases call with
  | add fd mask fn clientData =>
    simp only [Ev.step, evAddEvent]
    split
    · rename_i added
      split at added
      · cases added
      · cases added
        simp [lost]
    · exact lost
  | delete fd mask =>
    simp only [Ev.step, evDeleteEvent, selectApi, selectDelEvent, lost]
    split
    · exact lost
    · split
      · exact lost
      · simp only
        split <;> rfl

/-- A descriptor past the end of the sets is written past it. -/
private theorem selectStep_past {ev : Ev F (Option FdSets)} {call : EvCall F} (size : ev.numFds = slots)
    (proper : call.Proper slots) (past : ¬call.Reaches (· < fdSetSize)) : (ev.step selectApi call).2.api = none := by
  cases call with
  | add fd mask fn clientData =>
    have inside : ¬fd ≥ ev.numFds := by
      rw [size]
      exact Nat.not_le.mpr proper.slot
    have out : ¬fd < fdSetSize := past
    have named : mask &&& evRead ≠ 0 ∨ mask &&& evWrite ≠ 0 := by
      have given : mask = evRead ∨ mask = evWrite ∨ mask = evRead ||| evWrite := proper.mask
      obtain rfl | rfl | rfl := given
      · exact .inl (by decide)
      · exact .inr (by decide)
      · exact .inl (by decide)
    have unset (sets : FdSets) : sets.assign fd mask true = none := by
      rcases named with reads | writes
      · simp [FdSets.assign, FdSet.assignIf, reads, FdSet.assign, out]
      · by_cases reads : mask &&& evRead ≠ 0
        · simp [FdSets.assign, FdSet.assignIf, reads, FdSet.assign, out]
        · simp [FdSets.assign, FdSet.assignIf, reads, writes, FdSet.assign, out]
    simp [Ev.step, evAddEvent, inside, selectApi, selectAddEvent, unset]
  | delete fd mask => exact absurd trivial past

private theorem select_reaches {ev : Ev F (Option FdSets)} (sized : ev.Sized) (size : ev.numFds = slots)
    {calls : List (EvCall F)} (proper : ∀ call ∈ calls, call.Proper slots)
    (kept : (answers (Ev.step selectApi) ev calls).2.api ≠ none) : ∀ call ∈ calls, call.Reaches (· < fdSetSize) := by
  induction calls generalizing ev with
  | nil => exact fun call member => absurd member List.not_mem_nil
  | cons call calls ih =>
    have here : call.Proper slots := proper call (List.mem_cons_self ..)
    obtain ⟨sized_, size_⟩ := selectStep_sized sized size call
    have rest := ih sized_ size_ (fun later member => proper later (List.mem_cons_of_mem _ member)) kept
    have first : call.Reaches (· < fdSetSize) := by
      by_contra past
      exact kept (answers_keep (fun ev => ev.api = none) (Ev.step selectApi) (fun _ later lost => selectStep_lost lost later)
        calls (selectStep_past size here past))
    exact List.forall_mem_cons.mpr ⟨first, rest⟩

/-- After every sequence of calls the epoll build watches what its table has and
knows its highest descriptor. The select build does, and watches the same, as long
as each descriptor that was added has a bit in the sets. -/
theorem watched_iff_in_sets (calls : List (EvCall F)) (proper : ∀ call ∈ calls, call.Proper slots) :
    let epoll := (answers (Ev.step epollApi) (epollNew slots) calls).2
    let select := (answers (Ev.step selectApi) (selectNew slots) calls).2
    (epoll.Highest ∧ epoll.Watched EpollShows) ∧
      (select.Highest ∧ select.Watched SelectShows ∧ SameInterest epoll.api select.api ↔
        ∀ call ∈ calls, call.Reaches (· < fdSetSize)) := by
  intro epoll select
  obtain ⟨registered, table⟩ := epollNew_inStep.calls epollApi_follows proper
    fun call _ => by cases call <;> exact trivial
  refine ⟨⟨registered.highest, registered.watched⟩, ?_, ?_⟩
  · rintro ⟨_, watched, _⟩
    obtain ⟨sets, known, _⟩ := watched 0
    refine select_reaches (selectNew_inStep (F := F)).sized rfl proper ?_
    rw [known]
    exact Option.some_ne_none sets
  · intro reaches
    obtain ⟨set_, table_⟩ := selectNew_inStep.calls selectApi_follows proper reaches
    refine ⟨set_.highest, set_.watched, ?_⟩
    have same : epoll.entry = select.entry := by
      rw [table, table_]
      congr 1
    have shown : ∀ fd, EpollShows epoll.api fd (select.entry fd).mask := by
      intro fd
      rw [← same]
      exact registered.watched fd
    exact sameInterest_of_shows shown set_.watched

end Builds

/-- A listener and a client that is answered and hangs up. -/
def sampleEvCalls : List (EvCall Unit) :=
  [.add 4 evRead () 0, .add 5 evRead () 1, .add 5 evWrite () 1, .delete 5 evWrite, .delete 5 evRead]

theorem sampleEvCalls_proper : ∀ call ∈ sampleEvCalls, call.Proper 16 := by
  intro call member
  simp only [sampleEvCalls, List.mem_cons, List.not_mem_nil, or_false] at member
  obtain rfl | rfl | rfl | rfl | rfl := member <;> exact ⟨by decide, by decide⟩

theorem watched_iff_in_sets_sample :
    let epoll := (answers (Ev.step epollApi) (epollNew 16) sampleEvCalls).2
    let select := (answers (Ev.step selectApi) (selectNew 16) sampleEvCalls).2
    epoll.maxFd = 4 ∧ (epoll.Highest ∧ epoll.Watched EpollShows) ∧
      (select.Highest ∧ select.Watched SelectShows ∧ SameInterest epoll.api select.api ↔
        ∀ call ∈ sampleEvCalls, call.Reaches (· < fdSetSize)) :=
  ⟨by decide, watched_iff_in_sets sampleEvCalls sampleEvCalls_proper⟩

/-- The first descriptor that no set has a bit for is in the table all the same. -/
theorem selectNew_past_sets :
    let calls : List (EvCall Unit) := [.add 1024 evRead () 0]
    let epoll := (answers (Ev.step epollApi) (epollNew 1025) calls).2
    let select := (answers (Ev.step selectApi) (selectNew 1025) calls).2
    (∀ call ∈ calls, call.Proper 1025) ∧ (answers (Ev.step selectApi) (selectNew 1025) calls).1 = [some 0] ∧
      epoll.api 1024 = some epollin ∧ select.api = none ∧ ¬select.Watched SelectShows ∧ ¬SameInterest epoll.api select.api := by
  intro calls epoll select
  have lost : select.api = none := by
    decide +kernel
  refine ⟨?_, by decide +kernel, by decide +kernel, lost, ?_, ?_⟩
  · intro call member
    cases List.mem_singleton.mp member
    exact ⟨by decide, by decide⟩
  · intro watched
    obtain ⟨sets, known, _⟩ := watched 0
    cases lost.symm.trans known
  · rintro ⟨sets, known, _⟩
    cases lost.symm.trans known

end LexiDB
