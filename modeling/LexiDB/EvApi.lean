import LexiDB.Ev
import Mathlib.Logic.Function.Basic

/-! The two back ends of ev.c: ev_epoll.c, which registers with the kernel, and
ev_select.c, which keeps two bit sets. -/

namespace LexiDB

variable {F : Type}

section Epoll

def epollin : UInt32 := 0x001
def epollout : UInt32 := 0x004

/-- What an epoll instance has registered: the events of each descriptor. -/
abbrev Interest := Nat → Option UInt32

inductive EpollOp where
  | add
  | mod
  | del

/-- `epoll_ctl` on an open descriptor, where `none` is -1: only a new one can be
added, only a registered one changed or removed. -/
def epollCtl (interest : Interest) (op : EpollOp) (fd : Nat) (events : UInt32) : Option Interest :=
  match op with
  | .add => if (interest fd).isNone then some (Function.update interest fd (some events)) else none
  | .mod => if (interest fd).isSome then some (Function.update interest fd (some events)) else none
  | .del => if (interest fd).isSome then some (Function.update interest fd none) else none

/-- The events asked for by a mask. -/
def epollEvents (mask : UInt32) : UInt32 :=
  (if mask &&& evRead ≠ 0 then epollin else 0) ||| (if mask &&& evWrite ≠ 0 then epollout else 0)

def epollAddEvent (ev : Ev F Interest) (fd : Nat) (mask : UInt32) : Option Interest :=
  let op := if (ev.entry fd).mask = evNone then EpollOp.add else .mod
  epollCtl ev.api op fd (epollEvents (mask ||| (ev.entry fd).mask))

/-- Whether `epoll_ctl` fails is not looked at. -/
def epollDelEvent (ev : Ev F Interest) (fd : Nat) (delmask : UInt32) : Interest :=
  let mask := (ev.entry fd).mask &&& ~~~delmask
  let op := if mask ≠ evNone then EpollOp.mod else .del
  (epollCtl ev.api op fd (epollEvents mask)).getD ev.api

def epollApi : EvApi F Interest := ⟨epollAddEvent, epollDelEvent⟩

def epollNew (numFds : Nat) : Ev F Interest := evNew (fun _ => none) numFds

end Epoll

section Select

/-- FD_SETSIZE -/
def fdSetSize : Nat := 1024

/-- An `fd_set`. -/
abbrev FdSet := Fin fdSetSize → Bool

/-- FD_SET and FD_CLR. Where the set has no bit for the descriptor, what they write
to is undefined. -/
def FdSet.assign (bits : FdSet) (fd : Nat) (on : Bool) : Option FdSet :=
  if inside : fd < fdSetSize then some (Function.update bits ⟨fd, inside⟩ on) else none

/-- The call is made if the mask names the set. -/
def FdSet.assignIf (bits : FdSet) (named : Bool) (fd : Nat) (on : Bool) : Option FdSet :=
  if named then bits.assign fd on else some bits

def FdSet.isSet (bits : FdSet) (fd : Nat) : Bool := if inside : fd < fdSetSize then bits ⟨fd, inside⟩ else false

/-- The sets that `ev_api_poll` copies for `select`. -/
structure FdSets where
  rfds : FdSet
  wfds : FdSet

/-- FD_SET or FD_CLR on the sets the mask names. -/
def FdSets.assign (sets : FdSets) (fd : Nat) (mask : UInt32) (on : Bool) : Option FdSets := do
  let rfds ← sets.rfds.assignIf (mask &&& evRead ≠ 0) fd on
  let wfds ← sets.wfds.assignIf (mask &&& evWrite ≠ 0) fd on
  return ⟨rfds, wfds⟩

/-- `none` stands for memory that was written to outside of the sets. -/
def selectAddEvent (ev : Ev F (Option FdSets)) (fd : Nat) (mask : UInt32) : Option (Option FdSets) :=
  some (ev.api >>= fun sets => sets.assign fd mask true)

def selectDelEvent (ev : Ev F (Option FdSets)) (fd : Nat) (mask : UInt32) : Option FdSets :=
  ev.api >>= fun sets => sets.assign fd mask false

def selectApi : EvApi F (Option FdSets) := ⟨selectAddEvent, selectDelEvent⟩

def selectNew (numFds : Nat) : Ev F (Option FdSets) := evNew (some ⟨fun _ => false, fun _ => false⟩) numFds

end Select

end LexiDB
