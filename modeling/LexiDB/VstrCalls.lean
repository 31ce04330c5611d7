import LexiDB.Lib.Lockstep
import LexiDB.VstrInvariant

/-! A vstr from its constructor on, over every sequence of pushes and resets. -/

namespace LexiDB

open Lib

section Sources

/-- Where a vstr comes from. A buffer is at least as long as the length given with it. -/
inductive VstrSource where
  | new
  | newLen (len : Nat)
  | ofCstr (cstr : List UInt8)
  | ofLen (cstr : List UInt8) (len : Nat) (inside : len ≤ cstr.length)
  | format (text : List UInt8)

def VstrSource.make (mem : Mem) : VstrSource → Except Halt Vstr
  | .new => .ok vstrNew
  | .newLen len => vstrNewLen mem len
  | .ofCstr cstr => .ok (vstrFrom mem cstr)
  | .ofLen cstr len _ => .ok (vstrFromLen mem cstr len)
  | .format text => vstrFormat mem text

/-- The contents it starts with. -/
def VstrSource.text : VstrSource → List UInt8
  | .new | .newLen _ => []
  | .ofCstr cstr => untilNul cstr
  | .ofLen cstr len _ => cstr.take len
  | .format text => text

/-- The capacity of a large string never comes near the end of a `size_t`. -/
def Vstr.Capped (s : Vstr) : Prop :=
  match s.strData with
  | .sm _ => True
  | .lg lg => lg.cap ≤ 2 * (vstrMaxLargeSize + 1)

/-- What every constructor leaves, whether its text fits or not. -/
structure Vstr.Fresh (s : Vstr) (text : List UInt8) : Prop where
  valid : s.Valid
  cleared : s.Cleared
  capped : s.Capped
  bytes : text.length < vstrMaxLargeSize → s.bytes = text

variable {mem : Mem} {s : Vstr}

theorem vstrNew_fresh : vstrNew.Fresh [] := ⟨vstrNew_valid, vstrNew_cleared, trivial, fun _ => vstrNew_bytes⟩

theorem vstrNewLen_fresh (grants : mem.Grants) (made : vstrNewLen mem len = .ok s) : s.Fresh [] := by
  have fits : len ≤ vstrMaxLargeSize := by
    unfold vstrNewLen at made
    split at made
    · split at made
      · assumption
      · cases made
    · simp only [vstrMaxSmallSize, vstrMaxLargeSize] at *
      omega
  obtain ⟨fresh, same, valid, cleared, empty⟩ := vstrNewLen_spec grants fits
  cases made.symm.trans same
  refine ⟨valid, cleared, ?_, fun _ => empty⟩
  unfold vstrNewLen at made
  split at made
  · obtain ⟨address, found⟩ := Option.isSome_iff_exists.mp grants.1
    simp only [vstrLgNewLen, found] at made
    cases made
    simp only [Vstr.Capped]
    omega
  · cases made
    trivial

theorem vstrFromLen_fresh (grants : mem.Grants) {cstr : List UInt8} (inside : len ≤ cstr.length) :
    (vstrFromLen mem cstr len).Fresh (cstr.take len) := by
  have size : (cstr.take len).length = len := by rw [List.length_take]; omega
  unfold vstrFromLen
  split
  · unfold vstrMakeLgLen
    split
    · -- the text is refused and a full string of zeros comes back
      rename_i exceeds
      change Vstr.Fresh ⟨.sm VstrLg.null.bytes, 0⟩ _
      refine ⟨Vstr.valid_sm.mpr ⟨VstrLg.bytes_length _, Nat.zero_le _⟩, ?_, trivial, fun fits => ?_⟩
      · exact List.drop_eq_nil_of_le (Nat.le_of_eq (VstrLg.bytes_length _))
      · omega
    · obtain ⟨address, found⟩ := Option.isSome_iff_exists.mp grants.1
      simp only [found, Nat.succ_ne_zero, ↓reduceIte]
      refine ⟨Vstr.valid_lg.mpr ⟨?_, Nat.lt_succ_self _, by simp only; omega⟩, ?_, ?_, fun _ => ?_⟩
      · rw [List.length_append, size, List.length_singleton]
      · rw [Vstr.cleared_lg]
        simp [size]
      · simp only [Vstr.Capped]
        omega
      · rw [Vstr.bytes_lg]
        exact List.take_left' size
  · have long : (cstr.take len ++ List.replicate (vstrMaxSmallSize - len) 0).length = vstrMaxSmallSize := by
      rw [List.length_append, size, List.length_replicate]
      omega
    have rest : vstrMaxSmallSize - (vstrMaxSmallSize - len) = len := by omega
    refine ⟨Vstr.valid_sm.mpr ⟨long, Nat.sub_le ..⟩, ?_, trivial, fun _ => ?_⟩
    · rw [Vstr.cleared_sm, rest]
      exact List.drop_left' size
    · rw [Vstr.bytes_sm long, rest]
      exact List.take_left' size

theorem vstrFormat_fresh (grants : mem.Grants) (made : vstrFormat mem text = .ok s) : s.Fresh text := by
  unfold vstrFormat at made
  split at made
  · cases made
  · rename_i some_
    cases reserved : vstrNewLen mem (text.length + 1) with
    | error halt =>
      simp only [reserved] at made
      cases made
    | ok empty =>
      simp only [reserved] at made
      unfold vstrNewLen at reserved
      split at reserved
      · rename_i long
        split at reserved
        · rename_i fits
          obtain ⟨address, found⟩ := Option.isSome_iff_exists.mp grants.1
          simp only [vstrLgNewLen, found] at reserved
          cases reserved
          cases made
          refine ⟨Vstr.valid_lg.mpr ⟨?_, by simp only; omega, by simp only; omega⟩, ?_, ?_, fun _ => ?_⟩
          · simp only [List.length_append, List.length_drop, List.length_replicate]
            omega
          · rw [Vstr.cleared_lg]
            simp only [Nat.add_sub_cancel, List.drop_left, List.drop_replicate]
          · simp only [Vstr.Capped]
            omega
          · rw [Vstr.bytes_lg]
            exact List.take_left
        · cases reserved
      · rename_i short
        cases reserved
        cases made
        have length : (text ++ 0 :: (List.replicate vstrMaxSmallSize (0 : UInt8)).drop (text.length + 1)).length = vstrMaxSmallSize := by
          simp only [List.length_append, List.length_cons, List.length_drop, List.length_replicate]
          omega
        have rest : vstrMaxSmallSize - (vstrMaxSmallSize - (text.length + 1) + 1) = text.length := by omega
        refine ⟨Vstr.valid_sm.mpr ⟨length, by omega⟩, ?_, trivial, fun _ => ?_⟩
        · rw [Vstr.cleared_sm, rest, List.drop_left, List.drop_replicate, ← List.replicate_succ]
        · rw [Vstr.bytes_sm length, rest, List.take_left]

theorem VstrSource.make_fresh (grants : mem.Grants) {source : VstrSource} (made : source.make mem = .ok s) :
    s.Fresh source.text := by
  cases source with
  | new =>
    cases made
    exact vstrNew_fresh
  | newLen len => exact vstrNewLen_fresh grants made
  | ofCstr cstr =>
    cases made
    have inside : (untilNul cstr).length ≤ cstr.length := (List.takeWhile_prefix _).length_le
    have front : cstr.take (untilNul cstr).length = untilNul cstr := (List.prefix_iff_eq_take.mp (List.takeWhile_prefix _)).symm
    have fresh := vstrFromLen_fresh grants inside
    rwa [front] at fresh
  | ofLen cstr len inside =>
    cases made
    exact vstrFromLen_fresh grants inside
  | format text => exact vstrFormat_fresh grants made

end Sources

section Calls

inductive VstrCall where
  | pushChar (c : UInt8)
  | pushString (str : List UInt8)
  | pushStringLen (str : List UInt8)
  | reset

/-- A call with what the allocator answers within it, and the `int` of a push. -/
def Vstr.step (s : Vstr) : Mem × VstrCall → Option Int × Vstr
  | (mem, .pushChar c) => ((vstrPushChar mem s c).map some id)
  | (mem, .pushString str) => ((vstrPushString mem s str).map some id)
  | (mem, .pushStringLen str) => ((vstrPushStringLen mem s str).map some id)
  | (_, .reset) => (none, vstrReset s)

/-- The same calls on a text: a push appends and succeeds. -/
def textStep (text : List UInt8) : Mem × VstrCall → Option Int × List UInt8
  | (_, .pushChar c) => (some 0, text ++ [c])
  | (_, .pushString str) => (some 0, text ++ untilNul str)
  | (_, .pushStringLen str) => (some 0, text ++ str)
  | (_, .reset) => (none, [])

/-- The allocator grants what is asked for and the text stays short enough. -/
def TextFits (text : List UInt8) (call : Mem × VstrCall) : Prop :=
  call.1.Grants ∧ (textStep text call).2.length < vstrMaxLargeSize

/-- A vstr that has this text, as either layout counts it. -/
structure Vstr.Holds (s : Vstr) (text : List UInt8) : Prop where
  length : vstrLen s = text.length
  bytes : (vstrData s).take (vstrLen s) = text
  layout : match s.strData with
    | .sm data => data.length = vstrMaxSmallSize ∧ text.length ≤ vstrMaxSmallSize ∧ s.smallAvail = vstrMaxSmallSize - text.length
    | .lg lg => lg.buf.length = lg.cap ∧ text.length < lg.cap ∧ lg.cap < 2 ^ 64

variable {mem : Mem} {s : Vstr} {text : List UInt8}

theorem Vstr.holds_of (valid : s.Valid) (capped : s.Capped) : s.Holds s.bytes where
  length := valid.length.symm
  bytes := rfl
  layout := by
    rw [valid.length]
    obtain ⟨strData, avail⟩ := s
    cases strData with
    | sm data =>
      obtain ⟨size, free⟩ := Vstr.valid_sm.mp valid
      refine ⟨size, Nat.sub_le .., ?_⟩
      simp only [vstrLen]
      omega
    | lg lg =>
      obtain ⟨size, room, _⟩ := Vstr.valid_lg.mp valid
      have small : lg.cap ≤ 2 * (vstrMaxLargeSize + 1) := capped
      exact ⟨size, room, Nat.lt_of_le_of_lt small (by decide)⟩

private theorem vstrLgPushChar_capped {lg : VstrLg} (valid : (Vstr.mk (.lg lg) avail).Valid)
    (capped : lg.cap ≤ 2 * (vstrMaxLargeSize + 1)) (c : UInt8) :
    (vstrLgPushChar mem lg c).2.cap ≤ 2 * (vstrMaxLargeSize + 1) := by
  obtain ⟨_, _, short⟩ := Vstr.valid_lg.mp valid
  unfold vstrLgPushChar
  split
  · exact capped
  · split
    · exact capped
    · rename_i grown done
      have kept : grown.cap ≤ 2 * (vstrMaxLargeSize + 1) := by
        split at done
        · obtain ⟨address, _, rfl⟩ := Option.map_eq_some_iff.mp done
          simp only [VstrLg.grow]
          omega
        · cases done
          exact capped
      split
      · exact kept
      · exact kept

private theorem vstrLgPushString_capped {lg : VstrLg} (capped : lg.cap ≤ 2 * (vstrMaxLargeSize + 1)) (str : List UInt8) :
    (vstrLgPushString mem lg str).2.cap ≤ 2 * (vstrMaxLargeSize + 1) := by
  unfold vstrLgPushString
  split
  · exact capped
  · split
    · exact capped
    · split
      · exact capped
      · rename_i grown done
        split at done
        · obtain ⟨address, _, rfl⟩ := Option.map_eq_some_iff.mp done
          simp only [VstrLg.grow, VstrLg.write]
          omega
        · cases done
          exact capped

/-- Neither growth policy lets the capacity run away. -/
theorem vstrPushChar_capped (grants : mem.Grants) (valid : s.Valid) (capped : s.Capped) (c : UInt8) :
    (vstrPushChar mem s c).2.Capped := by
  obtain ⟨strData, avail⟩ := s
  cases strData with
  | lg lg => exact vstrLgPushChar_capped valid capped c
  | sm data =>
    obtain ⟨size, free⟩ := Vstr.valid_sm.mp valid
    unfold vstrPushChar
    simp only
    split
    · trivial
    · obtain ⟨address, found⟩ := Option.isSome_iff_exists.mp grants.1
      have large : (Vstr.mk (.lg (vstrMakeLg mem data)) 0).Valid := by
        simp [vstrMakeLg, found, Vstr.Valid, size, vstrMaxSmallSize, vstrMaxLargeSize]
      have small : (vstrMakeLg mem data).cap ≤ 2 * (vstrMaxLargeSize + 1) := by
        simp [vstrMakeLg, found, vstrMaxSmallSize, vstrMaxLargeSize]
      split
      · trivial
      · exact vstrLgPushChar_capped large small c

theorem vstrPushStringLen_capped (mem : Mem) (capped : s.Capped) (str : List UInt8) : (vstrPushStringLen mem s str).2.Capped := by
  obtain ⟨strData, avail⟩ := s
  cases strData with
  | lg lg => exact vstrLgPushString_capped capped str
  | sm data =>
    unfold vstrPushStringLen
    simp only
    split
    · trivial
    · refine vstrLgPushString_capped ?_ str
      unfold vstrMakeLgLen
      split
      · exact Nat.zero_le _
      · split
        · exact Nat.zero_le _
        · simp only
          omega

theorem vstrReset_capped (s : Vstr) : (vstrReset s).Capped := by
  obtain ⟨strData, avail⟩ := s
  cases strData <;> trivial

theorem Vstr.step_capped (call : Mem × VstrCall) (grants : call.1.Grants) (valid : s.Valid) (capped : s.Capped) :
    (s.step call).2.Capped := by
  obtain ⟨mem, call⟩ := call
  cases call with
  | pushChar c => exact vstrPushChar_capped grants valid capped c
  | pushString str => exact vstrPushStringLen_capped mem capped (untilNul str)
  | pushStringLen str => exact vstrPushStringLen_capped mem capped str
  | reset => exact vstrReset_capped s

/-- The allocator grants what is asked for and a large string can hold the text. -/
def TextGrows (text : List UInt8) (call : Mem × VstrCall) : Prop :=
  call.1.Grants ∧ (textStep text call).2.length ≤ vstrMaxLargeSize

/-- A call that has the room it needs does to the contents what it does to a text. -/
theorem Vstr.step_appends (call : Mem × VstrCall) (valid : s.Valid) (grows : TextGrows s.bytes call) :
    Alike (fun s text => s.Valid ∧ s.bytes = text) Vstr.step textStep s s.bytes call := by
  obtain ⟨mem, call⟩ := call
  obtain ⟨grants, room⟩ := grows
  have pushed : ∀ str : List UInt8, (s.bytes ++ str).length ≤ vstrMaxLargeSize →
      (vstrPushStringLen mem s str).1 = 0 ∧ (vstrPushStringLen mem s str).2.Valid ∧ (vstrPushStringLen mem s str).2.bytes = s.bytes ++ str := by
    intro str fits
    rw [List.length_append] at fits
    obtain ⟨after, same, kept, content⟩ := vstrPushStringLen_spec grants valid str fits
    rw [same]
    exact ⟨rfl, kept, content⟩
  cases call with
  | pushChar c =>
    have fits : s.bytes.length + 1 ≤ vstrMaxLargeSize := by simpa [textStep] using room
    obtain ⟨after, same, kept, content⟩ := vstrPushChar_spec grants valid c fits
    simp only [Alike, Vstr.step, textStep, same, Prod.map]
    exact ⟨trivial, kept, content⟩
  | pushString str =>
    obtain ⟨zero, next⟩ := pushed (untilNul str) room
    exact ⟨congrArg some zero, next⟩
  | pushStringLen str =>
    obtain ⟨zero, next⟩ := pushed str room
    exact ⟨congrArg some zero, next⟩
  | reset => exact ⟨rfl, vstrReset_spec valid⟩

/-- A vstr that stands for the text. -/
def Vstr.Stands (s : Vstr) (text : List UInt8) : Prop := s.Valid ∧ s.Capped ∧ s.bytes = text

theorem Vstr.step_alike (call : Mem × VstrCall) (stands : s.Stands text) (fits : TextFits text call) :
    Alike Vstr.Stands Vstr.step textStep s text call := by
  obtain ⟨valid, capped, rfl⟩ := stands
  obtain ⟨same, kept, content⟩ := Vstr.step_appends call valid ⟨fits.1, Nat.le_of_lt fits.2⟩
  exact ⟨same, kept, Vstr.step_capped call fits.1 valid capped, content⟩

/-- Whatever is pushed and however often the vstr is reset, each push returns 0 and
the contents are those of the text, in the layout that goes with them. -/
theorem vstr_holds_text (grants : mem.Grants) (source : VstrSource) (made : source.make mem = .ok s)
    (fits : source.text.length < vstrMaxLargeSize) (calls : List (Mem × VstrCall))
    (allowed : Along TextFits textStep source.text calls) :
    (answers Vstr.step s calls).1 = (answers textStep source.text calls).1 ∧
      (answers Vstr.step s calls).2.Holds (answers textStep source.text calls).2 := by
  have fresh := VstrSource.make_fresh grants made
  have start : s.Stands source.text := ⟨fresh.valid, fresh.capped, fresh.bytes fits⟩
  obtain ⟨returned, valid, capped, content⟩ :=
    answers_alike_along (fun _ _ call stands within => Vstr.step_alike call stands within) allowed start
  refine ⟨returned, ?_⟩
  rw [← content]
  exact Vstr.holds_of valid capped

/-- Over the edge of the small layout, back, and over it again. -/
def sampleVstrCalls : List (Mem × VstrCall) :=
  let mem := Mem.granted 0x55d0a2a0
  [(mem, .pushStringLen (List.replicate 20 (ascii 'a'))), (mem, .pushChar (ascii 'b')), (mem, .pushString (List.replicate 9 (ascii 'c'))),
    (mem, .reset), (mem, .pushStringLen (List.replicate 23 (ascii 'd'))), (mem, .pushChar (ascii 'e'))]

theorem vstr_holds_text_sample :
    (answers Vstr.step vstrNew sampleVstrCalls).1 = (answers textStep [] sampleVstrCalls).1 ∧
      (answers Vstr.step vstrNew sampleVstrCalls).2.Holds (List.replicate 23 (ascii 'd') ++ [ascii 'e']) :=
  vstr_holds_text (Mem.granted_grants 0x55d0a2a0) .new rfl (by decide) sampleVstrCalls
    (by simp [sampleVstrCalls, Along, TextFits, Mem.granted_grants, textStep, vstrMaxLargeSize, VstrSource.text]; decide)

end Calls

section Terminator

variable {mem : Mem} {s : Vstr}

/-- The byte behind the contents is zero. -/
def Vstr.Terminated (s : Vstr) : Prop := (vstrData s)[vstrLen s]? = some 0

private theorem getElem?_of_drop {bytes : List UInt8} (behind : bytes.drop used = List.replicate (free + 1) 0) :
    bytes[used]? = some 0 := by
  have first : (bytes.drop used)[0]? = some 0 := by rw [behind, List.replicate_succ, List.getElem?_cons_zero]
  rwa [List.getElem?_drop, Nat.add_zero] at first

theorem Vstr.Cleared.terminated (cleared : s.Cleared) (valid : s.Valid) : s.Terminated := by
  obtain ⟨strData, avail⟩ := s
  cases strData with
  | sm data =>
    obtain ⟨size, free⟩ := Vstr.valid_sm.mp valid
    have behind := Vstr.cleared_sm.mp cleared
    cases avail with
    | zero =>
      -- the terminator of a full small string is the flag byte
      rw [Vstr.Terminated, vstrData, vstrLen, Nat.sub_zero, ← size, List.getElem?_append_right (Nat.le_refl _), Nat.sub_self]
      rfl
    | succ avail =>
      have inside : vstrMaxSmallSize - (avail + 1) < data.length := by omega
      rw [Vstr.Terminated, vstrData, vstrLen, List.getElem?_append_left inside]
      exact getElem?_of_drop behind
  | lg lg =>
    obtain ⟨_, room, _⟩ := Vstr.valid_lg.mp valid
    have behind := Vstr.cleared_lg.mp cleared
    rw [show lg.cap - lg.len = lg.cap - lg.len - 1 + 1 by omega] at behind
    exact getElem?_of_drop behind

def Vstr.isLarge (s : Vstr) : Bool :=
  match s.strData with
  | .sm _ => false
  | .lg _ => true

/-- The allocator grants what is asked for, and a reset finds the string in the
struct. -/
def ResetsSmall (s : Vstr) (call : Mem × VstrCall) : Prop := call.1.Grants ∧ (call.2 = .reset → s.isLarge = false)

private theorem vstrReset_cleared (small : s.isLarge = false) : (vstrReset s).Cleared := by
  obtain ⟨strData, avail⟩ := s
  cases strData with
  | sm data => rfl
  | lg lg => cases small

theorem Vstr.step_cleared (call : Mem × VstrCall) (holds : s.Valid ∧ s.Cleared) (allowed : ResetsSmall s call) :
    (s.step call).2.Valid ∧ (s.step call).2.Cleared := by
  obtain ⟨mem, call⟩ := call
  obtain ⟨valid, cleared⟩ := holds
  obtain ⟨grants, small⟩ := allowed
  cases call with
  | pushChar c => exact ⟨vstrPushChar_valid grants valid c, vstrPushChar_cleared grants valid cleared c⟩
  | pushString str => exact vstrPushStringLen_cleared grants valid cleared (untilNul str)
  | pushStringLen str => exact vstrPushStringLen_cleared grants valid cleared str
  | reset => exact ⟨(vstrReset_spec valid).1, vstrReset_cleared (small rfl)⟩

/-- As long as no large string is reset, every string is ended by a zero, and
`strlen` finds its length where it has no other. -/
theorem terminated_of_small_resets (grants : mem.Grants) (source : VstrSource) (made : source.make mem = .ok s)
    (calls : List (Mem × VstrCall)) (allowed : Along ResetsSmall Vstr.step s calls) :
    let after := (answers Vstr.step s calls).2
    after.Terminated ∧ ((∀ byte ∈ after.bytes, byte ≠ 0) → (untilNul (vstrData after)).length = vstrLen after) := by
  have fresh := VstrSource.make_fresh grants made
  obtain ⟨valid, cleared⟩ := answers_keep_along (fun s => s.Valid ∧ s.Cleared) ResetsSmall Vstr.step
    (fun _ call holds small => Vstr.step_cleared call holds small) calls allowed ⟨fresh.valid, fresh.cleared⟩
  intro after
  refine ⟨cleared.terminated valid, fun free => ?_⟩
  rw [cleared.untilNul_data valid free, valid.length]

theorem terminated_of_small_resets_sample :
    let calls := [(Mem.granted 0x55d0a2a0, VstrCall.pushString [ascii 'a']), (Mem.granted 0x55d0a2a0, .reset)]
    let after := (answers Vstr.step vstrNew calls).2
    after.Terminated ∧ ((∀ byte ∈ after.bytes, byte ≠ 0) → (untilNul (vstrData after)).length = vstrLen after) :=
  terminated_of_small_resets (Mem.granted_grants 0x55d0a2a0) .new rfl _
    ⟨⟨Mem.granted_grants _, fun same => by cases same⟩, ⟨Mem.granted_grants _, fun _ => rfl⟩, trivial⟩

/-- What ends the empty string after a reset is the low byte of the pointer that the
struct still holds. -/
theorem vstrReset_terminated_iff (s : Vstr) :
    (vstrReset s).Terminated ↔ ∀ lg, s.strData = .lg lg → UInt8.ofNat lg.data = 0 := by
  obtain ⟨strData, avail⟩ := s
  cases strData with
  | sm data => exact iff_of_true rfl (by simp)
  | lg lg =>
    have first : (vstrData (vstrReset ⟨.lg lg, avail⟩))[0]? = some (UInt8.ofNat (lg.data / 256 ^ 0)) := rfl
    have none_ : vstrLen (vstrReset ⟨.lg lg, avail⟩) = 0 := rfl
    simp only [Vstr.Terminated, none_, first, Nat.pow_zero, Nat.div_one, Option.some.injEq, StrData.lg.injEq, forall_eq']

/-- A large string is reset and the pointer to its freed block is left in its place. -/
theorem vstrReset_stale :
    let calls := [(Mem.granted 0x55d0a2a0, VstrCall.pushStringLen (List.replicate 24 (ascii 'a'))), (Mem.granted 0x55d0a2a0, .reset)]
    let after := (answers Vstr.step vstrNew calls).2
    after.bytes = [] ∧ ¬after.Terminated ∧ (untilNul (vstrData after)).length = 4 ∧ vstrLen after = 0 := by
  unfold Vstr.Terminated
  decide

end Terminator

end LexiDB
