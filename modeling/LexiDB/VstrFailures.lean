import LexiDB.VstrCalls

/-! Pushes that return -1, and what the vstr is worth afterwards. -/

namespace LexiDB

open Lib

/-- A large string without a block, which a refused move to the heap leaves. -/
def Vstr.Hollow (s : Vstr) : Prop := s.strData = .lg .null

/-- What is pushed is more than a small string has room for. -/
def Vstr.Moves (s : Vstr) (str : List UInt8) : Prop :=
  match s.strData with
  | .sm _ => s.smallAvail < str.length
  | .lg _ => False

section Refused

variable {mem : Mem} {s : Vstr} {lg : VstrLg} {avail : Nat}

/-- A push either appends or leaves the contents, and its `int` says which. -/
structure Vstr.Clean (before str : List UInt8) (result : Int × Vstr) : Prop where
  valid : result.2.Valid
  outcome : result.1 = 0 ∧ result.2.bytes = before ++ str ∨ result.1 = -1 ∧ result.2.bytes = before

/-- The block that a push writes into holds the same contents and the terminator still fits behind what is written. -/
private theorem VstrLg.grown_keeps {grown : VstrLg} {asked : Prop} [Decidable asked] (valid : (Vstr.mk (.lg lg) avail).Valid) (cap count : Nat)
    (more : lg.cap + count ≤ cap) (room : ¬asked → lg.len + count < lg.cap)
    (done : (if asked then mem.realloc.map (lg.grow cap) else some lg) = some grown) :
    (Vstr.mk (.lg grown) avail).Valid ∧ grown.len = lg.len ∧ grown.len + count < grown.cap ∧
      (Vstr.mk (.lg grown) avail).bytes = (Vstr.mk (.lg lg) avail).bytes := by
  obtain ⟨size, inside, limit⟩ := Vstr.valid_lg.mp valid
  split at done
  · obtain ⟨address, _, same⟩ := Option.map_eq_some_iff.mp done
    subst grown
    obtain ⟨length, kept⟩ := lg.grow_spec cap avail address size inside (by omega)
    have larger : (lg.grow cap address).len + count < (lg.grow cap address).cap := by
      simp only [VstrLg.grow]
      omega
    exact ⟨Vstr.valid_lg.mpr ⟨length, by omega, limit⟩, rfl, larger, kept⟩
  · rename_i free
    cases done
    exact ⟨valid, rfl, room free, rfl⟩

theorem vstrLgPushChar_clean (mem : Mem) (valid : (Vstr.mk (.lg lg) avail).Valid) (c : UInt8) :
    Vstr.Clean (Vstr.mk (.lg lg) avail).bytes [c] ((vstrLgPushChar mem lg c).map id (fun lg => ⟨.lg lg, avail⟩)) := by
  obtain ⟨size, inside, limit⟩ := Vstr.valid_lg.mp valid
  have nonzero : lg.cap ≠ 0 := by omega
  unfold vstrLgPushChar
  simp only [if_neg nonzero]
  split
  · exact ⟨valid, .inr ⟨rfl, rfl⟩⟩
  · rename_i grown done
    obtain ⟨kept, same, room, content⟩ := VstrLg.grown_keeps valid (lg.cap * 2) 1 (by omega) (by omega) done
    split
    · exact ⟨kept, .inr ⟨rfl, content⟩⟩
    · rename_i fits
      obtain ⟨ok, appended⟩ := VstrLg.write_spec [c] avail (Vstr.valid_lg.mp kept).1 room (by simpa using fits)
      exact ⟨ok, .inl ⟨rfl, appended.trans (by rw [content])⟩⟩

theorem vstrLgPushString_clean (mem : Mem) (valid : (Vstr.mk (.lg lg) avail).Valid) (str : List UInt8) :
    Vstr.Clean (Vstr.mk (.lg lg) avail).bytes str ((vstrLgPushString mem lg str).map id (fun lg => ⟨.lg lg, avail⟩)) := by
  obtain ⟨size, inside, limit⟩ := Vstr.valid_lg.mp valid
  have nonzero : lg.cap ≠ 0 := by omega
  unfold vstrLgPushString
  simp only [if_neg nonzero]
  split
  · exact ⟨valid, .inr ⟨rfl, rfl⟩⟩
  · rename_i fits
    split
    · exact ⟨valid, .inr ⟨rfl, rfl⟩⟩
    · rename_i grown done
      obtain ⟨kept, same, room, content⟩ :=
        VstrLg.grown_keeps valid (lg.cap + str.length) str.length (Nat.le_refl _) (by omega) done
      obtain ⟨ok, appended⟩ := VstrLg.write_spec str avail (Vstr.valid_lg.mp kept).1 room (by omega)
      exact ⟨ok, .inl ⟨rfl, appended.trans (by rw [content])⟩⟩

/-- As long as the block of the move is granted, a push loses nothing. -/
theorem vstrPushChar_clean (valid : s.Valid) (c : UInt8) (granted : s.Moves [c] → mem.calloc.isSome) :
    Vstr.Clean s.bytes [c] (vstrPushChar mem s c) := by
  obtain ⟨strData, avail⟩ := s
  cases strData with
  | lg lg => exact vstrLgPushChar_clean mem valid c
  | sm data =>
    obtain ⟨size, free⟩ := Vstr.valid_sm.mp valid
    by_cases room : [c].length ≤ avail
    · obtain ⟨after, pushed, ok, content⟩ := vstrSmPush_fits size free room
      simp only [vstrPushChar, pushed]
      exact ⟨ok, .inl ⟨rfl, content⟩⟩
    · obtain ⟨address, found⟩ := Option.isSome_iff_exists.mp (granted (Nat.not_le.mp room))
      have full : avail = 0 := by simpa using room
      subst full
      have large : (Vstr.mk (.lg (vstrMakeLg mem data)) 0).Valid := by
        simp [vstrMakeLg, found, Vstr.Valid, size, vstrMaxSmallSize, vstrMaxLargeSize]
      have moved : (Vstr.mk (.lg (vstrMakeLg mem data)) 0).bytes = (Vstr.mk (.sm data) 0).bytes := by
        rw [Vstr.bytes_sm size, Vstr.bytes_lg]
        simp [vstrMakeLg, found, ← size]
      have made : (vstrMakeLg mem data).cap ≠ 0 := by simp [vstrMakeLg, found, vstrMaxSmallSize]
      have pushed : vstrPushChar mem ⟨.sm data, 0⟩ c = (vstrLgPushChar mem (vstrMakeLg mem data) c).map id (fun lg => ⟨.lg lg, 0⟩) := by
        simp [vstrPushChar, vstrSmPush, made, Prod.map]
      rw [pushed, ← moved]
      exact vstrLgPushChar_clean mem large c

theorem vstrPushStringLen_clean (valid : s.Valid) (str : List UInt8) (granted : s.Moves str → mem.calloc.isSome) :
    Vstr.Clean s.bytes str (vstrPushStringLen mem s str) := by
  obtain ⟨strData, avail⟩ := s
  cases strData with
  | lg lg => exact vstrLgPushString_clean mem valid str
  | sm data =>
    obtain ⟨size, free⟩ := Vstr.valid_sm.mp valid
    by_cases room : str.length ≤ avail
    · obtain ⟨after, pushed, ok, content⟩ := vstrSmPush_fits size free room
      simp only [vstrPushStringLen, pushed]
      exact ⟨ok, .inl ⟨rfl, content⟩⟩
    · have moves : avail < str.length := Nat.not_le.mp room
      have refused : vstrSmPush data str avail = none := if_pos moves
      obtain ⟨large, _, moved⟩ := vstrMakeLgLen_moved (granted moves) size avail
      simp only [vstrPushStringLen, refused, vstrLen]
      rw [← moved]
      exact vstrLgPushString_clean mem large str

/-- The move is refused its block. -/
def Vstr.Refused (s : Vstr) (mem : Mem) (str : List UInt8) : Prop := s.Moves str ∧ mem.calloc = none

private theorem Vstr.granted_of (kept : ¬s.Refused mem str) (moves : s.Moves str) : mem.calloc.isSome :=
  Option.isSome_iff_ne_none.mpr fun none_ => kept ⟨moves, none_⟩

/-- A full small string of zeros. -/
def Vstr.zeros : Vstr := ⟨.sm (List.replicate vstrMaxSmallSize 0), 0⟩

theorem Vstr.zeros_valid : Vstr.zeros.Valid := ⟨List.length_replicate, Nat.zero_le _⟩

theorem Vstr.zeros_bytes : Vstr.zeros.bytes = List.replicate vstrMaxSmallSize 0 := by decide

theorem VstrLg.null_bytes : VstrLg.null.bytes = List.replicate vstrMaxSmallSize 0 := by decide

/-- The character push has cleared the union by the time it notices. -/
theorem vstrPushChar_refused (refused : s.Refused mem [c]) : vstrPushChar mem s c = (-1, Vstr.zeros) := by
  obtain ⟨moves, none_⟩ := refused
  obtain ⟨strData, avail⟩ := s
  cases strData with
  | lg lg => cases moves
  | sm data =>
    obtain rfl : avail = 0 := Nat.lt_one_iff.mp moves
    have full : vstrSmPush data [c] 0 = none := if_pos moves
    simp only [vstrPushChar, full, vstrMakeLg, none_]
    rw [VstrLg.null_bytes]
    rfl

/-- The string pushes have made the string a large one. -/
theorem vstrPushStringLen_refused (refused : s.Refused mem str) :
    vstrPushStringLen mem s str = (-1, ⟨.lg .null, s.smallAvail⟩) := by
  obtain ⟨moves, none_⟩ := refused
  obtain ⟨strData, avail⟩ := s
  cases strData with
  | lg lg => cases moves
  | sm data =>
    have full : vstrSmPush data str avail = none := if_pos moves
    have empty : vstrMakeLgLen mem data (vstrLen ⟨.sm data, avail⟩) = .null := by
      simp only [vstrMakeLgLen, none_, ite_self]
    simp only [vstrPushStringLen, full, empty]
    rfl

end Refused

section Runs

variable {s : Vstr}

/-- The states a vstr can be in. -/
def Vstr.Sound (s : Vstr) : Prop := s.Valid ∨ s.Hollow

/-- Only a reset brings a hollow string back. -/
private theorem Vstr.Hollow.step (hollow : s.Hollow) (mem : Mem) (call : VstrCall) :
    call = .reset ∧ (s.step (mem, call)).2.Valid ∨ s.step (mem, call) = (some (-1), s) := by
  obtain ⟨strData, avail⟩ := s
  obtain rfl : strData = .lg .null := hollow
  cases call with
  | reset => exact .inl ⟨rfl, VstrLg.bytes_length _, Nat.le_refl _⟩
  | pushChar c => exact .inr rfl
  | pushString str => exact .inr rfl
  | pushStringLen str => exact .inr rfl

theorem Vstr.Sound.step (sound : s.Sound) (call : Mem × VstrCall) : (s.step call).2.Sound := by
  obtain ⟨mem, call⟩ := call
  cases sound with
  | inr hollow =>
    rcases hollow.step mem call with ⟨_, valid⟩ | same
    · exact .inl valid
    · rw [same]
      exact .inr hollow
  | inl valid =>
    have pushed : ∀ str, (vstrPushStringLen mem s str).2.Sound := by
      intro str
      by_cases refused : s.Refused mem str
      · exact .inr (by rw [vstrPushStringLen_refused refused]; rfl)
      · exact .inl (vstrPushStringLen_clean valid str (Vstr.granted_of refused)).valid
    cases call with
    | reset => exact .inl (vstrReset_spec valid).1
    | pushString str => exact pushed (untilNul str)
    | pushStringLen str => exact pushed str
    | pushChar c =>
      by_cases refused : s.Refused mem [c]
      · have cleared : (s.step (mem, .pushChar c)).2 = Vstr.zeros := congrArg Prod.snd (vstrPushChar_refused refused)
        rw [cleared]
        exact .inl Vstr.zeros_valid
      · exact .inl (vstrPushChar_clean valid c (Vstr.granted_of refused)).valid

/-- No constructor resizes a block. -/
private theorem VstrSource.make_calloc (source : VstrSource) (mem : Mem) (realloc : Option Nat) :
    source.make mem = source.make ⟨mem.calloc, realloc⟩ := by
  cases source <;> rfl

private theorem vstrNewLen_small (none_ : mem.calloc = none) (made : vstrNewLen mem len = .ok s) :
    vstrNewLen (.granted 0) len = .ok s := by
  unfold vstrNewLen at made ⊢
  split at made
  · split at made
    · simp only [vstrLgNewLen, none_] at made
      cases made
    · cases made
  · rename_i short
    rwa [if_neg short]

private theorem vstrFromLen_small (none_ : mem.calloc = none) (cstr : List UInt8) (len : Nat) :
    vstrFromLen mem cstr len = vstrFromLen (.granted 0) cstr len ∨ vstrFromLen mem cstr len = Vstr.zeros := by
  by_cases long : len > vstrMaxSmallSize
  · have empty : vstrMakeLgLen mem cstr len = .null := by simp only [vstrMakeLgLen, none_, ite_self]
    right
    simp only [vstrFromLen, if_pos long, empty, VstrLg.null_bytes]
    rfl
  · left
    simp only [vstrFromLen, if_neg long]

/-- Without a block a constructor halts, returns zeros or makes a string that needs none. -/
private theorem VstrSource.make_small (source : VstrSource) (none_ : mem.calloc = none) (made : source.make mem = .ok s) :
    source.make (.granted 0) = .ok s ∨ s = Vstr.zeros := by
  cases source with
  | new => exact .inl made
  | newLen len => exact .inl (vstrNewLen_small none_ made)
  | ofCstr cstr =>
    cases made
    exact (vstrFromLen_small none_ cstr _).imp (fun same => congrArg Except.ok same.symm) id
  | ofLen cstr len inside =>
    cases made
    exact (vstrFromLen_small none_ cstr len).imp (fun same => congrArg Except.ok same.symm) id
  | format text =>
    left
    simp only [VstrSource.make, vstrFormat] at made ⊢
    split at made
    · cases made
    · rename_i some_
      obtain ⟨empty, reserved, same⟩ := bind_eq_ok.mp made
      rw [if_neg some_]
      exact bind_eq_ok.mpr ⟨empty, vstrNewLen_small none_ reserved, same⟩

theorem VstrSource.make_sound (source : VstrSource) (made : source.make mem = .ok s) : s.Sound := by
  have grants (address : Nat) : (Mem.granted address).Grants := Mem.granted_grants address
  cases granted : mem.calloc with
  | some address =>
    rw [source.make_calloc mem (some address), granted] at made
    exact .inl (VstrSource.make_fresh (grants address) made).valid
  | none =>
    rcases source.make_small granted made with same | rfl
    · exact .inl (VstrSource.make_fresh (grants 0) same).valid
    · exact .inl Vstr.zeros_valid

/-- Whatever the allocator answers, every string that the calls can make is sound. -/
theorem vstr_sound (mem : Mem) (source : VstrSource) (made : source.make mem = .ok s) (calls : List (Mem × VstrCall)) :
    (answers Vstr.step s calls).2.Sound :=
  answers_keep Vstr.Sound Vstr.step (fun _ call sound => sound.step call) calls (source.make_sound made)

end Runs

section Atomic

variable {s after : Vstr}

/-- After the call the string is what it was: the length, the bytes, and what later
calls make of it. -/
structure Vstr.Untouched (s after : Vstr) : Prop where
  length : vstrLen after = vstrLen s
  bytes : after.bytes = s.bytes
  appends : ∀ calls, Along TextGrows textStep s.bytes calls →
    (answers Vstr.step after calls).1 = (answers textStep s.bytes calls).1 ∧
      (answers Vstr.step after calls).2.bytes = (answers textStep s.bytes calls).2

theorem Vstr.Valid.untouched (valid : s.Valid) (kept : after.Valid) (same : after.bytes = s.bytes) : s.Untouched after where
  length := by rw [← kept.length, ← valid.length, same]
  bytes := same
  appends := by
    intro calls grows
    have each : ∀ (s : Vstr) (text : List UInt8) (call : Mem × VstrCall), s.Valid ∧ s.bytes = text → TextGrows text call →
        Alike (fun s text => s.Valid ∧ s.bytes = text) Vstr.step textStep s text call := by
      intro s text call stands grows
      obtain ⟨valid, rfl⟩ := stands
      exact Vstr.step_appends call valid grows
    obtain ⟨returned, _, content⟩ := answers_alike_along each grows ⟨kept, same⟩
    exact ⟨returned, content⟩

/-- Nothing can be appended to a hollow string. -/
theorem Vstr.Hollow.not_untouched (hollow : after.Hollow) (short : s.bytes.length < vstrMaxLargeSize) : ¬s.Untouched after := by
  intro untouched
  have grows : Along TextGrows textStep s.bytes [(Mem.granted 0, .pushChar 0)] := by
    refine ⟨⟨Mem.granted_grants 0, ?_⟩, trivial⟩
    simpa [textStep] using Nat.succ_le_of_lt short
  have answered := (untouched.appends _ grows).1
  have refused : (after.step (Mem.granted 0, .pushChar 0)).1 = some (-1) := by
    rcases hollow.step (.granted 0) (.pushChar 0) with ⟨other, _⟩ | same
    · cases other
    · rw [same]
  simp only [answers_cons, answers_nil, refused] at answered
  cases answered

/-- A push that returns -1 leaves the string as it was. -/
def Vstr.Atomic (s : Vstr) (call : Mem × VstrCall) : Prop := (s.step call).1 = some (-1) → s.Untouched (s.step call).2

/-- The string has a block if it is large, and gets one if it has to become large. -/
def Vstr.Survives (s : Vstr) : Mem × VstrCall → Prop
  | (mem, .pushChar c) => ¬s.Hollow ∧ (s.Moves [c] → mem.calloc.isSome ∨ s.bytes = List.replicate vstrMaxSmallSize 0)
  | (mem, .pushString str) => ¬s.Hollow ∧ (s.Moves (untilNul str) → mem.calloc.isSome)
  | (mem, .pushStringLen str) => ¬s.Hollow ∧ (s.Moves str → mem.calloc.isSome)
  | (_, .reset) => True

private theorem Vstr.Clean.untouched {result : Int × Vstr} (clean : Vstr.Clean s.bytes str result) (valid : s.Valid)
    (failed : result.1 = -1) : s.Untouched result.2 := by
  rcases clean.outcome with ⟨zero, _⟩ | ⟨_, same⟩
  · rw [zero] at failed
    cases failed
  · exact valid.untouched clean.valid same

private theorem Vstr.Moves.short (moves : s.Moves str) (valid : s.Valid) : s.bytes.length < vstrMaxLargeSize := by
  rw [valid.length]
  obtain ⟨strData, avail⟩ := s
  cases strData with
  | lg lg => cases moves
  | sm data =>
    simp only [vstrLen, vstrMaxSmallSize, vstrMaxLargeSize]
    omega

private theorem Vstr.Valid.not_hollow (valid : s.Valid) : ¬s.Hollow := by
  intro hollow
  obtain ⟨strData, avail⟩ := s
  obtain rfl : strData = .lg .null := hollow
  obtain ⟨_, room, _⟩ := Vstr.valid_lg.mp valid
  cases room

private theorem vstrPushStringLen_atomic_iff (valid : s.Valid) (mem : Mem) (str : List UInt8) :
    (some (vstrPushStringLen mem s str).1 = some (-1) → s.Untouched (vstrPushStringLen mem s str).2) ↔
      (s.Moves str → mem.calloc.isSome) := by
  constructor
  · intro atomic moves
    by_contra none_
    have refused := vstrPushStringLen_refused ⟨moves, Option.not_isSome_iff_eq_none.mp none_⟩
    rw [refused] at atomic
    have hollow : (Vstr.mk (.lg .null) s.smallAvail).Hollow := rfl
    exact hollow.not_untouched (moves.short valid) (atomic rfl)
  · intro granted failed
    exact (vstrPushStringLen_clean valid str granted).untouched valid (Option.some.inj failed)

private theorem vstrPushChar_atomic_iff (valid : s.Valid) (mem : Mem) (c : UInt8) :
    (some (vstrPushChar mem s c).1 = some (-1) → s.Untouched (vstrPushChar mem s c).2) ↔
      (s.Moves [c] → mem.calloc.isSome ∨ s.bytes = List.replicate vstrMaxSmallSize 0) := by
  by_cases refused : s.Refused mem [c]
  · have lost := vstrPushChar_refused refused
    obtain ⟨moves, none_⟩ := refused
    simp only [lost, none_, Option.isSome_none, Bool.false_eq_true, false_or, forall_const, moves]
    constructor
    · intro untouched
      rw [← untouched.bytes, Vstr.zeros_bytes]
    · intro same
      exact valid.untouched Vstr.zeros_valid (by rw [same, Vstr.zeros_bytes])
  · have granted := Vstr.granted_of refused
    refine iff_of_true (fun failed => ?_) (fun moves => .inl (granted moves))
    exact (vstrPushChar_clean valid c granted).untouched valid (Option.some.inj failed)

/-- A failed push is atomic exactly if it had not to move the string to a block that it
did not get, and the string is not what such a push left. -/
theorem vstr_atomic_iff (sound : s.Sound) (call : Mem × VstrCall) : s.Atomic call ↔ s.Survives call := by
  obtain ⟨mem, call⟩ := call
  cases sound with
  | inl valid =>
    have kept := valid.not_hollow
    cases call with
    | pushChar c => exact (vstrPushChar_atomic_iff valid mem c).trans (and_iff_right kept).symm
    | pushString str => exact (vstrPushStringLen_atomic_iff valid mem (untilNul str)).trans (and_iff_right kept).symm
    | pushStringLen str => exact (vstrPushStringLen_atomic_iff valid mem str).trans (and_iff_right kept).symm
    | reset => exact iff_of_true (fun failed => by cases failed) trivial
  | inr hollow =>
    have short : s.bytes.length < vstrMaxLargeSize := by
      have empty : s.bytes = [] := by
        obtain ⟨strData, avail⟩ := s
        obtain rfl : strData = .lg .null := hollow
        rfl
      rw [empty]
      decide
    have stuck (mem : Mem) (call : VstrCall) (push : call ≠ .reset) : ¬s.Atomic (mem, call) := by
      intro atomic
      rcases hollow.step mem call with ⟨reset, _⟩ | same
      · exact push reset
      · rw [Vstr.Atomic, same] at atomic
        exact hollow.not_untouched short (atomic rfl)
    cases call with
    | pushChar c => exact iff_of_false (stuck mem _ (by simp)) (fun survives => survives.1 hollow)
    | pushString str => exact iff_of_false (stuck mem _ (by simp)) (fun survives => survives.1 hollow)
    | pushStringLen str => exact iff_of_false (stuck mem _ (by simp)) (fun survives => survives.1 hollow)
    | reset => exact iff_of_true (fun failed => by cases failed) trivial

/-- A large string is full and cannot grow. -/
theorem vstr_atomic_iff_sample :
    let s := (answers Vstr.step vstrNew [(Mem.granted 8, .pushStringLen (List.replicate 24 (ascii 'a')))]).2
    (s.step (⟨none, none⟩, .pushChar (ascii 'b'))).1 = some (-1) ∧ s.Atomic (⟨none, none⟩, .pushChar (ascii 'b')) := by
  intro s
  have sound : s.Sound := vstr_sound (.granted 8) .new rfl _
  have block : ¬s.Hollow := by
    unfold Vstr.Hollow
    decide
  exact ⟨by decide, (vstr_atomic_iff sound (⟨none, none⟩, .pushChar (ascii 'b'))).mpr ⟨block, fun moves => False.elim moves⟩⟩

/-- The 24th character finds no memory, and the 23 before it are gone. -/
theorem vstr_atomic_counterexample :
    let s := (answers Vstr.step vstrNew [(⟨none, none⟩, .pushStringLen (List.replicate 23 (ascii 'a')))]).2
    s.Sound ∧ (s.step (⟨none, none⟩, .pushChar (ascii 'b'))).1 = some (-1) ∧
      (s.step (⟨none, none⟩, .pushChar (ascii 'b'))).2.bytes = List.replicate 23 0 ∧
      ¬s.Atomic (⟨none, none⟩, .pushChar (ascii 'b')) := by
  intro s
  have cleared : (s.step (⟨none, none⟩, .pushChar (ascii 'b'))).2.bytes = List.replicate 23 0 := by decide
  have held : s.bytes = List.replicate 23 (ascii 'a') := by decide
  refine ⟨vstr_sound (.granted 8) .new rfl _, by decide, cleared, fun atomic => ?_⟩
  have same := (atomic (by decide)).bytes
  rw [cleared, held] at same
  cases same

end Atomic

end LexiDB
