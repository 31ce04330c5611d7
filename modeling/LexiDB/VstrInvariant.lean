import LexiDB.Vstr

namespace LexiDB

open Lib

namespace Vstr

theorem valid_sm {data : List UInt8} {avail : Nat} :
    Valid ⟨.sm data, avail⟩ ↔ data.length = vstrMaxSmallSize ∧ avail ≤ vstrMaxSmallSize := Iff.rfl

theorem valid_lg {lg : VstrLg} {avail : Nat} :
    Valid ⟨.lg lg, avail⟩ ↔
      lg.buf.length = lg.cap ∧ lg.len < lg.cap ∧ lg.len ≤ vstrMaxLargeSize := Iff.rfl

theorem bytes_sm {data : List UInt8} {avail : Nat} (size : data.length = vstrMaxSmallSize) :
    bytes ⟨.sm data, avail⟩ = data.take (vstrMaxSmallSize - avail) := by
  simp only [bytes, vstrData, vstrLen]
  rw [List.take_append_of_le_length (by omega)]

theorem bytes_lg {lg : VstrLg} {avail : Nat} : bytes ⟨.lg lg, avail⟩ = lg.buf.take lg.len := rfl

/-- `vstr_len` is the length of the contents. -/
theorem Valid.length {s : Vstr} (valid : s.Valid) : s.bytes.length = vstrLen s := by
  obtain ⟨strData, avail⟩ := s
  cases strData with
  | sm data =>
    rw [bytes_sm (valid_sm.mp valid).1, List.length_take, (valid_sm.mp valid).1]
    simp [vstrLen]
  | lg lg =>
    obtain ⟨size, room, _⟩ := valid_lg.mp valid
    rw [bytes_lg, List.length_take, vstrLen]
    simp only
    omega

theorem Valid.length_le {s : Vstr} (valid : s.Valid) : s.bytes.length ≤ vstrMaxLargeSize := by
  rw [valid.length]
  obtain ⟨strData, avail⟩ := s
  cases strData with
  | sm data => simp only [vstrLen, vstrMaxSmallSize, vstrMaxLargeSize]; omega
  | lg lg => exact (valid_lg.mp valid).2.2

theorem Valid.data_long {s : Vstr} (valid : s.Valid) : vstrLen s ≤ (vstrData s).length := by
  have size := valid.length
  simp only [bytes, List.length_take] at size
  omega

/-- The check by which the tables of words are searched goes by the bytes of the
string. -/
theorem Valid.isWord {s : Vstr} (valid : s.Valid) (word : List UInt8) :
    (decide (word.length = vstrLen s) && decide (memcmp (vstrData s) word = 0)) = decide (word = s.bytes) := by
  by_cases fits : word.length = vstrLen s
  · have front : (vstrData s).take word.length = s.bytes := by rw [fits, bytes]
    have compared : memcmp (vstrData s) word = 0 ↔ word = s.bytes := by
      rw [memcmp_eq_zero (fits ▸ valid.data_long), front, eq_comm]
    simp [fits, compared]
  · have other : word ≠ s.bytes := fun equal => fits (by rw [equal, valid.length])
    simp [fits, other]

theorem Valid.isEntry {s : Vstr} (valid : s.Valid) :
    (fun l : List UInt8 × β => decide (l.1.length = vstrLen s) && decide (memcmp (vstrData s) l.1 = 0)) =
      fun l => decide (l.1 = s.bytes) :=
  funext fun l => valid.isWord l.1

/-- Every byte of the buffer behind the contents is zero. -/
def Cleared (s : Vstr) : Prop :=
  match s.strData with
  | .sm data => data.drop (vstrMaxSmallSize - s.smallAvail) = List.replicate s.smallAvail 0
  | .lg lg => lg.buf.drop lg.len = List.replicate (lg.cap - lg.len) 0

theorem cleared_sm {data : List UInt8} {avail : Nat} :
    Cleared ⟨.sm data, avail⟩ ↔ data.drop (vstrMaxSmallSize - avail) = List.replicate avail 0 := Iff.rfl

theorem cleared_lg {lg : VstrLg} {avail : Nat} :
    Cleared ⟨.lg lg, avail⟩ ↔ lg.buf.drop lg.len = List.replicate (lg.cap - lg.len) 0 := Iff.rfl

/-- A cleared small string is its contents padded with zeros. -/
theorem Cleared.data_eq {data : List UInt8} {avail : Nat} (cleared : Cleared ⟨.sm data, avail⟩)
    (valid : Valid ⟨.sm data, avail⟩) : data = bytes ⟨.sm data, avail⟩ ++ List.replicate avail 0 := by
  rw [bytes_sm (valid_sm.mp valid).1, ← cleared_sm.mp cleared, List.take_append_drop]

/-- A C function that reads a cleared string up to its NUL sees the contents, if
these hold none. -/
theorem Cleared.untilNul_data {s : Vstr} (cleared : s.Cleared) (valid : s.Valid) (free : ∀ byte ∈ s.bytes, byte ≠ 0) :
    untilNul (vstrData s) = s.bytes := by
  have stops : ∀ rest, untilNul (s.bytes ++ 0 :: rest) = s.bytes := by
    intro rest
    unfold untilNul
    rw [List.takeWhile_append_of_pos (by simpa using free)]
    simp
  obtain ⟨strData, avail⟩ := s
  cases strData with
  | sm data =>
    have split := cleared.data_eq valid
    cases avail with
    | zero =>
      have whole : vstrData ⟨.sm data, 0⟩ = bytes ⟨.sm data, 0⟩ ++ [0] :=
        congrArg (· ++ [0]) (by simpa using split)
      rw [whole]
      exact stops []
    | succ avail =>
      have whole : vstrData ⟨.sm data, avail + 1⟩ = bytes ⟨.sm data, avail + 1⟩ ++
          0 :: (List.replicate avail 0 ++ [flagByte ⟨.sm data, avail + 1⟩]) := by
        have padded := congrArg (· ++ [flagByte ⟨.sm data, avail + 1⟩]) split
        simpa [vstrData, List.replicate_succ] using padded
      rw [whole]
      exact stops _
  | lg lg =>
    obtain ⟨size, room, _⟩ := valid_lg.mp valid
    have whole : vstrData ⟨.lg lg, avail⟩ = bytes ⟨.lg lg, avail⟩ ++ 0 :: List.replicate (lg.cap - lg.len - 1) 0 := by
      rw [← List.replicate_succ, show lg.cap - lg.len - 1 + 1 = lg.cap - lg.len by omega, ← cleared_lg.mp cleared,
        bytes_lg, List.take_append_drop]
      rfl
    rw [whole]
    exact stops _

end Vstr

@[simp] theorem VstrLg.bytes_length (lg : VstrLg) : lg.bytes.length = vstrMaxSmallSize := by
  simp [VstrLg.bytes, vstrMaxSmallSize]

theorem vstrNew_valid : vstrNew.Valid := by
  simp [vstrNew, Vstr.Valid]

@[simp] theorem vstrNew_bytes : vstrNew.bytes = [] := by
  simp [vstrNew, Vstr.bytes, vstrLen]

theorem vstrNew_cleared : vstrNew.Cleared := by
  simp [vstrNew, Vstr.Cleared]

theorem vstrNewLen_spec (grants : mem.Grants) (fits : len ≤ vstrMaxLargeSize) :
    ∃ s, vstrNewLen mem len = .ok s ∧ s.Valid ∧ s.Cleared ∧ s.bytes = [] := by
  unfold vstrNewLen
  split
  · obtain ⟨address, found⟩ := Option.isSome_iff_exists.mp grants.1
    refine ⟨_, by simp [vstrLgNewLen, found]; rfl, ?_, ?_, ?_⟩
    · simp [Vstr.Valid]
    · simp [Vstr.Cleared]
    · simp [Vstr.bytes, vstrLen]
  · exact ⟨vstrNew, rfl, vstrNew_valid, vstrNew_cleared, vstrNew_bytes⟩

/-- Copying behind the used bytes appends to the contents of a large string
that has room for the copy and its terminator. -/
theorem VstrLg.write_spec {lg : VstrLg} (str : List UInt8) (avail : Nat)
    (size : lg.buf.length = lg.cap) (room : lg.len + str.length < lg.cap)
    (fits : lg.len + str.length ≤ vstrMaxLargeSize) :
    (Vstr.mk (.lg (lg.write str)) avail).Valid ∧
      (Vstr.mk (.lg (lg.write str)) avail).bytes = (Vstr.mk (.lg lg) avail).bytes ++ str := by
  have used : (lg.buf.take lg.len).length = lg.len := by simp; omega
  refine ⟨Vstr.valid_lg.mpr ⟨?_, room, fits⟩, ?_⟩
  · simp only [VstrLg.write, List.length_append, used, List.length_drop]
    omega
  · simp only [Vstr.bytes_lg, VstrLg.write]
    rw [List.take_append_of_le_length (by simp only [List.length_append, used]; omega),
      List.take_of_length_le (by simp only [List.length_append, used]; omega)]

theorem VstrLg.grow_spec (lg : VstrLg) (cap avail address : Nat)
    (size : lg.buf.length = lg.cap) (room : lg.len < lg.cap) (grows : lg.cap ≤ cap) :
    (lg.grow cap address).buf.length = (lg.grow cap address).cap ∧
      (Vstr.mk (.lg (lg.grow cap address)) avail).bytes = (Vstr.mk (.lg lg) avail).bytes := by
  have used : (lg.buf.take lg.len).length = lg.len := by simp; omega
  refine ⟨by simp only [VstrLg.grow, List.length_append, used, List.length_replicate]; omega, ?_⟩
  simp only [Vstr.bytes_lg, VstrLg.grow]
  rw [List.take_append_of_le_length (by omega), List.take_of_length_le (by omega)]

theorem vstrLgPushChar_spec {lg : VstrLg} (grants : mem.Grants) (avail : Nat) (c : UInt8)
    (valid : (Vstr.mk (.lg lg) avail).Valid) (fits : lg.len + 1 ≤ vstrMaxLargeSize) :
    ∃ after, vstrLgPushChar mem lg c = (0, after) ∧ (Vstr.mk (.lg after) avail).Valid ∧
      (Vstr.mk (.lg after) avail).bytes = (Vstr.mk (.lg lg) avail).bytes ++ [c] := by
  obtain ⟨size, room, _⟩ := Vstr.valid_lg.mp valid
  have nonzero : lg.cap ≠ 0 := by omega
  have within : ¬ lg.len + 1 > vstrMaxLargeSize := by omega
  by_cases full : lg.len = lg.cap - 1
  · obtain ⟨address, found⟩ := Option.isSome_iff_exists.mp grants.2
    obtain ⟨grownSize, same⟩ := lg.grow_spec (lg.cap * 2) avail address size room (by omega)
    have larger : (lg.grow (lg.cap * 2) address).len + [c].length < (lg.grow (lg.cap * 2) address).cap := by
      simp only [VstrLg.grow, List.length_singleton]; omega
    obtain ⟨ok, content⟩ := VstrLg.write_spec _ avail grownSize larger (by simpa [VstrLg.grow] using fits)
    refine ⟨_, ?_, ok, content.trans (by rw [same])⟩
    have grown : vstrReallocLg mem lg = some (lg.grow (lg.cap * 2) address) := by simp [vstrReallocLg, found]
    simp only [vstrLgPushChar, if_neg nonzero, if_pos full, grown]
    exact if_neg within
  · obtain ⟨ok, content⟩ := VstrLg.write_spec [c] avail size (by simp; omega) (by simpa using fits)
    refine ⟨lg.write [c], ?_, ok, content⟩
    simp only [vstrLgPushChar, if_neg nonzero, if_neg full, if_neg within]

theorem vstrLgPushString_spec {lg : VstrLg} (grants : mem.Grants) (avail : Nat) (str : List UInt8)
    (valid : (Vstr.mk (.lg lg) avail).Valid) (fits : lg.len + str.length ≤ vstrMaxLargeSize) :
    ∃ after, vstrLgPushString mem lg str = (0, after) ∧ (Vstr.mk (.lg after) avail).Valid ∧
      (Vstr.mk (.lg after) avail).bytes = (Vstr.mk (.lg lg) avail).bytes ++ str := by
  obtain ⟨size, room, _⟩ := Vstr.valid_lg.mp valid
  have nonzero : lg.cap ≠ 0 := by omega
  have within : ¬ lg.len + str.length > vstrMaxLargeSize := by omega
  by_cases full : lg.len + str.length > lg.cap - 1
  · obtain ⟨address, found⟩ := Option.isSome_iff_exists.mp grants.2
    obtain ⟨grownSize, same⟩ := lg.grow_spec (lg.cap + str.length) avail address size room (by omega)
    have larger : (lg.grow (lg.cap + str.length) address).len + str.length <
        (lg.grow (lg.cap + str.length) address).cap := Nat.add_lt_add_right room _
    obtain ⟨ok, content⟩ := VstrLg.write_spec _ avail grownSize larger fits
    refine ⟨_, ?_, ok, content.trans (by rw [same])⟩
    have grown : vstrReallocLgLen mem lg str.length = some (lg.grow (lg.cap + str.length) address) := by
      simp [vstrReallocLgLen, found]
    simp only [vstrLgPushString, if_neg nonzero, if_neg within, if_pos full, grown]
  · obtain ⟨ok, content⟩ := VstrLg.write_spec str avail size (by omega) fits
    refine ⟨lg.write str, ?_, ok, content⟩
    simp only [vstrLgPushString, if_neg nonzero, if_neg full, if_neg within]

theorem vstrSmPush_fits {data str : List UInt8} {avail : Nat} (size : data.length = vstrMaxSmallSize)
    (free : avail ≤ vstrMaxSmallSize) (fits : str.length ≤ avail) :
    ∃ after, vstrSmPush data str avail = some after ∧ (Vstr.mk (.sm after) (avail - str.length)).Valid ∧
      (Vstr.mk (.sm after) (avail - str.length)).bytes = (Vstr.mk (.sm data) avail).bytes ++ str := by
  have used : (data.take (vstrMaxSmallSize - avail)).length = vstrMaxSmallSize - avail := by simp; omega
  have newSize : (data.take (vstrMaxSmallSize - avail) ++ str ++
      data.drop (vstrMaxSmallSize - avail + str.length)).length = vstrMaxSmallSize := by
    simp only [List.length_append, used, List.length_drop]
    omega
  refine ⟨_, by simp [vstrSmPush, Nat.not_lt.mpr fits]; rfl, ?_, ?_⟩
  · refine Vstr.valid_sm.mpr ⟨?_, by omega⟩
    simpa [List.append_assoc] using newSize
  · rw [Vstr.bytes_sm (by simpa [List.append_assoc] using newSize), Vstr.bytes_sm size, ← List.append_assoc,
      List.take_append_of_le_length (by simp only [List.length_append, used]; omega),
      List.take_of_length_le (by simp only [List.length_append, used]; omega)]

/-- The contents of a small string are moved to the heap whole. -/
theorem vstrMakeLgLen_moved (granted : mem.calloc.isSome) {data : List UInt8} (size : data.length = vstrMaxSmallSize)
    (avail : Nat) :
    (Vstr.mk (.lg (vstrMakeLgLen mem data (vstrMaxSmallSize - avail))) avail).Valid ∧
      (Vstr.mk (.lg (vstrMakeLgLen mem data (vstrMaxSmallSize - avail))) avail).Cleared ∧
      (Vstr.mk (.lg (vstrMakeLgLen mem data (vstrMaxSmallSize - avail))) avail).bytes = (Vstr.mk (.sm data) avail).bytes := by
  obtain ⟨address, found⟩ := Option.isSome_iff_exists.mp granted
  have below : ¬ vstrMaxSmallSize - avail ≥ vstrMaxLargeSize := by
    simp only [vstrMaxSmallSize, vstrMaxLargeSize]; omega
  have used : (data.take (vstrMaxSmallSize - avail)).length = vstrMaxSmallSize - avail := by simp; omega
  simp only [vstrMakeLgLen, if_neg below, found]
  refine ⟨?_, ?_, ?_⟩
  · refine Vstr.valid_lg.mpr ⟨?_, Nat.lt_succ_self _, by simp only; omega⟩
    simp only [List.length_append, used, List.length_singleton]
  · rw [Vstr.cleared_lg]
    simp only [Nat.add_sub_cancel_left]
    rw [List.drop_append_of_le_length (by simp only [used]; omega), List.drop_eq_nil_of_le (by simp only [used]; omega)]
    rfl
  · rw [Vstr.bytes_sm size, Vstr.bytes_lg, List.take_append_of_le_length (by simp only [used]; omega),
      List.take_of_length_le (by simp only [used]; omega)]

/-- Appending a character: never refused while the result fits a large string. -/
theorem vstrPushChar_spec {s : Vstr} (grants : mem.Grants) (valid : s.Valid) (c : UInt8)
    (fits : s.bytes.length + 1 ≤ vstrMaxLargeSize) :
    ∃ after, vstrPushChar mem s c = (0, after) ∧ after.Valid ∧ after.bytes = s.bytes ++ [c] := by
  rw [valid.length] at fits
  obtain ⟨strData, avail⟩ := s
  cases strData with
  | lg lg =>
    obtain ⟨after, pushed, ok, content⟩ := vstrLgPushChar_spec grants avail c valid (by simpa [vstrLen] using fits)
    exact ⟨⟨.lg after, avail⟩, by simp [vstrPushChar, pushed], ok, content⟩
  | sm data =>
    obtain ⟨size, free⟩ := Vstr.valid_sm.mp valid
    by_cases room : [c].length ≤ avail
    · obtain ⟨after, pushed, ok, content⟩ := vstrSmPush_fits size free room
      exact ⟨⟨.sm after, avail - 1⟩, by simp [vstrPushChar, pushed], ok, content⟩
    · -- a full small string moves to the heap with two spare bytes
      have none : avail = 0 := by simp at room; omega
      subst none
      obtain ⟨address, found⟩ := Option.isSome_iff_exists.mp grants.1
      have large : (Vstr.mk (.lg (vstrMakeLg mem data)) 0).Valid := by
        simp [vstrMakeLg, found, Vstr.Valid, size, vstrMaxSmallSize, vstrMaxLargeSize]
      obtain ⟨after, pushed, ok, content⟩ := vstrLgPushChar_spec grants 0 c large
        (by simp [vstrMakeLg, found, vstrMaxSmallSize, vstrMaxLargeSize])
      refine ⟨⟨.lg after, 0⟩, ?_, ok, content.trans ?_⟩
      · have made : (vstrMakeLg mem data).cap ≠ 0 := by simp [vstrMakeLg, found, vstrMaxSmallSize]
        simp [vstrPushChar, vstrSmPush, made, pushed]
      · rw [Vstr.bytes_sm size, Vstr.bytes_lg]
        simp [vstrMakeLg, found, ← size]

/-- Appending a string: never refused while the result fits a large string. -/
theorem vstrPushStringLen_spec {s : Vstr} (grants : mem.Grants) (valid : s.Valid) (str : List UInt8)
    (fits : s.bytes.length + str.length ≤ vstrMaxLargeSize) :
    ∃ after, vstrPushStringLen mem s str = (0, after) ∧ after.Valid ∧ after.bytes = s.bytes ++ str := by
  rw [valid.length] at fits
  obtain ⟨strData, avail⟩ := s
  cases strData with
  | lg lg =>
    obtain ⟨after, pushed, ok, content⟩ := vstrLgPushString_spec grants avail str valid (by simpa [vstrLen] using fits)
    exact ⟨⟨.lg after, avail⟩, by simp [vstrPushStringLen, pushed], ok, content⟩
  | sm data =>
    obtain ⟨size, free⟩ := Vstr.valid_sm.mp valid
    by_cases room : str.length ≤ avail
    · obtain ⟨after, pushed, ok, content⟩ := vstrSmPush_fits size free room
      exact ⟨⟨.sm after, avail - str.length⟩, by simp [vstrPushStringLen, pushed], ok, content⟩
    · obtain ⟨large, _, content_⟩ := vstrMakeLgLen_moved grants.1 size avail
      have refused : vstrSmPush data str avail = none := if_pos (Nat.not_le.mp room)
      have length : (vstrMakeLgLen mem data (vstrMaxSmallSize - avail)).len = vstrMaxSmallSize - avail := by
        have same := large.length
        rw [content_, valid.length] at same
        exact same.symm
      obtain ⟨after, pushed, ok, content⟩ := vstrLgPushString_spec grants avail str large (by rw [length]; simpa [vstrLen] using fits)
      refine ⟨⟨.lg after, avail⟩, ?_, ok, content.trans (by rw [content_])⟩
      simp only [vstrPushStringLen, refused, vstrLen, pushed]

/-- A push never breaks the representation, and one that is refused leaves the
contents. -/
theorem vstrPushChar_kept {s : Vstr} (grants : mem.Grants) (valid : s.Valid) (c : UInt8) :
    (vstrPushChar mem s c).2.Valid ∧
      ((vstrPushChar mem s c).2.bytes = s.bytes ++ [c] ∨ (vstrPushChar mem s c).2.bytes = s.bytes) := by
  by_cases fits : s.bytes.length + 1 ≤ vstrMaxLargeSize
  · obtain ⟨after, pushed, kept, content⟩ := vstrPushChar_spec grants valid c fits
    rw [pushed]
    exact ⟨kept, .inl content⟩
  · rw [valid.length] at fits
    obtain ⟨strData, avail⟩ := s
    cases strData with
    | sm data =>
      simp only [vstrLen, vstrMaxSmallSize, vstrMaxLargeSize] at fits
      omega
    | lg lg =>
      obtain ⟨size, room, limit⟩ := Vstr.valid_lg.mp valid
      simp only [vstrLen] at fits
      have nonzero : lg.cap ≠ 0 := by omega
      obtain ⟨address, found⟩ := Option.isSome_iff_exists.mp grants.2
      obtain ⟨length, same⟩ := lg.grow_spec (lg.cap * 2) avail address size room (by omega)
      have larger : (Vstr.mk (.lg (lg.grow (lg.cap * 2) address)) avail).Valid :=
        Vstr.valid_lg.mpr ⟨length, by simp only [VstrLg.grow]; omega, limit⟩
      have exceeds : (lg.grow (lg.cap * 2) address).len + 1 > vstrMaxLargeSize := by
        simp only [VstrLg.grow]
        omega
      simp only [vstrPushChar, vstrLgPushChar, if_neg nonzero]
      by_cases full : lg.len = lg.cap - 1
      · simp only [if_pos full, vstrReallocLg, found, Option.map_some, if_pos exceeds]
        exact ⟨larger, .inr same⟩
      · have above : lg.len + 1 > vstrMaxLargeSize := by omega
        simp only [if_neg full, if_pos above, or_true, and_true]
        exact valid

/-- What a vstr cannot hold is left out. -/
theorem vstrPushChar_take {s : Vstr} (grants : mem.Grants) (valid : s.Valid) (c : UInt8) :
    (vstrPushChar mem s c).2.Valid ∧ (vstrPushChar mem s c).2.bytes = (s.bytes ++ [c]).take vstrMaxLargeSize := by
  obtain ⟨kept, content⟩ := vstrPushChar_kept grants valid c
  refine ⟨kept, ?_⟩
  by_cases fits : s.bytes.length + 1 ≤ vstrMaxLargeSize
  · obtain ⟨after, pushed, _, appended⟩ := vstrPushChar_spec grants valid c fits
    rw [List.take_of_length_le (by simpa using fits), pushed]
    exact appended
  · have most := valid.length_le
    have full : s.bytes.length = vstrMaxLargeSize := by omega
    rw [← full, List.take_left]
    refine content.resolve_left fun appended => ?_
    have more := kept.length_le
    rw [appended, List.length_append, List.length_singleton] at more
    omega

theorem vstrPushChar_valid {s : Vstr} (grants : mem.Grants) (valid : s.Valid) (c : UInt8) :
    (vstrPushChar mem s c).2.Valid := (vstrPushChar_kept grants valid c).1

private theorem drop_replicate_of {bytes : List UInt8} (cleared : bytes.drop used = List.replicate free 0) (count : Nat) :
    bytes.drop (used + count) = List.replicate (free - count) 0 := by
  rw [← List.drop_drop, cleared, List.drop_replicate]

private theorem VstrLg.write_cleared {lg : VstrLg} (avail : Nat) (size : lg.buf.length = lg.cap)
    (room : lg.len ≤ lg.cap) (cleared : (Vstr.mk (.lg lg) avail).Cleared) (str : List UInt8) :
    (Vstr.mk (.lg (lg.write str)) avail).Cleared := by
  have used : (lg.buf.take lg.len).length = lg.len := by simp; omega
  have front : (lg.buf.take lg.len ++ str).length = lg.len + str.length := by rw [List.length_append, used]
  rw [Vstr.cleared_lg]
  simp only [VstrLg.write]
  rw [← front, List.drop_left, front, drop_replicate_of (Vstr.cleared_lg.mp cleared), Nat.sub_sub]

private theorem VstrLg.grow_cleared {lg : VstrLg} (avail cap address : Nat) (size : lg.buf.length = lg.cap)
    (room : lg.len ≤ lg.cap) : (Vstr.mk (.lg (lg.grow cap address)) avail).Cleared := by
  have used : (lg.buf.take lg.len).length = lg.len := by simp; omega
  exact Vstr.cleared_lg.mpr (List.drop_left' used)

/-- The block that a push to a large string writes into. -/
private theorem VstrLg.grown_cleared {mem : Mem} {lg : VstrLg} {avail : Nat} (valid : (Vstr.mk (.lg lg) avail).Valid)
    (cleared : (Vstr.mk (.lg lg) avail).Cleared) (asked : Prop) [Decidable asked] (cap : Nat) (more : lg.cap ≤ cap)
    (done : (if asked then mem.realloc.map (lg.grow cap) else some lg) = some grown) :
    grown.buf.length = grown.cap ∧ grown.len < grown.cap ∧ (Vstr.mk (.lg grown) avail).Cleared := by
  obtain ⟨size, room, _⟩ := Vstr.valid_lg.mp valid
  split at done
  · obtain ⟨address, _, same⟩ := Option.map_eq_some_iff.mp done
    subst grown
    refine ⟨(lg.grow_spec cap avail address size room more).1, ?_, VstrLg.grow_cleared avail cap address size (Nat.le_of_lt room)⟩
    simp only [VstrLg.grow]
    omega
  · cases done
    exact ⟨size, room, cleared⟩

private theorem vstrLgPushChar_cleared {lg : VstrLg} (avail : Nat) (c : UInt8)
    (valid : (Vstr.mk (.lg lg) avail).Valid) (cleared : (Vstr.mk (.lg lg) avail).Cleared) :
    (Vstr.mk (.lg (vstrLgPushChar mem lg c).2) avail).Cleared := by
  obtain ⟨size, room, _⟩ := Vstr.valid_lg.mp valid
  have nonzero : lg.cap ≠ 0 := by omega
  unfold vstrLgPushChar
  simp only [if_neg nonzero]
  split
  · exact cleared
  · rename_i grown done
    obtain ⟨length, inside, kept⟩ := VstrLg.grown_cleared valid cleared _ (lg.cap * 2) (by omega) done
    split
    · exact kept
    · exact VstrLg.write_cleared avail length (Nat.le_of_lt inside) kept [c]

private theorem vstrLgPushString_valid {lg : VstrLg} (grants : mem.Grants) (avail : Nat) (str : List UInt8)
    (valid : (Vstr.mk (.lg lg) avail).Valid) : (Vstr.mk (.lg (vstrLgPushString mem lg str).2) avail).Valid := by
  by_cases fits : lg.len + str.length ≤ vstrMaxLargeSize
  · obtain ⟨after, pushed, kept, _⟩ := vstrLgPushString_spec grants avail str valid fits
    rwa [pushed]
  · obtain ⟨_, room, _⟩ := Vstr.valid_lg.mp valid
    have nonzero : lg.cap ≠ 0 := by omega
    simp only [vstrLgPushString, if_neg nonzero, if_pos (Nat.not_le.mp fits)]
    exact valid

private theorem vstrLgPushString_cleared {lg : VstrLg} (avail : Nat) (str : List UInt8)
    (valid : (Vstr.mk (.lg lg) avail).Valid) (cleared : (Vstr.mk (.lg lg) avail).Cleared) :
    (Vstr.mk (.lg (vstrLgPushString mem lg str).2) avail).Cleared := by
  unfold vstrLgPushString
  split
  · exact cleared
  · split
    · exact cleared
    · split
      · exact cleared
      · rename_i grown done
        obtain ⟨length, inside, kept⟩ :=
          VstrLg.grown_cleared valid cleared _ (lg.cap + str.length) (Nat.le_add_right ..) done
        exact VstrLg.write_cleared avail length (Nat.le_of_lt inside) kept str

private theorem vstrSmPush_cleared {data str : List UInt8} {avail : Nat} (size : data.length = vstrMaxSmallSize)
    (free : avail ≤ vstrMaxSmallSize) (cleared : (Vstr.mk (.sm data) avail).Cleared)
    (pushed : vstrSmPush data str avail = some after) : (Vstr.mk (.sm after) (avail - str.length)).Cleared := by
  unfold vstrSmPush at pushed
  split at pushed
  · cases pushed
  · rename_i fits
    cases pushed
    have front : (data.take (vstrMaxSmallSize - avail) ++ str).length = vstrMaxSmallSize - avail + str.length := by
      simp only [List.length_append, List.length_take]
      omega
    have shift : vstrMaxSmallSize - (avail - str.length) = vstrMaxSmallSize - avail + str.length := by omega
    rw [Vstr.cleared_sm, shift, ← front, List.drop_left, front, drop_replicate_of (Vstr.cleared_sm.mp cleared)]

/-- Pushing leaves no stale byte behind the contents. -/
theorem vstrPushChar_cleared {s : Vstr} (grants : mem.Grants) (valid : s.Valid) (cleared : s.Cleared) (c : UInt8) :
    (vstrPushChar mem s c).2.Cleared := by
  obtain ⟨strData, avail⟩ := s
  cases strData with
  | lg lg => exact vstrLgPushChar_cleared avail c valid cleared
  | sm data =>
    obtain ⟨size, free⟩ := Vstr.valid_sm.mp valid
    by_cases room : [c].length ≤ avail
    · obtain ⟨after, pushed, _⟩ := vstrSmPush_fits size free room
      simpa [vstrPushChar, pushed] using vstrSmPush_cleared size free cleared pushed
    · have none : avail = 0 := by simp at room; omega
      subst none
      obtain ⟨address, found⟩ := Option.isSome_iff_exists.mp grants.1
      have made : (vstrMakeLg mem data).cap ≠ 0 := by simp [vstrMakeLg, found, vstrMaxSmallSize]
      have large : (Vstr.mk (.lg (vstrMakeLg mem data)) 0).Valid := by
        simp [vstrMakeLg, found, Vstr.Valid, size, vstrMaxSmallSize, vstrMaxLargeSize]
      have clean : (Vstr.mk (.lg (vstrMakeLg mem data)) 0).Cleared := by
        simp [vstrMakeLg, found, Vstr.Cleared, size]
      simpa [vstrPushChar, vstrSmPush, made] using vstrLgPushChar_cleared 0 c large clean

theorem vstrPushStringLen_cleared {s : Vstr} (grants : mem.Grants) (valid : s.Valid) (cleared : s.Cleared)
    (str : List UInt8) : (vstrPushStringLen mem s str).2.Valid ∧ (vstrPushStringLen mem s str).2.Cleared := by
  obtain ⟨strData, avail⟩ := s
  cases strData with
  | lg lg => exact ⟨vstrLgPushString_valid grants avail str valid, vstrLgPushString_cleared avail str valid cleared⟩
  | sm data =>
    obtain ⟨size, free⟩ := Vstr.valid_sm.mp valid
    by_cases room : str.length ≤ avail
    · obtain ⟨after, pushed, kept, _⟩ := vstrSmPush_fits size free room
      simp only [vstrPushStringLen, pushed]
      exact ⟨kept, vstrSmPush_cleared size free cleared pushed⟩
    · obtain ⟨large, clean, _⟩ := vstrMakeLgLen_moved grants.1 size avail
      have refused : vstrSmPush data str avail = none := if_pos (Nat.not_le.mp room)
      simp only [vstrPushStringLen, refused]
      exact ⟨vstrLgPushString_valid grants avail str large, vstrLgPushString_cleared avail str large clean⟩

/-- Formatting a short non-empty text keeps it in the struct. -/
theorem vstrFormat_spec {text : List UInt8} (nonempty : text ≠ []) (short : text.length < vstrMaxSmallSize) :
    ∃ s, vstrFormat mem text = .ok s ∧ s.bytes = text := by
  have positive : text.length ≠ 0 := by simpa using nonempty
  have small : ¬ text.length + 1 > vstrMaxSmallSize := by omega
  have size : (text ++ 0 :: (List.replicate vstrMaxSmallSize (0 : UInt8)).drop (text.length + 1)).length =
      vstrMaxSmallSize := by
    simp only [List.length_append, List.length_cons, List.length_drop, List.length_replicate]
    omega
  refine ⟨⟨.sm (text ++ 0 :: (List.replicate vstrMaxSmallSize (0 : UInt8)).drop (text.length + 1)),
    vstrMaxSmallSize - (text.length + 1) + 1⟩, ?_, ?_⟩
  · simp only [vstrFormat, positive, ↓reduceIte, vstrNewLen, small, vstrNew]
    rfl
  · rw [Vstr.bytes_sm size, List.take_append_of_le_length (by omega), List.take_of_length_le (by omega)]

theorem vstrReset_spec {s : Vstr} : s.Valid → (vstrReset s).Valid ∧ (vstrReset s).bytes = [] := by
  obtain ⟨strData, avail⟩ := s
  cases strData <;> simp [vstrReset, Vstr.Valid, Vstr.bytes, vstrLen]

theorem vstrFree_spec {s : Vstr} (valid : s.Valid) : (vstrFree s).Valid ∧ (vstrFree s).bytes = [] := by
  obtain ⟨strData, avail⟩ := s
  cases strData with
  | sm data =>
    have size := (Vstr.valid_sm.mp valid).1
    simp [vstrFree, Vstr.Valid, Vstr.bytes, vstrLen, size]
  | lg lg => simp [vstrFree, Vstr.Valid, Vstr.bytes, vstrLen]

section Unasked

variable {s : Vstr}

/-- So many characters can be pushed without asking the allocator. -/
def Vstr.Roomy (s : Vstr) (count : Nat) : Prop :=
  match s.strData with
  | .sm _ => count ≤ s.smallAvail
  | .lg lg => lg.len + count < lg.cap ∧ lg.len + count ≤ vstrMaxLargeSize

theorem vstrPushChar_roomy (roomy : s.Roomy (count + 1)) (mem other : Mem) (c : UInt8) :
    vstrPushChar mem s c = vstrPushChar other s c ∧ (vstrPushChar mem s c).2.Roomy count := by
  obtain ⟨strData, avail⟩ := s
  cases strData with
  | sm data =>
    have free : ¬ 1 > avail := by
      have room : count + 1 ≤ avail := roomy
      omega
    have room : count ≤ avail - 1 := Nat.le_sub_of_add_le roomy
    simp only [vstrPushChar, vstrSmPush, List.length_singleton, if_neg free]
    exact ⟨trivial, room⟩
  | lg lg =>
    obtain ⟨inside, small⟩ : lg.len + (count + 1) < lg.cap ∧ lg.len + (count + 1) ≤ vstrMaxLargeSize := roomy
    have open_ : lg.cap ≠ 0 := by omega
    have free : lg.len ≠ lg.cap - 1 := by omega
    have fits : ¬ lg.len + 1 > vstrMaxLargeSize := by omega
    simp only [vstrPushChar, vstrLgPushChar, if_neg open_, if_neg free, if_neg fits]
    refine ⟨trivial, ?_⟩
    simp only [Vstr.Roomy, VstrLg.write, List.length_singleton]
    omega

/-- A large string counts one more character or stays as long as it is. -/
private theorem vstrLgPushChar_length (mem : Mem) (lg : VstrLg) (c : UInt8) :
    lg.len ≤ (vstrLgPushChar mem lg c).2.len ∧ (vstrLgPushChar mem lg c).2.len ≤ lg.len + 1 := by
  unfold vstrLgPushChar
  split
  · exact ⟨Nat.le_refl _, Nat.le_succ _⟩
  · split
    · exact ⟨Nat.le_refl _, Nat.le_succ _⟩
    · rename_i grown asked
      have same : grown.len = lg.len := by
        split at asked
        · obtain ⟨address, _, rfl⟩ := Option.map_eq_some_iff.mp asked
          rfl
        · cases asked
          rfl
      split
      · exact ⟨Nat.le_of_eq same.symm, Nat.le_succ_of_le (Nat.le_of_eq same)⟩
      · simp [VstrLg.write, same]

/-- A large string is longer than the longest small one. -/
def Vstr.Counting (s : Vstr) : Prop :=
  match s.strData with
  | .sm _ => s.smallAvail ≤ vstrMaxSmallSize
  | .lg lg => vstrMaxSmallSize ≤ lg.len

/-- Whatever the allocator answers, a string counts its characters as long as it is
small, and is never taken for a small one afterwards. -/
theorem vstrPushChar_counting (counting : s.Counting) (mem : Mem) (c : UInt8) :
    (vstrPushChar mem s c).2.Counting ∧ min vstrMaxSmallSize (vstrLen s + 1) ≤ vstrLen (vstrPushChar mem s c).2 := by
  have large : ∀ lg : VstrLg, lg.len ≤ (vstrLgPushChar mem lg c).2.len := fun lg => (vstrLgPushChar_length mem lg c).1
  obtain ⟨strData, avail⟩ := s
  cases strData with
  | sm data =>
    have known : avail ≤ vstrMaxSmallSize := counting
    by_cases full : 1 > avail
    · have full : avail = 0 := by omega
      subst full
      simp only [vstrPushChar, vstrSmPush, List.length_singleton]
      simp only [Nat.lt_one_iff, gt_iff_lt, ↓reduceIte]
      split
      · simp [Vstr.Counting, vstrLen]
      · rename_i made
        have long : vstrMaxSmallSize ≤ (vstrLgPushChar mem (vstrMakeLg mem data) c).2.len := by
          refine Nat.le_trans ?_ (large _)
          cases granted : mem.calloc <;> simp_all [vstrMakeLg, VstrLg.null]
        exact ⟨long, Nat.le_trans (Nat.min_le_left _ _) long⟩
    · simp only [vstrPushChar, vstrSmPush, List.length_singleton, if_neg full, Vstr.Counting, vstrLen]
      omega
  | lg lg =>
    have long : vstrMaxSmallSize ≤ lg.len := counting
    exact ⟨Nat.le_trans long (large lg), Nat.le_trans (Nat.min_le_left _ _) (Nat.le_trans long (large lg))⟩

/-- A push adds a character at most, whatever state the string is in. -/
theorem vstrPushChar_length (s : Vstr) (mem : Mem) (c : UInt8) : vstrLen (vstrPushChar mem s c).2 ≤ vstrLen s + 1 := by
  obtain ⟨data, avail⟩ := s
  cases data with
  | lg lg => exact (vstrLgPushChar_length mem lg c).2
  | sm data =>
    unfold vstrPushChar
    simp only
    split
    · simp only [vstrLen]
      omega
    · rename_i full
      have none_ : avail = 0 := by
        unfold vstrSmPush at full
        split at full
        · rename_i few
          simp only [List.length_singleton] at few
          omega
        · cases full
      split
      · exact Nat.le_succ _
      · rename_i made
        have moved : (vstrMakeLg mem data).len = vstrMaxSmallSize := by
          unfold vstrMakeLg at made ⊢
          split at made
          · exact absurd rfl made
          · rfl
        have pushed := (vstrLgPushChar_length mem (vstrMakeLg mem data) c).2
        rw [moved] at pushed
        simpa [vstrLen, none_] using pushed

theorem vstrNewLen_length (created : vstrNewLen mem len = .ok s) : vstrLen s = 0 := by
  unfold vstrNewLen at created
  split at created
  · split at created
    · obtain ⟨lg, opened, same⟩ := bind_eq_ok.mp created
      cases same
      unfold vstrLgNewLen at opened
      split at opened
      · cases opened
      · cases opened
        rfl
    · cases created
  · cases created
    rfl

theorem vstrFree_length (s : Vstr) : vstrLen (vstrFree s) = 0 := by
  unfold vstrFree
  split <;> rfl

end Unasked

end LexiDB
