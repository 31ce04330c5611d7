import LexiDB.Builder
import LexiDB.VstrInvariant
import LexiDB.HtInvariant

namespace LexiDB

open Lib

/-- `after` is `b` with `text` appended. -/
structure Appended (b : Builder) (text : List UInt8) (after : Builder) : Prop where
  valid : after.Valid
  bytes : after.bytes = b.bytes ++ text

theorem Appended.refl (valid : b.Valid) : Appended b [] b := ⟨valid, by simp⟩

theorem Appended.trans (first : Appended b text middle) (second : Appended middle more after) :
    Appended b (text ++ more) after :=
  ⟨second.valid, by rw [second.bytes, first.bytes, List.append_assoc]⟩

theorem Appended.length (appended : Appended b text after) :
    after.bytes.length = b.bytes.length + text.length := by
  rw [appended.bytes, List.length_append]

/-- The line end every wire form closes with. -/
def crlf : List UInt8 := [ascii '\r', ascii '\n']

/-- There is room in the builder for `count` more bytes. -/
def Fits (b : Builder) (count : Nat) : Prop := b.bytes.length + count ≤ vstrMaxLargeSize

theorem Fits.next (fits : Fits b (first + second)) (appended : Appended b text after)
    (same : text.length = first) : Fits after second := by
  have length := appended.length
  unfold Fits at *
  omega

theorem Fits.le (fits : Fits b count) (less : other ≤ count) : Fits b other := by
  unfold Fits at *
  omega

section Pieces

variable {mem : Mem} {b : Builder}

theorem pushChar_appends (grants : mem.Grants) (valid : b.Valid) (c : UInt8) (fits : Fits b 1) :
    ∃ after, vstrPushChar mem b c = (0, after) ∧ Appended b [c] after := by
  obtain ⟨after, pushed, kept, content⟩ := vstrPushChar_spec grants valid c fits
  exact ⟨after, pushed, kept, content⟩

theorem pushString_appends (grants : mem.Grants) (valid : b.Valid) (str : List UInt8)
    (fits : Fits b str.length) :
    ∃ after, vstrPushStringLen mem b str = (0, after) ∧ Appended b str after := by
  obtain ⟨after, pushed, kept, content⟩ := vstrPushStringLen_spec grants valid str fits
  exact ⟨after, pushed, kept, content⟩

theorem builderAddEnd_spec (grants : mem.Grants) (valid : b.Valid) (fits : Fits b 2) :
    ∃ after, builderAddEnd mem b = (0, after) ∧ Appended b crlf after := by
  obtain ⟨one, first, added⟩ := pushChar_appends grants valid (ascii '\r') (fits.le (by omega))
  obtain ⟨two, second, more⟩ := pushChar_appends grants added.valid (ascii '\n')
    (fits.next added rfl)
  exact ⟨two, by simp [builderAddEnd, first, second], added.trans more⟩

theorem builderAddLine_spec (grants : mem.Grants) (valid : b.Valid) (type : UInt8) (text : List UInt8)
    (fits : Fits b (text.length + 3)) :
    ∃ after, builderAddLine mem b type text = (0, after) ∧ Appended b (type :: text ++ crlf) after := by
  have fits : Fits b (1 + (text.length + 2)) := fits.le (by omega)
  obtain ⟨one, first, added⟩ := pushChar_appends grants valid type (fits.le (by omega))
  have room : Fits one (text.length + 2) := fits.next added rfl
  obtain ⟨two, second, more⟩ := pushString_appends grants added.valid text (room.le (by omega))
  obtain ⟨three, third, last⟩ := builderAddEnd_spec grants more.valid (room.next more rfl)
  exact ⟨three, by simp [builderAddLine, first, second, third], by simpa using (added.trans more).trans last⟩

private theorem vstrFormat_number (mem : Mem) {text : List UInt8} (nonempty : text ≠ []) (short : text.length ≤ 21) :
    ∃ s, vstrFormat mem text = .ok s ∧ s.bytes = text :=
  vstrFormat_spec nonempty (by simp only [vstrMaxSmallSize]; omega)

theorem builderAddArray_spec (grants : mem.Grants) (valid : b.Valid) (bound : arrLen < sizeMod)
    (fits : Fits b ((decimal arrLen).length + 3)) :
    ∃ after, builderAddArray mem b arrLen = .ok (0, after) ∧
      Appended b (arrayTypeByte :: decimal arrLen ++ crlf) after := by
  obtain ⟨s, formatted, content⟩ := vstrFormat_number mem (decimal_ne_nil arrLen)
    (Nat.le_trans (decimal_length_le bound) (by omega))
  obtain ⟨after, added, appended⟩ := builderAddLine_spec grants valid arrayTypeByte (decimal arrLen) fits
  exact ⟨after, by simp [builderAddArray, formatted, content, added], appended⟩

theorem builderAddHt_spec (grants : mem.Grants) (valid : b.Valid) (bound : len < sizeMod)
    (fits : Fits b ((decimal len).length + 3)) :
    ∃ after, builderAddHt mem b len = .ok (0, after) ∧
      Appended b (htTypeByte :: decimal len ++ crlf) after := by
  obtain ⟨s, formatted, content⟩ := vstrFormat_number mem (decimal_ne_nil len)
    (Nat.le_trans (decimal_length_le bound) (by omega))
  obtain ⟨after, added, appended⟩ := builderAddLine_spec grants valid htTypeByte (decimal len) fits
  exact ⟨after, by simp [builderAddHt, formatted, content, added], appended⟩

theorem natAbs_toInt_lt (val : Int64) : val.toInt.natAbs < 2 ^ 64 := by
  have lower := Int64.le_toInt val
  have upper := Int64.toInt_lt val
  omega

theorem builderAddInt_spec (grants : mem.Grants) (valid : b.Valid) (val : Int64)
    (fits : Fits b ((signedDecimal val.toInt).length + 3)) :
    ∃ after, builderAddInt mem b val = .ok (0, after) ∧
      Appended b (intTypeByte :: signedDecimal val.toInt ++ crlf) after := by
  obtain ⟨s, formatted, content⟩ := vstrFormat_number mem (signedDecimal_ne_nil val.toInt)
    (signedDecimal_length_le (natAbs_toInt_lt val))
  obtain ⟨after, added, appended⟩ := builderAddLine_spec grants valid intTypeByte _ fits
  exact ⟨after, by simp [builderAddInt, formatted, content, added], appended⟩

theorem builderAddBoolean_spec (grants : mem.Grants) (valid : b.Valid) (boolean : Int32) (fits : Fits b 4) :
    ∃ after, builderAddBoolean mem b boolean = (0, after) ∧
      Appended b (booleanTypeByte :: (if boolean ≠ 0 then ascii 't' else ascii 'f') :: crlf) after := by
  obtain ⟨one, first, added⟩ := pushChar_appends grants valid booleanTypeByte (fits.le (by omega))
  have room : Fits one 3 := fits.next added rfl
  obtain ⟨two, second, more⟩ := pushChar_appends grants added.valid
    (if boolean ≠ 0 then ascii 't' else ascii 'f') (room.le (by omega))
  obtain ⟨three, third, last⟩ := builderAddEnd_spec grants more.valid (room.next more rfl)
  refine ⟨three, ?_, by simpa using (added.trans more).trans last⟩
  simp only [builderAddBoolean, first, second, third]
  simp

/-- The bytes of a bulk string on the wire. -/
def bulkString (str : List UInt8) : List UInt8 :=
  stringTypeByte :: decimal str.length ++ crlf ++ str ++ crlf

theorem builderAddString_spec (grants : mem.Grants) (valid : b.Valid) (str : List UInt8)
    (fits : Fits b (bulkString str).length) :
    ∃ after, builderAddString mem b str = .ok (0, after) ∧ Appended b (bulkString str) after := by
  have total : (bulkString str).length = 1 + ((decimal str.length).length + (2 + (str.length + 2))) := by
    simp only [bulkString, crlf, List.length_append, List.length_cons, List.length_nil]
    omega
  rw [total] at fits
  have bound : str.length < 2 ^ 64 := by
    unfold Fits vstrMaxLargeSize at fits
    omega
  obtain ⟨s, formatted, content⟩ := vstrFormat_number mem (decimal_ne_nil str.length)
    (Nat.le_trans (decimal_length_le bound) (by omega))
  obtain ⟨one, first, marked⟩ := pushChar_appends grants valid stringTypeByte (fits.le (by omega))
  have room := fits.next marked rfl
  obtain ⟨two, second, sized⟩ := pushString_appends grants marked.valid (decimal str.length) (room.le (by omega))
  have room := room.next sized rfl
  obtain ⟨three, third, ended⟩ := builderAddEnd_spec grants sized.valid (room.le (by omega))
  have room := room.next ended rfl
  obtain ⟨four, fourth, filled⟩ := pushString_appends grants ended.valid str (room.le (by omega))
  obtain ⟨five, fifth, closed⟩ := builderAddEnd_spec grants filled.valid (room.next filled rfl)
  refine ⟨five, ?_, ?_⟩
  · simp [builderAddString, first, formatted, content, second, third, fourth, fifth]
  · simpa [bulkString] using (((marked.trans sized).trans ended).trans filled).trans closed

end Pieces

section Fuel

variable {mem : Mem} {env : Env}

/-- One more round shows the same result of the encoder and of its two loops. -/
private theorem builderAdd_below (fuel : Nat) :
    (∀ b obj, Below (builderAddObject mem env fuel b obj) (builderAddObject mem env (fuel + 1) b obj)) ∧
    (∀ b slots iter, Below (builderAddElems mem env fuel b slots iter) (builderAddElems mem env (fuel + 1) b slots iter)) ∧
    ∀ b iter, Below (builderAddPairs mem env fuel b iter) (builderAddPairs mem env (fuel + 1) b iter) := by
  induction fuel with
  | zero =>
    simp only [builderAddObject, builderAddElems, builderAddPairs]
    refine ⟨?_, ?_, ?_⟩ <;> intros <;> exact fun settled => absurd rfl settled
  | succ fuel ih =>
    obtain ⟨objects, elements, pairs⟩ := ih
    refine ⟨?_, ?_, ?_⟩
    · intro b obj
      cases obj with
      | array vec =>
        unfold builderAddObject
        refine Below.bind (.refl _) fun added => ?_
        simp only
        split
        · exact .refl _
        · exact elements _ _ _
      | ht table =>
        unfold builderAddObject
        refine Below.bind (.refl _) fun added => ?_
        simp only
        split
        · exact .refl _
        · exact pairs _ _
      | _ =>
        simp only [builderAddObject]
        exact .refl _
    · intro b slots iter
      unfold builderAddElems
      split
      · exact .refl _
      · split
        · exact .refl _
        · refine (objects _ _).bind fun added => ?_
          simp only
          split
          · exact .refl _
          · exact elements _ _ _
    · intro b iter
      unfold builderAddPairs
      split
      · exact .refl _
      · refine (objects _ _).bind fun key => ?_
        simp only
        split
        · exact .refl _
        · refine (objects _ _).bind fun value => ?_
          split
          · exact .refl _
          · exact pairs _ _

theorem builderAddObject_mono (b : Builder) (obj : Object) : FuelMono fun fuel => builderAddObject mem env fuel b obj :=
  fun fuel => (builderAdd_below fuel).1 b obj

end Fuel

end LexiDB
