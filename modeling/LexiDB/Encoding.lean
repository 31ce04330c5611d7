import LexiDB.BuilderInvariant

/-! What the wire encoding of an object is, stated apart from the encoder, and
on which objects the encoder produces it. -/

namespace LexiDB

open Lib

mutual

/-- One wire encoding of an object. The pairs of a map may come in any order,
each exactly once. -/
inductive Encodes : Object → List UInt8 → Prop where
  | null : Encodes .null (cstr "+NONE\r\n")
  | int {num : Int64} : Encodes (.int num) (intTypeByte :: signedDecimal num.toInt ++ crlf)
  | bool {boolean : Int32} :
      Encodes (.bool boolean) (booleanTypeByte :: (if boolean ≠ 0 then ascii 't' else ascii 'f') :: crlf)
  | string {s : Vstr} : Encodes (.string s) (bulkString s.bytes)
  | array {vec : Vec Object} (elems : EncodesAll vec.elems body) :
      Encodes (.array vec) (arrayTypeByte :: decimal vec.len ++ crlf ++ body)
  | ht {table : Ht Object Object} {items : List (HtEntry Object Object)} (order : items.Perm table.items)
      (pairs : EncodesAll (items.flatMap fun entry => [entry.key, entry.value]) body) :
      Encodes (.ht table) (htTypeByte :: decimal table.numEntries ++ crlf ++ body)

/-- Encodings of several objects, one after the other. -/
inductive EncodesAll : List Object → List UInt8 → Prop where
  | nil : EncodesAll [] []
  | cons (head : Encodes obj bytes) (tail : EncodesAll objs rest) : EncodesAll (obj :: objs) (bytes ++ rest)

end

/-- Objects built from Null, Int, Bool, String, Array and Ht by their
constructors: the parts are well formed and fit the address space. -/
inductive Object.Built : Object → Prop where
  | null : Built .null
  | int {num : Int64} : Built (.int num)
  | bool : Built (.bool boolean)
  | string {s : Vstr} (valid : s.Valid) : Built (.string s)
  | array {vec : Vec Object} (valid : vec.Valid) (bound : vec.cap + 3 < sizeMod) (elems : ∀ obj ∈ vec.elems, Built obj) :
      Built (.array vec)
  | ht {table : Ht Object Object} (counted : table.Counted) (bound : table.numEntries < sizeMod)
      (keys : ∀ entry ∈ table.items, Built entry.key) (values : ∀ entry ∈ table.items, Built entry.value) :
      Built (.ht table)

/-- No array without elements and no map with an entry occurs in the object. -/
inductive Object.Sendable : Object → Prop where
  | null : Sendable .null
  | int {num : Int64} : Sendable (.int num)
  | bool : Sendable (.bool boolean)
  | string : Sendable (.string s)
  | array {vec : Vec Object} (nonempty : 0 < vec.len) (elems : ∀ obj ∈ vec.elems, Sendable obj) : Sendable (.array vec)
  | ht {table : Ht Object Object} (empty : table.items = []) : Sendable (.ht table)

/-- Given enough fuel and room, `builder_add_object` returns 0 and appends
exactly these bytes. -/
def Renders (mem : Mem) (env : Env) (obj : Object) (bytes : List UInt8) : Prop :=
  ∃ enough, ∀ fuel, enough ≤ fuel → ∀ b : Builder, b.Valid → Fits b bytes.length →
    ∃ after, builderAddObject mem env fuel b obj = .ok (0, after) ∧ Appended b bytes after

/-- What is appended is an encoding of the object. -/
def Sends (mem : Mem) (env : Env) (obj : Object) (bytes : List UInt8) : Prop :=
  Encodes obj bytes ∧ Renders mem env obj bytes

section Complete

variable {mem : Mem} {env : Env}

/-- The array loop from index `i` on appends the encodings of the rest. -/
private theorem builderAddElems_spec (mem : Mem) (env : Env) {vec : Vec Object} (valid : vec.Valid) (bound : vec.cap + 3 < sizeMod) :
    ∀ (rest : List Object) (i : Nat), vec.elems.drop i = rest →
      (∀ obj ∈ rest, ∃ bytes, Sends mem env obj bytes) →
      ∃ body, EncodesAll rest body ∧ ∃ enough, ∀ fuel, enough ≤ fuel → ∀ (b : Builder) (iter : VecIter),
        b.Valid → Fits b body.length → iter.At vec.len i →
        ∃ after, builderAddElems mem env fuel b vec.slots iter = .ok (0, after) ∧ Appended b body after := by
  have length := valid.length
  have room := valid.room
  intro rest
  induction rest with
  | nil =>
    intro i remaining _
    refine ⟨[], .nil, 1, ?_⟩
    intro fuel enough b iter validB _ at_
    obtain ⟨less, rfl⟩ := Nat.exists_eq_add_of_le' enough
    have past : ¬ i < vec.len := by
      have := List.drop_eq_nil_iff.mp remaining
      omega
    exact ⟨b, by simp [builderAddElems, at_.2.2.1, past], .refl validB⟩
  | cons obj rest ih =>
    intro i remaining each
    have inside : i < vec.elems.length := by
      by_contra past
      rw [List.drop_eq_nil_of_le (by omega)] at remaining
      cases remaining
    rw [List.drop_eq_getElem_cons inside] at remaining
    obtain ⟨here, next⟩ := List.cons.inj remaining
    obtain ⟨bytes, encodes, one, sends⟩ := each obj (by simp)
    obtain ⟨body, all, many, loop⟩ := ih (i + 1) next (fun other member => each other (by simp [member]))
    refine ⟨bytes ++ body, .cons encodes all, one + many + 1, ?_⟩
    intro fuel enough b iter validB fits at_
    obtain ⟨less, rfl⟩ := Nat.exists_eq_add_of_le' enough
    rw [List.length_append] at fits
    obtain ⟨middle, added, first⟩ := sends (less + (one + many)) (by omega) b validB (fits.le (by omega))
    obtain ⟨after, looped, second⟩ := loop (less + (one + many)) (by omega) middle (vecIterNext iter)
      first.valid (fits.next first rfl) (vecIterNext_at at_ (by omega) (by omega))
    have slot : vec.slots[i]? = some obj := by
      have inElems : vec.elems[i]? = some obj := by rw [List.getElem?_eq_getElem inside, here]
      rwa [Vec.elems, List.getElem?_take, if_pos (by omega)] at inElems
    refine ⟨after, ?_, first.trans second⟩
    change builderAddElems mem env (less + (one + many) + 1) b vec.slots iter = _
    simp [builderAddElems, at_.2.2.1, show i < vec.len by omega, slot, added, looped]

/-- On an object without empty arrays and filled maps the encoder is total and
exact. -/
theorem Object.Sendable.sends (env : Env) {obj : Object} (sendable : obj.Sendable) (built : obj.Built) (grants : mem.Grants) :
    ∃ bytes, Sends mem env obj bytes := by
  induction sendable with
  | null =>
    refine ⟨_, .null, 1, ?_⟩
    intro fuel enough b valid fits
    obtain ⟨less, rfl⟩ := Nat.exists_eq_add_of_le' enough
    obtain ⟨after, added, appended⟩ := pushString_appends grants valid (cstr "+NONE\r\n") fits
    exact ⟨after, by simp [builderAddObject, builderAddNone, added], appended⟩
  | @int num =>
    refine ⟨_, .int, 1, ?_⟩
    intro fuel enough b valid fits
    obtain ⟨less, rfl⟩ := Nat.exists_eq_add_of_le' enough
    obtain ⟨after, added, appended⟩ := builderAddInt_spec grants valid num
      (fits.le (by simp [crlf]))
    exact ⟨after, by simp [builderAddObject, added], appended⟩
  | @bool boolean =>
    refine ⟨_, .bool, 1, ?_⟩
    intro fuel enough b valid fits
    obtain ⟨less, rfl⟩ := Nat.exists_eq_add_of_le' enough
    obtain ⟨after, added, appended⟩ := builderAddBoolean_spec grants valid boolean (fits.le (by simp [crlf]))
    exact ⟨after, by simp [builderAddObject, added], appended⟩
  | @string s =>
    refine ⟨_, .string, 1, ?_⟩
    intro fuel enough b valid fits
    obtain ⟨less, rfl⟩ := Nat.exists_eq_add_of_le' enough
    obtain ⟨after, added, appended⟩ := builderAddString_spec grants valid s.bytes fits
    exact ⟨after, by simp [builderAddObject, added], appended⟩
  | @array vec nonempty elems ih =>
    cases built with
    | array valid bound builtElems =>
      have room := valid.room
      obtain ⟨body, all, many, loop⟩ := builderAddElems_spec mem env valid bound vec.elems 0 rfl
        (fun obj member => ih obj member (builtElems obj member))
      refine ⟨_, .array all, many + 1, ?_⟩
      intro fuel enough b validB fits
      obtain ⟨less, rfl⟩ := Nat.exists_eq_add_of_le' enough
      rw [List.length_append] at fits
      obtain ⟨middle, headed, first⟩ := builderAddArray_spec grants validB (show vec.len < sizeMod by omega)
        (fits.le (by simp [crlf]))
      obtain ⟨after, looped, second⟩ := loop (less + many) (by omega) middle (vecIterNew vec) first.valid
        (fits.next first rfl) (vecIterNew_at nonempty (by omega))
      refine ⟨after, ?_, first.trans second⟩
      simp [builderAddObject, headed, looped]
  | @ht table empty =>
    cases built with
    | ht counted bound _ _ =>
      refine ⟨_, .ht (List.nil_perm.mpr empty) .nil, 2, ?_⟩
      intro fuel enough b validB fits
      obtain ⟨less, rfl⟩ := Nat.exists_eq_add_of_le' enough
      rw [List.append_nil] at fits ⊢
      obtain ⟨after, headed, appended⟩ := builderAddHt_spec grants validB bound
        (fits.le (by simp [crlf]))
      have done : (htIterNew table).cur = [] := (htIterNew_at counted).cur_nil.mpr empty
      exact ⟨after, by simp [builderAddObject, headed, builderAddPairs, done], appended⟩

end Complete

section Sound

variable {mem : Mem} {env : Env}

/-- With the iterator never advanced, the map loop is left only by a failing
append. -/
theorem builderAddPairs_stuck {iter : HtIter Object Object} (occupied : iter.cur ≠ []) :
    ∀ fuel b code after, builderAddPairs mem env fuel b iter = .ok (code, after) → code = -1 := by
  obtain ⟨cur, rest, here⟩ := List.exists_cons_of_ne_nil occupied
  intro fuel
  induction fuel with
  | zero => simp [builderAddPairs]
  | succ fuel ih =>
    intro b code after done
    simp only [builderAddPairs, here] at done
    obtain ⟨⟨keyRes, middle⟩, _, done⟩ := bind_eq_ok.mp done
    simp only at done
    split at done
    · cases done
      rfl
    · obtain ⟨⟨valueRes, last⟩, _, done⟩ := bind_eq_ok.mp done
      simp only at done
      split at done
      · cases done
        rfl
      · exact ih last code after done

/-- Over an array without elements the end index wraps around, and the loop runs
off the allocation. -/
theorem builderAddElems_empty {slots : List Object} (bound : slots.length + 3 < sizeMod) :
    ∀ fuel i b iter code after, i ≤ slots.length → iter.endIdx = sizeMod - 1 → iter.nextIdx = i + 2 →
      iter.cur = some i → iter.next = some (i + 1) →
      builderAddElems mem env fuel b slots iter = .ok (code, after) → code = -1 := by
  intro fuel
  induction fuel with
  | zero => simp [builderAddElems]
  | succ fuel ih =>
    intro i b iter code after within last position cur next done
    simp only [builderAddElems, cur] at done
    split at done
    · cases done
    · rename_i obj slot
      have inside : i < slots.length := (List.getElem?_eq_some_iff.mp slot).1
      obtain ⟨⟨addRes, middle⟩, _, done⟩ := bind_eq_ok.mp done
      simp only at done
      split at done
      · cases done
        rfl
      · have wrap : (i + 3) % sizeMod = i + 3 := Nat.mod_eq_of_lt (by omega)
        have below : ¬ i + 2 > sizeMod - 1 := by omega
        exact ih (i + 1) middle (vecIterNext iter) code after (by omega) last
          (by simp [vecIterNext, position, wrap]) (by simp [vecIterNext, next])
          (by simp [vecIterNext, position, last, below]) done

private theorem vecIterNew_empty {vec : Vec Object} (empty : vec.len = 0) :
    (vecIterNew vec).endIdx = sizeMod - 1 ∧ (vecIterNew vec).nextIdx = 2 ∧
      (vecIterNew vec).cur = some 0 ∧ (vecIterNew vec).next = some 1 := by
  have wrapped : (0 + (sizeMod - 1)) % sizeMod = sizeMod - 1 := by decide
  simp only [vecIterNew, vecIterNext, empty, wrapped]
  decide

/-- An append that does not fail was given an object without empty arrays and
filled maps; the loop over an array says so for each element it passed. -/
private theorem sendable_of_loops (fuel : Nat) :
    (∀ b obj code after, obj.Built → builderAddObject mem env fuel b obj = .ok (code, after) → code ≠ -1 →
      obj.Sendable) ∧
    (∀ (vec : Vec Object) b iter i code after, vec.Valid → vec.cap + 3 < sizeMod →
      (∀ obj ∈ vec.elems, obj.Built) → iter.At vec.len i →
      builderAddElems mem env fuel b vec.slots iter = .ok (code, after) → code ≠ -1 →
      ∀ obj ∈ vec.elems.drop i, obj.Sendable) := by
  induction fuel with
  | zero => simp [builderAddObject, builderAddElems]
  | succ fuel ih =>
    obtain ⟨objects, elements⟩ := ih
    refine ⟨?_, ?_⟩
    · intro b obj code after built done succeeded
      cases built with
      | null => exact .null
      | int => exact .int
      | bool => exact .bool
      | string _ => exact .string
      | @array vec valid bound elems =>
        have room := valid.room
        simp only [builderAddObject] at done
        obtain ⟨⟨headRes, middle⟩, _, done⟩ := bind_eq_ok.mp done
        simp only at done
        split at done
        · cases done
          exact False.elim (succeeded rfl)
        · by_cases empty : vec.len = 0
          · obtain ⟨last, position, cur, next⟩ := vecIterNew_empty empty
            have size := valid.size
            exact False.elim (succeeded (builderAddElems_empty (by omega) fuel 0 middle _ code after (by omega)
              last position cur next done))
          · refine .array (by omega) ?_
            simpa using elements vec middle _ 0 code after valid bound elems
              (vecIterNew_at (by omega) (by omega)) done succeeded
      | @ht table counted _ _ _ =>
        simp only [builderAddObject] at done
        obtain ⟨⟨headRes, middle⟩, _, done⟩ := bind_eq_ok.mp done
        simp only at done
        split at done
        · cases done
          exact False.elim (succeeded rfl)
        · by_cases empty : table.items = []
          · exact .ht empty
          · have occupied := mt (htIterNew_at counted).cur_nil.mp empty
            exact False.elim (succeeded (builderAddPairs_stuck occupied fuel middle code after done))
    · intro vec b iter i code after valid bound elems at_ done succeeded obj member
      have length := valid.length
      have room := valid.room
      have inside : i < vec.elems.length := by
        by_contra past
        rw [List.drop_eq_nil_of_le (by omega)] at member
        cases member
      have slot : vec.slots[i]? = some vec.elems[i] := by
        have inElems : vec.elems[i]? = some vec.elems[i] := List.getElem?_eq_getElem inside
        conv at inElems => lhs; rw [Vec.elems, List.getElem?_take, if_pos (by omega)]
        exact inElems
      simp only [builderAddElems, at_.2.2.1, show i < vec.len by omega, ↓reduceIte, slot] at done
      obtain ⟨⟨addRes, middle⟩, added, done⟩ := bind_eq_ok.mp done
      simp only at done
      split at done
      · cases done
        exact False.elim (succeeded rfl)
      · rename_i passed
        rw [List.drop_eq_getElem_cons inside] at member
        rcases List.mem_cons.mp member with same | later
        · rw [same]
          exact objects b _ addRes middle (elems _ (List.getElem_mem inside)) added passed
        · exact elements vec middle _ (i + 1) code after valid bound elems
            (vecIterNext_at at_ (by omega) (by omega)) done succeeded obj later

theorem sendable_of_added {b after : Builder} {obj : Object} (built : obj.Built)
    (added : builderAddObject mem env fuel b obj = .ok (code, after)) (succeeded : code ≠ -1) : obj.Sendable :=
  (sendable_of_loops fuel).1 b obj code after built added succeeded

end Sound

/-- `builder_add_object` terminates on this object, returns 0 and appends
exactly one wire encoding of it. -/
def AddsOneEncoding (mem : Mem) (env : Env) (b : Builder) (obj : Object) : Prop :=
  ∃ fuel after bytes, builderAddObject mem env fuel b obj = .ok (0, after) ∧ Encodes obj bytes ∧
    Appended b bytes after

private theorem encodesAll_unique {objs : List Object}
    (each : ∀ obj ∈ objs, ∀ first second, Encodes obj first → Encodes obj second → first = second) :
    ∀ first second, EncodesAll objs first → EncodesAll objs second → first = second := by
  induction objs with
  | nil =>
    intro first second one two
    cases one
    cases two
    rfl
  | cons obj objs ih =>
    intro first second one two
    cases one with
    | cons head tail =>
      cases two with
      | cons other rest =>
        rw [each obj (by simp) _ _ head other, ih (fun obj member => each obj (by simp [member])) _ _ tail rest]

/-- An object without filled maps has one encoding only. -/
theorem Object.Sendable.encodes_unique {obj : Object} (sendable : obj.Sendable) :
    ∀ first second, Encodes obj first → Encodes obj second → first = second := by
  induction sendable with
  | null => intro _ _ one two; cases one; cases two; rfl
  | int => intro _ _ one two; cases one; cases two; rfl
  | bool => intro _ _ one two; cases one; cases two; rfl
  | string => intro _ _ one two; cases one; cases two; rfl
  | array _ _ ih =>
    intro _ _ one two
    cases one with
    | array left =>
      cases two with
      | array right => rw [encodesAll_unique ih _ _ left right]
  | ht empty =>
    intro _ _ one two
    cases one with
    | ht order left =>
      cases two with
      | ht other right =>
        rw [empty] at order other
        cases order.eq_nil
        cases other.eq_nil
        cases left
        cases right
        rfl

/-- The encoder does its work exactly on the objects in which no array is empty
and no map has an entry, however deep, as long as the builder can hold the
encoding. -/
theorem builderAddObject_encodes_iff {mem : Mem} {env : Env} {b : Builder} {obj : Object}
    (grants : mem.Grants) (valid : b.Valid) (built : obj.Built) :
    AddsOneEncoding mem env b obj ↔
      obj.Sendable ∧ ∃ bytes, Encodes obj bytes ∧ Fits b bytes.length := by
  constructor
  · rintro ⟨fuel, after, bytes, added, encodes, appended⟩
    refine ⟨sendable_of_added built added (by decide), bytes, encodes, ?_⟩
    have limit := appended.valid.length_le
    rwa [appended.length] at limit
  · rintro ⟨sendable, bytes, encodes, fits⟩
    obtain ⟨sent, sentEncodes, enough, sends⟩ := sendable.sends env built grants
    cases sendable.encodes_unique _ _ encodes sentEncodes
    obtain ⟨after, added, appended⟩ := sends enough (Nat.le_refl _) b valid fits
    exact ⟨enough, after, bytes, added, encodes, appended⟩

/-- An array object of the two given elements. -/
private def pairArray (first second : Object) : Object :=
  .array (vecPush (some 0) (vecPush (some 0) (vecNew 0) first).2 second).2

theorem builderAddObject_encodes_nested :
    AddsOneEncoding (.granted 1) .sample builderNew (pairArray (.int (-7)) (pairArray (.bool 1) .null)) := by
  have built : ∀ first second : Object, first.Built → second.Built → (pairArray first second).Built := by
    intro first second one two
    refine .array ⟨by simp [vecPush, vecNew, vecInitialCap], by simp [vecPush, vecNew, vecInitialCap],
      by simp [vecPush, vecNew, vecInitialCap]⟩ (by simp [vecPush, vecNew, vecInitialCap, sizeMod]) ?_
    simp [Vec.elems, vecPush, vecNew, vecInitialCap, one, two]
  have sendable : ∀ first second : Object, first.Sendable → second.Sendable → (pairArray first second).Sendable := by
    intro first second one two
    refine .array (by simp [vecPush, vecNew, vecInitialCap]) ?_
    simp [Vec.elems, vecPush, vecNew, vecInitialCap, one, two]
  refine (builderAddObject_encodes_iff (Mem.granted_grants 1) vstrNew_valid
    (built _ _ .int (built _ _ .bool .null))).mpr
    ⟨sendable _ _ .int (sendable _ _ .bool .null), _,
      .array (.cons .int (.cons (.array (.cons .bool (.cons .null .nil))) .nil)), ?_⟩
  unfold Fits vstrMaxLargeSize
  decide

/-- A small table whose one entry binds 1 to 2. -/
private def onePair : Ht Object Object :=
  ⟨1, htInitialCap, [], 0, [⟨.int 1, .int 2⟩] :: List.replicate (htInitialCap - 1) []⟩

/-- The smallest failing inputs of both kinds: an array of length zero, and a
map with one entry. -/
theorem builderAddObject_encodes_counterexample :
    ¬ AddsOneEncoding (.granted 1) .sample builderNew (.array (vecNew 0)) ∧
      ¬ AddsOneEncoding (.granted 1) .sample builderNew (.ht onePair) := by
  constructor
  · rintro ⟨fuel, after, bytes, added, _⟩
    have built : (Object.array (vecNew 0)).Built := .array (vecNew_valid 0) (by decide) (by simp)
    have sendable := sendable_of_added built added (by decide)
    cases sendable with
    | array nonempty _ => exact absurd nonempty (by decide)
  · rintro ⟨fuel, after, bytes, added, _⟩
    have built : (Object.ht onePair).Built := by
      refine .ht ⟨by decide, by decide, by decide⟩ (by decide) ?_ ?_ <;>
      · intro entry member
        have only : entry = ⟨.int 1, .int 2⟩ := by simpa [Ht.items, onePair] using member
        subst entry
        exact .int
    have sendable := sendable_of_added built added (by decide)
    cases sendable with
    | ht empty => simp [Ht.items, onePair] at empty

end LexiDB
