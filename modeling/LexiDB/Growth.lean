import LexiDB.Replies
import LexiDB.VstrFailures

/-! A reply only comes behind what the builder holds already, also where an
allocation for the builder fails halfway or its limit is reached. -/

namespace LexiDB

open Lib

/-- The builder is well formed and still holds what it held, in front. -/
structure Builder.Grows (b after : Builder) : Prop where
  valid : after.Valid
  front : b.bytes <+: after.bytes

section Builders

variable {env : Env} {mem : Mem} {b after : Builder}

theorem Builder.Grows.refl (valid : b.Valid) : b.Grows b := ⟨valid, List.prefix_rfl⟩

theorem Builder.Grows.trans {middle : Builder} (first : b.Grows middle) (second : middle.Grows after) : b.Grows after :=
  ⟨second.valid, first.front.trans second.front⟩

theorem Vstr.Clean.grows {result : Int × Vstr} (clean : Vstr.Clean b.bytes str result) : b.Grows result.2 := by
  refine ⟨clean.valid, ?_⟩
  rcases clean.outcome with ⟨_, all⟩ | ⟨_, same⟩
  · rw [all]
    exact List.prefix_append ..
  · rw [same]

variable (granted : mem.calloc.isSome) (valid : b.Valid)
include granted valid

theorem pushChar_grows (c : UInt8) : b.Grows (vstrPushChar mem b c).2 := (vstrPushChar_clean valid c fun _ => granted).grows

theorem pushString_grows (str : List UInt8) : b.Grows (vstrPushStringLen mem b str).2 :=
  (vstrPushStringLen_clean valid str fun _ => granted).grows

theorem builderAddEnd_grows : b.Grows (builderAddEnd mem b).2 := by
  have carriage := pushChar_grows granted valid (ascii '\r')
  unfold builderAddEnd
  simp only
  split
  · exact carriage
  · exact carriage.trans (pushChar_grows granted carriage.valid _)

theorem builderAddLine_grows (type : UInt8) (text : List UInt8) : b.Grows (builderAddLine mem b type text).2 := by
  have typed := pushChar_grows granted valid type
  unfold builderAddLine
  simp only
  split
  · exact typed
  · have filled := typed.trans (pushString_grows granted typed.valid text)
    split
    · exact filled
    · exact filled.trans (builderAddEnd_grows granted filled.valid)

theorem builderAddBoolean_grows (boolean : Int32) : b.Grows (builderAddBoolean mem b boolean).2 := by
  have typed := pushChar_grows granted valid booleanTypeByte
  unfold builderAddBoolean
  generalize (if boolean ≠ 0 then ascii 't' else ascii 'f') = letter
  simp only
  split
  · exact typed
  · have filled := typed.trans (pushChar_grows granted typed.valid letter)
    split
    · exact filled
    · exact filled.trans (builderAddEnd_grows granted filled.valid)

/-- What `builder_add_array`, `builder_add_ht`, `builder_add_int` and
`builder_add_double` share: a line with a formatted text. -/
private theorem formatted_grows {text : List UInt8} {type : UInt8}
    (done : (do let s ← vstrFormat mem text; pure (builderAddLine mem b type s.bytes)) = Except.ok (ε := Halt) (res, after)) :
    b.Grows after := by
  obtain ⟨s, _, done⟩ := bind_eq_ok.mp done
  have grown := builderAddLine_grows granted valid type s.bytes
  rw [Except.ok.inj done] at grown
  exact grown

theorem builderAddArray_grows (done : builderAddArray mem b arrLen = .ok (res, after)) : b.Grows after :=
  formatted_grows granted valid done

theorem builderAddHt_grows (done : builderAddHt mem b len = .ok (res, after)) : b.Grows after :=
  formatted_grows granted valid done

theorem builderAddInt_grows (done : builderAddInt mem b val = .ok (res, after)) : b.Grows after :=
  formatted_grows granted valid done

theorem builderAddDouble_grows (done : builderAddDouble mem env b val = .ok (res, after)) : b.Grows after :=
  formatted_grows granted valid done

theorem builderAddString_grows (done : builderAddString mem b str = .ok (res, after)) : b.Grows after := by
  have typed := pushChar_grows granted valid stringTypeByte
  unfold builderAddString at done
  simp only at done
  split at done
  · cases done
    exact typed
  · obtain ⟨s, _, done⟩ := bind_eq_ok.mp done
    have counted := typed.trans (pushString_grows granted typed.valid s.bytes)
    split at done
    · cases done
      exact counted
    · have headed := counted.trans (builderAddEnd_grows granted counted.valid)
      split at done
      · cases done
        exact headed
      · have filled := headed.trans (pushString_grows granted headed.valid str)
        split at done
        · cases done
          exact filled
        · have ended := filled.trans (builderAddEnd_grows granted filled.valid)
          rw [Except.ok.inj done] at ended
          exact ended

omit valid in
/-- The induction is on the fuel, over the object and both of its loops at once. -/
private theorem builderAdd_grow : ∀ fuel : Nat,
    (∀ (b : Builder) obj res after, b.Valid → builderAddObject mem env fuel b obj = .ok (res, after) → b.Grows after) ∧
      (∀ (b : Builder) slots iter res after, b.Valid → builderAddElems mem env fuel b slots iter = .ok (res, after) → b.Grows after) ∧
      ∀ (b : Builder) iter res after, b.Valid → builderAddPairs mem env fuel b iter = .ok (res, after) → b.Grows after := by
  intro fuel
  induction fuel with
  | zero =>
    refine ⟨?_, ?_, ?_⟩
    · intro b obj res after _ done
      cases done
    · intro b slots iter res after _ done
      cases done
    · intro b iter res after _ done
      cases done
  | succ fuel ih =>
    obtain ⟨object, elems, pairs⟩ := ih
    refine ⟨?_, ?_, ?_⟩
    · intro b obj res after valid done
      cases obj with
      | null =>
        have grown := pushString_grows granted valid (cstr "+NONE\r\n")
        rw [show vstrPushStringLen mem b (cstr "+NONE\r\n") = (res, after) from Except.ok.inj done] at grown
        exact grown
      | int num => exact builderAddInt_grows granted valid done
      | double dbl => exact builderAddDouble_grows granted valid done
      | bool boolean =>
        have grown := builderAddBoolean_grows granted valid boolean
        rw [show builderAddBoolean mem b boolean = (res, after) from Except.ok.inj done] at grown
        exact grown
      | string s => exact builderAddString_grows granted valid done
      | array vec =>
        obtain ⟨⟨addRes, headed⟩, first, done⟩ := bind_eq_ok.mp done
        have grown := builderAddArray_grows granted valid first
        simp only at done
        split at done
        · cases done
          exact grown
        · exact grown.trans (elems _ _ _ _ _ grown.valid done)
      | ht ht =>
        obtain ⟨⟨addRes, headed⟩, first, done⟩ := bind_eq_ok.mp done
        have grown := builderAddHt_grows granted valid first
        simp only at done
        split at done
        · cases done
          exact grown
        · exact grown.trans (pairs _ _ _ _ grown.valid done)
    · intro b slots iter res after valid done
      unfold builderAddElems at done
      split at done
      · cases done
        exact .refl valid
      · split at done
        · cases done
        · obtain ⟨⟨addRes, added⟩, first, done⟩ := bind_eq_ok.mp done
          have grown := object _ _ _ _ valid first
          simp only at done
          split at done
          · cases done
            exact grown
          · exact grown.trans (elems _ _ _ _ _ grown.valid done)
    · intro b iter res after valid done
      unfold builderAddPairs at done
      split at done
      · cases done
        exact .refl valid
      · obtain ⟨⟨addRes, keyed⟩, first, done⟩ := bind_eq_ok.mp done
        have key := object _ _ _ _ valid first
        simp only at done
        split at done
        · cases done
          exact key
        · obtain ⟨⟨addRes, paired⟩, second, done⟩ := bind_eq_ok.mp done
          have both := key.trans (object _ _ _ _ key.valid second)
          simp only at done
          split at done
          · cases done
            exact both
          · exact both.trans (pairs _ _ _ _ both.valid done)

theorem builderAddObject_grows (done : builderAddObject mem env fuel b obj = .ok (res, after)) : b.Grows after :=
  (builderAdd_grow granted fuel).1 _ _ _ _ valid done

omit valid in
theorem builderAddKeys_grows : ∀ (fuel : Nat) (iter : HtIter Object Object) (b : Builder), b.Valid →
    builderAddKeys env mem ht fuel iter b = .ok after → b.Grows after := by
  intro fuel
  induction fuel with
  | zero =>
    intro iter b _ done
    cases done
  | succ fuel ih =>
    intro iter b valid done
    unfold builderAddKeys at done
    split at done
    · cases done
      exact .refl valid
    · obtain ⟨⟨_, added⟩, first, done⟩ := bind_eq_ok.mp done
      have grown := builderAddObject_grows granted valid first
      exact grown.trans (ih _ _ grown.valid done)

omit valid in
theorem builderAddInfo_grows : ∀ (entries : List (List UInt8 × InfoValue)) (b : Builder), b.Valid →
    builderAddInfo mem entries b = .ok after → b.Grows after := by
  intro entries
  induction entries with
  | nil =>
    intro b valid done
    cases done
    exact .refl valid
  | cons entry rest ih =>
    intro b valid done
    obtain ⟨text, value⟩ := entry
    obtain ⟨⟨_, named⟩, first, done⟩ := bind_eq_ok.mp done
    have name := builderAddString_grows granted valid first
    cases value with
    | int val =>
      obtain ⟨⟨_, valued⟩, second, done⟩ := bind_eq_ok.mp done
      have both := name.trans (builderAddInt_grows granted name.valid second)
      exact both.trans (ih _ both.valid done)
    | string str =>
      obtain ⟨⟨_, valued⟩, second, done⟩ := bind_eq_ok.mp done
      have both := name.trans (builderAddString_grows granted name.valid second)
      exact both.trans (ih _ both.valid done)

end Builders

section Commands

variable {env : Env} {ans : Answers} {s t : Server} {c d : Client} (granted : ans.reply.calloc.isSome) (valid : c.builder.Valid)
include granted valid

theorem addOk_grows : c.builder.Grows (c.addOk ans.reply).builder := pushString_grows granted valid _

theorem addNone_grows : c.builder.Grows (c.addNone ans.reply).builder := pushString_grows granted valid _

theorem addErr_grows (err : List UInt8) : c.builder.Grows (c.addErr ans.reply err).builder := builderAddLine_grows granted valid _ _

theorem replyOk_grows (accepted : Bool) (err : List UInt8) : c.builder.Grows (replyOk ans s c accepted err).2.builder := by
  cases accepted with
  | true => exact addOk_grows granted valid
  | false => exact addErr_grows granted valid err

theorem replyObject_grows (done : replyObject env ans fuel s c obj = .ok (t, d)) : c.builder.Grows d.builder := by
  cases obj with
  | none =>
    cases done
    exact addNone_grows granted valid
  | some obj =>
    obtain ⟨⟨res, added⟩, shown, done⟩ := bind_eq_ok.mp done
    cases done
    exact builderAddObject_grows granted valid shown

theorem executeKeys_grows (done : executeKeys env ans fuel s c = .ok (t, d)) : c.builder.Grows d.builder := by
  obtain ⟨_, _, done⟩ := bind_eq_ok.mp done
  simp only at done
  split at done
  · cases done
    exact addNone_grows granted valid
  · obtain ⟨_, _, done⟩ := bind_eq_ok.mp done
    obtain ⟨⟨_, headed⟩, counted, done⟩ := bind_eq_ok.mp done
    obtain ⟨_, listed, done⟩ := bind_eq_ok.mp done
    cases done
    have header := builderAddArray_grows granted valid counted
    exact header.trans (builderAddKeys_grows granted _ _ _ header.valid listed)

theorem dispatch_grows (done : dispatch env ans fuel s c cmd = .ok (t, d)) : c.builder.Grows d.builder := by
  -- a command that can be refused writes nothing to the builder but its outcome
  have refusable : ∀ {u : Server} {accepted : Bool} {err : List UInt8}, replyOk ans u c accepted err = (t, d) →
      c.builder.Grows d.builder := by
    intro u accepted err replied
    have grown := replyOk_grows (s := u) granted valid accepted err
    rwa [replied] at grown
  cases cmd with
  | okc =>
    cases done
    exact .refl valid
  | ping =>
    cases done
    exact pushString_grows granted valid _
  | illegal | help =>
    cases done
    exact addErr_grows granted valid _
  | auth username password =>
    simp only [dispatch, Except.ok.injEq, Prod.mk.injEq] at done
    obtain ⟨_, rfl⟩ := done
    have kept := executeAuthCommand_builder env ans.hash s c username password
    rw [← kept] at valid ⊢
    split
    · exact addErr_grows granted valid _
    · exact addOk_grows granted valid
  | infoc =>
    obtain ⟨⟨_, headed⟩, counted, done⟩ := bind_eq_ok.mp done
    obtain ⟨_, listed, done⟩ := bind_eq_ok.mp done
    cases done
    have header := builderAddHt_grows granted valid counted
    exact header.trans (builderAddInfo_grows granted _ _ header.valid listed)
  | select value =>
    simp only [dispatch] at done
    split at done
    · cases done
      exact addErr_grows granted valid _
    · cases done
      exact addOk_grows (c := { c with databaseNum := _ }) granted valid
  | keys => exact executeKeys_grows granted valid done
  | get | pop | deque =>
    obtain ⟨_, _, done⟩ := bind_eq_ok.mp done
    exact replyObject_grows granted valid done
  | zhas value =>
    obtain ⟨_, _, done⟩ := bind_eq_ok.mp done
    simp only at done
    split at done
    · obtain ⟨⟨_, added⟩, counted, done⟩ := bind_eq_ok.mp done
      cases done
      exact builderAddInt_grows granted valid counted
    · cases done
      exact addNone_grows granted valid
  | set | del | push | enque | zset | zdel =>
    obtain ⟨_, _, done⟩ := bind_eq_ok.mp done
    exact refusable (Except.ok.inj done)

/-- Whatever `execute_cmd` answers comes behind what is waiting. -/
theorem executeCmd_grows (done : executeCmd env ans fuel s c = .ok (t, d)) : c.builder.Grows d.builder := by
  obtain ⟨cmd, _, done⟩ := bind_eq_ok.mp done
  split at done
  · cases done
    exact addErr_grows granted valid _
  · split at done
    · cases done
      exact addErr_grows granted valid _
    · exact dispatch_grows granted valid done

end Commands

end LexiDB
