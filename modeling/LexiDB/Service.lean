import LexiDB.Store
import LexiDB.Login

/-! What the server is for: sessions that log in and select a database, over as many
stores as there are databases. -/

namespace LexiDB

open Lib

/-- Whether a client has logged in, and the database it stands on. -/
structure Session where
  authed : Bool
  database : Nat

def Session.fresh : Session := ⟨false, 0⟩

/-- What happens to a connection: it is opened, it sends a request that is executed,
it ends. -/
inductive Occurrence where
  | opened (who : Nat)
  | asked (who : Nat) (r : Request)
  | closed (who : Nat)

def Occurrence.who : Occurrence → Nat
  | opened who | asked who _ | closed who => who

/-- The sessions by connection, and a store for every database. -/
structure Service where
  sessions : Nat → Option Session
  stores : Nat → Store

def Service.empty : Service := ⟨fun _ => none, fun _ => .empty⟩

/-- What becomes of a command: nothing without a login, AUTH apart. -/
def Session.obeys (s : Session) (cmd : Cmd) : Cmd :=
  if cmd.type = .illegal ∨ ¬ s.authed ∧ cmd.type ≠ .auth then .illegal else cmd

section Steps

variable (knows : Object → Object → Prop) (numDatabases : Nat)

open scoped Classical in
/-- The session after a command that is obeyed. -/
noncomputable def Session.after (s : Session) (cmd : Cmd) : Session :=
  match cmd with
  | .auth username password => if knows username password then { s with authed := true } else s
  | cmd => { s with database := cmd.selects numDatabases s.database }

/-- What an occurrence makes of the session it happens to. -/
noncomputable def Occurrence.turns (o : Occurrence) (session : Option Session) : Option Session :=
  match o with
  | .opened _ => some .fresh
  | .asked _ r => session.map fun s => s.after knows numDatabases (s.obeys r.cmd)
  | .closed _ => none

/-- What it makes of the stores. -/
def Service.shelve (a : Service) : Occurrence → Nat → Store
  | .asked who r =>
    match a.sessions who with
    | none => a.stores
    | some s => Function.update a.stores s.database ((a.stores s.database).act (s.obeys r.cmd))
  | _ => a.stores

noncomputable def Service.step (a : Service) (o : Occurrence) : Service :=
  ⟨Function.update a.sessions o.who (o.turns knows numDatabases (a.sessions o.who)), a.shelve o⟩

/-- What happens, if anything does. -/
noncomputable def Service.stepIf (a : Service) : Option Occurrence → Service
  | none => a
  | some o => a.step knows numDatabases o

/-- The service after all this. -/
noncomputable def service (history : List Occurrence) : Service := history.foldl (Service.step knows numDatabases) .empty

/-- What a connection is answered. -/
def Service.Reply (a : Service) (who : Nat) (cmd : Cmd) (text : List UInt8) : Prop :=
  ∃ s, a.sessions who = some s ∧
    if cmd.type = .illegal then text = errLine errInvalidCommand
    else if ¬ s.authed ∧ cmd.type ≠ .auth then text = errLine errUnauthed
    else
      match cmd with
      | .auth username password =>
        knows username password ∧ text = okLine ∨ ¬ knows username password ∧ text = errLine (cstr "failed to authenticate")
      | cmd => (a.stores s.database).Reply numDatabases text cmd

end Steps

section History

variable {knows : Object → Object → Prop} {numDatabases : Nat} {history : List Occurrence}

theorem service_concat (history : List Occurrence) (o : Occurrence) :
    service knows numDatabases (history ++ [o]) = (service knows numDatabases history).step knows numDatabases o := by
  simp [service]

/-- A session changes only with what happens to its own connection. -/
theorem Service.step_sessions (a : Service) (o : Occurrence) (who : Nat) :
    (a.step knows numDatabases o).sessions who =
      if who = o.who then o.turns knows numDatabases (a.sessions who) else a.sessions who := by
  simp only [step, Function.update_apply]
  split
  · rename_i own
    rw [own]
  · rfl

/-- A command logs in who has the credentials, and nobody else. -/
theorem Session.after_authed (s : Session) (cmd : Cmd) : (s.after knows numDatabases cmd).authed = true ↔
    s.authed = true ∨ ∃ username password, cmd = .auth username password ∧ knows username password := by
  cases cmd with
  | auth username password =>
    simp only [after]
    split <;> simp_all
  | _ => simp [after]

theorem Session.obeys_auth {s : Session} : s.obeys cmd = .auth username password ↔ cmd = .auth username password := by
  unfold obeys
  constructor
  · intro same
    split at same
    · cases same
    · exact same
  · rintro rfl
    simp [Cmd.type]

/-- Who is logged in has sent AUTH with credentials since the connection was opened. -/
theorem authed_of_history (found : (service knows numDatabases history).sessions who = some s) (authed : s.authed = true) :
    ∃ front r back username password, history = front ++ .asked who r :: back ∧ r.cmd = .auth username password ∧
      knows username password ∧ ∀ o ∈ back, o ≠ .opened who ∧ o ≠ .closed who := by
  induction history using List.reverseRecOn generalizing s with
  | nil => cases found
  | append_singleton history o ih =>
    rw [service_concat, Service.step_sessions] at found
    -- a login that was there before this occurrence and that it does not end
    have earlier : ∀ old, (service knows numDatabases history).sessions who = some old → old.authed = true →
        (o ≠ .opened who ∧ o ≠ .closed who) → ∃ front r back username password, history ++ [o] = front ++ .asked who r :: back ∧
          r.cmd = .auth username password ∧ knows username password ∧ ∀ o ∈ back, o ≠ .opened who ∧ o ≠ .closed who := by
      intro old stood before kept
      obtain ⟨front, r, back, username, password, rfl, auth, known, all⟩ := ih stood before
      refine ⟨front, r, back ++ [o], username, password, by simp, auth, known, ?_⟩
      intro other member
      rcases List.mem_append.mp member with inside | last
      · exact all other inside
      · rw [List.mem_singleton.mp last]
        exact kept
    split at found
    · rename_i own
      cases o with
      | opened p =>
        cases found
        cases authed
      | closed p => cases found
      | asked p r =>
        obtain ⟨old, stood, rfl⟩ := Option.map_eq_some_iff.mp found
        rcases (old.after_authed _).mp authed with before | ⟨username, password, same, known⟩
        · exact earlier old stood before (by simp)
        · cases own
          exact ⟨history, r, [], username, password, rfl, Session.obeys_auth.mp same, known, by simp⟩
    · rename_i other
      refine earlier s found authed ⟨?_, ?_⟩ <;>
      · rintro rfl
        exact other rfl

/-- Without a login no store is touched. -/
theorem stores_of_no_login (none_ : ∀ who r username password, .asked who r ∈ history → r.cmd = .auth username password →
    ¬ knows username password) : (service knows numDatabases history).stores = fun _ => .empty := by
  induction history using List.reverseRecOn with
  | nil => rfl
  | append_singleton history o ih =>
    have before := ih fun who r username password member => none_ who r username password (List.mem_append_left _ member)
    rw [service_concat]
    cases o with
    | opened | closed => exact before
    | asked p r =>
      simp only [Service.step, Service.shelve]
      split
      · exact before
      · rename_i s stood
        have gated : s.authed = false := by
          by_contra authed
          obtain ⟨front, q, back, username, password, rfl, auth, known, _⟩ := authed_of_history stood (by simpa using authed)
          exact none_ p q username password (by simp) auth known
        have quiet : Store.empty.act (s.obeys r.cmd) = .empty := by
          unfold Session.obeys
          split
          · rfl
          · rename_i obeyed
            simp only [gated, not_or, not_and, not_not] at obeyed
            cases cmd : r.cmd <;> simp_all [Cmd.type, Store.act, Cmd.rebind, Cmd.remember, Cmd.restack, Cmd.requeue]
        rw [before]
        simp only [quiet, Function.update_eq_self]

end History

end LexiDB
