import LexiDB.Digest
import LexiDB.Growth
import LexiDB.Refinement
import LexiDB.Selection

/-! Whole runs of the event loop against the service: what the databases hold, what
every request is answered, and who can be logged in. -/

namespace LexiDB

open Lib

variable {α : Type}

/-- The state `server_new` leaves for this configuration: its users are added, none
behind an index that an `int` cannot hold. -/
structure World.Launched (env : Env) (config : Config) (w : World α) : Prop extends w.Configured config.databases where
  accepted : ∃ supply fuel input, supply.Grants ∧ input.length + 2 < sizeMod ∧ parseConfig supply fuel input = .ok (.ok config)
  added : ∃ mem rounds address last, (∀ i, Mem.Grants (mem i)) ∧
    addUsers env mem rounds (vecNew address) config.users = .ok (0, w.server.users, last)
  some_ : 0 < config.users.len
  few : config.users.len ≤ 2 ^ 32

/-- What the events of a run are for the service. -/
def occurrences (history : List (Fired α × Option Occurrence)) : List Occurrence := history.filterMap Prod.snd

@[simp] theorem occurrences_concat (history : List (Fired α × Option Occurrence)) (step : Fired α × Option Occurrence) :
    occurrences (history ++ [step]) = occurrences history ++ step.2.toList := by
  obtain ⟨e, o⟩ := step
  cases o <;> simp [occurrences]

section Events

variable {env : Env} {k : Kernel α} {w after : World α}

/-- A request is executed for the client of the descriptor, as it is after the
burst, and on the server as it is then. -/
theorem Kernel.reads_asked (asked : k.reads env w fd = some (.asked who r)) :
    r.before = w.server ∧ r.ans = k.ans ∧
      (∃ c, w.heap who = some c ∧ c.fd = fd ∧ ∃ readBuf readPos readCap, r.client = c.buffered readBuf readPos readCap) ∧
      parse env r.ans.supply r.fuel (r.client.readBuf.take r.client.readPos) = .ok r.cmd ∧ r.Returns env := by
  unfold reads at asked
  split at asked
  · rename_i i pointer c searched
    split at asked
    · cases asked
    · rename_i d looped
      split at asked
      · rename_i cmd s e parsed executed
        cases asked
        obtain ⟨here, same⟩ := findClient_fd _ _ searched
        exact ⟨rfl, rfl, ⟨c, here, same, readLoop_buffered _ _ _ _ _ looped⟩, parsed, executed⟩
      · cases asked
    · cases asked
  · cases asked

theorem Traces.asked {e : Fired α × Option Occurrence} (traces : Traces env w e after) (asked : e.2 = some (.asked who r)) :
    r.before = w.server ∧ r.ans = e.1.k.ans ∧
      (∃ c, w.heap who = some c ∧ c.fd = e.1.fd ∧ ∃ readBuf readPos readCap, r.client = c.buffered readBuf readPos readCap) ∧
      parse env r.ans.supply r.fuel (r.client.readBuf.take r.client.readPos) = .ok r.cmd ∧ r.Returns env := by
  rw [traces.2] at asked
  unfold Fired.occurs at asked
  split at asked
  · split at asked
    · obtain ⟨_, _, clash⟩ := Option.map_eq_some_iff.mp asked
      cases clash
    · exact Kernel.reads_asked asked
    · cases asked
  · cases asked

/-- The session of who asks. -/
theorem Traces.session {e : Fired α × Option Occurrence} (traces : Traces env w e after) (asked : e.2 = some (.asked who r)) :
    (w.heap who).map Client.session = some r.client.session := by
  obtain ⟨_, _, ⟨c, here, _, buf, pos, cap, same⟩, _⟩ := traces.asked asked
  rw [here, same]
  rfl

end Events

section Runs

variable {env : Env} {config : Config} {start w : World α} {history : List (Fired α × Option Occurrence)}
  {R : Nat → Lexidb → Store → Prop}

theorem World.Launched.keeps (launched : start.Launched env config) :
    (∃ mem, start.server.Keeps env mem config.users.elems) ∧ Unambiguous env config.users.elems := by
  obtain ⟨supply, fuel, input, supplies, short, accepted⟩ := launched.accepted
  obtain ⟨mem, rounds, address, last, granted, added⟩ := launched.added
  obtain ⟨sound, count⟩ := parseConfig_sound supplies accepted
  exact ⟨⟨mem, (addUsers_keeps granted sound.valid launched.some_ (by omega) sound.named added).1⟩,
    unambiguous_of_few supplies accepted launched.some_ short granted added launched.few⟩

/-- Nobody is connected, and every database is new. -/
theorem World.Launched.provides (launched : start.Launched env config)
    (new : ∀ d (db : Lexidb), start.server.db[d]? = some db → R d db .empty) :
    start.Provides env config.users.elems (serverDatabases config.databases) R .empty := by
  obtain ⟨mem, made⟩ := launched.made
  obtain ⟨ops, api, registered⟩ := launched.registered
  refine ⟨?_, launched.counted, ?_, launched.keeps.1, ?_, ?_, new⟩
  · have empty : World.Routed ⟨start.server, start.heap, start.fds, (evNew api serverBacklog : Ev EvFileFn α)⟩ := by
      refine ⟨evNew_sized api serverBacklog, ?_, ?_⟩
      · intro fd
        rw [evNew_entry]
        decide
      · intro fd fn leads
        rw [evNew_entry] at leads
        cases leads
    exact empty.add (.inl rfl) registered start.server start.heap start.fds
  · rw [made, launched.counted]
    simp [lexidbNew]
  · simp [launched.heap, Service.empty]
  · intro who s found
    cases found

variable (launched : start.Launched env config) (digests : ∀ text, (env.sha256 text).length = 32)
include launched digests

/-- A run whose requests keep the relation is one of the service. -/
theorem provides_of_run (new : ∀ d (db : Lexidb), start.server.db[d]? = some db → R d db .empty)
    (run : Run (Traces env) start history w)
    (good : ∀ step ∈ history, ∀ who r, step.2 = some (.asked who r) → r.Granted ∧ r.Operates env R) :
    w.Provides env config.users.elems (serverDatabases config.databases) R
      (service (Credentials env config.users.elems) (serverDatabases config.databases) (occurrences history)) := by
  induction run with
  | start => exact launched.provides new
  | next run last ih =>
    have before := ih fun step member => good step (List.mem_append_left _ member)
    have after := before.step (serverDatabases_pos _) launched.keeps.2 digests last (good _ (by simp))
    rw [occurrences_concat]
    cases happened : Prod.snd _ with
    | none =>
      rw [happened] at after
      rw [Option.toList_none, List.append_nil]
      exact after
    | some o =>
      rw [happened] at after
      rw [Option.toList_some, service_concat]
      exact after

/-- Where only the sessions matter, any request will do. -/
theorem sessions_of_run (run : Run (Traces env) start history w)
    (granted : ∀ step ∈ history, ∀ who r, step.2 = some (.asked who r) → r.Granted) (who : Nat) :
    (w.heap who).map Client.session =
      (service (Credentials env config.users.elems) (serverDatabases config.databases) (occurrences history)).sessions who :=
  (provides_of_run (R := fun _ _ _ => True) launched digests (fun _ _ _ => trivial) run
    fun step member who r asked => ⟨granted step member who r asked, fun _ _ _ _ _ => trivial⟩).sessions who

/-- Who is logged in has sent AUTH with credentials, and neither the connection nor
its address was given up since. -/
theorem login_of_run (run : Run (Traces env) start history w)
    (granted : ∀ step ∈ history, ∀ who r, step.2 = some (.asked who r) → r.Granted) (found : w.heap who = some c)
    (authed : c.Authenticated) :
    ∃ front e r back username password, history = front ++ (e, some (.asked who r)) :: back ∧ r.cmd = .auth username password ∧
      Credentials env config.users.elems username password ∧
      ∀ step ∈ back, step.2 ≠ some (.opened who) ∧ step.2 ≠ some (.closed who) := by
  have session := sessions_of_run launched digests run granted who
  rw [found, Option.map_some, eq_comm] at session
  obtain ⟨front, r, back, username, password, cut, auth, known, kept⟩ :=
    authed_of_history session (by simpa [Client.session] using authed)
  obtain ⟨first, rest, rfl, _, cut⟩ := List.filterMap_eq_append_iff.mp cut
  obtain ⟨quiet, step, back', rfl, _, here, rfl⟩ := List.filterMap_eq_cons_iff.mp cut
  refine ⟨first ++ quiet, step.1, r, back', username, password, ?_, auth, known, ?_⟩
  · rw [← here]
    simp
  · intro later member
    have each : ∀ o, later.2 = some o → o ≠ .opened who ∧ o ≠ .closed who := fun o same =>
      kept o (List.mem_filterMap.mpr ⟨later, member, same⟩)
    refine ⟨fun same => (each _ same).1 rfl, fun same => (each _ same).2 rfl⟩

/-- Before the first login nothing that is sent, by however many clients, reaches a
database, and nobody is logged in. -/
theorem untouched_of_run (run : Run (Traces env) start history w)
    (granted : ∀ step ∈ history, ∀ who r, step.2 = some (.asked who r) → r.Granted)
    (refused : ∀ step ∈ history, ∀ who r username password, step.2 = some (.asked who r) → r.cmd = .auth username password →
      ¬ Credentials env config.users.elems username password) :
    w.server.db = start.server.db ∧ ∀ who c, w.heap who = some c → ¬ c.Authenticated := by
  have nobody : ∀ {front : List (Fired α × Option Occurrence)} {v : World α}, Run (Traces env) start front v → front <+: history →
      ∀ who c, v.heap who = some c → ¬ c.Authenticated := by
    rintro front v reached ⟨tail, rfl⟩ who c found authed
    obtain ⟨before, e, r, back, username, password, rfl, auth, known, _⟩ := login_of_run launched digests reached
      (fun step member => granted step (List.mem_append_left _ member)) found authed
    exact refused (e, some (.asked who r)) (by simp) who r username password rfl auth known
  refine ⟨?_, nobody run List.prefix_rfl⟩
  have kept : ∀ step ∈ history, ∀ who r, step.2 = some (.asked who r) →
      r.Granted ∧ r.Operates env fun d db _ => start.server.db[d]? = some db := by
    intro step member who r asked
    refine ⟨granted step member who r asked, fun db a _ _ stands => ?_⟩
    obtain ⟨front, back, cut⟩ := List.append_of_mem member
    obtain ⟨v, next, reached, traces⟩ := run.split front step back cut
    obtain ⟨_, _, ⟨c, here, _, _, _, _, same⟩, _⟩ := traces.asked asked
    have gated : ¬ r.client.Authenticated := by
      rw [same]
      exact nobody reached ⟨_, cut.symm⟩ who c here
    have idle : (r.client.obeys r.cmd).operate env r.ans db = db := by
      unfold Client.obeys
      split
      · rfl
      · rename_i obeyed
        simp only [gated, not_false_eq_true, true_and, not_or, not_not] at obeyed
        cases cmd : r.cmd <;> simp_all [Cmd.type, Cmd.operate]
    rwa [idle]
  have provides := provides_of_run (R := fun d db _ => start.server.db[d]? = some db) launched digests
    (fun _ _ found => found) run kept
  have initial := launched.provides (R := fun _ _ _ => True) fun _ _ _ => trivial
  apply List.ext_getElem?
  intro d
  rcases Nat.lt_or_ge d w.server.db.length with inside | outside
  · rw [provides.stores d _ (List.getElem?_eq_getElem inside)]
    exact List.getElem?_eq_getElem inside
  · rw [List.getElem?_eq_none outside, List.getElem?_eq_none (by rw [initial.size, ← provides.size]; exact outside)]

end Runs

section Digests

/-- The digests are those of sha256.c, for every text on which it returns. -/
structure Env.Hashes (env : Env) : Prop where
  size : ∀ text, (env.sha256 text).length = 32
  runs : ∀ text, text.length < 2 ^ 32 → ∃ fuel ctx, ctx.data.length = 64 ∧ sha256Run fuel ctx [text] = .ok (env.sha256 text)

theorem Env.Hashes.collide {env : Env} (hashes : env.Hashes) {one two : List UInt8} (small : one.length < 2 ^ 32) (short : two.length < 2 ^ 32)
    (same : env.sha256 one = env.sha256 two) : one = two ∨ TransformCollides one two := by
  by_cases equal : one = two
  · exact .inl equal
  · obtain ⟨_, ctx, size, first⟩ := hashes.runs one small
    obtain ⟨_, other, size', second⟩ := hashes.runs two short
    have digest := (sha256Run_eq_ok size first).2
    have digest' := (sha256Run_eq_ok size' second).2
    refine .inr (sha256_collides (by omega) (by omega) equal ?_)
    simpa [digest, digest'] using same

/-- In every state of the event loop, who is logged in has sent, on this connection,
AUTH with the name of a configured user and with that password, or with one that
meets a collision of `sha256_transform` with it. -/
theorem authenticated_of_run {env : Env} {config : Config} {start w : World α} {history : List (Fired α × Option Occurrence)}
    (launched : start.Launched env config) (hashes : env.Hashes) (run : Run (Traces env) start history w)
    (granted : ∀ step ∈ history, ∀ who r, step.2 = some (.asked who r) → r.Granted) (found : w.heap who = some c)
    (authed : c.Authenticated) :
    ∃ front e r back name secret, ∃ user ∈ config.users.elems,
      history = front ++ (e, some (.asked who r)) :: back ∧ r.cmd = .auth (.string name) (.string secret) ∧
      user.name.bytes = name.bytes ∧
      (secret.bytes.length < 2 ^ 32 → user.password.bytes.length < 2 ^ 32 →
        secret.bytes = user.password.bytes ∨ TransformCollides secret.bytes user.password.bytes) ∧
      ∀ step ∈ back, step.2 ≠ some (.opened who) ∧ step.2 ≠ some (.closed who) := by
  obtain ⟨front, e, r, back, _, _, cut, auth, ⟨name, secret, rfl, rfl, user, member, named, same⟩, kept⟩ :=
    login_of_run launched hashes.size run granted found authed
  exact ⟨front, e, r, back, name, secret, user, member, cut, auth, named, fun small short => hashes.collide small short same, kept⟩

end Digests

section Root

/-- The digest of "root". -/
def rootDigest : List UInt8 := [
    0x48, 0x13, 0x49, 0x4d, 0x13, 0x7e, 0x16, 0x31, 0xbb, 0xa3, 0x01, 0xd5, 0xac, 0xab, 0x6e, 0x7b,
    0xb7, 0xaa, 0x74, 0xce, 0x11, 0x85, 0xd4, 0x56, 0x56, 0x5e, 0xf5, 0x1d, 0x73, 0x76, 0x77, 0xb2]

/-- Digests as sha256.c computes them, that of "root" looked up. -/
def Env.hashing : Env := { Env.sample with sha256 := fun text => if text = cstr "root" then rootDigest else Fips.sha256 text }

theorem hashing_hashes : Env.hashing.Hashes := by
  have known : Fips.sha256 (cstr "root") = rootDigest :=
    (sha256Run_eq_ok (c := ⟨List.replicate 64 0, 0, 0, Fips.initial⟩) (n := 5) (l := [cstr "root"]) rfl (by decide +kernel)).2.symm
  have all : ∀ text, Env.hashing.sha256 text = Fips.sha256 text := by
    intro text
    simp only [Env.hashing]
    split
    · rename_i same
      rw [same, known]
    · rfl
  refine ⟨fun text => by rw [all, Fips.sha256_length], fun text small => ?_⟩
  have returns := sha256Run_returns (c := ⟨List.replicate 64 0, 0, 0, Fips.initial⟩) rfl [text] (by simpa using small)
  rw [List.flatten_singleton, ← all] at returns
  exact ⟨_, _, rfl, returns⟩

/-- A configuration with one user. -/
def rootConfig : Config :=
  match parseConfig (.granted fun unread _ => unread) 64 (cstr "\nuser root >root") with
  | .ok (.ok config) => config
  | _ => ⟨0, 0, vstrNew, vecNew 0, vstrNew⟩

def rootUsers : Vec User :=
  match addUsers .hashing (fun _ => .granted 1) 8 (vecNew 1) rootConfig.users with
  | .ok (_, users, _) => users
  | _ => vecNew 0

/-- The listening server with that user. -/
def rooted : World Unit :=
  { listening with server := { listening.server with
      numDatabases := serverDatabases rootConfig.databases
      db := lexidbNew (fun _ => ⟨[], 0, [], 0⟩) (serverDatabases rootConfig.databases)
      users := rootUsers } }

theorem rooted_launched : rooted.Launched .hashing rootConfig where
  clients := ⟨0, rfl⟩
  heap := rfl
  listening := by decide
  registered := ⟨Kernel.idle.api, (), rfl⟩
  counted := rfl
  made := ⟨fun _ => ⟨[], 0, [], 0⟩, rfl⟩
  accepted := ⟨.granted fun unread _ => unread, 64, cstr "\nuser root >root", Supply.granted_grants _, by decide, by rfl⟩
  added := ⟨fun _ => .granted 1, 8, 1, _, fun _ => Mem.granted_grants 1, by rfl⟩
  some_ := by decide +kernel
  few := by decide +kernel

/-- The world after an event. -/
def World.reached (w : World Unit) (e : Fired Unit) : World Unit :=
  ((w.processEvent .hashing e.k e.fd e.mask).toOption).getD w

/-- It is processed without a fault. -/
def World.returns (w : World Unit) (e : Fired Unit) : Bool :=
  (w.processEvent .hashing e.k e.fd e.mask).toOption.isSome

theorem reached_traces {w : World Unit} {e : Fired Unit} (possible : e.k.Possible w) (returns : w.returns e = true) :
    Traces .hashing w (e, e.occurs .hashing w) (w.reached e) := by
  refine ⟨⟨possible, ?_⟩, rfl⟩
  unfold World.reached
  unfold World.returns at returns
  cases done : w.processEvent .hashing e.k e.fd e.mask with
  | error => simp [done, Except.toOption] at returns
  | ok after => rfl

def login : Fired Unit := sends 5 (cstr "*3\r\n$4\r\nAUTH\r\n$4\r\nroot\r\n$4\r\nroot\r\n")

def opened : World Unit := rooted.reached (connects 5 1)

/-- KEYS. -/
private def asks : Fired Unit := sends 5 (cstr "+KEYS\r\n")

/-- The steps of the runs below, evaluated. -/
private theorem root_steps :
    rooted.returns (connects 5 1) = true ∧ opened.returns login = true ∧ opened.returns asks = true ∧ opened.returns (connects 6 2) = true ∧
      (((opened.reached login).heap 1).map fun c => decide c.Authenticated) = some true ∧
      (match login.occurs .hashing opened with
        | some (.asked _ r) => decide (r.cmd.type = .auth)
        | _ => false) = true ∧
      (match asks.occurs .hashing opened with
        | some (.asked _ r) => decide (r.cmd.type = .keys)
        | _ => false) = true := by
  decide +kernel

private theorem connects_possible : (connects 5 1).k.Possible rooted :=
  ⟨by rintro cfd ⟨⟩; decide, by rintro pointer ⟨⟩; rfl⟩

theorem sends_possible (w : World Unit) (bytes : List UInt8) : (sends 5 bytes).k.Possible w :=
  ⟨by rintro cfd ⟨⟩, by rintro pointer ⟨⟩⟩

def rootHistory : List (Fired Unit × Option Occurrence) :=
  [(connects 5 1, (connects 5 1).occurs .hashing rooted), (login, login.occurs .hashing opened)]

theorem opened_traces : Traces .hashing rooted (connects 5 1, (connects 5 1).occurs .hashing rooted) opened :=
  reached_traces connects_possible root_steps.1

theorem login_traces : Traces .hashing opened (login, login.occurs .hashing opened) (opened.reached login) :=
  reached_traces (sends_possible _ _) root_steps.2.1

theorem root_run : Run (Traces .hashing) rooted rootHistory (opened.reached login) := .next (.next .start opened_traces) login_traces

/-- Where every allocation of a run is granted, those of its requests are. -/
theorem granted_of_run {env : Env} {start w : World α} {history : List (Fired α × Option Occurrence)}
    (run : Run (Traces env) start history w) (grants : ∀ step ∈ history, step.1.k.ans.Grants) :
    ∀ step ∈ history, ∀ who r, step.2 = some (.asked who r) → r.ans.Grants := by
  intro step member who r asked
  obtain ⟨front, back, cut⟩ := List.append_of_mem member
  obtain ⟨v, next, _, traces⟩ := run.split front step back cut
  rw [(traces.asked asked).2.1]
  exact grants step member

theorem root_grants : ∀ step ∈ rootHistory, step.1.k.ans.Grants := by
  intro step member
  rcases List.mem_cons.mp member with rfl | last
  · exact Answers.granted_grants _ _
  · cases List.mem_singleton.mp last
    exact Answers.granted_grants _ _

theorem authenticated_of_run_root : ∃ e r name secret, (e, some (Occurrence.asked 1 r)) ∈ rootHistory ∧
    r.cmd = .auth (.string name) (.string secret) := by
  obtain ⟨_, _, _, _, shown, _⟩ := root_steps
  obtain ⟨c, found, authed⟩ := Option.map_eq_some_iff.mp shown
  replace authed : c.Authenticated := of_decide_eq_true authed
  obtain ⟨front, e, r, back, name, secret, _, _, cut, auth, _⟩ := authenticated_of_run rooted_launched hashing_hashes root_run
    (fun step member who r asked =>
      ⟨(granted_of_run root_run root_grants step member who r asked).supply, (granted_of_run root_run root_grants step member who r asked).hash⟩)
    found authed
  exact ⟨e, r, name, secret, by rw [cut]; simp, auth⟩

private theorem asks_run : Run (Traces .hashing) rooted
    [(connects 5 1, (connects 5 1).occurs .hashing rooted), (asks, asks.occurs .hashing opened)] (opened.reached asks) := by
  obtain ⟨_, _, asked, _⟩ := root_steps
  have second : Traces .hashing opened (asks, asks.occurs .hashing opened) (opened.reached asks) :=
    reached_traces (sends_possible _ _) asked
  exact .next (.next .start opened_traces) second

theorem untouched_of_run_asks : (opened.reached asks).server.db = rooted.server.db := by
  have grants := granted_of_run asks_run (fun step member => by
    rcases List.mem_cons.mp member with rfl | last
    · exact Answers.granted_grants _ _
    · cases List.mem_singleton.mp last
      exact Answers.granted_grants _ _)
  refine (untouched_of_run rooted_launched hashing_hashes.size asks_run
    (fun step member who r asked => ⟨(grants step member who r asked).supply, (grants step member who r asked).hash⟩) ?_).1
  intro step member who r username password asked auth
  rcases List.mem_cons.mp member with rfl | last
  · have other : (connects 5 1).occurs .hashing rooted = some (.opened 1) := rfl
    rw [other] at asked
    cases asked
  · cases List.mem_singleton.mp last
    obtain ⟨_, _, _, _, _, _, shown⟩ := root_steps
    change asks.occurs .hashing opened = _ at asked
    rw [asked] at shown
    have keys : r.cmd.type = .keys := of_decide_eq_true shown
    simp [auth, Cmd.type] at keys

end Root

end LexiDB
