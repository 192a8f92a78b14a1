/-
# The client library (`kvclient.cpp`)

The library keeps its session in globals: `kv_client`, the connection, and
`current_leader`, the server it should lead to.  The operations of
`KvstoreRPCClient` are outside of this file: each of them returns any result,
or throws a `LeaderRedirectException` or another `std::exception`, and what it
does in a call is an argument of that call (`Reply`).  So is its destructor, which
an assignment to `kv_client` runs on the old client: it is taken to return, as it
does where both clients have as many hosts (`RpcClient.Process.Inv.assign_iff`).

A method is a computation on the session that may throw; a dereference of a null
`kv_client` ends it as well, and no handler catches that.  The session also keeps
a history of the moments the property is about, newest first: the values given to
`current_leader` and the requests, each with the client it went through.

The code serves a session well exactly when `get`, `put` and `die` are called only
while there is a client, `get` and `put` not after an `init` that ended on a
server other than the leader, and no connection of a redirect fails
(`served_iff`).
-/
import KVStore.Hoare
import KVStore.Run
import Mathlib.Data.List.Basic

namespace KVStore

namespace Client

/-! ## The session -/

/-- The bytes of a string. -/
abbrev Bytes : Type := List UInt8

/-- A client object, by the string it was constructed with. -/
structure KvstoreRPCClient where
  hosts : String
  deriving DecidableEq, Repr

inductive RequestType : Type where
  | GET_REQ
  | PUT_REQ
  deriving DecidableEq, Repr

structure KvstoreRequest where
  requestType : RequestType
  key : Bytes
  value : Bytes
  deriving DecidableEq, Repr

structure KvstoreResponse where
  found : Bool
  value : Bytes
  oldValue : Bytes
  deriving DecidableEq, Repr

/-- What an operation of a client does in a call. -/
inductive Reply (α : Type) : Type where
  | returns (a : α)
  | leaderRedirectException (newLeaderAddress : String)
  /-- Any other `std::exception`. -/
  | exception
  deriving DecidableEq, Repr

inductive Moment : Type where
  /-- `current_leader` is assigned. -/
  | leader (server : String)
  /-- `client` sends a request while `current_leader` has the given value. -/
  | request (client : KvstoreRPCClient) (currentLeader : String) (request : KvstoreRequest)
  /-- `client` is asked to terminate a server. -/
  | terminateServer (client : KvstoreRPCClient) (serverName : Bytes) (clean : ℤ)
  deriving DecidableEq, Repr

/-- The globals of the library, and what has happened, newest first. -/
structure Session where
  kvClient : Option KvstoreRPCClient
  serverList : List String
  currentLeader : String
  history : List Moment
  deriving DecidableEq, Repr

/-- The globals before the first call. -/
def Session.initial : Session := ⟨none, [], "", []⟩

/-- How a function may end without returning. -/
inductive CppError : Type where
  | leaderRedirectException (newLeaderAddress : String)
  | exception
  /-- Undefined behaviour, not an exception. -/
  | nullDereference
  deriving DecidableEq, Repr

abbrev Method (α : Type) : Type := EStateM CppError Session α

def Reply.perform {α : Type} : Reply α → Method α
  | .returns a => return a
  | .leaderRedirectException newLeaderAddress => throw (.leaderRedirectException newLeaderAddress)
  | .exception => throw .exception

/-- `catch (const std::exception& e)` -/
def catchStd {α : Type} (m handler : Method α) : Method α :=
  tryCatch m fun e =>
    match e with
    | .nullDereference => throw e
    | _ => handler

/-- `kv_client->` -/
def deref : Method KvstoreRPCClient := do
  match (← get).kvClient with
  | some client => return client
  | none => throw .nullDereference

/-- `kv_client = std::make_shared<KvstoreRPCClient>(server)` -/
def connect (server : String) (construction : Reply Unit) : Method Unit := do
  construction.perform
  modify fun s => { s with kvClient := some ⟨server⟩ }

def setCurrentLeader (server : String) : Method Unit :=
  modify fun s => { s with currentLeader := server, history := .leader server :: s.history }

def sendRequest (request : KvstoreRequest) (reply : Reply KvstoreResponse) :
    Method KvstoreResponse := do
  let client ← deref
  modify fun s => { s with history := .request client s.currentLeader request :: s.history }
  reply.perform

/-! ## The functions of the library -/

/-- A server of the list, and what its construction and `IsLeader` do. -/
structure Attempt where
  server : String
  construction : Reply Unit
  isLeader : Reply Bool
  deriving DecidableEq, Repr

/-- The body of the `try` in the loop of `kv739_init`; whether it returns `0`. -/
def tryServer (a : Attempt) : Method Bool := do
  connect a.server a.construction
  let _ ← deref
  if ← a.isLeader.perform then
    setCurrentLeader a.server
    return true
  return false

def findLeader : List Attempt → Method ℤ
  | [] => return -1
  | a :: attempts => do
      if ← catchStd (tryServer a) (return false) then
        return 0
      findLeader attempts

def kv739Init (attempts : List Attempt) : Method ℤ := do
  modify fun s => { s with serverList := attempts.map Attempt.server }
  findLeader attempts

def kv739Shutdown (reply : Reply Unit) : Method ℤ :=
  catchStd
    (do
      if (← get).kvClient.isSome then
        let _ ← deref
        reply.perform
        modify fun s => { s with kvClient := none }
      return 0)
    (return -1)

def kv739Die (serverName : Bytes) (clean : ℤ) (reply : Reply ℤ) : Method ℤ :=
  catchStd
    (do
      let client ← deref
      modify fun s => { s with history := .terminateServer client serverName clean :: s.history }
      reply.perform)
    (return -1)

/-- A buffer after at most `2047` bytes of `value` and a zero were copied to its front. -/
def copyTo (value buffer : Bytes) : Bytes :=
  let bytes := value.take 2047
  bytes ++ 0 :: buffer.drop (bytes.length + 1)

/-- The code, and what is in the buffer `value` then; `none` is a null pointer. -/
def kv739Get (key value : Option Bytes) (reply : Reply KvstoreResponse) :
    Method (ℤ × Option Bytes) :=
  match key, value with
  | some key, some value =>
      catchStd
        (do
          let response ← sendRequest ⟨.GET_REQ, key, []⟩ reply
          if !response.found then
            return (1, some value)
          return (0, some (copyTo response.value value)))
        (return (-1, some value))
  | _, value => return (-1, value)

/-- The `while` loop of `kv739_put`.  A redirect connects to the new leader inside
the handler, outside of every `try`. -/
def putLoop (request : KvstoreRequest) (oldValue : Bytes) (replies : ℕ → Reply KvstoreResponse)
    (constructions : ℕ → Reply Unit) : ℕ → Method (ℤ × Option Bytes)
  | 0 => return (-1, some oldValue)
  | retryCount + 1 =>
      tryCatch
        (do
          let response ← sendRequest request (replies (retryCount + 1))
          if !response.found then
            return (1, some oldValue)
          return (0, some (copyTo response.oldValue oldValue)))
        fun e =>
          match e with
          | .leaderRedirectException newLeaderAddress => do
              setCurrentLeader newLeaderAddress
              connect newLeaderAddress (constructions (retryCount + 1))
              putLoop request oldValue replies constructions retryCount
          | .exception => return (-1, some oldValue)
          | .nullDereference => throw e

/-- The code, and what is in the buffer `old_value` then.  The replies and the
constructions are those of the rounds with that `retry_count`. -/
def kv739Put (key value oldValue : Option Bytes) (replies : ℕ → Reply KvstoreResponse)
    (constructions : ℕ → Reply Unit) : Method (ℤ × Option Bytes) :=
  match key, value, oldValue with
  | some key, some value, some oldValue =>
      putLoop ⟨.PUT_REQ, key, value⟩ oldValue replies constructions 3
  | _, _, oldValue => return (-1, oldValue)

/-! ## Calls -/

/-- A call with arguments that are not null, and what the operations do in it. -/
inductive Call : Type where
  | init (attempts : List Attempt)
  | shutdown (reply : Reply Unit)
  | die (serverName : Bytes) (clean : ℤ) (reply : Reply ℤ)
  | get (key value : Bytes) (reply : Reply KvstoreResponse)
  | put (key value oldValue : Bytes) (replies : ℕ → Reply KvstoreResponse)
      (constructions : ℕ → Reply Unit)

namespace Call

/-- The integer the call returns. -/
def code : Call → Method ℤ
  | .init attempts => kv739Init attempts
  | .shutdown reply => kv739Shutdown reply
  | .die serverName clean reply => kv739Die serverName clean reply
  | .get key value reply => Prod.fst <$> kv739Get (some key) (some value) reply
  | .put key value oldValue replies constructions =>
      Prod.fst <$> kv739Put (some key) (some value) (some oldValue) replies constructions

/-- The codes of the function. -/
def Code : Call → ℤ → Prop
  | .init _, c | .shutdown _, c => c = 0 ∨ c = -1
  | .die _ _ reply, c => c = -1 ∨ reply = .returns c
  | .get _ _ _, c | .put _ _ _ _ _, c => c = 0 ∨ c = 1 ∨ c = -1

/-- The call works through `kv_client`. -/
def usesClient : Call → Bool
  | .init _ | .shutdown _ => false
  | .die _ _ _ | .get _ _ _ | .put _ _ _ _ _ => true

end Call

/-! ## Serving a session well -/

/-- The value of `current_leader` that the last successful `init` or redirect set. -/
def leaderOf : List Moment → Option String
  | [] => none
  | .leader server :: _ => some server
  | .request _ _ _ :: history => leaderOf history
  | .terminateServer _ _ _ :: history => leaderOf history

/-- Every request went through a client connected to `current_leader` as it was set
last. -/
def Routed : List Moment → Prop
  | [] => True
  | .leader _ :: history => Routed history
  | .request client currentLeader _ :: history =>
      (client.hosts = currentLeader ∧ leaderOf history = some currentLeader) ∧ Routed history
  | .terminateServer _ _ _ :: history => Routed history

/-- The call returns one of its codes, and `-1` where it needs a client and there is
none. -/
def Answers (s : Session) (c : Call) : Prop :=
  ∃ code s', c.code.run s = .ok code s' ∧ c.Code code ∧
    (s.kvClient = none → c.usesClient = true → code = -1)

/-- A session, and whether its client was left by an `init` on a server that is not
the leader. -/
structure Watch where
  session : Session
  stray : Bool

/-- The construction returns. -/
def Attempt.connects (a : Attempt) : Bool := decide (a.construction = .returns ())

/-- The construction returns, and `IsLeader` returns `true`. -/
def Attempt.leads (a : Attempt) : Bool := a.connects && decide (a.isLeader = .returns true)

/-- The server an `init` that finds no leader ends on. -/
def lastServer (attempts : List Attempt) : Option String :=
  (attempts.filter Attempt.connects).getLast?.map Attempt.server

def Reply.isRedirect {α : Type} : Reply α → Bool
  | .leaderRedirectException _ => true
  | .returns _ | .exception => false

/-- No construction of a redirect fails in the rounds from `retryCount` on. -/
def Reconnects (replies : ℕ → Reply KvstoreResponse) (constructions : ℕ → Reply Unit) : ℕ → Prop
  | 0 => True
  | retryCount + 1 => (replies (retryCount + 1)).isRedirect = true →
      constructions (retryCount + 1) = .returns () ∧ Reconnects replies constructions retryCount

instance Reconnects.decidable (replies : ℕ → Reply KvstoreResponse)
    (constructions : ℕ → Reply Unit) : ∀ k, Decidable (Reconnects replies constructions k)
  | 0 => inferInstanceAs (Decidable True)
  | k + 1 =>
      have := Reconnects.decidable replies constructions k
      inferInstanceAs (Decidable (_ → _ ∧ _))

namespace Watch

def start : Watch := ⟨Session.initial, false⟩

/-- An `init` that finds no leader leaves the client of the last server it
connected to; a successful `init` or `shutdown` ends that. -/
def strayAfter (w : Watch) : Call → Bool
  | .init attempts =>
      if attempts.any Attempt.leads then false
      else
        match lastServer attempts with
        | some server => decide (leaderOf w.session.history ≠ some server)
        | none => w.stray
  | .shutdown (.returns _) => false
  | _ => w.stray

def step (w : Watch) (c : Call) : Watch := ⟨Exec.finalState c.code w.session, w.strayAfter c⟩

/-- There is a client for the calls that need one, requests are not sent through a
stray one, and no construction of a redirect fails. -/
def Careful (w : Watch) : Call → Prop
  | .init _ | .shutdown _ => True
  | .die _ _ _ => w.session.kvClient.isSome = true
  | .get _ _ _ => w.session.kvClient.isSome = true ∧ w.stray = false
  | .put _ _ _ replies constructions =>
      w.session.kvClient.isSome = true ∧ w.stray = false ∧ Reconnects replies constructions 3

instance (w : Watch) : ∀ c, Decidable (w.Careful c)
  | .init _ | .shutdown _ => inferInstanceAs (Decidable True)
  | .die _ _ _ => inferInstanceAs (Decidable (_ = true))
  | .get _ _ _ => inferInstanceAs (Decidable (_ ∧ _))
  | .put _ _ _ _ _ => inferInstanceAs (Decidable (_ ∧ _ ∧ _))

def after (cs : List Call) : Watch := Run.run step start cs

/-- Every call of the run answers, and every request is routed to the leader. -/
def Served (cs : List Call) : Prop :=
  (∀ p c, p ++ [c] <+: cs → Answers (after p).session c) ∧
    ∀ p, p <+: cs → Routed (after p).session.history

end Watch

/-! ## What each function does -/

namespace Session

/-- The session after `kv_client` is assigned. -/
def connected (s : Session) (server : String) : Session := { s with kvClient := some ⟨server⟩ }

/-- The session after `current_leader` is assigned. -/
def named (s : Session) (server : String) : Session :=
  { s with currentLeader := server, history := .leader server :: s.history }

/-- The session after `client` has sent a request. -/
def requested (s : Session) (client : KvstoreRPCClient) (request : KvstoreRequest) : Session :=
  { s with history := .request client s.currentLeader request :: s.history }

end Session

/-- One server of the list: it is connected to, and named if it leads. -/
theorem run_tryServer (a : Attempt) (s : Session) :
    (catchStd (tryServer a) (return false)).run s = .ok a.leads
      (if a.leads then (s.connected a.server).named a.server
      else if a.connects then s.connected a.server else s) := by
  obtain ⟨server, construction, isLeader⟩ := a
  cases construction with
  | leaderRedirectException address => rfl
  | exception => rfl
  | returns u =>
      cases isLeader with
      | leaderRedirectException address => rfl
      | exception => rfl
      | returns b => cases b <;> rfl

/-- The last server that was connected to, from the end of the list. -/
theorem lastServer_cons (a : Attempt) (attempts : List Attempt) :
    lastServer (a :: attempts) =
      if a.connects then some ((lastServer attempts).getD a.server) else lastServer attempts := by
  unfold lastServer
  by_cases hconnects : a.connects = true
  · rw [List.filter_cons_of_pos hconnects, List.getLast?_cons, if_pos hconnects]
    cases (attempts.filter Attempt.connects).getLast? <;> rfl
  · rw [List.filter_cons_of_neg hconnects, if_neg hconnects]

/-- **What the loop of `kv739_init` does**: it ends on the first server that leads,
or on the last one it could connect to. -/
theorem run_findLeader (attempts : List Attempt) (s : Session) :
    (findLeader attempts).run s =
      match attempts.find? Attempt.leads with
      | some a => .ok 0 ((s.connected a.server).named a.server)
      | none => .ok (-1) ((lastServer attempts).elim s s.connected) := by
  induction attempts generalizing s with
  | nil => rfl
  | cons a attempts ih =>
      rw [findLeader, Exec.run_bind_ok (run_tryServer a s), List.find?_cons]
      cases hleads : a.leads with
      | true => rfl
      | false =>
          rw [if_neg (by simp), if_neg (by simp), ih, lastServer_cons]
          by_cases hconnects : a.connects = true
          · rw [if_pos hconnects, if_pos hconnects]
            cases lastServer attempts <;> rfl
          · rw [if_neg hconnects, if_neg hconnects]

/-- What was routed by a later moment was routed before. -/
theorem Routed.of_suffix {history later : List Moment} (h : Routed later)
    (hs : history <:+ later) : Routed history := by
  obtain ⟨newer, rfl⟩ := hs
  induction newer with
  | nil => exact h
  | cons m newer ih =>
      cases m with
      | leader server => exact ih h
      | request client currentLeader request => exact ih h.2
      | terminateServer client serverName clean => exact ih h

/-- The session leads to the leader. -/
structure Tied (s : Session) (client : KvstoreRPCClient) : Prop where
  client_eq : s.kvClient = some client
  hosts_eq : client.hosts = s.currentLeader
  leader_eq : leaderOf s.history = some s.currentLeader
  routed : Routed s.history

/-- A request leaves the client tied to the leader. -/
theorem Tied.requested {s : Session} {client : KvstoreRPCClient} (h : Tied s client)
    (request : KvstoreRequest) : Tied (s.requested client request) client :=
  ⟨h.client_eq, h.hosts_eq, h.leader_eq, ⟨h.hosts_eq, h.leader_eq⟩, h.routed⟩

/-- A redirect and a successful `init` tie the session to the new leader. -/
theorem Routed.tied_redirected {s : Session} (h : Routed s.history) (server : String) :
    Tied ((s.named server).connected server) ⟨server⟩ :=
  ⟨rfl, rfl, rfl, h⟩

section Put

variable (request : KvstoreRequest) (oldValue : Bytes) (replies : ℕ → Reply KvstoreResponse)
  (constructions : ℕ → Reply Unit) {client : KvstoreRPCClient} {s : Session}

/-- One round of the loop, by what the request does. -/
theorem run_putLoop_succ (h : s.kvClient = some client) (k : ℕ) :
    (putLoop request oldValue replies constructions (k + 1)).run s =
      match replies (k + 1) with
      | .returns response =>
          .ok (if !response.found then (1, some oldValue)
            else (0, some (copyTo response.oldValue oldValue))) (s.requested client request)
      | .exception => .ok (-1, some oldValue) (s.requested client request)
      | .leaderRedirectException address =>
          (do
            connect address (constructions (k + 1))
            putLoop request oldValue replies constructions k).run
              ((s.requested client request).named address) := by
  obtain ⟨kv, servers, leader, history⟩ := s
  obtain rfl : kv = some client := h
  rw [putLoop]
  cases hreply : replies (k + 1) with
  | returns response =>
      obtain ⟨found, value, old⟩ := response
      cases found <;> rfl
  | leaderRedirectException address => rfl
  | exception => rfl

/-- While the client leads to the leader and no construction of a redirect fails,
the loop returns one of its codes and so leaves the session. -/
theorem run_putLoop_of_tied {k : ℕ} (h : Tied s client)
    (hre : Reconnects replies constructions k) :
    ∃ result s' client', (putLoop request oldValue replies constructions k).run s = .ok result s' ∧
      (result.1 = 0 ∨ result.1 = 1 ∨ result.1 = -1) ∧ Tied s' client' := by
  induction k generalizing s client with
  | zero => exact ⟨_, s, client, rfl, Or.inr (Or.inr rfl), h⟩
  | succ k ih =>
      rw [run_putLoop_succ _ _ _ _ h.client_eq]
      unfold Reconnects at hre
      cases hreply : replies (k + 1) with
      | returns response =>
          refine ⟨_, _, client, rfl, ?_, h.requested request⟩
          split_ifs
          · exact Or.inr (Or.inl rfl)
          · exact Or.inl rfl
      | exception => exact ⟨_, _, client, rfl, Or.inr (Or.inr rfl), h.requested request⟩
      | leaderRedirectException address =>
          obtain ⟨hcon, hrest⟩ := hre (by rw [hreply]; rfl)
          rw [hcon]
          exact ih ((h.requested request).routed.tied_redirected address) hrest

/-- A construction of a redirect that fails leaves the loop. -/
theorem run_putLoop_error {k : ℕ} (h : s.kvClient = some client)
    (hre : ¬ Reconnects replies constructions k) :
    ∃ e s', (putLoop request oldValue replies constructions k).run s = .error e s' := by
  induction k generalizing s client with
  | zero => exact absurd trivial hre
  | succ k ih =>
      rw [run_putLoop_succ _ _ _ _ h]
      unfold Reconnects at hre
      cases hreply : replies (k + 1) with
      | returns response => exact absurd (fun hr => by rw [hreply] at hr; cases hr) hre
      | exception => exact absurd (fun hr => by rw [hreply] at hr; cases hr) hre
      | leaderRedirectException address =>
          cases hcon : constructions (k + 1) with
          | returns u =>
              apply ih (s := ((s.requested client request).named address).connected address) rfl
              intro hrest
              exact hre fun _ => ⟨hcon, hrest⟩
          | leaderRedirectException other => exact ⟨_, _, rfl⟩
          | exception => exact ⟨_, _, rfl⟩

/-- The first request of a round stays in the history. -/
theorem suffix_putLoop_succ {k : ℕ} (h : s.kvClient = some client)
    (hrest : ∀ s' client', s'.kvClient = some client' → s'.history <:+
      (Exec.finalState (putLoop request oldValue replies constructions k) s').history) :
    (s.requested client request).history <:+
      (Exec.finalState (putLoop request oldValue replies constructions (k + 1)) s).history := by
  have hnamed : ∀ address, (s.requested client request).history <:+
      ((s.requested client request).named address).history := fun address => List.suffix_cons _ _
  unfold Exec.finalState at hrest ⊢
  rw [run_putLoop_succ _ _ _ _ h]
  cases hreply : replies (k + 1) with
  | returns response => exact List.suffix_rfl
  | exception => exact List.suffix_rfl
  | leaderRedirectException address =>
      cases hcon : constructions (k + 1) with
      | returns u =>
          exact (hnamed address).trans
            (hrest (((s.requested client request).named address).connected address) _ rfl)
      | leaderRedirectException other => exact hnamed address
      | exception => exact hnamed address

/-- The loop only adds to the history. -/
theorem suffix_putLoop {k : ℕ} (h : s.kvClient = some client) :
    s.history <:+
      (Exec.finalState (putLoop request oldValue replies constructions k) s).history := by
  induction k generalizing s client with
  | zero => exact List.suffix_rfl
  | succ k ih =>
      have hfirst := suffix_putLoop_succ request oldValue replies constructions h
        (k := k) fun s' client' h' => ih h'
      exact (List.suffix_cons _ _).trans hfirst

end Put

/-- Without a client the calls that need one dereference a null pointer. -/
theorem run_code_of_null {s : Session} (h : s.kvClient = none) {c : Call}
    (hc : c.usesClient = true) : c.code.run s = .error .nullDereference s := by
  obtain ⟨kv, servers, leader, history⟩ := s
  obtain rfl : kv = none := h
  cases c with
  | init attempts => cases hc
  | shutdown reply => cases hc
  | die serverName clean reply => rfl
  | get key value reply => rfl
  | put key value oldValue replies constructions => rfl

/-- With a client, `kv739_die` answers what the server answers, or `-1`. -/
theorem run_die {s : Session} {client : KvstoreRPCClient} (h : s.kvClient = some client)
    (serverName : Bytes) (clean : ℤ) (reply : Reply ℤ) :
    ∃ code, (Call.die serverName clean reply).code.run s
        = .ok code { s with history := .terminateServer client serverName clean :: s.history } ∧
      (code = -1 ∨ reply = .returns code) := by
  obtain ⟨kv, servers, leader, history⟩ := s
  obtain rfl : kv = some client := h
  cases reply with
  | returns code => exact ⟨code, rfl, Or.inr rfl⟩
  | leaderRedirectException address => exact ⟨-1, rfl, Or.inl rfl⟩
  | exception => exact ⟨-1, rfl, Or.inl rfl⟩

/-- With a client, `kv739_get` answers one of its codes. -/
theorem run_get {s : Session} {client : KvstoreRPCClient} (h : s.kvClient = some client)
    (key value : Bytes) (reply : Reply KvstoreResponse) :
    ∃ code, (Call.get key value reply).code.run s
        = .ok code (s.requested client ⟨.GET_REQ, key, []⟩) ∧
      (code = 0 ∨ code = 1 ∨ code = -1) := by
  obtain ⟨kv, servers, leader, history⟩ := s
  obtain rfl : kv = some client := h
  cases reply with
  | returns response =>
      obtain ⟨found, value, old⟩ := response
      cases found with
      | true => exact ⟨0, rfl, Or.inl rfl⟩
      | false => exact ⟨1, rfl, Or.inr (Or.inl rfl)⟩
  | leaderRedirectException address => exact ⟨-1, rfl, Or.inr (Or.inr rfl)⟩
  | exception => exact ⟨-1, rfl, Or.inr (Or.inr rfl)⟩

/-- A `shutdown` lets go of the client unless its `Shutdown` throws. -/
theorem run_shutdown (s : Session) (reply : Reply Unit) :
    ∃ code, (Call.shutdown reply).code.run s
        = .ok code (if reply = .returns () then { s with kvClient := none } else s) ∧
      (code = 0 ∨ code = -1) := by
  obtain ⟨kv, servers, leader, history⟩ := s
  cases kv with
  | none =>
      refine ⟨0, ?_, Or.inl rfl⟩
      split_ifs <;> rfl
  | some client =>
      cases reply with
      | returns u => exact ⟨0, rfl, Or.inl rfl⟩
      | leaderRedirectException address => exact ⟨-1, rfl, Or.inr rfl⟩
      | exception => exact ⟨-1, rfl, Or.inr rfl⟩

/-- `kv739_init` looks for a leader in the list it has read. -/
theorem run_init (s : Session) (attempts : List Attempt) :
    (Call.init attempts).code.run s =
      (findLeader attempts).run { s with serverList := attempts.map Attempt.server } := rfl

/-- A put ends as its loop does. -/
theorem finalState_put (s : Session) (key value oldValue : Bytes)
    (replies : ℕ → Reply KvstoreResponse) (constructions : ℕ → Reply Unit) :
    Exec.finalState (Call.put key value oldValue replies constructions).code s
      = Exec.finalState (putLoop ⟨.PUT_REQ, key, value⟩ oldValue replies constructions 3) s := by
  show Exec.finalState (Prod.fst <$> putLoop _ oldValue replies constructions 3) s = _
  rw [map_eq_pure_bind]
  exact Exec.finalState_bind_pure _ _ _

/-- A loop that returns gives the put its code. -/
theorem run_put_ok {s s' : Session} {key value oldValue : Bytes}
    {replies : ℕ → Reply KvstoreResponse} {constructions : ℕ → Reply Unit}
    {result : ℤ × Option Bytes}
    (h : (putLoop ⟨.PUT_REQ, key, value⟩ oldValue replies constructions 3).run s = .ok result s') :
    (Call.put key value oldValue replies constructions).code.run s = .ok result.1 s' := by
  show (Prod.fst <$> putLoop _ oldValue replies constructions 3).run s = _
  rw [map_eq_pure_bind, Exec.run_bind_ok h]
  rfl

/-- An exception of the loop leaves the put. -/
theorem run_put_error {s s' : Session} {key value oldValue : Bytes}
    {replies : ℕ → Reply KvstoreResponse} {constructions : ℕ → Reply Unit} {e : CppError}
    (h : (putLoop ⟨.PUT_REQ, key, value⟩ oldValue replies constructions 3).run s = .error e s') :
    (Call.put key value oldValue replies constructions).code.run s = .error e s' := by
  show (Prod.fst <$> putLoop _ oldValue replies constructions 3).run s = _
  rw [map_eq_pure_bind, Exec.run_bind_error h]

/-- `kv739_init` answers `0` or `-1`. -/
theorem run_init_code (s : Session) (attempts : List Attempt) :
    ∃ code s', (Call.init attempts).code.run s = .ok code s' ∧ (code = 0 ∨ code = -1) := by
  rw [run_init, run_findLeader]
  cases attempts.find? Attempt.leads with
  | some a => exact ⟨0, _, rfl, Or.inl rfl⟩
  | none => exact ⟨-1, _, rfl, Or.inr rfl⟩

/-- A code of the call's is an answer. -/
theorem answers_of_client {s s' : Session} {client : KvstoreRPCClient} {c : Call} {code : ℤ}
    (h : s.kvClient = some client) (hrun : c.code.run s = .ok code s') (hcode : c.Code code) :
    Answers s c := by
  refine ⟨code, s', hrun, hcode, ?_⟩
  intro hnone
  rw [h] at hnone
  cases hnone

/-- A call that needs a client and answers has one. -/
theorem Answers.isSome {s : Session} {c : Call} (h : Answers s c) (hc : c.usesClient = true) :
    s.kvClient.isSome = true := by
  rw [Option.isSome_iff_ne_none]
  intro hnone
  obtain ⟨code, s', hrun, -⟩ := h
  rw [run_code_of_null hnone hc] at hrun
  cases hrun

/-! ## The invariant of a careful session -/

namespace Watch

variable {w : Watch}

/-- `current_leader` is the leader set last, and a client that is not stray leads to
it. -/
structure Inv (w : Watch) : Prop where
  routed : Routed w.session.history
  leader_eq : ∀ l, leaderOf w.session.history = some l → w.session.currentLeader = l
  stray_iff : ∀ client, w.session.kvClient = some client →
    (w.stray = false ↔ leaderOf w.session.history = some client.hosts)

/-- Before any call there is no client to be tied. -/
theorem inv_start : Inv start := by
  refine ⟨trivial, ?_, ?_⟩
  · intro l hl
    cases hl
  · intro client hclient
    cases hclient

/-- A client that is not stray is tied to the leader set last. -/
theorem Inv.tied (h : Inv w) {client : KvstoreRPCClient}
    (hclient : w.session.kvClient = some client) (hstray : w.stray = false) :
    Tied w.session client := by
  have hleader := (h.stray_iff client hclient).mp hstray
  have hcurrent := h.leader_eq _ hleader
  exact ⟨hclient, hcurrent.symm, hleader.trans (congrArg some hcurrent.symm), h.routed⟩

/-- A tied client is not stray. -/
theorem inv_of_tied {s : Session} {client : KvstoreRPCClient} (h : Tied s client) :
    Inv ⟨s, false⟩ := by
  refine ⟨h.routed, ?_, ?_⟩
  · intro l hl
    exact Option.some.inj (h.leader_eq.symm.trans hl)
  · intro client' hclient'
    obtain rfl : client = client' := Option.some.inj (h.client_eq.symm.trans hclient')
    exact ⟨fun _ => h.leader_eq.trans (congrArg some h.hosts_eq.symm), fun _ => rfl⟩

/-- `kv739_init` keeps the invariant, whichever server it finds. -/
theorem Inv.init (h : Inv w) (attempts : List Attempt) : Inv (w.step (.init attempts)) := by
  unfold step Exec.finalState
  rw [run_init, run_findLeader, strayAfter]
  cases hfind : attempts.find? Attempt.leads with
  | some a =>
      have hany : attempts.any Attempt.leads = true :=
        List.any_eq_true.mpr ⟨a, List.mem_of_find?_eq_some hfind, List.find?_some hfind⟩
      rw [if_pos hany]
      have hrouted : Routed { w.session with serverList := attempts.map Attempt.server }.history :=
        h.routed
      exact inv_of_tied (hrouted.tied_redirected a.server)
  | none =>
      have hany : ¬ attempts.any Attempt.leads = true := by
        rw [Bool.not_eq_true, List.any_eq_false]
        exact List.find?_eq_none.mp hfind
      rw [if_neg hany]
      cases lastServer attempts with
      | none => exact ⟨h.routed, h.leader_eq, h.stray_iff⟩
      | some server =>
          refine ⟨h.routed, h.leader_eq, ?_⟩
          intro client hclient
          obtain rfl : (⟨server⟩ : KvstoreRPCClient) = client := Option.some.inj hclient
          exact decide_eq_false_iff_not.trans not_not

/-- `kv739_shutdown` leaves no client, or the one it has found. -/
theorem Inv.shutdown (h : Inv w) (reply : Reply Unit) : Inv (w.step (.shutdown reply)) := by
  obtain ⟨code, hrun, -⟩ := run_shutdown w.session reply
  unfold step
  rw [Exec.finalState_ok hrun]
  cases reply with
  | returns u =>
      refine ⟨h.routed, h.leader_eq, ?_⟩
      intro client hclient
      cases hclient
  | leaderRedirectException address => exact h
  | exception => exact h

/-- **A careful call keeps the invariant.** -/
theorem Inv.step (h : Inv w) {c : Call} (hc : w.Careful c) : Inv (w.step c) := by
  cases c with
  | init attempts => exact h.init attempts
  | shutdown reply => exact h.shutdown reply
  | die serverName clean reply =>
      obtain ⟨client, hclient⟩ := Option.isSome_iff_exists.mp hc
      obtain ⟨code, hrun, -⟩ := run_die hclient serverName clean reply
      unfold Watch.step
      rw [Exec.finalState_ok hrun]
      exact ⟨h.routed, h.leader_eq, h.stray_iff⟩
  | get key value reply =>
      obtain ⟨hsome, hstray⟩ := hc
      obtain ⟨client, hclient⟩ := Option.isSome_iff_exists.mp hsome
      obtain ⟨code, hrun, -⟩ := run_get hclient key value reply
      unfold Watch.step strayAfter
      rw [Exec.finalState_ok hrun, hstray]
      exact inv_of_tied ((h.tied hclient hstray).requested _)
  | put key value oldValue replies constructions =>
      obtain ⟨hsome, hstray, hre⟩ := hc
      obtain ⟨client, hclient⟩ := Option.isSome_iff_exists.mp hsome
      obtain ⟨result, s', client', hrun, -, htied⟩ := run_putLoop_of_tied
        ⟨.PUT_REQ, key, value⟩ oldValue replies constructions (h.tied hclient hstray) hre
      unfold Watch.step strayAfter
      rw [finalState_put, Exec.finalState_ok hrun, hstray]
      exact inv_of_tied htied

/-- A careful call answers. -/
theorem Inv.answers (h : Inv w) {c : Call} (hc : w.Careful c) : Answers w.session c := by
  cases c with
  | init attempts =>
      obtain ⟨code, s', hrun, hcode⟩ := run_init_code w.session attempts
      exact ⟨code, s', hrun, hcode, fun _ hu => by cases hu⟩
  | shutdown reply =>
      obtain ⟨code, hrun, hcode⟩ := run_shutdown w.session reply
      exact ⟨code, _, hrun, hcode, fun _ hu => by cases hu⟩
  | die serverName clean reply =>
      obtain ⟨client, hclient⟩ := Option.isSome_iff_exists.mp hc
      obtain ⟨code, hrun, hcode⟩ := run_die hclient serverName clean reply
      exact answers_of_client hclient hrun hcode
  | get key value reply =>
      obtain ⟨client, hclient⟩ := Option.isSome_iff_exists.mp hc.1
      obtain ⟨code, hrun, hcode⟩ := run_get hclient key value reply
      exact answers_of_client hclient hrun hcode
  | put key value oldValue replies constructions =>
      obtain ⟨hsome, hstray, hre⟩ := hc
      obtain ⟨client, hclient⟩ := Option.isSome_iff_exists.mp hsome
      obtain ⟨result, s', client', hrun, hcode, -⟩ := run_putLoop_of_tied
        ⟨.PUT_REQ, key, value⟩ oldValue replies constructions (h.tied hclient hstray) hre
      exact answers_of_client hclient (run_put_ok hrun) hcode

/-- A request that is routed went through a client that is not stray. -/
theorem Inv.stray_eq_false (h : Inv w) {client : KvstoreRPCClient}
    (hclient : w.session.kvClient = some client) {request : KvstoreRequest}
    (hrouted : Routed (w.session.requested client request).history) : w.stray = false := by
  obtain ⟨⟨hhosts, hleader⟩, -⟩ := hrouted
  apply (h.stray_iff client hclient).mpr
  rw [hhosts]
  exact hleader

/-- **In a session served well so far, the careful calls are those that answer and
send their requests to the leader.** -/
theorem Inv.careful_iff (h : Inv w) (c : Call) :
    w.Careful c ↔ Answers w.session c ∧ Routed (w.step c).session.history := by
  constructor
  · intro hc
    exact ⟨h.answers hc, (h.step hc).routed⟩
  · rintro ⟨hans, hrouted⟩
    cases c with
    | init attempts => trivial
    | shutdown reply => trivial
    | die serverName clean reply => exact hans.isSome rfl
    | get key value reply =>
        have hsome := hans.isSome rfl
        obtain ⟨client, hclient⟩ := Option.isSome_iff_exists.mp hsome
        obtain ⟨code, hrun, -⟩ := run_get hclient key value reply
        unfold Watch.step at hrouted
        rw [Exec.finalState_ok hrun] at hrouted
        exact ⟨hsome, h.stray_eq_false hclient hrouted⟩
    | put key value oldValue replies constructions =>
        have hsome := hans.isSome rfl
        obtain ⟨client, hclient⟩ := Option.isSome_iff_exists.mp hsome
        have hfirst := suffix_putLoop_succ (k := 2) ⟨.PUT_REQ, key, value⟩ oldValue replies
          constructions hclient fun _ _ h' => suffix_putLoop _ _ _ _ h'
        unfold Watch.step at hrouted
        rw [finalState_put] at hrouted
        refine ⟨hsome, h.stray_eq_false hclient (hrouted.of_suffix hfirst), ?_⟩
        -- a construction that failed would have left `kv739_put`
        by_contra hre
        obtain ⟨e, s', hrun⟩ := run_putLoop_error ⟨.PUT_REQ, key, value⟩ oldValue replies
          constructions hclient hre
        obtain ⟨code, t, hok, -⟩ := hans
        rw [run_put_error hrun] at hok
        cases hok

/-- A session is served well where every call answers and leaves the requests routed. -/
theorem served_iff_along (cs : List Call) :
    Served cs ↔ Run.Along step
      (fun w c => Answers w.session c ∧ Routed (w.step c).session.history) start cs := by
  rw [Run.along_iff]
  constructor
  · rintro ⟨hans, hrouted⟩ p c hp
    have hlast := hrouted _ hp
    unfold after at hlast
    rw [Run.run_snoc] at hlast
    exact ⟨hans p c hp, hlast⟩
  · intro h
    refine ⟨fun p c hp => (h p c hp).1, fun p hp => ?_⟩
    cases p using List.reverseRecOn with
    | nil => exact inv_start.routed
    | append_singleton p c =>
        unfold after
        rw [Run.run_snoc]
        exact (h p c hp).2

/-- **Every call of a session answers and every request goes to the leader exactly
when every call is careful.** -/
theorem served_iff (cs : List Call) : Served cs ↔ Run.Along step Careful start cs := by
  rw [served_iff_along]
  apply Run.along_congr (P := Inv) _ _ inv_start
  · intro w c hw hc
    exact hw.step hc
  · intro w c hw
    exact (hw.careful_iff c).symm

-- a redirected `put`, a `shutdown` and a second `init`
example : Run.Along step Careful start
    [.init [⟨"a", .exception, .returns true⟩, ⟨"b", .returns (), .returns true⟩],
      .put [1] [2] [0, 0] (fun k => if k = 3 then .leaderRedirectException "a"
        else .returns ⟨true, [], [7]⟩) fun _ => .returns (),
      .shutdown (.returns ()), .init [⟨"a", .returns (), .returns true⟩],
      .get [1] [0, 0] (.returns ⟨true, [2], []⟩)] := by decide +kernel

/-- A `get` before any `init` dereferences a null pointer; after an `init` that found
no leader a `get` goes to the follower it ended on; a redirect to a server that
cannot be reached throws out of `put`. -/
theorem not_served_get_get_put :
    ¬ Served [.get [] [] (.returns ⟨true, [], []⟩)] ∧
    ¬ Served [.init [⟨"a", .returns (), .returns false⟩], .get [] [] (.returns ⟨true, [], []⟩)] ∧
    ¬ Served [.init [⟨"a", .returns (), .returns true⟩],
      .put [] [] [] (fun _ => .leaderRedirectException "b") fun _ => .exception] := by
  refine ⟨?_, ?_, ?_⟩
  · rintro ⟨hans, -⟩
    obtain ⟨code, s', hrun, -⟩ := hans [] _ List.prefix_rfl
    cases hrun
  · rintro ⟨-, hrouted⟩
    have hlast := hrouted _ List.prefix_rfl
    exact absurd hlast.1.1 (by decide : "a" ≠ "")
  · rintro ⟨hans, -⟩
    obtain ⟨code, s', hrun, -⟩ := hans [_] _ List.prefix_rfl
    cases hrun

end Watch

end Client

end KVStore
