/-
# A Raft node (`RaftNode.java`, `RaftState.java`)

The fields of the node and its methods, one Lean function for one Java method.
A method is a computation on the node that may throw; what it wrote before
throwing stays written.  Identifiers of nodes are of any type with decidable
equality.

Two methods are cut where the source hands work to another thread or to the
wire, so that the interleavings can be told apart:

* `requestVote` : `requestVoteRequest` is the part up to the remote call,
  `requestVoteResponse` the part after it;
* `startElection` : the method itself, and `tally`, the callback that runs when
  all vote futures are done.

`sendAppendEntries` is kept whole and is the sequence `buildAppendEntries`,
`appendEntries` on the node itself, `recordAppendEntries`.
-/
import Mathlib.Data.List.AList
import Mathlib.Data.List.Dedup
import Mathlib.Data.Int.Init
import KVStore.Storage

namespace KVStore

/-! ## `RaftState` -/

inductive Role : Type where
  | FOLLOWER
  | CANDIDATE
  | LEADER
  deriving DecidableEq, Repr

open Role

/-- The largest value of a Java `long`. -/
def longMax : ℤ := 2 ^ 63 - 1

/-- `x++` on a Java `long`: two's complement of 64 bits. -/
def longSucc (x : ℤ) : ℤ := Int.bmod (x + 1) (2 ^ 64)

/-- Below the largest value the increment does not wrap. -/
theorem longSucc_of_lt {x : ℤ} (h0 : 0 ≤ x) (h : x < longMax) : longSucc x = x + 1 := by
  unfold longSucc longMax at *
  rw [Int.bmod_eq_of_le] <;> omega

/-- From the largest value on the increment wraps. -/
theorem longSucc_lt_of_ge {x : ℤ} (h : longMax ≤ x) : longSucc x < x := by
  unfold longSucc longMax at *
  rcases eq_or_lt_of_le h with rfl | h
  · decide
  · have hlt := Int.bmod_lt (x := x + 1) (m := 2 ^ 64) (by decide)
    omega

structure RaftState (Id : Type) where
  currentRole : Role
  currentTerm : ℤ
  votedFor : Option Id
  deriving DecidableEq, Repr

namespace RaftState

variable {Id : Type}

def initial : RaftState Id := ⟨FOLLOWER, 0, none⟩

def becomeFollower (_ : RaftState Id) (term : ℤ) : RaftState Id := ⟨FOLLOWER, term, none⟩

/-- The reset of `votedFor` is commented out in the source. -/
def becomeCandidate (s : RaftState Id) : RaftState Id :=
  { s with currentRole := CANDIDATE, currentTerm := longSucc s.currentTerm }

def becomeLeader (s : RaftState Id) : RaftState Id := { s with currentRole := LEADER }

def setCurrentTerm (s : RaftState Id) (term : ℤ) : RaftState Id := { s with currentTerm := term }

end RaftState

/-! ## The node -/

/-- `nextIndex` and `matchIndex`: an index for each follower that has one. -/
abbrev IndexMap (Id : Type) : Type := AList fun _ : Id => ℤ

/-- The values of the map, in its iteration order. -/
def IndexMap.values {Id : Type} (m : IndexMap Id) : List ℤ := m.entries.map Sigma.snd

structure RaftNode (Id : Type) where
  nodeId : Id
  /-- The keys of the `peers` map, in its iteration order. -/
  peers : List Id
  peersNodup : peers.Nodup
  storage : SQLiteStorage
  state : RaftState Id
  nextIndex : IndexMap Id
  matchIndex : IndexMap Id
  votedFor : Option Id
  /-- Whether `electionTimer` holds a task that has neither run nor been cancelled. -/
  electionTimer : Bool

/-- The arguments of `appendEntries`, the fields of `AppendEntriesRequest`. -/
structure AppendEntriesRequest (Id : Type) where
  leaderId : Id
  term : ℤ
  prevLogIndex : ℤ
  prevLogTerm : ℤ
  entries : List LogEntry
  leaderCommit : ℤ
  deriving DecidableEq, Repr

structure RequestVoteRequest (Id : Type) where
  term : ℤ
  candidateId : Id
  lastLogIndex : ℤ
  lastLogTerm : ℤ
  deriving DecidableEq, Repr

structure RequestVoteResponse where
  term : ℤ
  voteGranted : Bool
  deriving DecidableEq, Repr

namespace RaftNode

variable {Id : Type}

/-- A method of the node. -/
abbrev Method (Id α : Type) : Type := EStateM JavaException (RaftNode Id) α

def setStorage (n : RaftNode Id) (s : SQLiteStorage) : RaftNode Id := { n with storage := s }

/-- A call of a method of the storage. -/
def onStorage {α : Type} (m : EStateM JavaException SQLiteStorage α) : Method Id α :=
  Exec.zoom RaftNode.storage (fun s n => n.setStorage s) m

/-- The receiver of a method call; `null` throws. -/
def nonNull {α : Type} : Option α → Method Id α
  | some a => pure a
  | none => throw .nullPointerException

/-- `state.setCurrentTerm(term); state.becomeFollower(term); votedFor = null;` -/
def stepDown (term : ℤ) : Method Id Unit :=
  modify fun n =>
    { n with state := (n.state.setCurrentTerm term).becomeFollower term, votedFor := none }

/-- Cancel the armed task, if any, and arm a new one. -/
def resetElectionTimer : Method Id Unit :=
  modify fun n => { n with electionTimer := true }

/-! ## Applying committed entries -/

def applyToStateMachine (entry : Option LogEntry) : Method Id Unit := do
  let e ← nonNull entry
  onStorage (SQLiteStorage.updateKeyValue e.key e.value)

/-- The `while` loop of `applyCommittedEntries`, with the number of rounds left. -/
def applyLoop (lastApplied : ℤ) : ℕ → Method Id ℤ
  | 0 => return lastApplied
  | rounds + 1 => do
      let entry ← onStorage (SQLiteStorage.getLogEntry (lastApplied + 1))
      applyToStateMachine entry
      applyLoop (lastApplied + 1) rounds

def applyCommittedEntries : Method Id Unit := do
  let lastApplied ← onStorage SQLiteStorage.getLastApplied
  let commitIndex ← onStorage SQLiteStorage.getCommitIndex
  let lastApplied ← applyLoop lastApplied (commitIndex - lastApplied).toNat
  onStorage (SQLiteStorage.setLastApplied lastApplied)

/-! ## `appendEntries` -/

/-- The body of the `for` loop over `entries`; `index` is `prevLogIndex + 1 + i`. -/
def mergeEntry (index : ℤ) (e : LogEntry) : Method Id Unit := do
  if (← onStorage SQLiteStorage.getLastLogIndex) ≥ index then
    let own ← nonNull (← onStorage (SQLiteStorage.getLogEntry index))
    if own.term ≠ e.term then
      -- delete conflicting entries and all that follow
      onStorage (SQLiteStorage.deleteLogEntriesFrom index)
      let _ ← onStorage (SQLiteStorage.appendLogEntry e)
  else
    let _ ← onStorage (SQLiteStorage.appendLogEntry e)

def mergeLoop (index : ℤ) : List LogEntry → Method Id Unit
  | [] => return ()
  | e :: entries => do
      mergeEntry index e
      mergeLoop (index + 1) entries

/-- The test of the source that makes `appendEntries` answer `false`; its second
half is evaluated only when the first is false. -/
def logMismatch (prevLogIndex prevLogTerm : ℤ) : Method Id Bool := do
  if (← onStorage SQLiteStorage.getLastLogIndex) < prevLogIndex then
    return true
  if prevLogIndex > 0 then
    let own ← nonNull (← onStorage (SQLiteStorage.getLogEntry prevLogIndex))
    return own.term ≠ prevLogTerm
  return false

/-- The last part of `appendEntries`: follow the leader's commit index. -/
def followCommit (leaderCommit : ℤ) : Method Id Unit := do
  if leaderCommit > (← onStorage SQLiteStorage.getCommitIndex) then
    let last ← onStorage SQLiteStorage.getLastLogIndex
    onStorage (SQLiteStorage.setCommitIndex (min leaderCommit last))
    applyCommittedEntries

/-- Follow a term greater than the node's own. -/
def observeTerm (term : ℤ) : Method Id Unit := do
  if term > (← get).state.currentTerm then
    stepDown term

def appendEntries (req : AppendEntriesRequest Id) : Method Id Bool := do
  if req.term < (← get).state.currentTerm then
    return false
  observeTerm req.term
  resetElectionTimer
  if ← logMismatch req.prevLogIndex req.prevLogTerm then
    return false
  mergeLoop (req.prevLogIndex + 1) req.entries
  followCommit req.leaderCommit
  return true

/-! ## Replication by the leader -/

variable [DecidableEq Id]

/-- `nextIndex.getOrDefault(follower, 1L)` -/
def nextIdx (n : RaftNode Id) (follower : Id) : ℤ := (n.nextIndex.lookup follower).getD 1

/-- The count of `updateCommitIndex` for index `n`: the node itself and every
follower whose `matchIndex` has reached `n`. -/
def replicationCount (node : RaftNode Id) (n : ℤ) : ℕ :=
  node.matchIndex.values.foldl (fun count matchIdx => if matchIdx ≥ n then count + 1 else count) 1

/-- The body of the `for` loop of `updateCommitIndex`. -/
def tryCommit (n : ℤ) : Method Id Unit := do
  let entry ← nonNull (← onStorage (SQLiteStorage.getLogEntry n))
  let node ← get
  if entry.term = node.state.currentTerm then
    if node.replicationCount n > node.peers.length / 2 then
      onStorage (SQLiteStorage.setCommitIndex n)
      applyCommittedEntries

/-- The `for` loop of `updateCommitIndex` from `n` on, with the number of rounds
left. -/
def commitLoop (n : ℤ) : ℕ → Method Id Unit
  | 0 => return ()
  | rounds + 1 => do
      tryCommit n
      commitLoop (n + 1) rounds

def updateCommitIndex : Method Id Unit := do
  let lastLogIndex ← onStorage SQLiteStorage.getLastLogIndex
  let commitIndex ← onStorage SQLiteStorage.getCommitIndex
  commitLoop (commitIndex + 1) (lastLogIndex - commitIndex).toNat

/-- `prevLogIndex > 0 ? storage.getLogEntry(prevLogIndex).getTerm() : 0` -/
def prevLogTerm (prevLogIndex : ℤ) : Method Id ℤ := do
  if prevLogIndex > 0 then
    let own ← nonNull (← onStorage (SQLiteStorage.getLogEntry prevLogIndex))
    return own.term
  else
    return 0

/-- The arguments `sendAppendEntries` computes when it starts at `nextIdx`.  The
source passes the follower's id where the callee expects the leader's. -/
def appendEntriesFrom (nextIdx : ℤ) (follower : Id) : Method Id (AppendEntriesRequest Id) := do
  let lastLogIndex ← onStorage SQLiteStorage.getLastLogIndex
  let entries ← onStorage (SQLiteStorage.getLogEntries nextIdx lastLogIndex)
  let prevLogTerm ← prevLogTerm (nextIdx - 1)
  let term := (← get).state.currentTerm
  let leaderCommit ← onStorage SQLiteStorage.getCommitIndex
  return ⟨follower, term, nextIdx - 1, prevLogTerm, entries, leaderCommit⟩

def buildAppendEntries (follower : Id) : Method Id (AppendEntriesRequest Id) := do
  appendEntriesFrom ((← get).nextIdx follower) follower

/-- What `sendAppendEntries` does with the answer. -/
def recordAppendEntries (follower : Id) (success : Bool) : Method Id Unit := do
  if success then
    let last ← onStorage SQLiteStorage.getLastLogIndex
    modify fun n => { n with nextIndex := n.nextIndex.insert follower (last + 1) }
    let last ← onStorage SQLiteStorage.getLastLogIndex
    modify fun n => { n with matchIndex := n.matchIndex.insert follower last }
    updateCommitIndex
  else
    modify fun n =>
      { n with nextIndex := n.nextIndex.insert follower (max 1 (n.nextIdx follower - 1)) }

/-- The call of `appendEntries` is a call on the node itself: no message leaves
it. -/
def sendAppendEntries (follower : Id) : Method Id Unit := do
  let req ← buildAppendEntries follower
  let success ← appendEntries req
  recordAppendEntries follower success

/-- `for (NodeInfo peer : peers.values()) sendAppendEntries(peer);` -/
def sendAll : List Id → Method Id Unit
  | [] => return ()
  | peer :: peers => do
      sendAppendEntries peer
      sendAll peers

/-- The future is completed with `true` whatever happened; `index` is not used. -/
def replicateEntry (_index : ℤ) : Method Id Bool := do
  sendAll (← get).peers
  updateCommitIndex
  return true

def proposeEntry (key value : String) : Method Id Bool := do
  if (← get).state.currentRole ≠ LEADER then
    return false
  let entry : LogEntry := ⟨(← get).state.currentTerm, key, value⟩
  let _ ← onStorage (SQLiteStorage.appendLogEntry entry)
  replicateEntry (← onStorage SQLiteStorage.getLastLogIndex)

/-! ## Elections -/

/-- The method up to the creation of the futures: it returns the two values the
vote requests capture. -/
def startElection : Method Id (ℤ × ℤ) := do
  modify fun n => { n with state := n.state.becomeCandidate, votedFor := some n.nodeId }
  let lastLogIndex ← onStorage SQLiteStorage.getLastLogIndex
  let lastLogTerm ← onStorage SQLiteStorage.getLastLogTerm
  return (lastLogIndex, lastLogTerm)

/-- What `start` schedules every 150 ms. -/
def leaderElectionTask : Method Id Unit := do
  if (← get).state.currentRole ≠ LEADER then
    let _ ← startElection

/-- The request of `requestVote`: the term is read when the request is sent. -/
def requestVoteRequest (n : RaftNode Id) (lastLogIndex lastLogTerm : ℤ) :
    RequestVoteRequest Id :=
  ⟨n.state.currentTerm, n.nodeId, lastLogIndex, lastLogTerm⟩

/-- What `requestVote` does with the response; `none` is an RPC exception. -/
def requestVoteResponse : Option RequestVoteResponse → Method Id Bool
  | none => return false
  | some response => do
      if response.term > (← get).state.currentTerm then
        stepDown response.term
        return false
      return response.voteGranted

/-- The body of the `forEach` of `becomeLeader`, for the given peers. -/
def resetIndices (lastLogIndex : ℤ) (n : RaftNode Id) (peers : List Id) : RaftNode Id :=
  peers.foldl
    (fun n peerId =>
      { n with
        nextIndex := n.nextIndex.insert peerId (lastLogIndex + 1)
        matchIndex := n.matchIndex.insert peerId 0 }) n

def becomeLeader : Method Id Unit := do
  modify fun n => { n with state := n.state.becomeLeader }
  let lastLogIndex ← onStorage SQLiteStorage.getLastLogIndex
  modify fun n => resetIndices lastLogIndex n n.peers

/-- The number of granted votes, the node's own included. -/
def voteCount (votes : List Bool) : ℕ := (votes.filter id).length + 1

/-- The callback of `CompletableFuture.allOf`, with the futures read as the
Booleans their type declares. -/
def tally (votes : List Bool) : Method Id Unit := do
  if voteCount votes > (← get).peers.length / 2 then
    becomeLeader

/-! ## Construction -/

/-- `new RaftNode(nodeId, peerIds, storage)`: duplicates collapse in the map. -/
def create (nodeId : Id) (peerIds : List Id) (storage : SQLiteStorage) : RaftNode Id where
  nodeId := nodeId
  peers := peerIds.dedup
  peersNodup := peerIds.nodup_dedup
  storage := storage
  state := RaftState.initial
  nextIndex := ∅
  matchIndex := ∅
  votedFor := none
  electionTimer := false

/-- A new process on the database file of the old one. -/
def restart (n : RaftNode Id) : RaftNode Id :=
  create n.nodeId n.peers (SQLiteStorage.create (some n.storage.db))

end RaftNode

end KVStore
