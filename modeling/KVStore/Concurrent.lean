/-
# The threads of one server

The methods of `RaftNode` as the threads of a process run them: every SQL statement
and every access of a field is an atomic step of its own, and nothing but the
read-write lock keeps two calls apart.  `appendEntries` holds the write lock, a vote
request holds the read lock until its response is there, everything else holds none.

`Task` are the calls that gRPC, the scheduler and the worker pool make.
`follows_body` : a task that runs alone does what the method does in the model in
which methods are atomic.
-/
import KVStore.Faults
import KVStore.SingleNode
import KVStore.Threads

namespace KVStore

open Role Threads

/-- What the threads of a process share. -/
structure Shared (ι Id : Type) where
  node : RaftNode Id
  /-- The threads that have appended an entry of their own, in that order.  No thread
  reads it. -/
  authors : List ι

namespace Concurrent

variable {ι Id α β : Type}

/-- A method of the node, as a thread runs it. -/
abbrev Method (ι Id α : Type) : Type := Prog JavaException (Shared ι Id) α

/-! ## Atomic steps -/

/-- A single statement is the method it runs. -/
def atomically (m : RaftNode.Method Id α) : Method ι Id α :=
  Prog.atomic (Exec.zoom Shared.node (fun n s => { s with node := n }) m)

/-- One SQL statement. -/
def statement (m : EStateM JavaException SQLiteStorage α) : Method ι Id α :=
  atomically (RaftNode.onStorage m)

/-- Read a field. -/
def read (f : RaftNode Id → α) : Method ι Id α := atomically (f <$> get)

/-- Write a field. -/
def write (f : RaftNode Id → RaftNode Id) : Method ι Id Unit := atomically (modify f)

/-- Thread `i` appends an entry. -/
def appendLogEntry (i : ι) (entry : LogEntry) : Method ι Id ℤ :=
  Prog.atomic do
    let index ← Exec.zoom Shared.node (fun n s => { s with node := n })
      (RaftNode.onStorage (SQLiteStorage.appendLogEntry entry))
    modify fun s => { s with authors := s.authors ++ [i] }
    return index

/-- The receiver of a method call; `null` throws. -/
def nonNull : Option α → Method ι Id α
  | some a => pure a
  | none => .throw .nullPointerException

/-! ## Fields of the state -/

def writeRole (role : Role) : Method ι Id Unit :=
  write fun n => { n with state := { n.state with currentRole := role } }

def writeTerm (term : ℤ) : Method ι Id Unit :=
  write fun n => { n with state := { n.state with currentTerm := term } }

/-- `state.setCurrentTerm(term); state.becomeFollower(term); votedFor = null;` -/
def stepDown (term : ℤ) : Method ι Id Unit := do
  writeTerm term
  writeRole FOLLOWER
  writeTerm term
  write fun n => { n with state := { n.state with votedFor := none } }
  write fun n => { n with votedFor := none }

def resetElectionTimer : Method ι Id Unit := do
  write fun n => { n with electionTimer := false }
  write fun n => { n with electionTimer := true }

/-! ## Applying committed entries -/

def applyToStateMachine (entry : Option LogEntry) : Method ι Id Unit := do
  let e ← nonNull entry
  statement (SQLiteStorage.updateKeyValue e.key e.value)

def applyLoop (lastApplied : ℤ) : ℕ → Method ι Id ℤ
  | 0 => return lastApplied
  | rounds + 1 => do
      let entry ← statement (SQLiteStorage.getLogEntry (lastApplied + 1))
      applyToStateMachine entry
      applyLoop (lastApplied + 1) rounds

def applyCommittedEntries : Method ι Id Unit := do
  let lastApplied ← statement SQLiteStorage.getLastApplied
  let commitIndex ← statement SQLiteStorage.getCommitIndex
  let lastApplied ← applyLoop lastApplied (commitIndex - lastApplied).toNat
  statement (SQLiteStorage.setLastApplied lastApplied)

/-! ## `appendEntries` -/

def mergeEntry (index : ℤ) (e : LogEntry) : Method ι Id Unit := do
  if (← statement SQLiteStorage.getLastLogIndex) ≥ index then
    let own ← nonNull (← statement (SQLiteStorage.getLogEntry index))
    if own.term ≠ e.term then
      statement (SQLiteStorage.deleteLogEntriesFrom index)
      let _ ← statement (SQLiteStorage.appendLogEntry e)
  else
    let _ ← statement (SQLiteStorage.appendLogEntry e)

def mergeLoop (index : ℤ) : List LogEntry → Method ι Id Unit
  | [] => return ()
  | e :: entries => do
      mergeEntry index e
      mergeLoop (index + 1) entries

def logMismatch (prevLogIndex prevLogTerm : ℤ) : Method ι Id Bool := do
  if (← statement SQLiteStorage.getLastLogIndex) < prevLogIndex then
    return true
  if prevLogIndex > 0 then
    let own ← nonNull (← statement (SQLiteStorage.getLogEntry prevLogIndex))
    return own.term ≠ prevLogTerm
  return false

def followCommit (leaderCommit : ℤ) : Method ι Id Unit := do
  if leaderCommit > (← statement SQLiteStorage.getCommitIndex) then
    let last ← statement SQLiteStorage.getLastLogIndex
    statement (SQLiteStorage.setCommitIndex (min leaderCommit last))
    applyCommittedEntries

def observeTerm (term : ℤ) : Method ι Id Unit := do
  if term > (← read fun n => n.state.currentTerm) then
    stepDown term

/-- What `appendEntries` does while it holds the write lock. -/
def appendEntriesBody (req : AppendEntriesRequest Id) : Method ι Id Bool := do
  if req.term < (← read fun n => n.state.currentTerm) then
    return false
  observeTerm req.term
  resetElectionTimer
  if ← logMismatch req.prevLogIndex req.prevLogTerm then
    return false
  mergeLoop (req.prevLogIndex + 1) req.entries
  followCommit req.leaderCommit
  return true

def appendEntries (req : AppendEntriesRequest Id) : Method ι Id Bool :=
  Prog.locked .write (appendEntriesBody req)

/-! ## Replication by the leader -/

variable [DecidableEq Id]

/-- The loop over `matchIndex.values()`: the iterator passes the keys that are there
when it starts and reads the value of each when it gets to it. -/
def countReplicas (n : ℤ) : List Id → ℕ → Method ι Id ℕ
  | [], count => return count
  | follower :: followers, count => do
      let matchIdx ← read fun node => node.matchIndex.lookup follower
      countReplicas n followers (if matchIdx.any (· ≥ n) then count + 1 else count)

def replicationCount (n : ℤ) : Method ι Id ℕ := do
  countReplicas n (← read fun node => node.matchIndex.keys) 1

def tryCommit (n : ℤ) : Method ι Id Unit := do
  let entry ← nonNull (← statement (SQLiteStorage.getLogEntry n))
  if entry.term = (← read fun node => node.state.currentTerm) then
    if (← replicationCount n) > (← read fun node => node.peers.length) / 2 then
      statement (SQLiteStorage.setCommitIndex n)
      applyCommittedEntries

def commitLoop (n : ℤ) : ℕ → Method ι Id Unit
  | 0 => return ()
  | rounds + 1 => do
      tryCommit n
      commitLoop (n + 1) rounds

def updateCommitIndex : Method ι Id Unit := do
  let lastLogIndex ← statement SQLiteStorage.getLastLogIndex
  let commitIndex ← statement SQLiteStorage.getCommitIndex
  commitLoop (commitIndex + 1) (lastLogIndex - commitIndex).toNat

def prevLogTerm (prevLogIndex : ℤ) : Method ι Id ℤ := do
  if prevLogIndex > 0 then
    let own ← nonNull (← statement (SQLiteStorage.getLogEntry prevLogIndex))
    return own.term
  else
    return 0

/-- The arguments of the call of `appendEntries`. -/
def appendEntriesFrom (nextIdx : ℤ) (follower : Id) :
    Method ι Id (AppendEntriesRequest Id) := do
  let lastLogIndex ← statement SQLiteStorage.getLastLogIndex
  let entries ← statement (SQLiteStorage.getLogEntries nextIdx lastLogIndex)
  let prevLogTerm ← prevLogTerm (nextIdx - 1)
  let term ← read fun n => n.state.currentTerm
  let leaderCommit ← statement SQLiteStorage.getCommitIndex
  return ⟨follower, term, nextIdx - 1, prevLogTerm, entries, leaderCommit⟩

def buildAppendEntries (follower : Id) : Method ι Id (AppendEntriesRequest Id) := do
  appendEntriesFrom (← read fun n => n.nextIdx follower) follower

def recordAppendEntries (follower : Id) (success : Bool) : Method ι Id Unit := do
  if success then
    let last ← statement SQLiteStorage.getLastLogIndex
    write fun n => { n with nextIndex := n.nextIndex.insert follower (last + 1) }
    let last ← statement SQLiteStorage.getLastLogIndex
    write fun n => { n with matchIndex := n.matchIndex.insert follower last }
    updateCommitIndex
  else
    let nextIdx ← read fun n => n.nextIdx follower
    write fun n => { n with nextIndex := n.nextIndex.insert follower (max 1 (nextIdx - 1)) }

def sendAppendEntries (follower : Id) : Method ι Id Unit := do
  let req ← buildAppendEntries follower
  let success ← appendEntries req
  recordAppendEntries follower success

def sendAll : List Id → Method ι Id Unit
  | [] => return ()
  | peer :: peers => do
      sendAppendEntries peer
      sendAll peers

def replicateEntry (_index : ℤ) : Method ι Id Bool := do
  sendAll (← read fun n => n.peers)
  updateCommitIndex
  return true

def proposeEntry (i : ι) (key value : String) : Method ι Id Bool := do
  if (← read fun n => n.state.currentRole) ≠ LEADER then
    return false
  let term ← read fun n => n.state.currentTerm
  let _ ← appendLogEntry i ⟨term, key, value⟩
  replicateEntry (← statement SQLiteStorage.getLastLogIndex)

/-! ## Elections -/

/-- Two statements. -/
def getLastLogTerm : Method ι Id ℤ := do
  let lastIndex ← statement SQLiteStorage.getLastLogIndex
  if lastIndex > 0 then
    match ← statement (SQLiteStorage.getLogEntry lastIndex) with
    | some entry => return entry.term
    | none => return 0
  else
    return 0

/-- `currentTerm++` reads the term and writes it. -/
def startElection : Method ι Id (ℤ × ℤ) := do
  writeRole CANDIDATE
  let term ← read fun n => n.state.currentTerm
  writeTerm (longSucc term)
  write fun n => { n with votedFor := some n.nodeId }
  let lastLogIndex ← statement SQLiteStorage.getLastLogIndex
  let lastLogTerm ← getLastLogTerm
  return (lastLogIndex, lastLogTerm)

def leaderElectionTask : Method ι Id Unit := do
  if (← read fun n => n.state.currentRole) ≠ LEADER then
    let _ ← startElection

/-- What `requestVote` does while it holds the read lock; `response` is what the call
of the peer brings. -/
def requestVoteBody (response : Option RequestVoteResponse) : Method ι Id Bool := do
  let _ ← read fun n => n.state.currentTerm
  match response with
  | none => return false
  | some response =>
      if response.term > (← read fun n => n.state.currentTerm) then
        stepDown response.term
        return false
      return response.voteGranted

def requestVote (response : Option RequestVoteResponse) : Method ι Id Bool :=
  Prog.locked .read (requestVoteBody response)

def resetIndices (lastLogIndex : ℤ) : List Id → Method ι Id Unit
  | [] => return ()
  | peer :: peers => do
      write fun n => { n with nextIndex := n.nextIndex.insert peer (lastLogIndex + 1) }
      write fun n => { n with matchIndex := n.matchIndex.insert peer 0 }
      resetIndices lastLogIndex peers

def becomeLeader : Method ι Id Unit := do
  writeRole LEADER
  let lastLogIndex ← statement SQLiteStorage.getLastLogIndex
  resetIndices lastLogIndex (← read fun n => n.peers)

/-! ## Tasks -/

/-- A call that some thread of the process makes. -/
inductive Task (Id : Type) : Type where
  | put (key value : String)
  | get (key : String)
  | sendAppendEntries (follower : Id)
  | startElection
  | leaderElectionTask
  | requestVote (response : Option RequestVoteResponse)
  | becomeLeader
  deriving DecidableEq

/-- What thread `i` runs for a task. -/
def Task.body (i : ι) : Task Id → Method ι Id Answer
  | put key value => do return .put ⟨← Concurrent.proposeEntry i key value⟩
  | get key => do
      let value ← statement (SQLiteStorage.get key)
      return .get ⟨value.getD "", value.isSome⟩
  | sendAppendEntries follower => do Concurrent.sendAppendEntries follower; return .done
  | startElection => do let _ ← Concurrent.startElection; return .done
  | leaderElectionTask => do Concurrent.leaderElectionTask; return .done
  | requestVote response => do return .bool (← Concurrent.requestVote response)
  | becomeLeader => do Concurrent.becomeLeader; return .done

/-- The method the task calls, in the model in which methods are atomic. -/
def Task.method : Task Id → RaftNode.Method Id Answer
  | put key value => RaftNode.handle (.put key value)
  | get key => RaftNode.handle (.get key)
  | sendAppendEntries follower => RaftNode.handle (.sendAppendEntries follower)
  | startElection => RaftNode.handle .startElection
  | leaderElectionTask => do RaftNode.leaderElectionTask; return .done
  | requestVote response => RaftNode.handle (.voteResponse response)
  | becomeLeader => RaftNode.handle .becomeLeader

/-! ## A task that runs alone -/

omit [DecidableEq Id]

/-- From `s`, run alone, the program does what the method does. -/
def FollowsAt (s : Shared ι Id) (p : Method ι Id α) (m : RaftNode.Method Id α) : Prop :=
  ∃ authors, p.alone.run s =
    match m.run s.node with
    | .ok a n => .ok a ⟨n, authors⟩
    | .error e n => .error e ⟨n, authors⟩

/-- Run alone, the program does what the method does. -/
def Follows (p : Method ι Id α) (m : RaftNode.Method Id α) : Prop :=
  ∀ s : Shared ι Id, FollowsAt s p m

/-- A first part that only reads. -/
theorem FollowsAt.of_alone {s : Shared ι Id} {p : Method ι Id α} {f : α → Method ι Id β}
    {m : RaftNode.Method Id β} {a : α} (hp : p.alone.run s = .ok a s) (h : FollowsAt s (f a) m) :
    FollowsAt s (p >>= f) m := by
  unfold FollowsAt
  rw [Prog.alone_bind, Exec.run_bind_ok hp]
  exact h

namespace Follows

variable {p : Method ι Id α} {m : RaftNode.Method Id α} {f : α → Method ι Id β}
  {g : α → RaftNode.Method Id β}

/-- A result follows a result. -/
theorem pure (a : α) : Follows (Pure.pure a : Method ι Id α) (Pure.pure a) :=
  fun s => ⟨s.authors, rfl⟩

/-- One method after the other, on both sides. -/
theorem bind (h : Follows p m) (hf : ∀ a, Follows (f a) (g a)) : Follows (p >>= f) (m >>= g) := by
  intro s
  obtain ⟨authors, hrun⟩ := h s
  unfold FollowsAt
  rw [Prog.alone_bind]
  rcases hm : m.run s.node with ⟨a, n⟩ | ⟨e, n⟩
  · rw [hm] at hrun
    rw [Exec.run_bind_ok hrun, Exec.run_bind_ok hm]
    exact hf a ⟨n, authors⟩
  · rw [hm] at hrun
    rw [Exec.run_bind_error hrun, Exec.run_bind_error hm]
    exact ⟨authors, rfl⟩

/-- A single statement follows the method it runs. -/
theorem atomically (m : RaftNode.Method Id α) :
    Follows (Concurrent.atomically m : Method ι Id α) m := by
  intro s
  refine ⟨s.authors, ?_⟩
  rw [Concurrent.atomically, Prog.alone_atomic, Exec.run_zoom]
  cases m.run s.node <;> rfl

/-- Reading a field and reading the node. -/
theorem read_bind {h : RaftNode Id → α} {m : RaftNode Id → RaftNode.Method Id β}
    (hf : ∀ n, Follows (f (h n)) (m n)) : Follows (read h >>= f) (get >>= m) :=
  fun s => FollowsAt.of_alone rfl (hf s.node s)

/-- Alone, a thread waits for no lock. -/
theorem locked (h : Follows p m) (mode : Mode) : Follows (p.locked mode) m := by
  intro s
  unfold FollowsAt
  rw [Prog.alone_locked]
  exact h s

/-- A null check, with the exception of a null pointer on both sides. -/
theorem nonNull (a : Option α) :
    Follows (Concurrent.nonNull a : Method ι Id α) (RaftNode.nonNull a) := by
  cases a with
  | none => exact fun s => ⟨s.authors, rfl⟩
  | some a => exact pure a

end Follows

section FollowsMethods

/-- The rounds of the apply loop, by induction on how many are left. -/
theorem follows_applyLoop (rounds : ℕ) : ∀ i : ℤ,
    Follows (applyLoop i rounds : Method ι Id ℤ) (RaftNode.applyLoop i rounds) := by
  induction rounds with
  | zero => exact fun i => .pure i
  | succ rounds ih =>
      intro i
      refine .bind (.atomically _) fun entry => .bind ?_ fun _ => ih (i + 1)
      exact .bind (.nonNull entry) fun e => .atomically _

/-- `applyCommittedEntries` reads both indices before its loop. -/
theorem follows_applyCommittedEntries :
    Follows (applyCommittedEntries : Method ι Id Unit) RaftNode.applyCommittedEntries := by
  refine .bind (.atomically _) fun last => .bind (.atomically _) fun commit => ?_
  exact .bind (follows_applyLoop _ _) fun _ => .atomically _

/-- The merge, entry by entry. -/
theorem follows_mergeLoop (es : List LogEntry) : ∀ index : ℤ,
    Follows (mergeLoop index es : Method ι Id Unit) (RaftNode.mergeLoop index es) := by
  induction es with
  | nil => exact fun _ => .pure ()
  | cons e es ih =>
      intro index
      refine .bind ?_ fun _ => ih (index + 1)
      refine .bind (.atomically _) fun last => ?_
      split_ifs
      · refine .bind (.atomically _) fun own => .bind (.nonNull own) fun own => ?_
        split_ifs
        · exact .bind (.atomically _) fun _ => .bind (.atomically _) fun _ => .pure ()
        · exact .pure ()
      · exact .bind (.atomically _) fun _ => .pure ()

/-- The log check. -/
theorem follows_logMismatch (i t : ℤ) :
    Follows (logMismatch i t : Method ι Id Bool) (RaftNode.logMismatch i t) := by
  refine .bind (.atomically _) fun last => ?_
  split_ifs
  · exact .pure true
  · exact .bind (.atomically _) fun own => .bind (.nonNull own) fun own => .pure _
  · exact .pure false

/-- Stepping down is five writes on one side and one update on the other. -/
theorem follows_stepDown (t : ℤ) :
    Follows (stepDown t : Method ι Id Unit) (RaftNode.stepDown t) :=
  fun s => ⟨s.authors, rfl⟩

/-- `appendEntries` under the write lock. -/
theorem follows_appendEntries (req : AppendEntriesRequest Id) :
    Follows (appendEntries req : Method ι Id Bool) (RaftNode.appendEntries req) := by
  refine .locked (.read_bind fun n => ?_) .write
  split_ifs
  · exact .pure false
  · refine .bind (.read_bind fun n => ?_) fun _ => .bind (fun s => ⟨s.authors, rfl⟩) fun _ => ?_
    · split_ifs
      · exact follows_stepDown _
      · exact .pure ()
    · refine .bind (follows_logMismatch _ _) fun refused => ?_
      split_ifs
      · exact .pure false
      · refine .bind (follows_mergeLoop _ _) fun _ => .bind ?_ fun _ => .pure true
        refine .bind (.atomically _) fun c => ?_
        split_ifs
        · refine .bind (.atomically _) fun last => .bind (.atomically _) fun _ => ?_
          exact follows_applyCommittedEntries
        · exact .pure ()

/-- The append; the thread notes that the entry is its own. -/
theorem follows_appendLogEntry (i : ι) (e : LogEntry) :
    Follows (appendLogEntry i e : Method ι Id ℤ)
      (RaftNode.onStorage (SQLiteStorage.appendLogEntry e)) := by
  intro s
  rcases h : (RaftNode.onStorage (SQLiteStorage.appendLogEntry e)).run s.node
    with ⟨index, n⟩ | ⟨err, n⟩
  · refine ⟨s.authors ++ [i], ?_⟩
    rw [appendLogEntry, Prog.alone_atomic, Exec.run_bind_ok (Exec.run_zoom_ok h), h]
    rfl
  · refine ⟨s.authors, ?_⟩
    have hthrown : (Exec.zoom Shared.node (fun n (s : Shared ι Id) => { s with node := n })
        (RaftNode.onStorage (SQLiteStorage.appendLogEntry e))).run s
        = .error err { s with node := n } := by
      rw [Exec.run_zoom, h]
    rw [appendLogEntry, Prog.alone_atomic, Exec.run_bind_error hthrown, h]

variable [DecidableEq Id]

/-- The loop over the follower's entries, with nothing in between. -/
theorem alone_countReplicas (n : ℤ) (fs : List Id) : ∀ (count : ℕ) (s : Shared ι Id),
    (countReplicas n fs count : Method ι Id ℕ).alone.run s
      = .ok (fs.foldl (fun count f =>
          if (s.node.matchIndex.lookup f).any (· ≥ n) then count + 1 else count) count) s := by
  induction fs with
  | nil => exact fun _ _ => rfl
  | cons f fs ih => exact fun count s => ih _ s

/-- Alone, the iteration over `matchIndex` counts what the map holds. -/
theorem alone_replicationCount (n : ℤ) (s : Shared ι Id) :
    (replicationCount n : Method ι Id ℕ).alone.run s = .ok (s.node.replicationCount n) s := by
  refine (alone_countReplicas n s.node.matchIndex.keys 1 s).trans ?_
  congr 1
  -- what the iterator reads under a key is the value next to it
  show (s.node.matchIndex.entries.map Sigma.fst).foldl _ 1
    = (s.node.matchIndex.entries.map Sigma.snd).foldl _ 1
  rw [List.foldl_map, List.foldl_map]
  refine List.foldl_ext _ _ _ fun count e he => ?_
  have hlookup : s.node.matchIndex.lookup e.1 = some e.2 :=
    AList.mem_lookup_iff.mpr he
  rw [hlookup]
  simp

/-- One round of the commit rule. -/
theorem follows_tryCommit (n : ℤ) :
    Follows (tryCommit n : Method ι Id Unit) (RaftNode.tryCommit n) := by
  refine .bind (.atomically _) fun entry => .bind (.nonNull entry) fun entry s => ?_
  refine FollowsAt.of_alone (a := s.node.state.currentTerm) rfl ?_
  show FollowsAt s _ (if entry.term = s.node.state.currentTerm then
    if s.node.replicationCount n > s.node.peers.length / 2 then do
      RaftNode.onStorage (SQLiteStorage.setCommitIndex n)
      RaftNode.applyCommittedEntries else Pure.pure () else Pure.pure ())
  split_ifs with hterm hcount
  · refine FollowsAt.of_alone (alone_replicationCount n s) ?_
    refine FollowsAt.of_alone (a := s.node.peers.length) rfl ?_
    rw [if_pos hcount]
    exact Follows.bind (.atomically _) (fun _ => follows_applyCommittedEntries) s
  · refine FollowsAt.of_alone (alone_replicationCount n s) ?_
    refine FollowsAt.of_alone (a := s.node.peers.length) rfl ?_
    rw [if_neg hcount]
    exact Follows.pure () s
  · exact Follows.pure () s

/-- The whole commit rule. -/
theorem follows_updateCommitIndex :
    Follows (updateCommitIndex : Method ι Id Unit) RaftNode.updateCommitIndex := by
  have hloop : ∀ (rounds : ℕ) (n : ℤ),
      Follows (commitLoop n rounds : Method ι Id Unit) (RaftNode.commitLoop n rounds) := by
    intro rounds
    induction rounds with
    | zero => exact fun _ => .pure ()
    | succ rounds ih => exact fun n => .bind (follows_tryCommit n) fun _ => ih (n + 1)
  exact .bind (.atomically _) fun last => .bind (.atomically _) fun c => hloop _ _

/-- A send: build, handle, record. -/
theorem follows_sendAppendEntries (f : Id) :
    Follows (sendAppendEntries f : Method ι Id Unit) (RaftNode.sendAppendEntries f) := by
  refine .bind ?_ fun req => .bind (follows_appendEntries req) fun success => ?_
  · refine .read_bind fun n => .bind (.atomically _) fun last => .bind (.atomically _) fun es => ?_
    refine .bind ?_ fun t => .read_bind fun n => .bind (.atomically _) fun c => .pure _
    unfold prevLogTerm RaftNode.prevLogTerm
    split_ifs
    · exact .bind (.atomically _) fun own => .bind (.nonNull own) fun own => .pure _
    · exact .pure 0
  · unfold recordAppendEntries RaftNode.recordAppendEntries
    split_ifs
    · refine .bind (.atomically _) fun last => .bind (.atomically _) fun _ => ?_
      refine .bind (.atomically _) fun last => .bind (.atomically _) fun _ => ?_
      exact follows_updateCommitIndex
    · exact fun s => ⟨s.authors, rfl⟩

/-- A proposal, from the role check to its answer. -/
theorem follows_proposeEntry (i : ι) (key value : String) :
    Follows (proposeEntry i key value : Method ι Id Bool) (RaftNode.proposeEntry key value) := by
  have hsends : ∀ fs : List Id,
      Follows (sendAll fs : Method ι Id Unit) (RaftNode.sendAll fs) := by
    intro fs
    induction fs with
    | nil => exact .pure ()
    | cons f fs ih => exact .bind (follows_sendAppendEntries f) fun _ => ih
  refine .read_bind fun n => ?_
  split_ifs
  · exact .pure false
  · refine .read_bind fun n => .bind (follows_appendLogEntry i _) fun _ => ?_
    refine .bind (.atomically _) fun index => .read_bind fun n => ?_
    exact .bind (hsends _) fun _ => .bind follows_updateCommitIndex fun _ => .pure true

omit [DecidableEq Id] in
/-- An election, up to its vote requests. -/
theorem follows_startElection :
    Follows (startElection : Method ι Id (ℤ × ℤ)) RaftNode.startElection := by
  have hterm : Follows (getLastLogTerm : Method ι Id ℤ)
      (RaftNode.onStorage SQLiteStorage.getLastLogTerm) := by
    rw [SQLiteStorage.getLastLogTerm, RaftNode.onStorage_bind]
    refine .bind (.atomically _) fun last => ?_
    split_ifs
    · rw [RaftNode.onStorage_bind]
      refine .bind (.atomically _) fun entry => ?_
      cases entry with
      | none => exact fun s => ⟨s.authors, rfl⟩
      | some entry => exact fun s => ⟨s.authors, rfl⟩
    · exact fun s => ⟨s.authors, rfl⟩
  have hrest : Follows (do
        let lastLogIndex ← statement SQLiteStorage.getLastLogIndex
        let lastLogTerm ← getLastLogTerm
        return (lastLogIndex, lastLogTerm) : Method ι Id (ℤ × ℤ))
      (do
        let lastLogIndex ← RaftNode.onStorage SQLiteStorage.getLastLogIndex
        let lastLogTerm ← RaftNode.onStorage SQLiteStorage.getLastLogTerm
        return (lastLogIndex, lastLogTerm)) :=
    .bind (.atomically _) fun last => .bind hterm fun t => .pure (last, t)
  -- the four writes before it are one in the other model
  exact fun s => hrest { s with node := s.node.candidate }

/-- `becomeLeader`, with its writes peer by peer. -/
theorem follows_becomeLeader :
    Follows (becomeLeader : Method ι Id Unit) RaftNode.becomeLeader := by
  have hreset : ∀ (last : ℤ) (fs : List Id) (s : Shared ι Id),
      (resetIndices last fs : Method ι Id Unit).alone.run s
        = .ok () { s with node := RaftNode.resetIndices last s.node fs } := by
    intro last fs
    induction fs with
    | nil => exact fun s => rfl
    | cons f fs ih => exact fun s => ih _
  refine .bind (fun s => ⟨s.authors, rfl⟩) fun _ => .bind (.atomically _) fun last s => ?_
  exact ⟨s.authors, hreset last s.node.peers s⟩

omit [DecidableEq Id] in
/-- A vote response under the read lock. -/
theorem follows_requestVote (response : Option RequestVoteResponse) :
    Follows (requestVote response : Method ι Id Bool) (RaftNode.requestVoteResponse response) := by
  refine .locked ?_ .read
  cases response with
  | none => exact fun s => ⟨s.authors, rfl⟩
  | some r =>
      have hbody : Follows (do
            if r.term > (← read fun n => n.state.currentTerm) then
              stepDown r.term
              return false
            return r.voteGranted : Method ι Id Bool)
          (RaftNode.requestVoteResponse (some r)) := by
        refine .read_bind fun n => ?_
        split_ifs
        · exact .bind (follows_stepDown _) fun _ => .pure false
        · exact .pure _
      exact fun s => hbody s

end FollowsMethods

/-- **A task that runs alone does what its method does**, answer and all. -/
theorem follows_body [DecidableEq Id] (i : ι) (task : Task Id) :
    Follows (task.body i) task.method := by
  cases task with
  | put key value =>
      show Follows _ ((RaftNode.proposeEntry key value >>= fun b => Pure.pure ⟨b⟩) >>= fun r =>
        Pure.pure (Answer.put r))
      rw [bind_assoc]
      exact .bind (follows_proposeEntry i key value) fun b => .pure _
  | get key =>
      show Follows _ ((RaftNode.onStorage (SQLiteStorage.get key) >>= fun value =>
        Pure.pure ⟨value.getD "", value.isSome⟩) >>= fun r => Pure.pure (Answer.get r))
      rw [bind_assoc]
      exact .bind (.atomically _) fun value => .pure _
  | sendAppendEntries f => exact .bind (follows_sendAppendEntries f) fun _ => .pure _
  | startElection => exact .bind follows_startElection fun _ => .pure _
  | leaderElectionTask =>
      refine .bind (.read_bind fun n => ?_) fun _ => .pure _
      split_ifs
      · exact .bind follows_startElection fun _ => .pure ()
      · exact .pure ()
  | requestVote response => exact .bind (follows_requestVote response) fun b => .pure _
  | becomeLeader => exact .bind follows_becomeLeader fun _ => .pure _

end Concurrent

end KVStore
