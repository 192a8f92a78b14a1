/-
# The events of one node (`KVStoreServiceImpl.java`, `RaftNode.java`)

The service on top of the node, and everything that can happen to one server
process, each event one atomic step.  `Event` covers a client request, the start
of an election, a tally that makes the node leader, the response to a vote
request, a queued `sendAppendEntries`, a call of `appendEntries`, and a restart
of the process on the same database.  `handle` runs an event and `step` is the
node afterwards, whether the event returned or threw.

`Sane` holds of a new node and is kept by every event (`Sane.step`).
-/
import KVStore.Run
import KVStore.SendSpec

namespace KVStore

open Role Splice

/-! ## The service -/

structure GetResponse where
  value : String
  found : Bool
  deriving DecidableEq, Repr

/-- `old_value` is never set by the server. -/
structure PutResponse where
  success : Bool
  deriving DecidableEq, Repr

namespace KVStoreServiceImpl

open RaftNode

variable {Id : Type}

def get (key : String) : Method Id GetResponse := do
  let value ← onStorage (SQLiteStorage.get key)
  return ⟨value.getD "", value.isSome⟩

def put [DecidableEq Id] (key value : String) : Method Id PutResponse := do
  let success ← proposeEntry key value
  return ⟨success⟩

end KVStoreServiceImpl

/-! ## Events -/

/-- What can happen to one server process. -/
inductive Event (Id : Type) : Type where
  | put (key value : String)
  | get (key : String)
  | startElection
  | becomeLeader
  | voteResponse (response : Option RequestVoteResponse)
  | sendAppendEntries (follower : Id)
  | appendEntries (req : AppendEntriesRequest Id)
  | restart
  deriving DecidableEq

/-- What an event answers to whoever caused it. -/
inductive Answer : Type where
  | put (response : PutResponse)
  | get (response : GetResponse)
  | bool (b : Bool)
  | done
  deriving DecidableEq

namespace RaftNode

variable {Id : Type} [DecidableEq Id]

def handle : Event Id → Method Id Answer
  | .put key value => do return .put (← KVStoreServiceImpl.put key value)
  | .get key => do return .get (← KVStoreServiceImpl.get key)
  | .startElection => do let _ ← startElection; return .done
  | .becomeLeader => do becomeLeader; return .done
  | .voteResponse response => do return .bool (← requestVoteResponse response)
  | .sendAppendEntries follower => do sendAppendEntries follower; return .done
  | .appendEntries req => do return .bool (← appendEntries req)
  | .restart => do modify restart; return .done

/-- The node after an event. -/
def step (n : RaftNode Id) (ev : Event Id) : RaftNode Id := Exec.finalState (handle ev) n

variable {n : RaftNode Id}

/-! ## The effect of each event -/

/-- The node after `startElection`. -/
def candidate (n : RaftNode Id) : RaftNode Id :=
  { n with state := n.state.becomeCandidate, votedFor := some n.nodeId }

omit [DecidableEq Id] in
/-- An election reads the last index and the last term. -/
theorem run_startElection (h : n.Healthy) :
    startElection.run n
      = .ok ((n.log.length : ℤ), ((n.log.getLast?.map LogEntry.term).getD 0)) n.candidate := by
  have h' : n.candidate.Healthy := h
  show (do
      let lastLogIndex ← onStorage SQLiteStorage.getLastLogIndex
      let lastLogTerm ← onStorage SQLiteStorage.getLastLogTerm
      return (lastLogIndex, lastLogTerm) : Method Id (ℤ × ℤ)).run n.candidate = _
  rw [run_bind_getLastLogIndex h',
    Exec.run_bind_ok (run_onStorage (SQLiteStorage.run_getLastLogTerm h'))]
  rfl

/-- The node after `becomeLeader`. -/
def elected (n : RaftNode Id) : RaftNode Id :=
  resetIndices n.log.length { n with state := n.state.becomeLeader } n.peers

/-- A new leader resets the indices of its peers. -/
theorem run_becomeLeader (h : n.Healthy) : becomeLeader.run n = .ok () n.elected := by
  show (do
      let lastLogIndex ← onStorage SQLiteStorage.getLastLogIndex
      modify fun n => resetIndices lastLogIndex n n.peers : Method Id Unit).run
        { n with state := n.state.becomeLeader } = _
  rw [run_bind_getLastLogIndex (by exact h)]
  rfl

/-- `resetIndices` writes the two index maps and nothing else. -/
theorem resetIndices_eq (last : ℤ) (n : RaftNode Id) (fs : List Id) :
    resetIndices last n fs = { n with
      nextIndex := (resetIndices last n fs).nextIndex
      matchIndex := (resetIndices last n fs).matchIndex } := by
  induction fs generalizing n with
  | nil => rfl
  | cons f fs ih =>
      unfold resetIndices at ih ⊢
      rw [List.foldl_cons]
      exact ih _

/-- The loop sets `nextIndex` of each peer one past the log. -/
theorem nextIdx_resetIndices (last : ℤ) (n : RaftNode Id) (fs : List Id) (g : Id) :
    (resetIndices last n fs).nextIdx g = if g ∈ fs then last + 1 else n.nextIdx g := by
  induction fs generalizing n with
  | nil => simp [resetIndices]
  | cons f fs ih =>
      unfold resetIndices at ih ⊢
      rw [List.foldl_cons, ih]
      by_cases hg : g ∈ fs
      · simp [hg]
      · by_cases hgf : g = f
        · subst hgf
          simp [hg, nextIdx]
        · simp [hg, hgf, nextIdx, AList.lookup_insert_ne hgf]

/-- It sets `matchIndex` of each peer to `0`. -/
theorem matchIndex_resetIndices (last : ℤ) (n : RaftNode Id) (fs : List Id) (g : Id) :
    (resetIndices last n fs).matchIndex.lookup g
      = if g ∈ fs then some 0 else n.matchIndex.lookup g := by
  induction fs generalizing n with
  | nil => simp [resetIndices]
  | cons f fs ih =>
      unfold resetIndices at ih ⊢
      rw [List.foldl_cons, ih]
      by_cases hg : g ∈ fs
      · simp [hg]
      · by_cases hgf : g = f
        · subst hgf
          simp [hg]
        · simp [hg, hgf, AList.lookup_insert_ne hgf]

section Elected

@[simp] theorem storage_elected : n.elected.storage = n.storage := by
  rw [elected, resetIndices_eq]
@[simp] theorem state_elected : n.elected.state = n.state.becomeLeader := by
  rw [elected, resetIndices_eq]
@[simp] theorem peers_elected : n.elected.peers = n.peers := by
  rw [elected, resetIndices_eq]
@[simp] theorem nodeId_elected : n.elected.nodeId = n.nodeId := by
  rw [elected, resetIndices_eq]
@[simp] theorem log_elected : n.elected.log = n.log := by
  rw [log, storage_elected, storage_log]
@[simp] theorem commitIndex_elected : n.elected.commitIndex = n.commitIndex := by
  rw [commitIndex, storage_elected, storage_commitIndex]
@[simp] theorem lastApplied_elected : n.elected.lastApplied = n.lastApplied := by
  rw [lastApplied, storage_elected, storage_lastApplied]
@[simp] theorem kvStore_elected : n.elected.kvStore = n.kvStore := by
  rw [kvStore, storage_elected, storage_kvStore]

/-- Where a new leader sends from. -/
theorem nextIdx_elected (f : Id) :
    n.elected.nextIdx f = if f ∈ n.peers then (n.log.length : ℤ) + 1 else n.nextIdx f :=
  nextIdx_resetIndices _ _ _ _

/-- A new leader has every peer recorded at index `0`. -/
theorem matchIndex_elected {f : Id} (hf : f ∈ n.peers) :
    n.elected.matchIndex.lookup f = some 0 := by
  rw [elected, matchIndex_resetIndices, if_pos hf]

end Elected

/-- The node after a vote response of term `t`. -/
def responded (n : RaftNode Id) (t : ℤ) : RaftNode Id :=
  if t > n.state.currentTerm then
    { n with state := ⟨FOLLOWER, t, none⟩, votedFor := none }
  else n

omit [DecidableEq Id] in
/-- A vote response may make the node step down; otherwise it tells the vote. -/
theorem run_requestVoteResponse (r : RequestVoteResponse) :
    (requestVoteResponse (some r)).run n
      = .ok (if r.term > n.state.currentTerm then false else r.voteGranted)
          (n.responded r.term) := by
  show (if r.term > n.state.currentTerm then _ else _ : Method Id Bool).run n = _
  unfold responded
  by_cases ht : r.term > n.state.currentTerm
  · rw [if_pos ht, if_pos ht, if_pos ht]
    rfl
  · rw [if_neg ht, if_neg ht, if_neg ht]
    rfl

/-! ## One lemma for each event -/

/-- The step of an event that returns. -/
theorem step_of_run {ev : Event Id} {a : Answer} {n' : RaftNode Id}
    (h : (handle ev).run n = .ok a n') : n.step ev = n' :=
  Exec.finalState_ok h

/-- A get changes nothing. -/
theorem step_get (key : String) (h : n.Healthy) : n.step (.get key) = n := by
  have hrun : (KVStoreServiceImpl.get key).run n
      = .ok ⟨(n.kvStore key).getD "", (n.kvStore key).isSome⟩ n :=
    Exec.run_bind_ok (run_onStorage (SQLiteStorage.run_get h key))
  rw [step, handle, Exec.finalState_bind_pure, Exec.finalState_ok hrun]

/-- A put is a proposal. -/
theorem step_put (key value : String) :
    n.step (.put key value) = Exec.finalState (proposeEntry key value) n := by
  rw [step, handle, Exec.finalState_bind_pure, KVStoreServiceImpl.put, Exec.finalState_bind_pure]

/-- An election makes the node a candidate. -/
theorem step_startElection (h : n.Healthy) : n.step .startElection = n.candidate := by
  rw [step, handle, Exec.finalState_bind_pure, Exec.finalState_ok (run_startElection h)]

/-- A leader is made. -/
theorem step_becomeLeader (h : n.Healthy) : n.step .becomeLeader = n.elected := by
  rw [step, handle, Exec.finalState_bind_pure, Exec.finalState_ok (run_becomeLeader h)]

/-- A vote response with an answer. -/
theorem step_voteResponse (r : RequestVoteResponse) :
    n.step (.voteResponse (some r)) = n.responded r.term := by
  rw [step, handle, Exec.finalState_bind_pure, Exec.finalState_ok (run_requestVoteResponse r)]

/-- A send. -/
theorem step_sendAppendEntries (f : Id) :
    n.step (.sendAppendEntries f) = Exec.finalState (sendAppendEntries f) n := by
  rw [step, handle, Exec.finalState_bind_pure]

/-- A send is answered `true` by the node itself, or throws and changes nothing. -/
theorem step_sendAppendEntries_cases (h : n.Sane) (f : Id) :
    n.step (.sendAppendEntries f) = (n.sent f).commitUpdated ∨
      n.step (.sendAppendEntries f) = n := by
  have hrun := run_sendAppendEntries h f
  rw [step_sendAppendEntries]
  split_ifs at hrun
  · exact Or.inl (Exec.finalState_ok hrun)
  · exact Or.inr (Exec.finalState_error hrun)

/-- A call of `appendEntries`. -/
theorem step_appendEntries (req : AppendEntriesRequest Id) :
    n.step (.appendEntries req) = Exec.finalState (appendEntries req) n := by
  rw [step, handle, Exec.finalState_bind_pure]

/-- A restart. -/
theorem step_restart : n.step .restart = n.restart := rfl

/-! ## Every event keeps a node sane -/

/-- A node that sees a term stays sane. -/
theorem Sane.observed (h : n.Sane) (t : ℤ) : (n.observed t).Sane :=
  ⟨h.healthy, h.lastApplied_nonneg, h.commitIndex_nonneg, h.nextIdx_pos⟩

/-- Merging keeps the node sane. -/
theorem Sane.merged (h : n.Sane) (req : AppendEntriesRequest Id) : (n.merged req).Sane := by
  have hn := h.commitIndex_nonneg
  have ha := h.lastApplied_nonneg
  unfold RaftNode.merged commitFollowed
  split_ifs with hc
  · rw [commitIndex_setStorage, SQLiteStorage.commitIndex_withLog, storage_commitIndex] at hc
    constructor
    · simpa using h.healthy
    · simpa using Or.inl ha
    · rw [commitIndex_commitTo]
      omega
    · exact h.nextIdx_pos
  · exact ⟨h.healthy, ha, hn, h.nextIdx_pos⟩

/-- So does a whole call of `appendEntries`. -/
theorem Sane.appendEntries (h : n.Sane) (req : AppendEntriesRequest Id) :
    (Exec.finalState (RaftNode.appendEntries req) n).Sane := by
  unfold Exec.finalState
  rw [run_appendEntries h.healthy h.lastApplied_nonneg]
  split_ifs
  · exact h
  · exact h.observed _
  · exact h.observed _
  · exact (h.observed _).merged req

/-- A candidate is as sane as the node was. -/
theorem Sane.candidate (h : n.Sane) : n.candidate.Sane :=
  ⟨h.healthy, h.lastApplied_nonneg, h.commitIndex_nonneg, h.nextIdx_pos⟩

/-- So is a new leader. -/
theorem Sane.elected (h : n.Sane) : n.elected.Sane := by
  constructor
  · show n.elected.storage.Healthy
    rw [storage_elected]
    exact h.healthy
  · simpa using h.lastApplied_nonneg
  · simpa using h.commitIndex_nonneg
  · intro f
    rw [nextIdx_elected]
    split_ifs
    · omega
    · exact h.nextIdx_pos f

/-- A new node on any database whose bookkeeping is not negative. -/
theorem sane_create (nodeId : Id) (peerIds : List Id) {s : SQLiteStorage} (h : s.Healthy)
    (ha : 0 ≤ s.lastApplied) (hc : 0 ≤ s.commitIndex) : (create nodeId peerIds s).Sane :=
  ⟨h, ha, hc, fun f => by simp [create, nextIdx]⟩

section Restart

omit [DecidableEq Id]

/-- Reopening the database keeps what reads see: the new row comes last. -/
theorem first_append (t : StateTable) (r : StateRow) :
    (⟨t.rows ++ [r], by simp⟩ : StateTable).first = t.first := by
  unfold StateTable.first
  exact List.head_append_of_ne_nil t.nonempty

variable (s : SQLiteStorage)

@[simp] theorem log_reopen : (SQLiteStorage.create (some s.db)).log = s.log := rfl
@[simp] theorem kvStore_reopen : (SQLiteStorage.create (some s.db)).kvStore = s.kvStore := rfl
@[simp] theorem commitIndex_reopen :
    (SQLiteStorage.create (some s.db)).commitIndex = s.commitIndex :=
  congrArg StateRow.commitIndex (first_append _ _)
@[simp] theorem lastApplied_reopen :
    (SQLiteStorage.create (some s.db)).lastApplied = s.lastApplied :=
  congrArg StateRow.lastApplied (first_append _ _)
/-- No statement of a new process is going to fail. -/
theorem healthy_create (file : Option Database) : (SQLiteStorage.create file).Healthy := rfl

end Restart

/-- A restarted process is sane. -/
theorem Sane.restart (h : n.Sane) : n.restart.Sane :=
  sane_create _ _ (healthy_create _)
    (by rw [lastApplied_reopen]; exact h.lastApplied_nonneg)
    (by rw [commitIndex_reopen]; exact h.commitIndex_nonneg)

/-- **Every event keeps a node sane.** -/
theorem Sane.step (h : n.Sane) (ev : Event Id) : (n.step ev).Sane := by
  cases ev with
  | put key value =>
      rw [step_put]
      by_cases hrole : n.state.currentRole = LEADER
      · exact (finalState_proposeEntry h hrole key value).2
      · rw [Exec.finalState_ok (run_proposeEntry_of_not_leader hrole key value)]
        exact h
  | get key =>
      rw [step_get key h.healthy]
      exact h
  | startElection =>
      rw [step_startElection h.healthy]
      exact h.candidate
  | becomeLeader =>
      rw [step_becomeLeader h.healthy]
      exact h.elected
  | voteResponse response =>
      cases response with
      | none => exact h
      | some r =>
          rw [step_voteResponse]
          unfold responded
          split_ifs
          · exact ⟨h.healthy, h.lastApplied_nonneg, h.commitIndex_nonneg, h.nextIdx_pos⟩
          · exact h
  | sendAppendEntries f =>
      rw [step_sendAppendEntries]
      exact (finalState_sendAppendEntries h f).2
  | appendEntries req =>
      rw [step_appendEntries]
      exact h.appendEntries req
  | restart =>
      rw [step_restart]
      exact h.restart

/-! ## What every event does to the role, the term and the log -/

/-- The role and the term after a message of term `t`. -/
def stateSeen (s : RaftState Id) (t : ℤ) : RaftState Id :=
  if t > s.currentTerm then ⟨FOLLOWER, t, none⟩ else s

omit [DecidableEq Id] in
/-- A node never sees its way to a smaller term. -/
theorem currentTerm_le_stateSeen (s : RaftState Id) (t : ℤ) :
    s.currentTerm ≤ (stateSeen s t).currentTerm := by
  unfold stateSeen
  split_ifs with ht
  · exact le_of_lt ht
  · exact le_rfl

/-- The role and the term after an event. -/
def stateAfter (s : RaftState Id) : Event Id → RaftState Id
  | .startElection => s.becomeCandidate
  | .becomeLeader => s.becomeLeader
  | .voteResponse (some r) => stateSeen s r.term
  | .appendEntries req => stateSeen s req.term
  | .restart => RaftState.initial
  | _ => s

/-- Whether a node takes the entries of a call. -/
def accepts (n : RaftNode Id) (req : AppendEntriesRequest Id) : Bool :=
  decide (n.state.currentTerm ≤ req.term) &&
    !mismatch n.log req.prevLogIndex req.prevLogTerm &&
    !decide (req.prevLogIndex < 0 ∧ req.entries ≠ [])

omit [DecidableEq Id] in
/-- When a call of `appendEntries` is accepted. -/
theorem accepts_iff (req : AppendEntriesRequest Id) : n.accepts req = true ↔
    n.state.currentTerm ≤ req.term ∧ mismatch n.log req.prevLogIndex req.prevLogTerm = false ∧
      ¬ (req.prevLogIndex < 0 ∧ req.entries ≠ []) := by
  unfold accepts
  rw [Bool.and_eq_true, Bool.and_eq_true, Bool.not_eq_true', Bool.not_eq_true',
    decide_eq_true_iff, decide_eq_false_iff_not, and_assoc]

omit [DecidableEq Id] in
/-- A call answers `true` exactly when it is accepted. -/
theorem run_appendEntries_eq_true {n' : RaftNode Id} (h : n.Healthy) (ha : 0 ≤ n.lastApplied)
    (req : AppendEntriesRequest Id) :
    (RaftNode.appendEntries req).run n = .ok true n' ↔
      n.accepts req = true ∧ n' = (n.observed req.term).merged req := by
  rw [run_appendEntries h ha, accepts_iff]
  by_cases hstale : req.term < n.state.currentTerm
  · simp [hstale, not_le.mpr hstale]
  · by_cases hmis : mismatch n.log req.prevLogIndex req.prevLogTerm = true
    · simp [hstale, hmis]
    · by_cases hneg : req.prevLogIndex < 0 ∧ req.entries ≠ []
      · simp [hstale, hmis, hneg]
      · simp only [hstale, hmis, hneg, if_false, true_and, not_lt.mp hstale, not_false_eq_true]
        simp [eq_comm]

/-- The log after an event. -/
def logAfter (n : RaftNode Id) : Event Id → List LogEntry
  | .put key value =>
      if n.state.currentRole = LEADER then n.log ++ [⟨n.state.currentTerm, key, value⟩] else n.log
  | .appendEntries req =>
      if n.accepts req then splice LogEntry.term n.log req.prevLogIndex.toNat req.entries
      else n.log
  | _ => n.log

/-- **A call that ends in `true` is an accepted one**; every other keeps the log. -/
theorem finalState_appendEntries (h : n.Sane) (req : AppendEntriesRequest Id) :
    Exec.finalState (RaftNode.appendEntries req) n =
      if n.accepts req then (n.observed req.term).merged req
      else if req.term < n.state.currentTerm then n else n.observed req.term := by
  unfold Exec.finalState accepts
  rw [run_appendEntries h.healthy h.lastApplied_nonneg]
  by_cases hstale : req.term < n.state.currentTerm
  · simp [hstale, not_le.mpr hstale]
  · by_cases hmis : mismatch n.log req.prevLogIndex req.prevLogTerm = true
    · simp [hstale, hmis]
    · by_cases hneg : req.prevLogIndex < 0 ∧ req.entries ≠ []
      · simp [hstale, hmis, hneg]
      · simp [hstale, hmis, hneg, not_lt.mp hstale]

omit [DecidableEq Id] in
/-- An accepted call starts within the log. -/
theorem prevLogIndex_le_of_accepts {req : AppendEntriesRequest Id}
    (h : n.accepts req = true) : req.prevLogIndex.toNat ≤ n.log.length := by
  obtain ⟨-, hmis, -⟩ := (accepts_iff req).mp h
  have hle := (mismatch_eq_false_iff.mp hmis).1
  omega

/-- A call of `appendEntries` leaves the bookkeeping of the sends alone. -/
theorem fields_appendEntries (h : n.Sane) (req : AppendEntriesRequest Id) :
    (n.step (.appendEntries req)).peers = n.peers ∧
      (n.step (.appendEntries req)).matchIndex = n.matchIndex := by
  rw [step_appendEntries, finalState_appendEntries h]
  split_ifs
  · exact ⟨peers_merged req, matchIndex_merged req⟩
  · exact ⟨rfl, rfl⟩
  · exact ⟨rfl, rfl⟩

/-- The commit index after a call of `appendEntries`. -/
theorem commitIndex_appendEntries (h : n.Sane) (req : AppendEntriesRequest Id) :
    (n.step (.appendEntries req)).commitIndex =
      if n.accepts req = true ∧ req.leaderCommit > n.commitIndex then
        min req.leaderCommit (n.step (.appendEntries req)).log.length
      else n.commitIndex := by
  rw [step_appendEntries, finalState_appendEntries h]
  by_cases hacc : n.accepts req = true
  · rw [if_pos hacc, commitIndex_merged, commitIndex_observed]
    simp [hacc]
  · rw [if_neg hacc]
    split_ifs <;> simp_all

/-- What is committed stays committed, as far as the log still reaches. -/
theorem le_commitIndex_appendEntries (h : n.Sane) {req : AppendEntriesRequest Id} {i : ℤ}
    (hi : i ≤ n.commitIndex) (hlen : i ≤ (n.step (.appendEntries req)).log.length) :
    i ≤ (n.step (.appendEntries req)).commitIndex := by
  rw [commitIndex_appendEntries h]
  split_ifs with hc
  · exact le_min (hi.trans (le_of_lt hc.2)) hlen
  · exact hi

/-- **The role and the term follow `stateAfter`.** -/
theorem state_step (h : n.Sane) (ev : Event Id) : (n.step ev).state = stateAfter n.state ev := by
  cases ev with
  | put key value =>
      rw [step_put]
      by_cases hrole : n.state.currentRole = LEADER
      · exact (finalState_proposeEntry h hrole key value).1.state_eq
      · rw [Exec.finalState_ok (run_proposeEntry_of_not_leader hrole key value)]
        rfl
  | get key =>
      rw [step_get key h.healthy]
      rfl
  | startElection =>
      rw [step_startElection h.healthy]
      rfl
  | becomeLeader =>
      rw [step_becomeLeader h.healthy, state_elected]
      rfl
  | voteResponse response =>
      cases response with
      | none => rfl
      | some r =>
          rw [step_voteResponse, responded, stateAfter, stateSeen]
          split_ifs <;> rfl
  | sendAppendEntries f =>
      rw [step_sendAppendEntries]
      exact (finalState_sendAppendEntries h f).1.state_eq
  | appendEntries req =>
      rw [step_appendEntries, finalState_appendEntries h, stateAfter, stateSeen]
      split_ifs with hacc _ hstale
      · rw [state_merged, state_observed, if_pos (by assumption)]
      · rw [state_merged, state_observed, if_neg (by assumption)]
      · omega
      · rfl
      · rw [state_observed, if_pos (by assumption)]
      · rw [state_observed, if_neg (by assumption)]
  | restart => rfl

/-- No event changes which node it is, or its peers. -/
theorem nodeId_step (h : n.Sane) (ev : Event Id) :
    (n.step ev).nodeId = n.nodeId ∧ (n.step ev).peers = n.peers := by
  cases ev with
  | put key value =>
      rw [step_put]
      by_cases hrole : n.state.currentRole = LEADER
      · have hframe := (finalState_proposeEntry h hrole key value).1
        exact ⟨hframe.nodeId_eq, hframe.peers_eq⟩
      · rw [Exec.finalState_ok (run_proposeEntry_of_not_leader hrole key value)]
        exact ⟨rfl, rfl⟩
  | get key =>
      rw [step_get key h.healthy]
      exact ⟨rfl, rfl⟩
  | startElection =>
      rw [step_startElection h.healthy]
      exact ⟨rfl, rfl⟩
  | becomeLeader =>
      rw [step_becomeLeader h.healthy]
      exact ⟨nodeId_elected, peers_elected⟩
  | voteResponse response =>
      cases response with
      | none => exact ⟨rfl, rfl⟩
      | some r =>
          rw [step_voteResponse, responded]
          split_ifs <;> exact ⟨rfl, rfl⟩
  | sendAppendEntries f =>
      rw [step_sendAppendEntries]
      have hframe := (finalState_sendAppendEntries h f).1
      exact ⟨hframe.nodeId_eq, hframe.peers_eq⟩
  | appendEntries req =>
      rw [step_appendEntries, finalState_appendEntries h]
      split_ifs
      · exact ⟨nodeId_merged req, peers_merged req⟩
      · exact ⟨rfl, rfl⟩
      · exact ⟨rfl, rfl⟩
  | restart => exact ⟨rfl, n.peersNodup.dedup⟩

/-- **The log follows `logAfter`.** -/
theorem log_step (h : n.Sane) (ev : Event Id) : (n.step ev).log = n.logAfter ev := by
  cases ev with
  | put key value =>
      rw [step_put, logAfter]
      by_cases hrole : n.state.currentRole = LEADER
      · rw [if_pos hrole, (finalState_proposeEntry h hrole key value).1.log_eq, log_appended]
      · rw [if_neg hrole, Exec.finalState_ok (run_proposeEntry_of_not_leader hrole key value)]
  | get key =>
      rw [step_get key h.healthy]
      rfl
  | startElection =>
      rw [step_startElection h.healthy]
      rfl
  | becomeLeader =>
      rw [step_becomeLeader h.healthy, log_elected]
      rfl
  | voteResponse response =>
      cases response with
      | none => rfl
      | some r =>
          rw [step_voteResponse, responded]
          split_ifs <;> rfl
  | sendAppendEntries f =>
      rw [step_sendAppendEntries]
      exact (finalState_sendAppendEntries h f).1.log_eq
  | appendEntries req =>
      rw [step_appendEntries, finalState_appendEntries h, logAfter]
      split_ifs
      · rw [log_merged, log_observed]
      · rfl
      · rfl
  | restart => rfl

/-- A node on a fresh database. -/
def fresh (nodeId : Id) (peerIds : List Id) : RaftNode Id :=
  create nodeId peerIds (SQLiteStorage.create none)

/-- A fresh node is sane. -/
theorem sane_fresh (nodeId : Id) (peerIds : List Id) : (fresh nodeId peerIds).Sane :=
  sane_create _ _ (healthy_create _) le_rfl le_rfl

/-! ## Runs of events -/

/-- The node after a run of events. -/
def after (n : RaftNode Id) (evs : List (Event Id)) : RaftNode Id := Run.run RaftNode.step n evs

/-- A node stays sane in every run. -/
theorem Sane.after (h : n.Sane) (evs : List (Event Id)) : (n.after evs).Sane :=
  Run.run_invariant (fun _ ev hs => hs.step ev) h evs

/-- No run changes the node's id. -/
theorem nodeId_after (h : n.Sane) (evs : List (Event Id)) : (n.after evs).nodeId = n.nodeId := by
  have hinv : (n.after evs).Sane ∧ (n.after evs).nodeId = n.nodeId :=
    Run.run_invariant (P := fun m : RaftNode Id => m.Sane ∧ m.nodeId = n.nodeId)
      (fun m ev hm => ⟨hm.1.step ev, (nodeId_step hm.1 ev).1.trans hm.2⟩) ⟨h, rfl⟩ evs
  exact hinv.2

/-- One more event at the end of a run. -/
theorem after_snoc (p : List (Event Id)) (ev : Event Id) :
    n.after (p ++ [ev]) = (n.after p).step ev :=
  Run.run_snoc _ _ _ _

end RaftNode

end KVStore
