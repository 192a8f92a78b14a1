/-
# A leader and its timers

The process of `Deployment.lean`, whose vote futures are the objects of the source, and the
calls of `appendEntries` that other nodes make on it.  A leader gives up leadership only for
a higher term as long as the election timer leaves leaders alone: the timer does not look at
the role, and the leader arms it with its own heartbeats (`NodeStep.leadsUntilHigherTerm_iff`).

Nothing is asked of the state in which a run starts, and any statement may fail.  Where the
node has peers its own callback never makes it a leader, so the runs that matter start at one:
`getState().becomeLeader()` makes one, as the tests of the source do.
-/
import KVStore.Deployment
import KVStore.Faults

namespace KVStore

open Role RaftNode

/-- A step of the process, or a call that another node makes. -/
inductive NodeStep (Id : Type) : Type where
  | own (a : DeploymentStep Id)
  | appendEntries (req : AppendEntriesRequest Id)
  deriving DecidableEq

namespace NodeStep

variable {Id : Type} [DecidableEq Id]

def step (d : Deployment Id) : NodeStep Id → Deployment Id
  | own a => d.step a
  | appendEntries req => { d with node := d.node.step (.appendEntries req) }

omit [DecidableEq Id] in
/-- The term of the message that the step processes, if there is one. -/
def messageTerm : NodeStep Id → Option ℤ
  | own (.voteResponse _ _ response) => response.map RequestVoteResponse.term
  | own _ => none
  | appendEntries req => some req.term

omit [DecidableEq Id] in
/-- The step processes a message whose term is greater than the node's. -/
def HigherTerm (d : Deployment Id) (a : NodeStep Id) : Prop :=
  ∃ t ∈ a.messageTerm, t > d.node.state.currentTerm

omit [DecidableEq Id] in
instance (d : Deployment Id) (a : NodeStep Id) : Decidable (HigherTerm d a) :=
  inferInstanceAs (Decidable (∃ t ∈ a.messageTerm, _))

/-- Every step that ends the node's leadership processes a message of a higher term. -/
def LeadsUntilHigherTerm (d : Deployment Id) (as : List (NodeStep Id)) : Prop :=
  Run.Along step (fun d a => d.node.state.currentRole = LEADER →
    (step d a).node.state.currentRole ≠ LEADER → HigherTerm d a) d as

/-- The timer does not fire while it is armed on a leader, unless the leader is elected again
at once: it has no peers, and its reads succeed. -/
def TimerSpares (d : Deployment Id) (a : NodeStep Id) : Prop :=
  a = own .electionTimer → d.node.electionTimer = true → d.node.state.currentRole = LEADER →
    d.node.peers = [] ∧ d.node.ElectionReads

instance (d : Deployment Id) (a : NodeStep Id) : Decidable (TimerSpares d a) :=
  inferInstanceAs (Decidable (a = own .electionTimer → _))

/-! ## Sends and puts leave the role alone -/

section State

open Exec

variable (s : RaftState Id)

omit [DecidableEq Id] in
/-- The role and the term are not in the database. -/
theorem state_setStorage (n : RaftNode Id) (storage : SQLiteStorage) (h : n.state = s) :
    (n.setStorage storage).state = s := h

/-- What a node sends carries its own term. -/
theorem triple_state_buildAppendEntries (f : Id) :
    Triple (fun n => n.state = s) (buildAppendEntries f)
      (fun req n => n.state = s ∧ req.term = s.currentTerm) (fun n => n.state = s) := by
  have hread := @triple_offStorage Id _ (state_setStorage s)
  have hprev : ∀ i : ℤ, Triple (fun n : RaftNode Id => n.state = s) (prevLogTerm i)
      (fun _ n => n.state = s) (fun n => n.state = s) := by
    intro i
    rw [prevLogTerm]
    split_ifs
    · refine Triple.bind (hread _) fun entry => ?_
      refine Triple.bind (triple_offStorage_nonNull entry) fun own => ?_
      exact Triple.pure fun _ h => h
    · exact Triple.pure fun _ h => h
  rw [buildAppendEntries]
  refine Triple.bind_get_keep fun m hm => ?_
  rw [appendEntriesFrom]
  refine Triple.bind (hread _) fun last => ?_
  refine Triple.bind (hread _) fun entries => ?_
  refine Triple.bind (hprev _) fun term => ?_
  refine Triple.bind_get_keep fun m' hm' => ?_
  refine Triple.bind (hread _) fun leaderCommit => ?_
  exact Triple.pure fun n hn => ⟨hn, congrArg RaftState.currentTerm hm'⟩

/-- A call that carries no greater term. -/
theorem triple_state_appendEntries {req : AppendEntriesRequest Id}
    (h : req.term ≤ s.currentTerm) :
    Triple (fun n => n.state = s) (RaftNode.appendEntries req) (fun _ n => n.state = s)
      (fun n => n.state = s) := by
  refine Triple.of_finalState (T := fun n : RaftNode Id => n.state = s) fun n hn => ?_
  rw [← step_appendEntries, state_appendEntries, hn, stateSeen, if_neg (by omega)]

/-- A send to oneself carries one's own term, so role and term stay. -/
theorem triple_state_sendAppendEntries (f : Id) :
    Triple (fun n => n.state = s) (sendAppendEntries f) (fun _ n => n.state = s)
      (fun n => n.state = s) := by
  rw [sendAppendEntries]
  refine Triple.bind (triple_state_buildAppendEntries s f) fun req => ?_
  refine Triple.bind (R := fun _ n => n.state = s) ?_ fun success => ?_
  · exact fun n hn => triple_state_appendEntries s hn.2.le n hn.1
  rw [recordAppendEntries]
  split_ifs
  · refine Triple.bind (triple_offStorage (state_setStorage s) _) fun last => ?_
    refine Triple.bind (Triple.modify (Q := fun _ n => n.state = s) fun _ h => h) fun _ => ?_
    refine Triple.bind (triple_offStorage (state_setStorage s) _) fun last' => ?_
    refine Triple.bind (Triple.modify (Q := fun _ n => n.state = s) fun _ h => h) fun _ => ?_
    exact Deployment.triple_offStorage_updateCommitIndex (state_setStorage s)
  · exact Triple.modify fun _ h => h

/-- A put, whether it is accepted or not. -/
theorem triple_state_proposeEntry (key value : String) :
    Triple (fun n : RaftNode Id => n.state = s) (proposeEntry key value)
      (fun _ n => n.state = s) (fun n => n.state = s) := by
  have hsends : ∀ fs : List Id, Triple (fun n => n.state = s) (sendAll fs)
      (fun _ n => n.state = s) (fun n => n.state = s) := by
    intro fs
    induction fs with
    | nil => exact Triple.pure fun _ h => h
    | cons f fs ih => exact Triple.bind (triple_state_sendAppendEntries s f) fun _ => ih
  rw [proposeEntry]
  refine Triple.bind_get_keep fun m hm => ?_
  split_ifs
  · exact Triple.pure fun _ h => h
  · refine Triple.bind_get_keep fun m' hm' => ?_
    refine Triple.bind (triple_offStorage (state_setStorage s) _) fun _ => ?_
    refine Triple.bind (triple_offStorage (state_setStorage s) _) fun index => ?_
    rw [replicateEntry]
    refine Triple.bind_get_keep fun m'' hm'' => ?_
    refine Triple.bind (hsends _) fun _ => ?_
    refine Triple.bind (Deployment.triple_offStorage_updateCommitIndex (state_setStorage s))
      fun _ => ?_
    exact Triple.pure fun _ h => h

/-- A put leaves role and term alone. -/
theorem state_put (n : RaftNode Id) (key value : String) :
    (n.step (.put key value)).state = n.state := by
  rw [step_put]
  exact (triple_state_proposeEntry n.state key value).finalState rfl

end State

/-! ## What ends a leadership -/

variable {d : Deployment Id}

/-- **Who leads when an election has begun**: a node without peers whose reads succeed. -/
theorem role_startElection :
    d.startElection.node.state.currentRole = LEADER ↔ d.node.peers = [] ∧ d.node.ElectionReads := by
  have hexact := triple_startElection_exact d.node
  have hoff := Deployment.offStorage_startElection (n := d.node)
  rcases hrun : RaftNode.startElection.run d.node with ⟨⟨last, term⟩, n⟩ | ⟨err, n⟩
  · have hreads := hexact.ok rfl hrun
    rw [Exec.finalState_ok hrun] at hoff
    obtain ⟨storage, rfl⟩ := hoff
    rw [Deployment.startElection_ok hrun]
    have hsame : (d.node.candidate.setStorage storage).peers = d.node.peers := rfl
    rw [hsame]
    by_cases hpeers : d.node.peers = []
    · obtain ⟨storage', hlead⟩ := Deployment.offStorage_becomeLeader (hsame.trans hpeers)
      rw [if_pos hpeers, hlead]
      exact iff_of_true rfl ⟨hpeers, hreads⟩
    · rw [if_neg hpeers]
      exact iff_of_false Role.noConfusion fun h => hpeers h.1
  · have hfails := hexact.error rfl hrun
    rw [Exec.finalState_error hrun] at hoff
    obtain ⟨storage, rfl⟩ := hoff
    rw [Deployment.startElection_error hrun]
    exact iff_of_false Role.noConfusion fun h => hfails h.2

/-- The callback of an election demotes nobody. -/
theorem role_thenAccept (h : d.node.state.currentRole = LEADER) (e : ℕ) :
    (d.thenAccept e).node.state.currentRole = LEADER := by
  unfold Deployment.thenAccept
  split
  · exact h
  · split_ifs
    · show (Exec.finalState _ d.node).state.currentRole = LEADER
      rw [Deployment.finalState_callback]
      split_ifs with hpeers
      · obtain ⟨storage, hlead⟩ := Deployment.offStorage_becomeLeader hpeers
        rw [hlead]
        rfl
      · exact h
    · exact h

/-- A response demotes the node only if its term is greater. -/
theorem role_voteResponse (h : d.node.state.currentRole = LEADER) (e : ℕ) (peer : Id)
    (response : Option RequestVoteResponse)
    (hterm : ∀ r ∈ response, r.term ≤ d.node.state.currentTerm) :
    (d.voteResponse e peer response).node.state.currentRole = LEADER := by
  unfold Deployment.voteResponse
  split
  · exact h
  · split
    · cases response with
      | none => exact h
      | some r =>
          have hsame : d.node.responded r.term = d.node := if_neg (not_lt.mpr (hterm r rfl))
          rw [run_requestVoteResponse, hsame]
          exact h
    · exact h

/-- **What can end a leadership**: a message of a higher term, the election timer, and the end
of the process. -/
theorem ends_leadership {a : NodeStep Id} (hrole : d.node.state.currentRole = LEADER)
    (hends : (step d a).node.state.currentRole ≠ LEADER) :
    HigherTerm d a ∨
      (a = own .electionTimer ∧ d.node.electionTimer = true ∧
        ¬ (d.node.peers = [] ∧ d.node.ElectionReads)) ∨
      a = own .restart := by
  have hkept : ∀ {d' : Deployment Id}, d'.node.state = d.node.state →
      d'.node.state.currentRole = LEADER := by
    intro d' hsame
    rw [hsame]
    exact hrole
  cases a with
  | appendEntries req =>
      left
      refine ⟨req.term, rfl, ?_⟩
      by_contra hle
      refine hends ?_
      show (d.node.step (.appendEntries req)).state.currentRole = LEADER
      rw [state_appendEntries, stateSeen, if_neg hle]
      exact hrole
  | own a =>
      cases a with
      | leaderElectionTask =>
          refine absurd (hkept ?_) hends
          show d.leaderElectionTask.node.state = d.node.state
          rw [Deployment.leaderElectionTask, if_neg fun h => h.2 hrole]
      | electionTimer =>
          change d.electionTimer.node.state.currentRole ≠ LEADER at hends
          rw [Deployment.electionTimer] at hends
          split_ifs at hends with harmed
          · refine Or.inr (Or.inl ⟨rfl, harmed, fun hwins => hends ?_⟩)
            exact role_startElection.mpr hwins
          · exact absurd hrole hends
      | heartbeatTask =>
          refine absurd (hkept ?_) hends
          show d.heartbeatTask.node.state = d.node.state
          rw [Deployment.heartbeatTask, if_pos hrole]
      | runTask k =>
          refine absurd (hkept ?_) hends
          show (d.runTask k).node.state = d.node.state
          unfold Deployment.runTask
          split
          · exact (triple_state_sendAppendEntries d.node.state _).finalState rfl
          · rfl
      | supplyAsync e peer =>
          refine absurd (hkept ?_) hends
          show (d.supplyAsync e peer).node.state = d.node.state
          unfold Deployment.supplyAsync
          split
          · rfl
          · split_ifs
            · rfl
            · rfl
      | sendVoteRequest e peer =>
          refine absurd (hkept ?_) hends
          show (d.sendVoteRequest e peer).node.state = d.node.state
          unfold Deployment.sendVoteRequest
          split
          · rfl
          · split <;> rfl
      | voteResponse e peer response =>
          left
          by_contra hlow
          refine hends (role_voteResponse hrole e peer response fun r hr => ?_)
          refine not_lt.mp fun hgt => hlow ⟨r.term, ?_, hgt⟩
          exact Option.mem_map_of_mem RequestVoteResponse.term hr
      | thenAccept e => exact absurd (role_thenAccept hrole e) hends
      | put key value => exact absurd (hkept (state_put d.node key value)) hends
      | get key =>
          obtain ⟨storage, hget⟩ := Deployment.offStorage_get (n := d.node) key
          refine absurd (hkept ?_) hends
          show (d.node.step (.get key)).state = d.node.state
          rw [hget]
          rfl
      | restart => exact Or.inr (Or.inr rfl)

/-- **A leader of a running process leads until it sees a higher term exactly when** the
election timer leaves leaders alone, from whatever state the run starts in. -/
theorem leadsUntilHigherTerm_iff (d : Deployment Id) (as : List (NodeStep Id))
    (hlive : own .restart ∉ as) :
    LeadsUntilHigherTerm d as ↔ Run.Along step TimerSpares d as := by
  unfold LeadsUntilHigherTerm
  rw [Run.along_iff, Run.along_iff]
  constructor
  · rintro h p a hp rfl harmed hrole
    by_contra hloses
    have hends :
        (step (Run.run step d p) (own .electionTimer)).node.state.currentRole ≠ LEADER := by
      show (Run.run step d p).electionTimer.node.state.currentRole ≠ LEADER
      rw [Deployment.electionTimer, if_pos harmed]
      intro hleads
      have hwins := role_startElection.mp hleads
      exact hloses hwins
    -- the timer carries no message
    obtain ⟨t, ht, -⟩ := h p _ hp hrole hends
    cases ht
  · intro h p a hp hrole hends
    rcases ends_leadership hrole hends with hhigh | ⟨rfl, harmed, hloses⟩ | rfl
    · exact hhigh
    · exact absurd (h p _ hp rfl harmed hrole) hloses
    · have hmem : own .restart ∈ p ++ [(own .restart : NodeStep Id)] := by simp
      exact absurd (hp.subset hmem) hlive

/-- A process with two peers whose role was set by `getState().becomeLeader()`. -/
def leading : Deployment ℕ :=
  let d := Deployment.start 0 [1, 2]
  { d with node := { d.node with state := d.node.state.becomeLeader } }

/-- Its first heartbeat, which arms its own election timer. -/
def heartbeats : List (NodeStep ℕ) := [own .heartbeatTask, own (.runTask 0)]

/-- When the timer fires, the leader becomes a candidate. -/
theorem not_leadsUntilHigherTerm_heartbeats :
    ¬ LeadsUntilHigherTerm leading (heartbeats ++ [own .electionTimer]) := by
  unfold LeadsUntilHigherTerm
  decide +kernel

/-- The same leader, deposed by a call of a higher term before its timer fires. -/
theorem leadsUntilHigherTerm_deposed :
    LeadsUntilHigherTerm leading
      (heartbeats ++ [own .leaderElectionTask, .appendEntries ⟨1, 1, 0, 0, [], 0⟩,
        own .electionTimer]) :=
  (leadsUntilHigherTerm_iff leading _ (by decide)).mpr (by decide +kernel)

end NodeStep

end KVStore
