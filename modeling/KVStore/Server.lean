/-
# A server process with its timers and tasks

Everything that runs on a node: the two periodic tasks of `start()`, the election
timer that `resetElectionTimer` arms, the sends queued by heartbeats, the vote
futures and tallies of all elections so far, client requests and the calls of
other nodes, each one atomic step and in any order.  The tallies read the vote
futures as the Booleans their type declares.

The role is changed in five places, and this module says exactly when:
`state_step` reads the role and term after a step off the event the step is for
the node.  From it follows when a call of `appendEntries` makes the node a
follower until its term changes: the equal-term branch of the source does not step
down, and a tally does not look at the role (`stepsDown_iff`).
-/
import KVStore.Election
import KVStore.Deposed

namespace KVStore

open Role RaftNode

variable {Id : Type}

structure Server (Id : Type) where
  process : Process Id
  /-- The sends the worker pool has not run yet. -/
  tasks : List Id

inductive ServerStep (Id : Type) : Type where
  | leaderElectionTask
  /-- The task of `electionTimer` fires, if one is armed. -/
  | electionTimer
  | heartbeatTask
  | runTask (k : ℕ)
  | sendVoteRequest (e : ℕ) (peer : Id)
  | voteResponse (e : ℕ) (peer : Id) (response : Option RequestVoteResponse)
  | tally (e : ℕ)
  | put (key value : String)
  | get (key : String)
  /-- A call made by another node. -/
  | appendEntries (req : AppendEntriesRequest Id)
  | restart
  deriving DecidableEq

/-- The armed task has run. -/
def RaftNode.timerFired (n : RaftNode Id) : RaftNode Id := { n with electionTimer := false }

namespace Server

variable [DecidableEq Id]

def node (s : Server Id) : RaftNode Id := s.process.node
def role (s : Server Id) : Role := s.node.state.currentRole
def term (s : Server Id) : ℤ := s.node.state.currentTerm

def setNode (s : Server Id) (n : RaftNode Id) : Server Id :=
  { s with process := { s.process with node := n } }

def setProcess (s : Server Id) (p : Process Id) : Server Id := { s with process := p }

def worker (s : Server Id) : Worker Id := ⟨s.node, s.tasks⟩

def setWorker (s : Server Id) (w : Worker Id) : Server Id :=
  { s.setNode w.node with tasks := w.tasks }

def leaderElectionTask (s : Server Id) : Server Id :=
  if s.role ≠ LEADER then s.setProcess s.process.startElection else s

/-- `scheduler.schedule(this::startElection, …)`: no look at the role. -/
def electionTimer (s : Server Id) : Server Id :=
  if s.node.electionTimer then
    s.setProcess (s.setNode s.node.timerFired).process.startElection
  else s

def step (s : Server Id) : ServerStep Id → Server Id
  | .leaderElectionTask => s.leaderElectionTask
  | .electionTimer => s.electionTimer
  | .heartbeatTask => s.setWorker s.worker.heartbeatTask
  | .runTask k => s.setWorker (s.worker.runTask k)
  | .sendVoteRequest e peer => s.setProcess (s.process.sendVoteRequest e peer)
  | .voteResponse e peer response => s.setProcess (s.process.voteResponse e peer response)
  | .tally e => s.setProcess (s.process.tally e)
  | .put key value => s.setNode (s.node.step (.put key value))
  | .get key => s.setNode (s.node.step (.get key))
  | .appendEntries req => s.setNode (s.node.step (.appendEntries req))
  | .restart => ⟨⟨s.node.restart, []⟩, []⟩

/-- A new process on an empty database. -/
def start (nodeId : Id) (peerIds : List Id) : Server Id := ⟨⟨fresh nodeId peerIds, []⟩, []⟩

/-- The process after a run. -/
def after (nodeId : Id) (peerIds : List Id) (as : List (ServerStep Id)) : Server Id :=
  Run.run Server.step (start nodeId peerIds) as

omit [DecidableEq Id] in
/-- The futures of election `e` are done, its callback has not run, and the votes
pass the test. -/
def Passes (s : Server Id) (e : ℕ) : Prop :=
  ∃ el ∈ s.process.elections[e]?,
    el.Ready s.node ∧ voteCount (el.results s.node) > s.node.peers.length / 2

omit [DecidableEq Id] in
/-- The vote request of `peer` in election `e` is under way. -/
def Awaits (s : Server Id) (e : ℕ) (peer : Id) : Prop :=
  ∃ el ∈ s.process.elections[e]?, (el.futures peer).isSent = true

omit [DecidableEq Id] in
instance (s : Server Id) (e : ℕ) : Decidable (s.Passes e) :=
  inferInstanceAs (Decidable (∃ el ∈ s.process.elections[e]?, _))

omit [DecidableEq Id] in
instance (s : Server Id) (e : ℕ) (peer : Id) : Decidable (s.Awaits e peer) :=
  inferInstanceAs (Decidable (∃ el ∈ s.process.elections[e]?, _))

/-- The step is the given event for the node. -/
inductive Causes (s : Server Id) : ServerStep Id → Event Id → Prop where
  | leaderElectionTask (h : s.role ≠ LEADER) : Causes s .leaderElectionTask .startElection
  | electionTimer (h : s.node.electionTimer = true) : Causes s .electionTimer .startElection
  | runTask (k : ℕ) (f : Id) (h : s.tasks[k]? = some f) :
      Causes s (.runTask k) (.sendAppendEntries f)
  | voteResponse (e : ℕ) (peer : Id) (response : Option RequestVoteResponse)
      (h : s.Awaits e peer) : Causes s (.voteResponse e peer response) (.voteResponse response)
  | tally (e : ℕ) (h : s.Passes e) : Causes s (.tally e) .becomeLeader
  | put (key value : String) : Causes s (.put key value) (.put key value)
  | get (key : String) : Causes s (.get key) (.get key)
  | appendEntries (req : AppendEntriesRequest Id) :
      Causes s (.appendEntries req) (.appendEntries req)
  | restart : Causes s .restart .restart

variable {s : Server Id}

/-! ## What a step is for the node -/

/-- An election of the process is one of its node. -/
theorem node_startElection (p : Process Id) :
    p.startElection.node = p.node.step .startElection := by
  have hstep : p.node.step .startElection = Exec.finalState RaftNode.startElection p.node :=
    Exec.finalState_bind_pure _ _ _
  rw [hstep, Process.startElection, Exec.finalState]
  split <;> simp_all

/-- Sending a request does not touch the node. -/
theorem node_sendVoteRequest (p : Process Id) (e : ℕ) (peer : Id) :
    (p.sendVoteRequest e peer).node = p.node := by
  unfold Process.sendVoteRequest
  split
  · rfl
  · split
    · dsimp only
      split_ifs <;> rfl
    · rfl

/-- An awaited answer reaches the node. -/
theorem node_voteResponse_of_awaits {e : ℕ} {peer : Id} (h : s.Awaits e peer)
    (response : Option RequestVoteResponse) :
    (s.process.voteResponse e peer response).node = s.node.step (.voteResponse response) := by
  obtain ⟨el, request, hel, hvf⟩ := Process.Awaits.exists_sent h
  cases response with
  | none =>
      rw [Process.voteResponse_none hel hvf]
      rfl
  | some r =>
      rw [Process.voteResponse_some hel hvf, step_voteResponse]
      rfl

/-- An answer that is not awaited is dropped. -/
theorem node_voteResponse_of_not_awaits {e : ℕ} {peer : Id} (h : ¬ s.Awaits e peer)
    (response : Option RequestVoteResponse) :
    (s.process.voteResponse e peer response).node = s.node :=
  congrArg Process.node (Process.voteResponse_of_not_awaits h response)

/-- A tally makes a leader exactly where it passes. -/
theorem node_tally (h : s.node.Healthy) (e : ℕ) :
    (s.Passes e → (s.process.tally e).node = s.node.step .becomeLeader) ∧
      (¬ s.Passes e → (s.process.tally e).node = s.node) := by
  have hnode := Process.node_tally h e
  rw [step_becomeLeader h]
  exact ⟨fun hpass => hnode.trans (if_pos hpass), fun hno => hnode.trans (if_neg hno)⟩

/-- A step that is an event for the node. -/
theorem node_of_causes (h : s.node.Healthy) {a : ServerStep Id} {ev : Event Id}
    (hc : s.Causes a ev) :
    ∃ n, (n = s.node ∨ n = s.node.timerFired) ∧ (s.step a).node = n.step ev := by
  cases hc with
  | leaderElectionTask hrole =>
      refine ⟨s.node, Or.inl rfl, ?_⟩
      show s.leaderElectionTask.node = _
      rw [leaderElectionTask, if_pos hrole]
      exact node_startElection _
  | electionTimer harmed =>
      refine ⟨s.node.timerFired, Or.inr rfl, ?_⟩
      show s.electionTimer.node = _
      rw [electionTimer, if_pos harmed]
      exact node_startElection _
  | runTask k f hk =>
      refine ⟨s.node, Or.inl rfl, ?_⟩
      show (s.worker.runTask k).node = _
      rw [Worker.runTask, show s.worker.tasks[k]? = some f from hk, step_sendAppendEntries]
      rfl
  | voteResponse e peer response hawaits =>
      exact ⟨s.node, Or.inl rfl, node_voteResponse_of_awaits hawaits response⟩
  | tally e hpass => exact ⟨s.node, Or.inl rfl, (node_tally h e).1 hpass⟩
  | put key value => exact ⟨s.node, Or.inl rfl, rfl⟩
  | get key => exact ⟨s.node, Or.inl rfl, rfl⟩
  | appendEntries req => exact ⟨s.node, Or.inl rfl, rfl⟩
  | restart => exact ⟨s.node, Or.inl rfl, step_restart.symm⟩

/-- Every other step leaves the node alone. -/
theorem node_of_idle (h : s.node.Healthy) {a : ServerStep Id} (hc : ∀ ev, ¬ s.Causes a ev) :
    (s.step a).node = s.node := by
  cases a with
  | leaderElectionTask =>
      show s.leaderElectionTask.node = _
      rw [leaderElectionTask, if_neg fun hrole => hc _ (.leaderElectionTask hrole)]
  | electionTimer =>
      show s.electionTimer.node = _
      rw [electionTimer, if_neg fun harmed => hc _ (.electionTimer harmed)]
  | heartbeatTask =>
      show s.worker.heartbeatTask.node = s.node
      unfold Worker.heartbeatTask
      split_ifs <;> rfl
  | runTask k =>
      show (s.worker.runTask k).node = _
      cases hk : s.tasks[k]? with
      | none =>
          rw [Worker.runTask, show s.worker.tasks[k]? = none from hk]
          rfl
      | some f => exact absurd (.runTask k f hk) (hc _)
  | sendVoteRequest e peer => exact node_sendVoteRequest _ e peer
  | voteResponse e peer response =>
      exact node_voteResponse_of_not_awaits (fun haw => hc _ (.voteResponse e peer response haw))
        response
  | tally e => exact (node_tally h e).2 fun hpass => hc _ (.tally e hpass)
  | put key value => exact absurd (.put key value) (hc _)
  | get key => exact absurd (.get key) (hc _)
  | appendEntries req => exact absurd (.appendEntries req) (hc _)
  | restart => exact absurd .restart (hc _)

/-- The timer that has fired keeps the node sane. -/
theorem sane_timerFired {n : RaftNode Id} (h : n.Sane) : n.timerFired.Sane :=
  ⟨h.healthy, h.lastApplied_nonneg, h.commitIndex_nonneg, h.nextIdx_pos⟩

/-- So does every step. -/
theorem sane_step (h : s.node.Sane) (a : ServerStep Id) : (s.step a).node.Sane := by
  by_cases hc : ∃ ev, s.Causes a ev
  · obtain ⟨ev, hev⟩ := hc
    obtain ⟨n, rfl | rfl, hnode⟩ := node_of_causes h.healthy hev
    · rw [hnode]
      exact h.step ev
    · rw [hnode]
      exact (sane_timerFired h).step ev
  · rw [node_of_idle h.healthy (not_exists.mp hc)]
    exact h

/-- **The role and the term after a step that is an event for the node.** -/
theorem state_of_causes (h : s.node.Sane) {a : ServerStep Id} {ev : Event Id}
    (hc : s.Causes a ev) : (s.step a).node.state = stateAfter s.node.state ev := by
  obtain ⟨n, rfl | rfl, hnode⟩ := node_of_causes h.healthy hc
  · rw [hnode, RaftNode.state_step h]
  · rw [hnode, RaftNode.state_step (sane_timerFired h)]
    rfl

/-- **What a step does to the role and the term.** -/
theorem state_step (h : s.node.Sane) (a : ServerStep Id) :
    (∃ ev, s.Causes a ev ∧ (s.step a).node.state = stateAfter s.node.state ev) ∨
      (s.step a).node.state = s.node.state := by
  by_cases hc : ∃ ev, s.Causes a ev
  · obtain ⟨ev, hev⟩ := hc
    exact Or.inl ⟨ev, hev, state_of_causes h hev⟩
  · right
    rw [node_of_idle h.healthy (not_exists.mp hc)]

/-- So does every run. -/
theorem sane_run (h : s.node.Sane) (as : List (ServerStep Id)) :
    (Run.run Server.step s as).node.Sane :=
  Run.run_invariant (P := fun s : Server Id => s.node.Sane) (fun _ a hs => sane_step hs a) h as

/-- A server is sane at every moment. -/
theorem sane_after (nodeId : Id) (peerIds : List Id) (as : List (ServerStep Id)) :
    (after nodeId peerIds as).node.Sane :=
  sane_run (s := start nodeId peerIds) (sane_fresh nodeId peerIds) as

/-! ## Stepping down for an `appendEntries` call -/

/-- Incrementing a `long` changes it. -/
theorem longSucc_ne (x : ℤ) : longSucc x ≠ x := by
  intro h
  have hmod := Int.bmod_emod (x := x + 1) (m := 2 ^ 64)
  rw [show Int.bmod (x + 1) (2 ^ 64) = x from h] at hmod
  omega

/-- No step of the run changes the term. -/
def KeepsTerm (s : Server Id) (as : List (ServerStep Id)) : Prop :=
  ∀ p, p <+: as → (Run.run Server.step s p).term = s.term

/-- A run keeps its term as long as each next step does. -/
theorem keepsTerm_snoc {as : List (ServerStep Id)} {a : ServerStep Id} :
    s.KeepsTerm (as ++ [a]) ↔
      s.KeepsTerm as ∧ ((Run.run Server.step s as).step a).term = s.term := by
  constructor
  · intro h
    refine ⟨fun p hp => h p (hp.trans (List.prefix_append _ _)), ?_⟩
    have hall := h (as ++ [a]) List.prefix_rfl
    rwa [Run.run_snoc] at hall
  · rintro ⟨h, hlast⟩ p hp
    rcases List.prefix_concat_iff.mp hp with rfl | hp
    · rw [Run.run_snoc]
      exact hlast
    · exact h p hp

/-- A call whose term is not stale makes the node a follower of that term until a
later step changes the term; a stale call answers `false` and changes nothing. -/
def StepsDown (nodeId : Id) (peerIds : List Id) (as : List (ServerStep Id)) : Prop :=
  ∀ p req q, p ++ .appendEntries req :: q <+: as →
    let s := after nodeId peerIds p
    let s' := s.step (.appendEntries req)
    (s.term ≤ req.term → s'.term = req.term ∧
      (s'.KeepsTerm q → (Run.run Server.step s' q).role = FOLLOWER ∧
        ∀ key value, (RaftNode.proposeEntry key value).run (Run.run Server.step s' q).node
          = .ok false (Run.run Server.step s' q).node)) ∧
    (req.term < s.term → (RaftNode.appendEntries req).run s.node = .ok false s.node ∧ s' = s)

/-- A call in the node's own term finds it a follower, and no tally passes after
a call that was not stale while the term stays what the call left. -/
def Settled (nodeId : Id) (peerIds : List Id) (as : List (ServerStep Id)) : Prop :=
  (∀ p req, p ++ [.appendEntries req] <+: as →
    req.term = (after nodeId peerIds p).term → (after nodeId peerIds p).role = FOLLOWER) ∧
  (∀ p req q e, p ++ .appendEntries req :: q ++ [.tally e] <+: as →
    (after nodeId peerIds p).term ≤ req.term →
    ((after nodeId peerIds p).step (.appendEntries req)).KeepsTerm q →
    ¬ (Run.run Server.step ((after nodeId peerIds p).step (.appendEntries req)) q).Passes e)

/-- The node right after a call that was not stale. -/
theorem state_appendEntries (h : s.node.Sane) {req : AppendEntriesRequest Id}
    (hterm : s.term ≤ req.term) :
    (s.step (.appendEntries req)).term = req.term ∧
      ((s.step (.appendEntries req)).role = FOLLOWER ↔ req.term = s.term → s.role = FOLLOWER) := by
  have hstate := state_of_causes h (.appendEntries req)
  rw [stateAfter, stateSeen] at hstate
  unfold term at hterm ⊢
  unfold role
  rw [hstate]
  rcases lt_or_eq_of_le hterm with hlt | heq
  · rw [if_pos hlt]
    refine ⟨rfl, fun _ hc => absurd hc.symm hlt.ne, fun _ => rfl⟩
  · rw [if_neg (by omega)]
    exact ⟨heq, fun hr _ => hr, fun hr => hr heq.symm⟩

/-- A tally that passes makes a leader and keeps the term. -/
theorem role_of_passes (h : s.node.Sane) {e : ℕ} (hpass : s.Passes e) :
    (s.step (.tally e)).role = LEADER ∧ (s.step (.tally e)).term = s.term := by
  unfold term role
  rw [state_of_causes h (.tally e hpass)]
  exact ⟨rfl, rfl⟩

/-- A follower that keeps its term stays a follower, unless a tally passes. -/
theorem role_of_keeps (h : s.node.Sane) {a : ServerStep Id} (hrole : s.role = FOLLOWER)
    (hterm : (s.step a).term = s.term) (htally : ∀ e, a = .tally e → ¬ s.Passes e) :
    (s.step a).role = FOLLOWER := by
  have hseen : ∀ t, (stateSeen s.node.state t).currentRole = FOLLOWER := by
    intro t
    unfold stateSeen
    split_ifs
    · rfl
    · exact hrole
  unfold role
  rcases state_step h a with ⟨ev, hc, hstate⟩ | hsame
  · have hkept : s.role = (stateAfter s.node.state ev).currentRole →
        (s.step a).node.state.currentRole = FOLLOWER := by
      intro heq
      rw [hstate, ← heq]
      exact hrole
    have hnew : (stateAfter s.node.state ev).currentTerm = s.term := by
      rw [← hstate]
      exact hterm
    -- an election raises the term, and a tally that passes is excluded
    cases hc with
    | leaderElectionTask => exact absurd hnew (longSucc_ne _)
    | electionTimer => exact absurd hnew (longSucc_ne _)
    | runTask k f => exact hkept rfl
    | tally e hpass => exact absurd hpass (htally e rfl)
    | put key value => exact hkept rfl
    | get key => exact hkept rfl
    | voteResponse e peer response =>
        cases response with
        | none => exact hkept rfl
        | some r => exact hkept (hrole.trans (hseen r.term).symm)
    | appendEntries req => exact hkept (hrole.trans (hseen req.term).symm)
    | restart => exact hkept hrole
  · rw [hsame]
    exact hrole

/-- Within the condition a call makes the node a follower while its term lasts. -/
theorem follower_of_settled {nodeId : Id} {peerIds : List Id} {as : List (ServerStep Id)}
    (hset : Settled nodeId peerIds as) {p q : List (ServerStep Id)}
    {req : AppendEntriesRequest Id} (hp : p ++ .appendEntries req :: q <+: as)
    (hterm : (after nodeId peerIds p).term ≤ req.term)
    (hkeep : ((after nodeId peerIds p).step (.appendEntries req)).KeepsTerm q) :
    (Run.run Server.step ((after nodeId peerIds p).step (.appendEntries req)) q).role
      = FOLLOWER := by
  have hsane := sane_after nodeId peerIds p
  obtain ⟨hequal, htally⟩ := hset
  induction q using List.reverseRecOn with
  | nil =>
      apply (state_appendEntries hsane hterm).2.mpr
      exact hequal p req (by simpa using hp)
  | append_singleton q a ih =>
      have hpq : p ++ .appendEntries req :: q <+: as :=
        (List.prefix_append_right_inj p).mpr
          (List.cons_prefix_cons.mpr ⟨rfl, List.prefix_append q [a]⟩) |>.trans hp
      obtain ⟨hkeep', hlast⟩ := keepsTerm_snoc.mp hkeep
      have hsane' := sane_run (sane_step hsane (.appendEntries req)) q
      rw [Run.run_snoc]
      refine role_of_keeps hsane' (ih hpq hkeep') ?_ ?_
      · rw [hlast, hkeep' q List.prefix_rfl]
      · rintro e rfl
        exact htally p req q e (by simpa using hp) hterm hkeep'

/-- **A node steps down for good exactly when** it was no candidate or leader of
the call's own term and no tally passes in the term it followed. -/
theorem stepsDown_iff (nodeId : Id) (peerIds : List Id) (as : List (ServerStep Id)) :
    StepsDown nodeId peerIds as ↔ Settled nodeId peerIds as := by
  constructor
  · intro h
    constructor
    · intro p req hp heq
      have hsane := sane_after nodeId peerIds p
      -- right after the call, with no step in between
      obtain ⟨-, hfollow⟩ := (h p req [] hp).1 heq.ge
      have hrole := (hfollow fun q hq => by rw [List.prefix_nil.mp hq]; rfl).1
      exact (state_appendEntries hsane heq.ge).2.mp hrole heq
    · intro p req q e hp hterm hkeep hpass
      have hsane := sane_after nodeId peerIds p
      have hsane' := sane_run (sane_step hsane (.appendEntries req)) q
      -- a passing tally makes the node leader and keeps the term it followed
      obtain ⟨hlead, hsame⟩ := role_of_passes hsane' hpass
      have hkeep' := keepsTerm_snoc.mpr ⟨hkeep, hsame.trans (hkeep q List.prefix_rfl)⟩
      have hp' : p ++ .appendEntries req :: (q ++ [.tally e]) <+: as := by
        simpa using hp
      have hrole := (((h p req _ hp').1 hterm).2 hkeep').1
      rw [Run.run_snoc, hlead] at hrole
      cases hrole
  · intro hset p req q hp
    have hsane := sane_after nodeId peerIds p
    constructor
    · intro hterm
      refine ⟨(state_appendEntries hsane hterm).1, fun hkeep => ?_⟩
      have hfollow := follower_of_settled hset hp hterm hkeep
      refine ⟨hfollow, fun key value => run_proposeEntry_of_not_leader ?_ key value⟩
      rw [show (Run.run Server.step _ q).node.state.currentRole = FOLLOWER from hfollow]
      decide
    · intro hstale
      have hrun := run_appendEntries_of_stale hsane.healthy hsane.lastApplied_nonneg hstale
      refine ⟨hrun, ?_⟩
      show (after nodeId peerIds p).setNode ((after nodeId peerIds p).node.step _) = _
      rw [step_appendEntries, Exec.finalState_ok hrun]
      rfl

/-- A candidate of term `1` that hears from the leader of term `1`. -/
def rival : List (ServerStep ℕ) :=
  [.leaderElectionTask, .appendEntries ⟨1, 1, 0, 0, [], 0⟩]

/-- It stays candidate: the branch for a greater term is the only one that steps
down. -/
theorem not_stepsDown_rival : ¬ StepsDown 0 [1, 2] rival := by
  intro h
  have hcall := (h [.leaderElectionTask] ⟨1, 1, 0, 0, [], 0⟩ [] List.prefix_rfl).1
    (by decide +kernel)
  have hrole := (hcall.2 fun q hq => by rw [List.prefix_nil.mp hq]; rfl).1
  revert hrole
  decide +kernel

end Server

end KVStore
