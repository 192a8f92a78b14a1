/-
# A deployed server whose statements fail

The server of `Deployment`, with steps of which any statement may fail.  An exception of
`leaderElectionTask` is its last run: the scheduler suppresses a periodic task that has
thrown, and nothing else begins an election.

`first_election_decides` : on a server without peers the first election of a process
decides for all of its lifetime whether it acknowledges puts.
-/
import KVStore.Deployment
import KVStore.FaultyInterleavings

namespace KVStore

open Role RaftNode

namespace RaftNode

variable {Id : Type} {n : RaftNode Id}

/-! ## Events whose statements fail -/

section Ready

variable [DecidableEq Id]

/-- A method that runs alone is one of the interleavings. -/
theorem Ready.method (h : n.Ready False) (task : Concurrent.Task Id) :
    (Exec.finalState task.method n).Ready False := by
  obtain ⟨sched, hnode, -⟩ :=
    Concurrent.exists_serial n (fun _ : Unit => task) (List.nodup_singleton ())
  have hready := (Concurrent.sound_after h (fun _ : Unit => task) sched).1.inv.ready
  rw [hnode] at hready
  exact hready

/-- A step of the node's own keeps it ready, whatever fails in it. -/
theorem Ready.step (h : n.Ready False) {ev : Event Id} (hev : ev.isLocal = true) :
    (n.step ev).Ready False := by
  cases ev with
  | put key value => exact h.method (.put key value)
  | get key => exact h.method (.get key)
  | startElection => exact h.method .startElection
  | becomeLeader => exact h.method .becomeLeader
  | voteResponse response => exact h.method (.requestVote response)
  | sendAppendEntries f => exact h.method (.sendAppendEntries f)
  | appendEntries req => cases hev
  | restart => exact Ready.restart h

/-- So does any number of them. -/
theorem Ready.after (h : n.Ready False) {evs : List (Event Id)}
    (hevs : ∀ ev ∈ evs, ev.isLocal = true) : (n.after evs).Ready False := by
  induction evs generalizing n with
  | nil => exact h
  | cons ev evs ih =>
      apply ih (h.step (hevs ev List.mem_cons_self))
      exact fun ev' hev' => hevs ev' (List.mem_cons_of_mem _ hev')

/-- A leader whose statements succeed acknowledges a put, whatever has failed before. -/
theorem Ready.answer_put (h : n.Ready False) (hhealthy : n.Healthy)
    (hrole : n.state.currentRole = LEADER) (key value : String) :
    n.answer (.put key value) = some (.put ⟨true⟩) := by
  have hsane : (n.appended key value).Sane :=
    Sane.appended ⟨hhealthy, h.applied.nonneg, h.commitIndex_nonneg, h.nextIdx_pos⟩ key value
  have hreach : (n.appended key value).InReach := by
    intro f
    have hf := h.inReach f
    rw [log_appended, List.length_append]
    show n.nextIdx f ≤ _
    push_cast
    omega
  obtain ⟨n', hsends, -, hsane', -⟩ := run_sendAll hsane hreach n.peers
  have hcommit := run_updateCommitIndex hsane'.healthy hsane'.lastApplied_nonneg
    hsane'.commitIndex_nonneg
  have hrun : (proposeEntry key value).run n = .ok true n'.commitUpdated := by
    rw [run_proposeEntry_of_leader hhealthy hrole, Exec.run_bind_ok hsends,
      Exec.run_bind_ok hcommit]
    rfl
  rw [answer, run_put hrun]

end Ready

end RaftNode

namespace Deployment

variable {Id : Type} [DecidableEq Id] {d : Deployment Id} {ps : List Id}

/-! ## Runs in which statements fail -/

/-- A step of which some statements fail. -/
structure FaultyStep (Id : Type) where
  action : DeploymentStep Id
  fails : List Bool

/-- The server, its next statements facing the given failures. -/
def facing (d : Deployment Id) (fails : List Bool) : Deployment Id :=
  { d with node := d.node.facing (Concurrent.outcomes fails) }

def faultyStep (d : Deployment Id) (a : FaultyStep Id) : Deployment Id :=
  (d.facing a.fails).step a.action

def afterFaulty (nodeId : Id) (peerIds : List Id) (as : List (FaultyStep Id)) : Deployment Id :=
  Run.run faultyStep (start nodeId peerIds) as

/-- What holds of a server whatever has failed. -/
structure Steady (d : Deployment Id) (ps : List Id) : Prop where
  layout : d.Layout ps
  ready : d.node.Ready False

/-- What is going to fail has not happened yet. -/
theorem Steady.facing (h : d.Steady ps) (fails : List Bool) : (d.facing fails).Steady ps :=
  ⟨h.layout.setNode rfl rfl Iff.rfl, Concurrent.ready_facing h.ready fails⟩

/-- A step of the process keeps it steady. -/
theorem Steady.step (h : d.Steady ps) (a : DeploymentStep Id) : (d.step a).Steady ps := by
  refine ⟨h.layout.step a, ?_⟩
  obtain ⟨evs, hlocal, hnode, -⟩ := h.layout.comes a
  rw [hnode]
  exact h.ready.after hlocal

/-- So does a step with failures. -/
theorem Steady.faultyStep (h : d.Steady ps) (a : FaultyStep Id) :
    (d.faultyStep a).Steady ps :=
  (h.facing a.fails).step a.action

/-- Whatever fails in a run, the server stays steady. -/
theorem Steady.run (h : d.Steady ps) (as : List (FaultyStep Id)) :
    (Run.run Deployment.faultyStep d as).Steady ps :=
  Run.run_invariant (P := fun d : Deployment Id => d.Steady ps) (fun _ a hd => hd.faultyStep a)
    h as

/-- Every run starts steady. -/
theorem steady_afterFaulty (nodeId : Id) (peerIds : List Id) (as : List (FaultyStep Id)) :
    (afterFaulty nodeId peerIds as).Steady peerIds.dedup :=
  Steady.run ⟨layout_start nodeId peerIds, ready_fresh nodeId peerIds⟩ as

/-! ## The first election of a process -/

/-- Whether the election task lives and whether a campaign has begun. -/
def course (d : Deployment Id) : Bool × Bool := (d.electionTask, d.campaigns.isEmpty)

omit [DecidableEq Id] in
/-- What becomes of the requests of a campaign is no matter of the course. -/
theorem course_setCampaign (d : Deployment Id) (e : ℕ) (c : Campaign Id) :
    (d.setCampaign e c).course = d.course := by
  apply congrArg (Prod.mk d.electionTask)
  show (d.campaigns.set e c).isEmpty = d.campaigns.isEmpty
  rw [Bool.eq_iff_iff, List.isEmpty_iff, List.isEmpty_iff, List.set_eq_nil_iff]

/-- A callback changes nothing of the course. -/
theorem course_thenAccept (d : Deployment Id) (e : ℕ) :
    (d.thenAccept e).course = d.course := by
  unfold thenAccept
  split
  · rfl
  · split_ifs
    · exact course_setCampaign _ _ _
    · rfl

/-- A server without peers on which the first election has been held or has thrown. -/
theorem course_leaderElectionTask (h : d.Layout []) (hpast : d.course ≠ (true, true)) :
    d.leaderElectionTask = d := by
  unfold leaderElectionTask
  rw [if_neg]
  rintro ⟨halive, hrole⟩
  refine hrole (h.role.mpr ⟨rfl, fun hnone => hpast ?_⟩)
  rw [course, halive, hnone]
  rfl

/-- No other step but a restart begins an election. -/
theorem course_step (h : d.Layout ps) {a : DeploymentStep Id} (ha : a ≠ .restart)
    (ha' : a ≠ .leaderElectionTask) : (d.step a).course = d.course := by
  cases a with
  | leaderElectionTask => exact absurd rfl ha'
  | electionTimer =>
      show d.electionTimer.course = d.course
      rw [Deployment.electionTimer, h.timer, if_neg Bool.false_ne_true]
  | heartbeatTask =>
      show d.heartbeatTask.course = d.course
      unfold heartbeatTask
      split_ifs <;> rfl
  | runTask k =>
      show (d.runTask k).course = d.course
      unfold runTask
      split <;> rfl
  | supplyAsync e peer =>
      show (d.supplyAsync e peer).course = d.course
      unfold supplyAsync
      split
      · rfl
      · split_ifs
        · exact course_setCampaign _ _ _
        · rfl
  | sendVoteRequest e peer =>
      show (d.sendVoteRequest e peer).course = d.course
      unfold sendVoteRequest
      split
      · rfl
      · split
        · exact course_setCampaign _ _ _
        · rfl
  | voteResponse e peer response =>
      show (d.voteResponse e peer response).course = d.course
      unfold voteResponse
      split
      · rfl
      · split
        · split
          · exact course_setCampaign _ _ _
          · rfl
        · rfl
  | thenAccept e => exact course_thenAccept d e
  | put key value => rfl
  | get key => rfl
  | restart => exact absurd rfl ha

/-- **Once the first election is past, its outcome stands until the next restart.** -/
theorem course_run (h : d.Steady []) (hpast : d.course ≠ (true, true)) {as : List (FaultyStep Id)}
    (has : ∀ a ∈ as, a.action ≠ .restart) : (Run.run faultyStep d as).course = d.course := by
  induction as generalizing d with
  | nil => rfl
  | cons a as ih =>
      have hlayout := (h.facing a.fails).layout
      have hstep : (d.faultyStep a).course = d.course := by
        by_cases ha : a.action = .leaderElectionTask
        · have hsame := congrArg course (course_leaderElectionTask hlayout hpast)
          rw [Deployment.faultyStep, ha]
          exact hsame
        · exact course_step hlayout (has a List.mem_cons_self) ha
      rw [Run.run_cons, ih (h.faultyStep a) (hstep ▸ hpast)
        fun b hb => has b (List.mem_cons_of_mem _ hb), hstep]

/-- Until then nothing has begun. -/
theorem course_run_before (h : d.Steady ps) {as : List (FaultyStep Id)}
    (has : ∀ a ∈ as, a.action ≠ .restart ∧ a.action ≠ .leaderElectionTask) :
    (Run.run faultyStep d as).course = d.course := by
  induction as generalizing d with
  | nil => rfl
  | cons a as ih =>
      obtain ⟨ha, ha'⟩ := has a List.mem_cons_self
      rw [Run.run_cons, ih (h.faultyStep a) fun b hb => has b (List.mem_cons_of_mem _ hb)]
      exact course_step (h.facing a.fails).layout ha ha'

/-- No statement is spared but one that is not said to fail. -/
theorem spared_outcomes_iff {k : ℕ} {fails : List Bool} :
    Spared k (Concurrent.outcomes fails) ↔ true ∉ fails.take k := by
  unfold Spared Concurrent.outcomes
  rw [← List.map_take, List.mem_map]
  apply not_congr
  constructor
  · rintro ⟨failed, hmem, hfails⟩
    cases failed with
    | true => exact hmem
    | false => cases hfails
  · exact fun hmem => ⟨true, hmem, rfl⟩

/-- What the first election comes to. -/
theorem course_first_election (h : d.Steady []) (hfirst : d.course = (true, true))
    (fails : List Bool) :
    (d.faultyStep ⟨.leaderElectionTask, fails⟩).course =
      if true ∈ fails.take (if d.node.log = [] then 2 else 3) then (false, true)
      else (true, false) := by
  obtain ⟨halive, hnone⟩ := Prod.mk.inj hfirst
  have hrole : (d.facing fails).node.state.currentRole ≠ LEADER := fun hleads =>
    (h.layout.role.mp hleads).2 (List.isEmpty_iff.mp hnone)
  have hreads : (d.facing fails).node.ElectionReads ↔
      true ∉ fails.take (if d.node.log = [] then 2 else 3) :=
    (electionReads_iff_spared (n := (d.facing fails).node)
      (Concurrent.crashes_notMem_outcomes fails)).trans
      spared_outcomes_iff
  have hexact := triple_startElection_exact (d.facing fails).node
  show (d.facing fails).leaderElectionTask.course = _
  rw [leaderElectionTask, if_pos ⟨halive, hrole⟩]
  rcases hrun : RaftNode.startElection.run (d.facing fails).node
    with ⟨⟨last, term⟩, n⟩ | ⟨err, n⟩
  · have hanswer : (d.facing fails).node.answer .startElection = some .done := by
      rw [answer, handle, Exec.run_bind_ok hrun]
      rfl
    rw [if_neg (hreads.mp (hexact.ok rfl hrun)), startElection_ok hrun, hanswer]
    simp [course]
  · have hanswer : (d.facing fails).node.answer .startElection = none := by
      rw [answer, handle, Exec.run_bind_error hrun]
    have hfails := not_not.mp (mt hreads.mpr (hexact.error rfl hrun))
    rw [if_pos hfails, startElection_error hrun, hanswer]
    exact congrArg (Prod.mk false) hnone

/-- **The first election of a process decides for all of it.**  A server without peers is
started on the database that any run with failed statements has left.  If one of the two
statements of its first election fails (three, if there are entries), it answers every put
`false` until the next restart, whatever becomes of later statements; otherwise it answers
every put `true` whose own statements succeed. -/
theorem first_election_decides (nodeId : Id) (as pre bs : List (FaultyStep Id))
    (fails : List Bool)
    (hpre : ∀ a ∈ pre, a.action ≠ .restart ∧ a.action ≠ .leaderElectionTask)
    (hbs : ∀ b ∈ bs, b.action ≠ .restart) (key value : String) :
    let d := Run.run faultyStep ((afterFaulty nodeId [] as).step .restart) pre
    let d' := Run.run faultyStep (d.faultyStep ⟨.leaderElectionTask, fails⟩) bs
    (true ∈ fails.take (if d.node.log = [] then 2 else 3) →
      ∀ later, (d'.facing later).node.answer (.put key value) = some (.put ⟨false⟩)) ∧
    (true ∉ fails.take (if d.node.log = [] then 2 else 3) →
      (d'.facing []).node.answer (.put key value) = some (.put ⟨true⟩)) := by
  intro d d'
  have hstart : ((afterFaulty nodeId [] as).step .restart).Steady ([] : List Id) :=
    (steady_afterFaulty nodeId [] as).step .restart
  have hd : d.Steady [] := hstart.run pre
  have hd' : d'.Steady [] := (hd.faultyStep _).run bs
  have hfirst : d.course = (true, true) := course_run_before hstart hpre
  have hcourse := course_first_election hd hfirst fails
  -- whatever it is, it stands
  have hstands : d'.course = (d.faultyStep ⟨.leaderElectionTask, fails⟩).course := by
    apply course_run (hd.faultyStep _) _ hbs
    rw [hcourse]
    split_ifs <;> decide
  rw [hcourse] at hstands
  constructor
  · intro hfails later
    rw [if_pos hfails] at hstands
    have hrole : (d'.facing later).node.state.currentRole ≠ LEADER := fun hleads =>
      (hd'.layout.role.mp hleads).2 (List.isEmpty_iff.mp (congrArg Prod.snd hstands))
    rw [answer, run_put_other hrole]
  · intro hspared
    rw [if_neg hspared] at hstands
    have hrole : d'.node.state.currentRole = LEADER := by
      refine hd'.layout.role.mpr ⟨rfl, fun hnone => ?_⟩
      have hbegun := congrArg Prod.snd hstands
      simp [course, hnone] at hbegun
    exact (hd'.facing []).ready.answer_put rfl hrole key value

/-- After a restart on a log with one entry, an election whose second statement fails. -/
theorem first_election_decides_failedRead :
    let d := Run.run faultyStep ((afterFaulty 0 [] [⟨.leaderElectionTask, []⟩,
      ⟨.put "color" "blue", []⟩]).step .restart) [⟨.heartbeatTask, []⟩]
    let d' := Run.run faultyStep (d.faultyStep ⟨.leaderElectionTask, [false, true]⟩)
      [⟨.leaderElectionTask, []⟩]
    ∀ later, (d'.facing later).node.answer (.put "color" "red") = some (.put ⟨false⟩) :=
  (first_election_decides 0 [⟨.leaderElectionTask, []⟩, ⟨.put "color" "blue", []⟩]
    [⟨.heartbeatTask, []⟩] [⟨.leaderElectionTask, []⟩] [false, true]
    (by simp) (by simp) "color" "red").1 (by decide +kernel)

end Deployment

end KVStore
