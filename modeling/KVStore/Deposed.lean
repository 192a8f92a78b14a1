/-
# What a deposed leader still does

`heartbeatTask` looks at the role when it queues the sends; `sendAppendEntries`
does not look at it when it runs.  `Worker` is a node with its queue of sends, and
a run interleaves the queued sends with everything else that happens to the node.

A send that runs when the node is no longer leader is harmless only by accident:
when `nextIndex` is within the log, no entry passes the commit test, and the node
happens to have been leader in its current term before (`harmless_iff`).  Without
a restart or a wrap-around of the term the last is impossible, so then no leftover
send is harmless (`leftover_send`).
-/
import KVStore.LogMatching

namespace KVStore

open Role RaftNode

variable {Id : Type}

/-- A node and the sends its worker pool has not run yet. -/
structure Worker (Id : Type) where
  node : RaftNode Id
  tasks : List Id

/-- One step of the process. -/
inductive Work (Id : Type) : Type where
  /-- Anything but the heartbeat and its sends. -/
  | event (ev : Event Id)
  | heartbeatTask
  /-- Task `k` of the queue runs. -/
  | runTask (k : ℕ)
  deriving DecidableEq

namespace Worker

variable [DecidableEq Id]

omit [DecidableEq Id] in
/-- A leader queues a send for each peer. -/
def heartbeatTask (w : Worker Id) : Worker Id :=
  if w.node.state.currentRole = LEADER then { w with tasks := w.tasks ++ w.node.peers } else w

/-- A queued send runs, whatever the role is by now. -/
def runTask (w : Worker Id) (k : ℕ) : Worker Id :=
  match w.tasks[k]? with
  | some f => ⟨Exec.finalState (sendAppendEntries f) w.node, w.tasks.eraseIdx k⟩
  | none => w

/-- The queue is lost with the process. -/
def event (w : Worker Id) (ev : Event Id) : Worker Id :=
  ⟨w.node.step ev, if ev = .restart then [] else w.tasks⟩

def step (w : Worker Id) : Work Id → Worker Id
  | .event ev => w.event ev
  | .heartbeatTask => w.heartbeatTask
  | .runTask k => w.runTask k

/-- A new process on an empty database, after a run. -/
def after (nodeId : Id) (peerIds : List Id) (as : List (Work Id)) : Worker Id :=
  Run.run Worker.step ⟨fresh nodeId peerIds, []⟩ as

/-- The node led in term `t` at some moment of the run. -/
def WasLeader (nodeId : Id) (peerIds : List Id) (as : List (Work Id)) (t : ℤ) : Prop :=
  ∃ p, p <+: as ∧ (after nodeId peerIds p).node.Leads t

end Worker

/-! ## Harmless sends -/

namespace RaftNode

variable [DecidableEq Id] {n : RaftNode Id}

/-- The send returns, changes nothing that is stored, and issues `appendEntries`
only in a term the node was elected in. -/
def Harmless (n : RaftNode Id) (led : ℤ → Prop) (f : Id) : Prop :=
  (∃ n', (sendAppendEntries f).run n = .ok () n' ∧ n'.log = n.log ∧
    n'.commitIndex = n.commitIndex ∧ n'.lastApplied = n.lastApplied ∧ n'.kvStore = n.kvStore) ∧
  ∀ req n', (buildAppendEntries f).run n = .ok req n' → led req.term

/-- No index above the commit index passes the test of `updateCommitIndex` once
`f` is recorded at the end of the log. -/
def NothingToCommit (n : RaftNode Id) (f : Id) : Prop :=
  ∀ m, n.commitIndex < m → m ≤ n.log.length → ¬ (n.sent f).canCommit m

/-- **When a send is harmless**, whatever the role. -/
theorem harmless_iff (h : n.Sane) (led : ℤ → Prop) (f : Id) :
    n.Harmless led f ↔
      n.nextIdx f ≤ n.log.length + 1 ∧ n.NothingToCommit f ∧ led n.state.currentTerm := by
  have hrun := run_sendAppendEntries h f
  constructor
  · rintro ⟨⟨n', hn', hlog, hcommit, -, -⟩, hterm⟩
    rw [hrun] at hn'
    split_ifs at hn' with hreach
    · obtain rfl : (n.sent f).commitUpdated = n' := by
        injection hn'
      refine ⟨hreach, ?_, ?_⟩
      · -- an index that passes the test would be committed
        intro m hlt hle hcan
        have hge := le_commitIndex_commitUpdated (n.sent f) (by simpa using hle) hcan
        omega
      · exact hterm _ _ (run_appendEntriesFrom h.healthy hreach f)
  · rintro ⟨hreach, hnothing, hled⟩
    rw [if_pos hreach] at hrun
    have hsame : (n.sent f).commitUpdated = n.sent f := by
      apply commitScan_of_not_canCommit
      intro m hm hm'
      rw [commitIndex_sent] at hm hm'
      rw [log_sent] at hm'
      exact hnothing m (by omega) (by omega)
    rw [hsame] at hrun
    refine ⟨⟨n.sent f, hrun, rfl, rfl, rfl, rfl⟩, ?_⟩
    intro req n' hbuild
    rw [run_buildAppendEntries, run_appendEntriesFrom h.healthy hreach] at hbuild
    injection hbuild with hreq
    rw [← hreq]
    exact hled

end RaftNode

/-! ## Runs of one process -/

namespace Worker

variable [DecidableEq Id] {nodeId : Id} {peerIds : List Id}

/-- The process is not restarted and its term does not wrap around. -/
def Continuous (w : Worker Id) : Work Id → Prop
  | .event .restart => False
  | .event .startElection => w.node.state.currentTerm < longMax
  | _ => True

instance (w : Worker Id) : ∀ a : Work Id, Decidable (w.Continuous a)
  | .event .restart => inferInstanceAs (Decidable False)
  | .event .startElection => inferInstanceAs (Decidable (_ < longMax))
  | .event (.put _ _) | .event (.get _) | .event .becomeLeader | .event (.voteResponse _)
  | .event (.sendAppendEntries _) | .event (.appendEntries _) | .heartbeatTask | .runTask _ =>
      inferInstanceAs (Decidable True)

theorem after_snoc (p : List (Work Id)) (a : Work Id) :
    after nodeId peerIds (p ++ [a]) = (after nodeId peerIds p).step a :=
  Run.run_snoc _ _ _ _

/-- Every step is an event for the node, or none at all. -/
theorem node_step (w : Worker Id) (a : Work Id) :
    (w.step a).node = w.node ∨ (∃ f, (w.step a).node = w.node.step (.sendAppendEntries f)) ∨
      ∃ ev, a = .event ev ∧ (w.step a).node = w.node.step ev := by
  cases a with
  | event ev => exact Or.inr (Or.inr ⟨ev, rfl, rfl⟩)
  | heartbeatTask =>
      left
      show (w.heartbeatTask).node = w.node
      unfold heartbeatTask
      split_ifs <;> rfl
  | runTask k =>
      have hstep : w.step (.runTask k) = w.runTask k := rfl
      rw [hstep, runTask]
      cases w.tasks[k]? with
      | none => exact Or.inl rfl
      | some f => exact Or.inr (Or.inl ⟨f, (step_sendAppendEntries f).symm⟩)

theorem sane_after (as : List (Work Id)) : (after nodeId peerIds as).node.Sane := by
  refine Run.run_invariant (P := fun w : Worker Id => w.node.Sane) ?_
    (sane_fresh nodeId peerIds) as
  intro w a hw
  rcases node_step w a with hsame | ⟨f, hsend⟩ | ⟨ev, -, hev⟩
  · rw [hsame]
    exact hw
  · rw [hsend]
    exact hw.step _
  · rw [hev]
    exact hw.step ev

/-- In one life of the process the node takes an event that keeps its term and is
no restart, or none at all. -/
theorem node_step_of_continuous {w : Worker Id} {a : Work Id} (h : w.Continuous a) :
    (w.step a).node = w.node ∨
      ∃ ev, w.node.KeepsTerm ev ∧ ev ≠ .restart ∧ (w.step a).node = w.node.step ev := by
  rcases node_step w a with hsame | ⟨f, hsend⟩ | ⟨ev, rfl, hev⟩
  · exact Or.inl hsame
  · exact Or.inr ⟨.sendAppendEntries f, trivial, by simp, hsend⟩
  · refine Or.inr ⟨ev, ?_, ?_, hev⟩
    · cases ev <;> first | exact h | trivial
    · rintro rfl
      exact h

/-- A node that has led in a term is past that term or still leads in it. -/
theorem wasLeader_past {as : List (Work Id)}
    (hcont : Run.Along Worker.step Continuous ⟨fresh nodeId peerIds, []⟩ as) :
    0 ≤ (after nodeId peerIds as).node.state.currentTerm ∧
      ∀ t, WasLeader nodeId peerIds as t →
        t < (after nodeId peerIds as).node.state.currentTerm ∨
          (after nodeId peerIds as).node.Leads t := by
  refine Run.run_induction (P := fun p =>
    0 ≤ (after nodeId peerIds p).node.state.currentTerm ∧
      ∀ t, WasLeader nodeId peerIds p t →
        t < (after nodeId peerIds p).node.state.currentTerm ∨
          (after nodeId peerIds p).node.Leads t) ?_ ?_
  · refine ⟨le_rfl, ?_⟩
    rintro t ⟨p, hp, hl⟩
    obtain rfl := List.prefix_nil.mp hp
    exact Or.inr hl
  · rintro p a hpa ⟨h0, hpast⟩
    have hsane : (after nodeId peerIds p).node.Sane := sane_after p
    have hevent := node_step_of_continuous (w := after nodeId peerIds p)
      (Run.along_iff.mp hcont p a hpa)
    rw [after_snoc]
    constructor
    · rcases hevent with hsame | ⟨ev, hk, -, hev⟩
      · rw [hsame]
        exact h0
      · rw [hev]
        exact h0.trans (currentTerm_le_step hsane h0 hk)
    · rintro t ⟨q, hq, hl⟩
      -- it leads after this step, or led before it
      rcases List.prefix_concat_iff.mp hq with rfl | hq
      · exact Or.inr (after_snoc p a ▸ hl)
      · rcases hevent with hsame | ⟨ev, hk, hne, hev⟩
        · rw [hsame]
          exact hpast t ⟨q, hq, hl⟩
        · rw [hev]
          exact past_step hsane h0 hk hne (hpast t ⟨q, hq, hl⟩)

/-- **A leftover send is harmless only by accident**, and never within one life of
the process: for every run that leaves the node not leader, and every send that is
still queued then. -/
theorem leftover_send (nodeId : Id) (peerIds : List Id) (as : List (Work Id))
    (hrole : (after nodeId peerIds as).node.state.currentRole ≠ LEADER) :
    let n := (after nodeId peerIds as).node
    ∀ f ∈ (after nodeId peerIds as).tasks,
      (n.Harmless (WasLeader nodeId peerIds as) f ↔ n.nextIdx f ≤ n.log.length + 1 ∧
        n.NothingToCommit f ∧ WasLeader nodeId peerIds as n.state.currentTerm) ∧
      (Run.Along Worker.step Continuous ⟨fresh nodeId peerIds, []⟩ as →
        ¬ n.Harmless (WasLeader nodeId peerIds as) f) := by
  intro n f _
  have hsane : n.Sane := sane_after as
  have hiff := harmless_iff hsane (WasLeader nodeId peerIds as) f
  refine ⟨hiff, ?_⟩
  intro hcont hharmless
  obtain ⟨-, -, hwas⟩ := hiff.mp hharmless
  rcases (wasLeader_past hcont).2 _ hwas with hlt | hleads
  · exact absurd hlt (lt_irrefl _)
  · exact hrole hleads.1

/-- The theorem at a leader deposed by a vote response. -/
theorem leftover_send_run :
    let as : List (Work ℕ) := [.event .startElection, .event .becomeLeader, .heartbeatTask,
      .event (.voteResponse (some ⟨5, false⟩))]
    ¬ (after 0 [1] as).node.Harmless (WasLeader 0 [1] as) 1 := by
  intro as
  exact (leftover_send 0 [1] as (by decide +kernel) 1 (by decide +kernel)).2 (by decide +kernel)

/-- A leader of term `1` is deposed by the entry of a leader of term `2` that is
not committed yet; its leftover send commits and applies it. -/
theorem leftover_send_commits :
    let as : List (Work ℕ) := [.event .startElection, .event .becomeLeader, .heartbeatTask,
      .event (.appendEntries ⟨1, 2, 0, 0, [⟨2, "k", "v"⟩], 0⟩)]
    let w := after 0 [1] as
    w.tasks = [1] ∧ w.node.state.currentRole = FOLLOWER ∧
      ¬ w.node.Harmless (WasLeader 0 [1] as) 1 ∧ w.node.commitIndex = 0 ∧
      (w.runTask 0).node.commitIndex = 1 ∧ (w.runTask 0).node.kvStore "k" = some "v" := by
  refine ⟨by decide +kernel, by decide +kernel, ?_, by decide +kernel, by decide +kernel,
    by decide +kernel⟩
  rintro ⟨⟨n', hrun, -, hcommit, -⟩, -⟩
  have hfinal := Exec.finalState_ok hrun
  rw [← hfinal] at hcommit
  revert hcommit
  decide +kernel

end Worker

end KVStore
