/-
# A single node is a correct map

One server process, its `appendEntries` called by nothing but its own
`sendAppendEntries`: client requests, elections, vote responses, queued sends
and restarts of the process on the same database, in any order.  The simulation
invariant `MapInv` ties the node to the list of acknowledged puts: the log is
that list, all of it committed and applied, and the table is its replay.  It
survives changes of leadership because `put` commits its own entry before it
answers, and restarts because the four persistent parts are all in the database.
-/
import KVStore.Events

namespace KVStore

open Role

namespace Event

variable {Id : Type}

/-- Everything but a call of `appendEntries` from outside. -/
def isLocal : Event Id → Bool
  | .appendEntries _ => false
  | _ => true

end Event

namespace RaftNode

variable {Id : Type} [DecidableEq Id] {n : RaftNode Id}

/-- What an event answers, `none` when it throws. -/
def answer (n : RaftNode Id) (ev : Event Id) : Option Answer :=
  match (handle ev).run n with
  | .ok a _ => some a
  | .error _ _ => none

/-- The put an event acknowledges, if it does. -/
def acknowledged (n : RaftNode Id) : Event Id → List (String × String)
  | .put key value =>
      if n.answer (.put key value) = some (.put ⟨true⟩) then [(key, value)] else []
  | _ => []

/-- The acknowledged puts of a run, in order. -/
def acknowledgedPuts : RaftNode Id → List (Event Id) → List (String × String)
  | _, [] => []
  | n, ev :: evs => n.acknowledged ev ++ acknowledgedPuts (n.step ev) evs

/-- The value of the most recent of `puts` to `key`. -/
def mostRecent (puts : List (String × String)) (key : String) : Option String :=
  ((puts.filter (fun p => decide (p.1 = key))).getLast?).map Prod.snd

/-- The answer to a `get`, given what the key holds. -/
def getAnswer : Option String → GetResponse
  | some value => ⟨value, true⟩
  | none => ⟨"", false⟩

/-! ## Nodes in step

A node whose table follows its commit index and whose followers are all within
reach of its log: no local event can throw on it. -/

/-- Sane, up to date, and with every `nextIndex` within reach. -/
structure InStep (n : RaftNode Id) : Prop where
  sane : n.Sane
  upToDate : n.UpToDate
  inReach : n.InReach

theorem inStep_fresh (nodeId : Id) (peerIds : List Id) : (fresh nodeId peerIds).InStep where
  sane := sane_fresh nodeId peerIds
  upToDate := ⟨le_rfl, rfl, le_rfl, rfl⟩
  inReach := fun f => by simp [fresh, create, nextIdx]

theorem run_put {key value : String} {b : Bool} {n' : RaftNode Id}
    (h : (proposeEntry key value).run n = .ok b n') :
    (handle (.put key value)).run n = .ok (.put ⟨b⟩) n' := by
  have hput : (KVStoreServiceImpl.put key value).run n = .ok ⟨b⟩ n' := Exec.run_bind_ok h
  exact Exec.run_bind_ok hput

/-- A put on a leader is acknowledged, with everything committed. -/
theorem InStep.put_leader (h : n.InStep) (hrole : n.state.currentRole = LEADER)
    (key value : String) :
    ∃ n', (handle (.put key value)).run n = .ok (.put ⟨true⟩) n' ∧ n'.InStep ∧
      n'.commitIndex = n'.log.length ∧
      n'.log = n.log ++ [⟨n.state.currentTerm, key, value⟩] := by
  obtain ⟨n', hrun, -, hsane, hup, hreach, hcom⟩ :=
    run_proposeEntry h.sane h.upToDate h.inReach hrole key value
  refine ⟨n', run_put hrun, ⟨hsane, hup, hreach⟩, hcom, ?_⟩
  rw [← step_of_run (run_put hrun), log_step h.sane, logAfter, if_pos hrole]

/-- A put anywhere else is refused and changes nothing. -/
theorem run_put_other (hrole : n.state.currentRole ≠ LEADER) (key value : String) :
    (handle (.put key value)).run n = .ok (.put ⟨false⟩) n :=
  run_put (run_proposeEntry_of_not_leader hrole key value)

theorem run_get (h : n.Sane) (key : String) :
    (handle (.get key)).run n = .ok (.get (getAnswer (n.kvStore key))) n := by
  have hrun : (KVStoreServiceImpl.get key).run n
      = .ok ⟨(n.kvStore key).getD "", (n.kvStore key).isSome⟩ n :=
    Exec.run_bind_ok (run_onStorage (SQLiteStorage.run_get h.healthy key))
  have hget : (handle (.get key)).run n
      = .ok (.get ⟨(n.kvStore key).getD "", (n.kvStore key).isSome⟩) n :=
    Exec.run_bind_ok hrun
  rw [hget]
  cases n.kvStore key <;> rfl

theorem InStep.send (h : n.InStep) (f : Id) :
    (handle (.sendAppendEntries f)).run n = .ok .done (n.sent f).commitUpdated ∧
      (n.sent f).commitUpdated.InStep := by
  have hrun := run_sendAppendEntries h.sane f
  rw [if_pos (h.inReach f)] at hrun
  have hup : (n.sent f).UpToDate :=
    ⟨h.upToDate.1, h.upToDate.2, h.upToDate.3, h.upToDate.4⟩
  refine ⟨Exec.run_bind_ok hrun, (h.sane.sent f).commitUpdated, hup.commitUpdated, ?_⟩
  intro g
  rw [(commitOnly_commitUpdated _).nextIdx_eq, (commitOnly_commitUpdated _).log_eq, nextIdx_sent,
    log_sent]
  split_ifs
  · exact le_rfl
  · exact h.inReach g

theorem InStep.elected (h : n.InStep) : n.elected.InStep := by
  refine ⟨h.sane.elected, ⟨?_, ?_, ?_, ?_⟩, ?_⟩
  · rw [commitIndex_elected]
    exact h.upToDate.nonneg
  · rw [lastApplied_elected, commitIndex_elected]
    exact h.upToDate.applied_eq
  · rw [commitIndex_elected, log_elected]
    exact h.upToDate.committed_le
  · rw [kvStore_elected, log_elected, commitIndex_elected]
    exact h.upToDate.kvStore_eq
  · intro f
    rw [nextIdx_elected, log_elected]
    split_ifs
    · exact le_rfl
    · exact h.inReach f

theorem InStep.restart (h : n.InStep) :
    n.restart.InStep ∧ n.restart.commitIndex = n.commitIndex := by
  have hcommit : n.restart.commitIndex = n.commitIndex := commitIndex_reopen n.storage
  have happlied : n.restart.lastApplied = n.lastApplied := lastApplied_reopen n.storage
  refine ⟨⟨h.sane.restart, ⟨?_, ?_, ?_, ?_⟩, ?_⟩, hcommit⟩
  · rw [hcommit]
    exact h.upToDate.nonneg
  · rw [happlied, hcommit]
    exact h.upToDate.applied_eq
  · rw [hcommit]
    exact h.upToDate.committed_le
  · rw [hcommit]
    exact h.upToDate.kvStore_eq
  · intro f
    simp [RaftNode.restart, create, nextIdx]

/-- A change of the role, the term and the vote only. -/
theorem InStep.withState (h : n.InStep) (s : RaftState Id) (v : Option Id) :
    ({ n with state := s, votedFor := v } : RaftNode Id).InStep :=
  ⟨⟨h.sane.1, h.sane.2, h.sane.3, h.sane.4⟩,
    ⟨h.upToDate.1, h.upToDate.2, h.upToDate.3, h.upToDate.4⟩, h.inReach⟩

/-- **No local event throws on a node in step**, and each keeps it in step and its
commit index from falling. -/
theorem InStep.step (h : n.InStep) {ev : Event Id} (hev : ev.isLocal = true) :
    (∃ a, (handle ev).run n = .ok a (n.step ev)) ∧ (n.step ev).InStep ∧
      n.commitIndex ≤ (n.step ev).commitIndex := by
  -- it is enough to know how the handler returns
  have hof : ∀ {a : Answer} {n' : RaftNode Id}, (handle ev).run n = .ok a n' → n'.InStep →
      n.commitIndex ≤ n'.commitIndex →
      (∃ a, (handle ev).run n = .ok a (n.step ev)) ∧ (n.step ev).InStep ∧
        n.commitIndex ≤ (n.step ev).commitIndex := by
    intro a n' hrun hin hle
    rw [step_of_run hrun]
    exact ⟨⟨a, hrun⟩, hin, hle⟩
  cases ev with
  | put key value =>
      by_cases hrole : n.state.currentRole = LEADER
      · obtain ⟨n', hrun, hin, hcom, hlog⟩ := h.put_leader hrole key value
        refine hof hrun hin ?_
        have hle := h.upToDate.committed_le
        rw [hcom, hlog, List.length_append]
        omega
      · exact hof (run_put_other hrole key value) h le_rfl
  | get key => exact hof (run_get h.sane key) h le_rfl
  | startElection =>
      exact hof (Exec.run_bind_ok (run_startElection h.sane.healthy)) (h.withState _ _) le_rfl
  | becomeLeader =>
      refine hof (Exec.run_bind_ok (run_becomeLeader h.sane.healthy)) h.elected ?_
      rw [commitIndex_elected]
  | voteResponse response =>
      cases response with
      | none => exact hof rfl h le_rfl
      | some r =>
          have hrun : (handle (.voteResponse (some r))).run n = .ok _ (n.responded r.term) :=
            Exec.run_bind_ok (run_requestVoteResponse r)
          unfold responded at hrun
          split_ifs at hrun
          · exact hof hrun (h.withState _ _) le_rfl
          · exact hof hrun h le_rfl
  | sendAppendEntries f =>
      obtain ⟨hrun, hin⟩ := h.send f
      exact hof hrun hin (commitIndex_le_commitUpdated (n.sent f))
  | appendEntries req => cases hev
  | restart =>
      obtain ⟨hin, hcommit⟩ := h.restart
      exact hof rfl hin hcommit.ge

/-! ## The simulation invariant -/

/-- The log is the list of acknowledged puts, committed and applied. -/
structure MapInv (n : RaftNode Id) (puts : List (String × String)) : Prop where
  inStep : n.InStep
  committed : n.commitIndex = n.log.length
  log_eq : n.log.map (fun e => (e.key, e.value)) = puts

theorem mapInv_fresh (nodeId : Id) (peerIds : List Id) : MapInv (fresh nodeId peerIds) [] :=
  ⟨inStep_fresh nodeId peerIds, rfl, rfl⟩

variable {puts : List (String × String)}

/-- The table answers with the most recent put. -/
theorem MapInv.kvStore_eq (h : MapInv n puts) (key : String) :
    n.kvStore key = mostRecent puts key := by
  rw [h.inStep.upToDate.kvStore_eq, h.committed, Int.toNat_natCast, List.take_length]
  unfold replayLog
  rw [Replay.replay_eq_getLast?, mostRecent, ← h.log_eq, List.filter_map, List.getLast?_map,
    Option.map_map]
  rfl

/-- What the puts of a run become with one more event. -/
theorem MapInv.acknowledged_put (h : MapInv n puts) (key value : String) :
    n.acknowledged (.put key value)
      = if n.state.currentRole = LEADER then [(key, value)] else [] := by
  split_ifs with hrole
  · obtain ⟨n', hrun, -⟩ := h.inStep.put_leader hrole key value
    simp [acknowledged, answer, hrun]
  · simp [acknowledged, answer, run_put_other hrole key value]

/-- **One step of the simulation.**  Each local event keeps the invariant with the
puts it acknowledges. -/
theorem MapInv.step (h : MapInv n puts) {ev : Event Id} (hev : ev.isLocal = true) :
    MapInv (n.step ev) (puts ++ n.acknowledged ev) := by
  obtain ⟨-, hin, hle⟩ := h.inStep.step hev
  have hlog := log_step h.inStep.sane ev
  -- an event that keeps the log keeps everything committed
  have hkeep : n.logAfter ev = n.log → n.acknowledged ev = [] →
      MapInv (n.step ev) (puts ++ n.acknowledged ev) := by
    intro hsame hack
    rw [hsame] at hlog
    rw [hack, List.append_nil]
    refine ⟨hin, le_antisymm hin.upToDate.committed_le ?_, ?_⟩
    · rw [hlog, ← h.committed]
      exact hle
    · rw [hlog]
      exact h.log_eq
  cases ev with
  | put key value =>
      by_cases hrole : n.state.currentRole = LEADER
      · obtain ⟨n', hrun, -, hcom, hput⟩ := h.inStep.put_leader hrole key value
        refine ⟨hin, ?_, ?_⟩
        · rw [step_of_run hrun]
          exact hcom
        · rw [step_of_run hrun, hput, h.acknowledged_put, if_pos hrole, List.map_append, h.log_eq]
          rfl
      · exact hkeep (if_neg hrole) (by rw [h.acknowledged_put, if_neg hrole])
  | appendEntries req => cases hev
  | get key => exact hkeep rfl rfl
  | startElection => exact hkeep rfl rfl
  | becomeLeader => exact hkeep rfl rfl
  | voteResponse response => exact hkeep rfl rfl
  | sendAppendEntries f => exact hkeep rfl rfl
  | restart => exact hkeep rfl rfl

/-- **A whole run of the simulation.** -/
theorem MapInv.run (h : MapInv n puts) {evs : List (Event Id)}
    (hevs : ∀ ev ∈ evs, ev.isLocal = true) :
    MapInv (Run.run RaftNode.step n evs) (puts ++ acknowledgedPuts n evs) := by
  induction evs generalizing n puts with
  | nil =>
      rw [acknowledgedPuts, List.append_nil]
      exact h
  | cons ev evs ih =>
      have hstep := h.step (hevs ev List.mem_cons_self)
      rw [acknowledgedPuts, ← List.append_assoc, Run.run_cons]
      exact ih hstep (fun e he => hevs e (List.mem_cons_of_mem _ he))

/-! ## The main theorem -/

/-- **A single node is a correct map.**  After any run of local events from an
empty database, for any list of peers: no event throws, a put answers `true`
exactly when the node is leader, and a get answers with the most recent
acknowledged put of its key. -/
theorem single_node_is_map (nodeId : Id) (peerIds : List Id) (evs : List (Event Id))
    (hevs : ∀ ev ∈ evs, ev.isLocal = true) :
    let n := Run.run RaftNode.step (fresh nodeId peerIds) evs
    let puts := acknowledgedPuts (fresh nodeId peerIds) evs
    (∀ ev : Event Id, ev.isLocal = true → ∃ a n', (handle ev).run n = .ok a n') ∧
    (∀ key value, n.answer (.put key value)
      = some (.put ⟨decide (n.state.currentRole = LEADER)⟩)) ∧
    (∀ key, n.answer (.get key) = some (.get (getAnswer (mostRecent puts key)))) := by
  intro n puts
  have hinv : MapInv n puts := by
    have := (mapInv_fresh nodeId peerIds).run hevs
    rwa [List.nil_append] at this
  refine ⟨?_, ?_, ?_⟩
  · intro ev hev
    obtain ⟨⟨a, hrun⟩, -⟩ := hinv.inStep.step hev
    exact ⟨a, _, hrun⟩
  · intro key value
    by_cases hrole : n.state.currentRole = LEADER
    · obtain ⟨n', hrun, -⟩ := hinv.inStep.put_leader hrole key value
      simp [answer, hrun, hrole]
    · simp [answer, run_put_other hrole key value, hrole]
  · intro key
    rw [← hinv.kvStore_eq, answer, run_get hinv.inStep.sane]

/-- The theorem at a run with a refused put, a change of leadership and a
restart between two acknowledged puts of one key. -/
theorem single_node_is_map_run :
    let evs : List (Event ℕ) := [.put "k" "0", .startElection, .becomeLeader, .put "k" "1",
      .voteResponse (some ⟨7, false⟩), .sendAppendEntries 2, .restart, .startElection,
      .becomeLeader, .put "k" "2"]
    let n := Run.run RaftNode.step (fresh 0 [1, 2]) evs
    n.answer (.get "k") = some (.get ⟨"2", true⟩) := by
  intro evs n
  have h := (single_node_is_map 0 [1, 2] evs (by decide)).2.2 "k"
  have hputs : getAnswer (mostRecent (acknowledgedPuts (fresh 0 [1, 2]) evs) "k")
      = ⟨"2", true⟩ := by
    decide +kernel
  rw [h, hputs]

end RaftNode

end KVStore
