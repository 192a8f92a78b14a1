/-
# What sending and proposing compute when the database works

`sendAppendEntries` hands the node's own log tail to the node itself, which
finds every entry in place.  So a send either throws, because `nextIndex` points
past the end of the log, or records the follower as having the whole log
(`run_sendAppendEntries`).  `proposeEntry` appends one entry and sends to every
peer; nothing of it depends on what the peers hold.

`Sane` collects what every reachable node satisfies and the closed forms need;
`SendFrame` is what a send can never touch.
-/
import KVStore.CommitSpec

namespace KVStore

open Role Splice

namespace RaftNode

variable {Id : Type} {n : RaftNode Id}

/-! ## `sendAppendEntries` -/

/-- `prevLogTerm` for an index of the log, `0` where there is no entry. -/
def termAt (l : List LogEntry) (i : ℤ) : ℤ :=
  ((SQLiteStorage.entryAt l i).map LogEntry.term).getD 0

/-- The arguments the node computes for a tail that starts at index `i`. -/
def requestFrom (n : RaftNode Id) (i : ℤ) (follower : Id) : AppendEntriesRequest Id :=
  ⟨follower, n.state.currentTerm, i - 1, termAt n.log (i - 1), n.log.drop (i - 1).toNat,
    n.commitIndex⟩

/-- The previous term is read off the log. -/
theorem run_prevLogTerm (h : n.Healthy) {i : ℤ} (hi : i ≤ n.log.length) :
    (prevLogTerm i).run n = .ok (termAt n.log i) n := by
  rw [prevLogTerm, termAt]
  by_cases hpos : i > 0
  · obtain ⟨p, rfl⟩ : ∃ p : ℕ, i = (p : ℤ) + 1 := ⟨(i - 1).toNat, by omega⟩
    rw [if_pos hpos, run_bind_getLogEntry h, entryAt_succ, List.getElem?_eq_getElem (by omega)]
    rfl
  · rw [if_neg hpos, entryAt_of_nonpos _ (by omega)]
    rfl

/-- Past the end of the log there is no term to read. -/
theorem run_prevLogTerm_error (h : n.Healthy) {i : ℤ} (hi : n.log.length < i) :
    (prevLogTerm i).run n = .error .nullPointerException n := by
  obtain ⟨p, rfl⟩ : ∃ p : ℕ, i = (p : ℤ) + 1 := ⟨(i - 1).toNat, by omega⟩
  rw [prevLogTerm, if_pos (by omega), run_bind_getLogEntry h, entryAt_succ,
    List.getElem?_eq_none (by omega)]
  rfl

/-- The request from an index within the log, or one past it. -/
theorem run_appendEntriesFrom (h : n.Healthy) {i : ℤ} (hi' : i ≤ n.log.length + 1)
    (follower : Id) :
    (appendEntriesFrom i follower).run n = .ok (n.requestFrom i follower) n := by
  have hentries : (n.log.take (n.log.length : ℤ).toNat).drop (i - 1).toNat
      = n.log.drop (i - 1).toNat := by
    rw [Int.toNat_natCast, List.take_length]
  rw [appendEntriesFrom, run_bind_getLastLogIndex h, run_bind_getLogEntries h, hentries,
    Exec.run_bind_ok (run_prevLogTerm h (by omega))]
  exact run_bind_getCommitIndex h

/-- A `nextIndex` past the end of the log makes the sender throw. -/
theorem run_appendEntriesFrom_error (h : n.Healthy) {i : ℤ} (hi : n.log.length + 1 < i)
    (follower : Id) :
    (appendEntriesFrom i follower).run n = .error .nullPointerException n := by
  rw [appendEntriesFrom, run_bind_getLastLogIndex h, run_bind_getLogEntries h]
  exact Exec.run_bind_error (run_prevLogTerm_error h (by omega))

/-- The test of `appendEntries` passes on the log the arguments were computed
from. -/
theorem mismatch_termAt {l : List LogEntry} {i : ℤ} (hi : i ≤ l.length) :
    mismatch l i (termAt l i) = false := by
  refine mismatch_eq_false_iff.mpr ⟨hi, fun hpos => ?_⟩
  obtain ⟨p, rfl⟩ : ∃ p : ℕ, i = (p : ℤ) + 1 := ⟨(i - 1).toNat, by omega⟩
  rw [termAt, entryAt_succ, List.getElem?_eq_getElem (by omega)]
  rfl

/-- The node with its election timer armed. -/
def armed (n : RaftNode Id) : RaftNode Id := { n with electionTimer := true }

/-- **A node accepts its own log tail and keeps its log.** -/
theorem run_appendEntries_self (h : n.Healthy) (ha : 0 ≤ n.lastApplied) {i : ℤ} (hi : 1 ≤ i)
    (hi' : i ≤ n.log.length + 1) (follower : Id) :
    (appendEntries (n.requestFrom i follower)).run n = .ok true n.armed := by
  have hmis : mismatch n.log (i - 1) (termAt n.log (i - 1)) = false := mismatch_termAt (by omega)
  have hsplice : splice LogEntry.term n.log (i - 1).toNat (n.log.drop (i - 1).toNat) = n.log :=
    splice_drop_self n.log (by omega)
  have hobs : n.observed n.state.currentTerm = n.armed := by simp [observed, armed]
  have hmerged : (n.observed n.state.currentTerm).merged (n.requestFrom i follower) = n.armed := by
    rw [merged, commitFollowed]
    simp only [requestFrom, log_observed, hsplice]
    rw [← log_observed n.state.currentTerm, withLog_log, setStorage_self, if_neg (by simp), hobs]
  rw [run_appendEntries_of_accept h ha (lt_irrefl n.state.currentTerm) hmis
    (show 0 ≤ i - 1 by omega)]
  exact congrArg _ hmerged

/-! ### The whole send -/

variable [DecidableEq Id]

/-- The node after a send that was answered `true`, before `updateCommitIndex`. -/
def sent (n : RaftNode Id) (follower : Id) : RaftNode Id :=
  { n with
    electionTimer := true
    nextIndex := n.nextIndex.insert follower (n.log.length + 1)
    matchIndex := n.matchIndex.insert follower n.log.length }

section Sent

variable (f : Id)

@[simp] theorem storage_sent : (n.sent f).storage = n.storage := rfl
@[simp] theorem log_sent : (n.sent f).log = n.log := rfl
@[simp] theorem commitIndex_sent : (n.sent f).commitIndex = n.commitIndex := rfl
@[simp] theorem lastApplied_sent : (n.sent f).lastApplied = n.lastApplied := rfl
@[simp] theorem kvStore_sent : (n.sent f).kvStore = n.kvStore := rfl
@[simp] theorem healthy_sent : (n.sent f).Healthy ↔ n.Healthy := Iff.rfl
@[simp] theorem state_sent : (n.sent f).state = n.state := rfl
@[simp] theorem nodeId_sent : (n.sent f).nodeId = n.nodeId := rfl
@[simp] theorem peers_sent : (n.sent f).peers = n.peers := rfl
@[simp] theorem votedFor_sent : (n.sent f).votedFor = n.votedFor := rfl
@[simp] theorem matchIndex_sent :
    (n.sent f).matchIndex = n.matchIndex.insert f (n.log.length : ℤ) := rfl

/-- Setting one `nextIndex` leaves the others. -/
theorem nextIdx_insert (m : ℤ) (g : Id) :
    ({ n with nextIndex := n.nextIndex.insert f m } : RaftNode Id).nextIdx g
      = if g = f then m else n.nextIdx g := by
  unfold nextIdx
  by_cases hg : g = f
  · subst hg
    simp
  · simp [hg, AList.lookup_insert_ne hg]

/-- After a send the follower's `nextIndex` is one past the log. -/
theorem nextIdx_sent (g : Id) :
    (n.sent f).nextIdx g = if g = f then (n.log.length : ℤ) + 1 else n.nextIdx g :=
  nextIdx_insert f _ g

end Sent

/-- A request starts at the follower's `nextIndex`. -/
theorem run_buildAppendEntries (f : Id) :
    (buildAppendEntries f).run n = (appendEntriesFrom (n.nextIdx f) f).run n := rfl

/-- The node after a `true` is recorded for `f`, before `updateCommitIndex`. -/
def recorded (n : RaftNode Id) (f : Id) : RaftNode Id :=
  { n with
    nextIndex := n.nextIndex.insert f (n.log.length + 1)
    matchIndex := n.matchIndex.insert f n.log.length }

/-- A recorded `true` credits the follower and runs the commit rule. -/
theorem run_recordAppendEntries (h : n.Healthy) (ha : 0 ≤ n.lastApplied)
    (hc : 0 ≤ n.commitIndex) (f : Id) :
    (recordAppendEntries f true).run n = .ok () (n.recorded f).commitUpdated := by
  have hmodify : ∀ (g : RaftNode Id → RaftNode Id) (m : Method Id Unit) (n' : RaftNode Id),
      (do modify g; m : Method Id Unit).run n' = m.run (g n') := fun g m n' => rfl
  rw [recordAppendEntries, if_pos rfl, run_bind_getLastLogIndex h, hmodify,
    run_bind_getLastLogIndex (by exact h), hmodify]
  exact run_updateCommitIndex (n := n.recorded f) h ha hc

/-- What every reachable node satisfies. -/
structure Sane (n : RaftNode Id) : Prop where
  healthy : n.Healthy
  lastApplied_nonneg : 0 ≤ n.lastApplied
  commitIndex_nonneg : 0 ≤ n.commitIndex
  nextIdx_pos : ∀ f, 1 ≤ n.nextIdx f

/-- **A send on a healthy node.**  No message leaves the node: it throws when
`nextIndex` points past the end of its log, and otherwise records the follower
as holding its whole log. -/
theorem run_sendAppendEntries (h : n.Sane) (f : Id) :
    (sendAppendEntries f).run n =
      if n.nextIdx f ≤ n.log.length + 1 then .ok () (n.sent f).commitUpdated
      else .error .nullPointerException n := by
  rw [sendAppendEntries]
  by_cases hle : n.nextIdx f ≤ n.log.length + 1
  · have hbuild : (buildAppendEntries f).run n = .ok (n.requestFrom (n.nextIdx f) f) n := by
      rw [run_buildAppendEntries]
      exact run_appendEntriesFrom h.healthy hle f
    have hself := run_appendEntries_self h.healthy h.lastApplied_nonneg (h.nextIdx_pos f) hle f
    rw [if_pos hle, Exec.run_bind_ok hbuild, Exec.run_bind_ok hself]
    exact run_recordAppendEntries (n := n.armed) h.healthy h.lastApplied_nonneg
      h.commitIndex_nonneg f
  · have hbuild : (buildAppendEntries f).run n = .error .nullPointerException n := by
      rw [run_buildAppendEntries]
      exact run_appendEntriesFrom_error h.healthy (by omega) f
    rw [if_neg hle, Exec.run_bind_error hbuild]

/-! ## What a send can and cannot touch -/

/-- The fields no send changes; the commit index never goes down. -/
structure SendFrame (n n' : RaftNode Id) : Prop where
  log_eq : n'.log = n.log
  state_eq : n'.state = n.state
  votedFor_eq : n'.votedFor = n.votedFor
  nodeId_eq : n'.nodeId = n.nodeId
  peers_eq : n'.peers = n.peers
  commitIndex_le : n.commitIndex ≤ n'.commitIndex

omit [DecidableEq Id] in
/-- Nothing was sent. -/
theorem SendFrame.refl (n : RaftNode Id) : SendFrame n n := ⟨rfl, rfl, rfl, rfl, rfl, le_rfl⟩

omit [DecidableEq Id] in
/-- One send after another. -/
theorem SendFrame.trans {n n' n'' : RaftNode Id} (h : SendFrame n n') (h' : SendFrame n' n'') :
    SendFrame n n'' where
  log_eq := h'.log_eq.trans h.log_eq
  state_eq := h'.state_eq.trans h.state_eq
  votedFor_eq := h'.votedFor_eq.trans h.votedFor_eq
  nodeId_eq := h'.nodeId_eq.trans h.nodeId_eq
  peers_eq := h'.peers_eq.trans h.peers_eq
  commitIndex_le := h.commitIndex_le.trans h'.commitIndex_le

omit [DecidableEq Id] in
/-- What only commits, and does not lower the commit index, is within the frame. -/
theorem CommitOnly.sendFrame {n n' : RaftNode Id} (h : CommitOnly n n')
    (hc : n.commitIndex ≤ n'.commitIndex) : SendFrame n n' := by
  obtain ⟨s, rfl, hlog, -⟩ := h
  exact ⟨by simpa using hlog, rfl, rfl, rfl, rfl, hc⟩

omit [DecidableEq Id] in
/-- The commit rule is within the frame. -/
theorem sendFrame_commitUpdated (n : RaftNode Id) : SendFrame n n.commitUpdated :=
  (commitOnly_commitUpdated n).sendFrame (commitIndex_le_commitUpdated n)

/-- So is a send. -/
theorem sendFrame_sent (n : RaftNode Id) (f : Id) : SendFrame n (n.sent f).commitUpdated :=
  (show SendFrame n (n.sent f) from ⟨rfl, rfl, rfl, rfl, rfl, le_rfl⟩).trans
    (sendFrame_commitUpdated _)

/-- A commit leaves `nextIndex` alone. -/
theorem CommitOnly.nextIdx_eq {n n' : RaftNode Id} (h : CommitOnly n n') (f : Id) :
    n'.nextIdx f = n.nextIdx f := by
  obtain ⟨s, rfl, -, -⟩ := h
  rfl

/-- The commit rule keeps the node sane. -/
theorem Sane.commitUpdated (h : n.Sane) : n.commitUpdated.Sane where
  healthy := (commitOnly_commitUpdated n).healthy_iff.mpr h.healthy
  lastApplied_nonneg := h.lastApplied_nonneg.trans (lastApplied_le_commitUpdated n)
  commitIndex_nonneg := h.commitIndex_nonneg.trans (commitIndex_le_commitUpdated n)
  nextIdx_pos := fun f => by
    rw [(commitOnly_commitUpdated n).nextIdx_eq]
    exact h.nextIdx_pos f

/-- So does a send. -/
theorem Sane.sent (h : n.Sane) (f : Id) : (n.sent f).Sane where
  healthy := h.healthy
  lastApplied_nonneg := h.lastApplied_nonneg
  commitIndex_nonneg := h.commitIndex_nonneg
  nextIdx_pos := fun g => by
    rw [nextIdx_sent]
    split_ifs
    · omega
    · exact h.nextIdx_pos g

/-- **Whatever becomes of a send, it keeps the frame.** -/
theorem finalState_sendAppendEntries (h : n.Sane) (f : Id) :
    SendFrame n (Exec.finalState (sendAppendEntries f) n) ∧
      (Exec.finalState (sendAppendEntries f) n).Sane := by
  have hrun := run_sendAppendEntries h f
  split_ifs at hrun
  · rw [Exec.finalState_ok hrun]
    exact ⟨sendFrame_sent n f, (h.sent f).commitUpdated⟩
  · rw [Exec.finalState_error hrun]
    exact ⟨SendFrame.refl n, h⟩

/-- Sends to any list of followers, by induction on the list. -/
theorem finalState_sendAll (h : n.Sane) (fs : List Id) :
    SendFrame n (Exec.finalState (sendAll fs) n) ∧ (Exec.finalState (sendAll fs) n).Sane := by
  induction fs generalizing n with
  | nil => exact ⟨SendFrame.refl n, h⟩
  | cons f fs ih =>
      have hf := finalState_sendAppendEntries h f
      rw [sendAll]
      refine Exec.finalState_bind (P := fun n' => SendFrame n n' ∧ n'.Sane) hf ?_
      intro _ n' hn'
      rw [Exec.finalState_ok hn'] at hf
      obtain ⟨hframe, hsane⟩ := ih hf.2
      exact ⟨hf.1.trans hframe, hsane⟩

/-! ## Sends that all succeed -/

/-- Every `nextIndex` is within reach of the log. -/
def InReach (n : RaftNode Id) : Prop := ∀ f, n.nextIdx f ≤ n.log.length + 1

/-- Sending to all of `fs` within reach: every one is recorded at the end of the
log. -/
theorem run_sendAll (h : n.Sane) (hreach : n.InReach) (fs : List Id) :
    ∃ n', (sendAll fs).run n = .ok () n' ∧ SendFrame n n' ∧ n'.Sane ∧ n'.InReach ∧
      (∀ f, f ∈ fs ∨ n.matchIndex.lookup f = some (n.log.length : ℤ) →
        n'.matchIndex.lookup f = some (n.log.length : ℤ)) ∧
      (n.UpToDate → n'.UpToDate) := by
  induction fs generalizing n with
  | nil =>
      refine ⟨n, rfl, SendFrame.refl n, h, hreach, fun f hf => ?_, id⟩
      simpa using hf
  | cons f fs ih =>
      have hrun := run_sendAppendEntries h f
      rw [if_pos (hreach f)] at hrun
      have hcom := commitOnly_commitUpdated (n.sent f)
      have hframe := sendFrame_sent n f
      have hreach' : (n.sent f).commitUpdated.InReach := fun g => by
        rw [hcom.nextIdx_eq, hframe.log_eq, nextIdx_sent]
        split_ifs
        · exact le_rfl
        · exact hreach g
      obtain ⟨n', hn', hframe', hsane', hreach'', hmatch, hup⟩ :=
        ih (h.sent f).commitUpdated hreach'
      refine ⟨n', ?_, hframe.trans hframe', hsane', hreach'', fun g hg => ?_, fun hu => ?_⟩
      · rw [sendAll, Exec.run_bind_ok hrun, hn']
      · rw [hframe.log_eq, hcom.fields_eq.2.2.2.2.2, matchIndex_sent] at hmatch
        refine hmatch g ?_
        by_cases hgf : g = f
        · subst hgf
          exact Or.inr (AList.lookup_insert _)
        · rw [AList.lookup_insert_ne hgf]
          simpa [hgf] using hg
      · exact hup (show (n.sent f).UpToDate from ⟨hu.1, hu.2, hu.3, hu.4⟩).commitUpdated

/-! ## `proposeEntry` -/

/-- The node after the entry of a proposal is appended. -/
def appended (n : RaftNode Id) (key value : String) : RaftNode Id :=
  n.setStorage (n.storage.withLog (n.log ++ [⟨n.state.currentTerm, key, value⟩]))

section Appended

variable (key value : String)

omit [DecidableEq Id]

@[simp] theorem log_appended :
    (n.appended key value).log = n.log ++ [⟨n.state.currentTerm, key, value⟩] := by
  simp [appended]
@[simp] theorem commitIndex_appended : (n.appended key value).commitIndex = n.commitIndex := rfl
@[simp] theorem lastApplied_appended : (n.appended key value).lastApplied = n.lastApplied := rfl
@[simp] theorem kvStore_appended : (n.appended key value).kvStore = n.kvStore := rfl
@[simp] theorem state_appended : (n.appended key value).state = n.state := rfl
@[simp] theorem peers_appended : (n.appended key value).peers = n.peers := rfl
@[simp] theorem nodeId_appended : (n.appended key value).nodeId = n.nodeId := rfl
@[simp] theorem votedFor_appended : (n.appended key value).votedFor = n.votedFor := rfl

end Appended

/-- An append keeps the node sane. -/
theorem Sane.appended (h : n.Sane) (key value : String) : (n.appended key value).Sane :=
  ⟨h.healthy, h.lastApplied_nonneg, h.commitIndex_nonneg, h.nextIdx_pos⟩

/-- Only a leader accepts a proposal. -/
theorem run_proposeEntry_of_not_leader (hrole : n.state.currentRole ≠ LEADER)
    (key value : String) : (proposeEntry key value).run n = .ok false n := by
  show (if n.state.currentRole ≠ LEADER then _ else _ : Method Id Bool).run n = _
  rw [if_pos hrole]
  rfl

/-- What a leader runs after the append. -/
theorem run_proposeEntry_of_leader (h : n.Healthy) (hrole : n.state.currentRole = LEADER)
    (key value : String) :
    (proposeEntry key value).run n
      = (do sendAll n.peers; updateCommitIndex; return true : Method Id Bool).run
          (n.appended key value) := by
  have hsane : (n.appended key value).Healthy := h
  have hbody : (proposeEntry key value).run n
      = (do
          let _ ← onStorage (SQLiteStorage.appendLogEntry ⟨n.state.currentTerm, key, value⟩)
          replicateEntry (← onStorage SQLiteStorage.getLastLogIndex) : Method Id Bool).run n := by
    show (if n.state.currentRole ≠ LEADER then _ else _ : Method Id Bool).run n = _
    rw [if_neg (not_not.mpr hrole)]
    rfl
  rw [hbody, run_bind_appendLogEntry h]
  exact run_bind_getLastLogIndex hsane

/-- The entry a leader proposes is committed by the leader alone, once every peer
is recorded at the end of the log. -/
theorem canCommit_last {e : LogEntry} {l : List LogEntry} (hlog : n.log = l ++ [e])
    (hterm : e.term = n.state.currentTerm)
    (hmatch : ∀ f ∈ n.peers, n.matchIndex.lookup f = some (n.log.length : ℤ)) :
    n.canCommit n.log.length := by
  refine ⟨?_, ?_⟩
  · have hlen : (n.log.length : ℤ) = (l.length : ℤ) + 1 := by simp [hlog]
    rw [hlen, entryAt_succ, hlog]
    simp [hterm]
  · have := lt_replicationCount (m := n.log.length)
      (fun f hf => ⟨_, hmatch f hf, le_rfl⟩)
    omega

/-- **A proposal on a leader whose followers are within reach** is answered
`true` with the entry appended, committed and applied. -/
theorem run_proposeEntry (h : n.Sane) (hup : n.UpToDate) (hreach : n.InReach)
    (hrole : n.state.currentRole = LEADER) (key value : String) :
    ∃ n', (proposeEntry key value).run n = .ok true n' ∧
      SendFrame (n.appended key value) n' ∧ n'.Sane ∧ n'.UpToDate ∧ n'.InReach ∧
      n'.commitIndex = n'.log.length := by
  have hreach' : (n.appended key value).InReach := fun f => by
    have := hreach f
    rw [log_appended, List.length_append]
    show n.nextIdx f ≤ _
    push_cast
    omega
  have hup' : (n.appended key value).UpToDate := by
    have hle := hup.committed_le
    exact hup.withLog (List.take_append_of_le_length (by omega))
  obtain ⟨n', hn', hframe, hsane, hreach'', hmatch, hupd⟩ :=
    run_sendAll (h.appended key value) hreach' n.peers
  have hupn' := hupd hup'
  have hcom := commitOnly_commitUpdated n'
  have hframe' := sendFrame_commitUpdated n'
  refine ⟨n'.commitUpdated, ?_, hframe.trans hframe', hsane.commitUpdated,
    hupn'.commitUpdated, fun f => ?_, le_antisymm hupn'.commitUpdated.committed_le ?_⟩
  · rw [run_proposeEntry_of_leader h.healthy hrole, Exec.run_bind_ok hn', Exec.run_bind_ok
      (run_updateCommitIndex hsane.healthy hsane.lastApplied_nonneg hsane.commitIndex_nonneg)]
    rfl
  · rw [hcom.nextIdx_eq, hframe'.log_eq]
    exact hreach'' f
  · rw [hframe'.log_eq]
    refine le_commitIndex_commitUpdated n' le_rfl ?_
    refine canCommit_last (hframe.log_eq.trans (log_appended key value)) ?_ fun f hf => ?_
    · rw [hframe.state_eq, state_appended]
    · rw [hframe.log_eq]
      rw [hframe.peers_eq, peers_appended] at hf
      exact hmatch f (Or.inl hf)

/-- **Whatever becomes of a leader's proposal**, its entry is appended and the
frame of the sends is kept. -/
theorem finalState_proposeEntry (h : n.Sane) (hrole : n.state.currentRole = LEADER)
    (key value : String) :
    SendFrame (n.appended key value) (Exec.finalState (proposeEntry key value) n) ∧
      (Exec.finalState (proposeEntry key value) n).Sane := by
  have hsends := finalState_sendAll (h.appended key value) n.peers
  rw [Exec.finalState, run_proposeEntry_of_leader h.healthy hrole, ← Exec.finalState]
  refine Exec.finalState_bind
    (P := fun n' => SendFrame (n.appended key value) n' ∧ n'.Sane) hsends ?_
  intro _ n' hn'
  rw [Exec.finalState_ok hn'] at hsends
  obtain ⟨hframe, hsane⟩ := hsends
  have hrun := run_updateCommitIndex hsane.healthy hsane.lastApplied_nonneg
    hsane.commitIndex_nonneg
  have hfinal : Exec.finalState (do updateCommitIndex; return true : Method Id Bool) n'
      = n'.commitUpdated := Exec.finalState_ok (Exec.run_bind_ok hrun)
  rw [hfinal]
  exact ⟨hframe.trans (sendFrame_commitUpdated n'), hsane.commitUpdated⟩

end RaftNode

end KVStore
