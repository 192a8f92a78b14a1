/-
# A proposal in the middle of other calls

`proposeEntry` takes no lock.  Between the append of its entry, each of its
sends, the last `updateCommitIndex` and the completion of its future, other
threads may run `appendEntries` for another leader or process a vote response.
`Proposal` is a node together with the point such a call has reached; with
nothing in between it computes what `proposeEntry` does (`run_proceed`).

The future is completed with `true` whatever happened.  It is right to do so as
long as nothing disturbs the proposal (`Undisturbed`): no accepted call of
another leader replaces an entry at or below the proposed index, and no step
raises the term before the entry is committed.
-/
import KVStore.Events

namespace KVStore

open Role Splice RaftNode

variable {Id : Type}

/-- Where a call of `proposeEntry` has got to. -/
inductive Phase (Id : Type) : Type where
  /-- In the loop of `replicateEntry`, with the peers still to send to. -/
  | sending (peers : List Id)
  /-- Past `updateCommitIndex`, before `future.complete(true)`. -/
  | completing
  | done (result : Bool)
  | threw
  deriving DecidableEq

/-- A node and a call of `proposeEntry` on it that has appended its entry. -/
structure Proposal (Id : Type) where
  node : RaftNode Id
  entry : LogEntry
  /-- The index at which the entry was appended. -/
  index : ℤ
  phase : Phase Id

/-- One step of the proposal, or of another thread. -/
inductive Interleaved (Id : Type) : Type where
  | proceed
  | appendEntries (req : AppendEntriesRequest Id)
  | voteResponse (response : RequestVoteResponse)
  deriving DecidableEq

namespace Proposal

variable [DecidableEq Id]

omit [DecidableEq Id] in
/-- A leader has read its term and appended the entry. -/
def start (n : RaftNode Id) (key value : String) : Proposal Id where
  node := n.appended key value
  entry := ⟨n.state.currentTerm, key, value⟩
  index := n.log.length + 1
  phase := .sending n.peers

/-- The next step of the proposal itself. -/
def proceed (s : Proposal Id) : Proposal Id :=
  match s.phase with
  | .sending (peer :: peers) =>
      match (sendAppendEntries peer).run s.node with
      | .ok _ n => { s with node := n, phase := .sending peers }
      | .error _ n => { s with node := n, phase := .threw }
  | .sending [] =>
      match updateCommitIndex.run s.node with
      | .ok _ n => { s with node := n, phase := .completing }
      | .error _ n => { s with node := n, phase := .threw }
  | .completing => { s with phase := .done true }
  | .done _ => s
  | .threw => s

def step (s : Proposal Id) : Interleaved Id → Proposal Id
  | .proceed => s.proceed
  | .appendEntries req => { s with node := s.node.step (.appendEntries req) }
  | .voteResponse response => { s with node := s.node.step (.voteResponse (some response)) }

/-! ## Without interleaving -/

/-- A proposal that has returned or thrown. -/
def settle (s : Proposal Id) : EStateM.Result JavaException (RaftNode Id) Bool → Proposal Id
  | .ok b n => { s with node := n, phase := .done b }
  | .error _ n => { s with node := n, phase := .threw }

theorem run_proceed_of_settled {s : Proposal Id} (h : s.proceed = s) (k : ℕ) :
    Run.run step s (List.replicate k .proceed) = s := by
  induction k with
  | zero => rfl
  | succ k ih =>
      rw [List.replicate_succ, Run.run_cons]
      show Run.run step s.proceed _ = s
      rw [h, ih]

/-- The loop, the update and the completion, one after the other. -/
theorem run_proceed_sending (s : Proposal Id) (fs : List Id) (hs : s.phase = .sending fs) :
    Run.run step s (List.replicate (fs.length + 2) .proceed)
      = s.settle ((do sendAll fs; updateCommitIndex; return true : Method Id Bool).run s.node) := by
  induction fs generalizing s with
  | nil =>
      rw [List.length_nil, List.replicate_succ, Run.run_cons, List.replicate_succ, Run.run_cons,
        List.replicate_zero, Run.run_nil]
      have hbody : (do sendAll []; updateCommitIndex; return true : Method Id Bool).run s.node
          = (do updateCommitIndex; return true : Method Id Bool).run s.node := rfl
      show s.proceed.proceed = _
      rw [hbody]
      rcases h : (updateCommitIndex : Method Id Unit).run s.node with ⟨u, n⟩ | ⟨e, n⟩
      · rw [Exec.run_bind_ok h]
        simp only [proceed, hs, h]
        rfl
      · rw [Exec.run_bind_error h]
        simp only [proceed, hs, h]
        rfl
  | cons f fs ih =>
      rw [List.length_cons, show fs.length + 1 + 2 = fs.length + 2 + 1 by omega,
        List.replicate_succ, Run.run_cons, sendAll]
      show Run.run step s.proceed _ = _
      rcases h : (sendAppendEntries f).run s.node with ⟨u, n⟩ | ⟨e, n⟩
      · have hnext : s.proceed = { s with node := n, phase := .sending fs } := by
          simp only [proceed, hs, h]
        rw [hnext, ih _ rfl, bind_assoc, Exec.run_bind_ok h]
        cases (do sendAll fs; updateCommitIndex; return true : Method Id Bool).run n <;> rfl
      · have hnext : s.proceed = { s with node := n, phase := .threw } := by
          simp only [proceed, hs, h]
        rw [hnext, run_proceed_of_settled rfl, bind_assoc, Exec.run_bind_error h]
        rfl

/-- **A proposal that nothing interrupts is a call of `proposeEntry`.** -/
theorem run_proceed {n : RaftNode Id} (h : n.Healthy) (hrole : n.state.currentRole = LEADER)
    (key value : String) :
    Run.run step (start n key value) (List.replicate (n.peers.length + 2) .proceed)
      = (start n key value).settle ((proposeEntry key value).run n) := by
  rw [run_proceed_sending _ n.peers rfl, run_proposeEntry_of_leader h hrole]
  rfl

/-! ## What may run in between -/

/-- Up to `index`, no entry of the call differs in its term from the entry the
log holds in its place. -/
def NoConflict (l : List LogEntry) (index : ℤ) (req : AppendEntriesRequest Id) : Prop :=
  ∀ j < req.entries.length, ((req.prevLogIndex.toNat + j : ℕ) : ℤ) < index →
    ∀ x ∈ l[req.prevLogIndex.toNat + j]?, ∀ e ∈ req.entries[j]?, x.term = e.term

instance (l : List LogEntry) (index : ℤ) (req : AppendEntriesRequest Id) :
    Decidable (NoConflict l index req) :=
  inferInstanceAs (Decidable (∀ j < _, _))

/-- A step that cannot make the answer wrong: it replaces nothing at or below the
proposed index, and while the entry is not committed it does not raise the term,
unless it commits the entry itself. -/
def Undisturbed (s : Proposal Id) : Interleaved Id → Prop
  | .proceed => True
  | .voteResponse response =>
      s.index ≤ s.node.commitIndex ∨ response.term ≤ s.node.state.currentTerm
  | .appendEntries req =>
      (s.node.accepts req = true → NoConflict s.node.log s.index req) ∧
      (s.index ≤ s.node.commitIndex ∨ req.term ≤ s.node.state.currentTerm ∨
        s.node.accepts req = true ∧ s.index ≤ req.leaderCommit)

instance (s : Proposal Id) : ∀ a : Interleaved Id, Decidable (s.Undisturbed a)
  | .proceed => inferInstanceAs (Decidable True)
  | .voteResponse _ => inferInstanceAs (Decidable (_ ∨ _))
  | .appendEntries _ => inferInstanceAs (Decidable (_ ∧ _))

/-- The log holds the proposed entry at its index. -/
def Held (s : Proposal Id) : Prop :=
  SQLiteStorage.entryAt s.node.log s.index = some s.entry

/-- The entry can still be committed by the node: the term is the entry's, and
every peer that is not waiting to be sent to is recorded at or above the index. -/
def Pending (s : Proposal Id) (fs : List Id) : Prop :=
  s.node.state.currentTerm = s.entry.term ∧
    ∀ f ∈ s.node.peers, f ∈ fs ∨ ∃ x, s.node.matchIndex.lookup f = some x ∧ s.index ≤ x

/-- The invariant of an undisturbed proposal. -/
structure Inv (s : Proposal Id) : Prop where
  sane : s.node.Sane
  held : s.Held
  progress : s.phase = .threw ∨ s.index ≤ s.node.commitIndex ∨
    ∃ fs, s.phase = .sending fs ∧ s.Pending fs

/-! ### The steps of the proposal -/

omit [DecidableEq Id] in
theorem Held.index_bounds {s : Proposal Id} (h : s.Held) :
    1 ≤ s.index ∧ s.index ≤ s.node.log.length := by
  unfold Held SQLiteStorage.entryAt at h
  split_ifs at h with hpos
  have hlt := (List.getElem?_eq_some_iff.mp h).1
  omega

omit [DecidableEq Id] in
/-- A log with the same entries up to the index holds the entry as well. -/
theorem Held.of_take {s s' : Proposal Id} (h : s.Held) (hindex : s'.index = s.index)
    (hentry : s'.entry = s.entry)
    (htake : s'.node.log.take s.index.toNat = s.node.log.take s.index.toNat) : s'.Held := by
  obtain ⟨hpos, -⟩ := h.index_bounds
  have hget : ∀ l : List LogEntry, SQLiteStorage.entryAt l s.index
      = (l.take s.index.toNat)[(s.index - 1).toNat]? := by
    intro l
    rw [SQLiteStorage.entryAt, if_pos (by omega), List.getElem?_take_of_lt (by omega)]
  unfold Held at h ⊢
  rw [hindex, hentry, hget, htake, ← hget]
  exact h

/-- A send to the next peer. -/
theorem Inv.send {s : Proposal Id} (h : s.Inv) {f : Id} {fs : List Id}
    (hs : s.phase = .sending (f :: fs)) : s.proceed.Inv := by
  have hrun := run_sendAppendEntries h.sane f
  obtain ⟨-, hlen⟩ := h.held.index_bounds
  by_cases hreach : s.node.nextIdx f ≤ s.node.log.length + 1
  · rw [if_pos hreach] at hrun
    have hnext : s.proceed
        = { s with node := (s.node.sent f).commitUpdated, phase := .sending fs } := by
      simp only [proceed, hs, hrun]
    have hframe := sendFrame_sent s.node f
    have hcom := (commitOnly_commitUpdated (s.node.sent f)).fields_eq
    rw [hnext]
    refine ⟨(h.sane.sent f).commitUpdated, h.held.of_take rfl rfl ?_, ?_⟩
    · rw [hframe.log_eq]
    · rcases h.progress with hthrew | hdone | ⟨gs, hgs, hterm, hpeers⟩
      · rw [hs] at hthrew
        cases hthrew
      · exact Or.inr (Or.inl (hdone.trans hframe.commitIndex_le))
      · refine Or.inr (Or.inr ⟨fs, rfl, ?_, ?_⟩)
        · show (s.node.sent f).commitUpdated.state.currentTerm = _
          rw [hframe.state_eq]
          exact hterm
        · intro g hg
          obtain rfl : gs = f :: fs := by simpa [hs] using hgs.symm
          show g ∈ fs ∨ ∃ x, (s.node.sent f).commitUpdated.matchIndex.lookup g = some x ∧ _
          rw [hcom.2.2.2.2.2, matchIndex_sent]
          -- the peer just sent to is recorded at the end of the log
          by_cases hgf : g = f
          · subst hgf
            exact Or.inr ⟨_, AList.lookup_insert _, hlen⟩
          · rw [AList.lookup_insert_ne hgf]
            have hg' : g ∈ s.node.peers := by rwa [← hframe.peers_eq]
            simpa [hgf] using hpeers g hg'
  · rw [if_neg hreach] at hrun
    have hnext : s.proceed = { s with node := s.node, phase := .threw } := by
      simp only [proceed, hs, hrun]
    rw [hnext]
    exact ⟨h.sane, h.held, Or.inl rfl⟩

/-- The last `updateCommitIndex`: with every peer recorded, it commits the
entry. -/
theorem Inv.update {s : Proposal Id} (h : s.Inv) (hs : s.phase = .sending []) :
    s.proceed.Inv := by
  have hrun := run_updateCommitIndex h.sane.healthy h.sane.lastApplied_nonneg
    h.sane.commitIndex_nonneg
  have hnext : s.proceed = { s with node := s.node.commitUpdated, phase := .completing } := by
    simp only [proceed, hs, hrun]
  have hframe := sendFrame_commitUpdated s.node
  rw [hnext]
  refine ⟨h.sane.commitUpdated, h.held.of_take rfl rfl ?_, Or.inr (Or.inl ?_)⟩
  · rw [hframe.log_eq]
  · rcases h.progress with hthrew | hdone | ⟨gs, hgs, hterm, hpeers⟩
    · rw [hs] at hthrew
      cases hthrew
    · exact hdone.trans hframe.commitIndex_le
    · obtain rfl : gs = [] := by simpa [hs] using hgs.symm
      refine le_commitIndex_commitUpdated s.node h.held.index_bounds.2 ⟨?_, ?_⟩
      · rw [show SQLiteStorage.entryAt s.node.log s.index = some s.entry from h.held, hterm]
        rfl
      · have hcount := lt_replicationCount (n := s.node) (m := s.index) (fun f hf => by
          simpa using hpeers f hf)
        show s.node.peers.length / 2 < s.node.replicationCount s.index
        omega

theorem Inv.proceed {s : Proposal Id} (h : s.Inv) : s.proceed.Inv := by
  cases hs : s.phase with
  | sending peers =>
      cases peers with
      | nil => exact h.update hs
      | cons f fs => exact h.send hs
  | completing =>
      have hnext : s.proceed = { s with phase := .done true } := by
        simp only [Proposal.proceed, hs]
      rw [hnext]
      refine ⟨h.sane, h.held, ?_⟩
      rcases h.progress with hthrew | hdone | ⟨gs, hgs, -⟩
      · rw [hs] at hthrew
        cases hthrew
      · exact Or.inr (Or.inl hdone)
      · rw [hs] at hgs
        cases hgs
  | done result =>
      rw [show s.proceed = s by simp only [Proposal.proceed, hs]]
      exact h
  | threw =>
      rw [show s.proceed = s by simp only [Proposal.proceed, hs]]
      exact h

/-! ### The steps of other threads -/

/-- A call of `appendEntries` without conflict keeps the log up to the index. -/
theorem take_log_appendEntries {n : RaftNode Id} (h : n.Sane) {req : AppendEntriesRequest Id}
    {i : ℤ} (hi : i ≤ n.log.length) (hno : n.accepts req = true → NoConflict n.log i req) :
    (n.step (.appendEntries req)).log.take i.toNat = n.log.take i.toNat := by
  rw [log_step h, logAfter]
  split_ifs with hacc
  · refine take_splice_of_no_conflict _ _ _ _ _ (prevLogIndex_le_of_accepts hacc) (by omega) ?_
    intro j x e hj hx he
    have hjlt := (List.getElem?_eq_some_iff.mp he).1
    exact hno hacc j hjlt (by omega) x hx e he
  · rfl

theorem Inv.appendEntries {s : Proposal Id} (h : s.Inv) {req : AppendEntriesRequest Id}
    (hu : s.Undisturbed (.appendEntries req)) : (s.step (.appendEntries req)).Inv := by
  obtain ⟨hno, hrest⟩ := hu
  obtain ⟨-, hlen⟩ := h.held.index_bounds
  have hheld : (s.step (.appendEntries req)).Held :=
    h.held.of_take rfl rfl (take_log_appendEntries h.sane hlen hno)
  have hlen' : s.index ≤ (s.node.step (.appendEntries req)).log.length := hheld.index_bounds.2
  refine ⟨h.sane.step _, hheld, ?_⟩
  show s.phase = .threw ∨ s.index ≤ (s.node.step (.appendEntries req)).commitIndex ∨ _
  rcases h.progress with hthrew | hdone | ⟨fs, hfs, hterm, hpeers⟩
  · exact Or.inl hthrew
  · exact Or.inr (Or.inl (le_commitIndex_appendEntries h.sane hdone hlen'))
  · rcases hrest with hdone | hsame | ⟨hacc, hlc⟩
    · exact Or.inr (Or.inl (le_commitIndex_appendEntries h.sane hdone hlen'))
    · -- the term does not change, and the sends are as before
      have hstate : (s.node.step (.appendEntries req)).state = s.node.state := by
        rw [state_step h.sane]
        exact if_neg (not_lt.mpr hsame)
      obtain ⟨hp, hm⟩ := fields_appendEntries h.sane req
      refine Or.inr (Or.inr ⟨fs, hfs, ?_, ?_⟩)
      · show (s.node.step (.appendEntries req)).state.currentTerm = _
        rw [hstate]
        exact hterm
      · intro f hf
        have hf' : f ∈ s.node.peers := hp ▸ hf
        show f ∈ fs ∨ ∃ x, (s.node.step (.appendEntries req)).matchIndex.lookup f = some x ∧ _
        rw [hm]
        exact hpeers f hf'
    · -- the call commits the entry itself
      right
      left
      rw [commitIndex_appendEntries h.sane]
      split_ifs with hc
      · exact le_min hlc hlen'
      · by_contra hlt
        exact hc ⟨hacc, by omega⟩

theorem Inv.voteResponse {s : Proposal Id} (h : s.Inv) {response : RequestVoteResponse}
    (hu : s.Undisturbed (.voteResponse response)) : (s.step (.voteResponse response)).Inv := by
  have hnode : (s.step (.voteResponse response)).node = s.node.responded response.term :=
    step_voteResponse response
  by_cases hterm : response.term > s.node.state.currentTerm
  · have hcommitted : s.index ≤ s.node.commitIndex := by
      rcases hu with hc | hle
      · exact hc
      · omega
    refine ⟨h.sane.step _, h.held.of_take rfl rfl ?_, Or.inr (Or.inl ?_)⟩
    · rw [hnode, responded, if_pos hterm]
      rfl
    · rw [hnode, responded, if_pos hterm]
      exact hcommitted
  · have hsame : s.step (.voteResponse response) = s := by
      rw [responded, if_neg hterm] at hnode
      show { s with node := (s.step (.voteResponse response)).node } = s
      rw [hnode]
    rw [hsame]
    exact h

/-! ## Acknowledged means committed -/

theorem Inv.step {s : Proposal Id} (h : s.Inv) {a : Interleaved Id} (hu : s.Undisturbed a) :
    (s.step a).Inv := by
  cases a with
  | proceed => exact h.proceed
  | appendEntries req => exact h.appendEntries hu
  | voteResponse response => exact h.voteResponse hu

theorem inv_start {n : RaftNode Id} (h : n.Sane) (key value : String) :
    (start n key value).Inv := by
  refine ⟨h.appended key value, ?_, Or.inr (Or.inr ⟨n.peers, rfl, rfl, fun f hf => Or.inl hf⟩)⟩
  show SQLiteStorage.entryAt (n.appended key value).log (n.log.length + 1) = some _
  rw [entryAt_succ, log_appended]
  simp [start]

/-- The future has just been completed with `true`, after the steps `acts`. -/
def Acknowledges (n : RaftNode Id) (key value : String) (acts : List (Interleaved Id)) : Prop :=
  (Run.run step (start n key value) acts).phase = .completing ∧
    (Run.run step (start n key value) (acts ++ [.proceed])).phase = .done true

/-- At the end of the steps the log holds the entry at the index it was appended
at, and the index is committed. -/
def Committed (n : RaftNode Id) (key value : String) (acts : List (Interleaved Id)) : Prop :=
  let node := (Run.run step (start n key value) acts).node
  SQLiteStorage.entryAt node.log (n.log.length + 1) = some ⟨n.state.currentTerm, key, value⟩ ∧
    (n.log.length : ℤ) + 1 ≤ node.commitIndex

instance (n : RaftNode Id) (key value : String) (acts : List (Interleaved Id)) :
    Decidable (Acknowledges n key value acts) :=
  inferInstanceAs (Decidable (_ ∧ _))

instance (n : RaftNode Id) (key value : String) (acts : List (Interleaved Id)) :
    Decidable (Committed n key value acts) :=
  inferInstanceAs (Decidable (_ ∧ _))

theorem proceed_index (s : Proposal Id) :
    s.proceed.index = s.index ∧ s.proceed.entry = s.entry := by
  unfold Proposal.proceed
  split
  · split <;> exact ⟨rfl, rfl⟩
  · split <;> exact ⟨rfl, rfl⟩
  · exact ⟨rfl, rfl⟩
  · exact ⟨rfl, rfl⟩
  · exact ⟨rfl, rfl⟩

/-- Which entry is proposed, and where, does not change during the run. -/
theorem run_index (s : Proposal Id) (acts : List (Interleaved Id)) :
    (Run.run step s acts).index = s.index ∧ (Run.run step s acts).entry = s.entry := by
  refine Run.run_invariant (P := fun s' : Proposal Id => s'.index = s.index ∧ s'.entry = s.entry)
    ?_ ⟨rfl, rfl⟩ acts
  intro s' a hs'
  cases a with
  | proceed =>
      obtain ⟨hi, he⟩ := proceed_index s'
      exact ⟨hi.trans hs'.1, he.trans hs'.2⟩
  | appendEntries req => exact hs'
  | voteResponse response => exact hs'

/-- **An undisturbed proposal is acknowledged only when committed**: for every
node a run of events can lead to, a leader or not, and every interleaving. -/
theorem acknowledged_is_committed (nodeId : Id) (peerIds : List Id) (evs : List (Event Id))
    (key value : String) (acts : List (Interleaved Id))
    (hacts : Run.Along step Undisturbed (start ((fresh nodeId peerIds).after evs) key value) acts)
    (hack : Acknowledges ((fresh nodeId peerIds).after evs) key value acts) :
    Committed ((fresh nodeId peerIds).after evs) key value (acts ++ [.proceed]) := by
  have hsane := (sane_fresh nodeId peerIds).after evs
  have hinv : (Run.run step (start ((fresh nodeId peerIds).after evs) key value)
      (acts ++ [.proceed])).Inv := by
    rw [Run.run_snoc]
    exact (Run.along_invariant (fun _ _ hs hu => hs.step hu) (inv_start hsane key value)
      hacts).proceed
  obtain ⟨hindex, hentry⟩ := run_index (start ((fresh nodeId peerIds).after evs) key value)
    (acts ++ [.proceed])
  have hheld := hinv.held
  have hprogress := hinv.progress
  unfold Held at hheld
  rw [hindex, hentry] at hheld
  rw [hindex, hack.2] at hprogress
  refine ⟨hheld, ?_⟩
  rcases hprogress with hthrew | hdone | ⟨fs, hfs, -⟩
  · cases hthrew
  · exact hdone
  · cases hfs

/-- The theorem at a run with a stale call, a response of the same term, and a
higher term that arrives after the first send has committed the entry. -/
theorem acknowledged_is_committed_run :
    let n := (fresh 0 [1, 2]).after [.startElection, .becomeLeader]
    let acts : List (Interleaved ℕ) := [.appendEntries ⟨1, 0, 0, 0, [⟨0, "x", "y"⟩], 1⟩,
      .voteResponse ⟨1, true⟩, .proceed, .voteResponse ⟨7, false⟩, .proceed, .proceed]
    Acknowledges n "k" "v" acts ∧ Committed n "k" "v" (acts ++ [.proceed]) := by
  intro n acts
  have hack : Acknowledges n "k" "v" acts := by decide +kernel
  exact ⟨hack, acknowledged_is_committed 0 [1, 2] _ "k" "v" acts (by decide +kernel) hack⟩

/-- A vote response of a higher term before the first send: the leader of term `1`
answers `true` with nothing committed. -/
theorem acknowledged_not_committed :
    let n := (fresh 0 [1]).after [.startElection, .becomeLeader]
    let acts : List (Interleaved ℕ) := [.voteResponse ⟨5, false⟩, .proceed, .proceed]
    n.state.currentRole = LEADER ∧ Acknowledges n "k" "v" acts ∧
      ¬ Committed n "k" "v" (acts ++ [.proceed]) ∧
      (Run.run step (start n "k" "v") (acts ++ [.proceed])).node.commitIndex = 0 := by
  decide +kernel

end Proposal

end KVStore
