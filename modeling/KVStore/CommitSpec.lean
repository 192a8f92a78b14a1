/-
# What `updateCommitIndex` computes when the database works

`updateCommitIndex` scans the indices above the commit index and commits each
one it may: its entry is of the node's current term and enough followers are
recorded at or above it (`canCommit`).  The scan is `commitScan`; it changes
nothing but the commit index, the applied index and the key-value table
(`CommitOnly`), never lowers the commit index, reaches every index it may
commit, and keeps the table the replay of the committed entries (`UpToDate`).
-/
import KVStore.NodeSpec

namespace KVStore

open Role Splice

namespace RaftNode

variable {Id : Type} {n : RaftNode Id}

/-! ## Counting replicas -/

/-- The counting loop counts. -/
theorem foldl_count (l : List ℤ) (m : ℤ) (c : ℕ) :
    l.foldl (fun count matchIdx => if matchIdx ≥ m then count + 1 else count) c
      = c + l.countP (fun x => decide (x ≥ m)) := by
  induction l generalizing c with
  | nil => simp
  | cons x l ih =>
      rw [List.foldl_cons, ih, List.countP_cons]
      by_cases hx : x ≥ m
      · simp only [hx, if_true, decide_true]
        omega
      · simp [hx]

/-- The leader itself and the followers that hold the index. -/
theorem replicationCount_eq (m : ℤ) :
    n.replicationCount m = 1 + n.matchIndex.values.countP (fun x => decide (x ≥ m)) :=
  foldl_count _ _ _

/-- The followers counted, by their keys. -/
theorem countP_values (m : IndexMap Id) (i : ℤ) :
    m.values.countP (fun x => decide (x ≥ i))
      = ((m.entries.filter (fun e => decide (e.2 ≥ i))).map Sigma.fst).length := by
  rw [IndexMap.values, List.countP_map, List.countP_eq_length_filter, List.length_map]
  rfl

/-- When every peer is recorded at `m` or above, every node of the cluster is
counted. -/
theorem lt_replicationCount [DecidableEq Id] {m : ℤ}
    (h : ∀ f ∈ n.peers, ∃ x, n.matchIndex.lookup f = some x ∧ m ≤ x) :
    n.peers.length < n.replicationCount m := by
  have hsub : n.peers ⊆ (n.matchIndex.entries.filter (fun e => decide (e.2 ≥ m))).map Sigma.fst := by
    intro f hf
    obtain ⟨x, hx, hm⟩ := h f hf
    refine List.mem_map.mpr ⟨⟨f, x⟩, List.mem_filter.mpr ⟨?_, by simpa using hm⟩, rfl⟩
    exact AList.mem_lookup_iff.mp hx
  have hle := (List.subperm_of_subset n.peersNodup hsub).length_le
  rw [replicationCount_eq, countP_values]
  omega

/-! ## `updateCommitIndex` -/

/-- The two tests of `updateCommitIndex` for index `m`. -/
def canCommit (n : RaftNode Id) (m : ℤ) : Prop :=
  (SQLiteStorage.entryAt n.log m).map LogEntry.term = some n.state.currentTerm ∧
    n.peers.length / 2 < n.replicationCount m

instance (m : ℤ) : Decidable (n.canCommit m) := inferInstanceAs (Decidable (_ ∧ _))

/-- One round commits its index if it can be committed. -/
theorem run_tryCommit (h : n.Healthy) (ha : 0 ≤ n.lastApplied) {m : ℤ} (hm : 1 ≤ m)
    (hm' : m ≤ n.log.length) :
    (tryCommit m).run n = .ok () (if n.canCommit m then n.commitTo m else n) := by
  obtain ⟨p, rfl⟩ : ∃ p : ℕ, m = (p : ℤ) + 1 := ⟨(m - 1).toNat, by omega⟩
  have hp : p < n.log.length := by omega
  have hget : ∀ f : RaftNode Id → Method Id Unit, (get >>= f).run n = (f n).run n :=
    fun f => rfl
  have hcan : n.canCommit ((p : ℤ) + 1) ↔ n.log[p].term = n.state.currentTerm ∧
      n.peers.length / 2 < n.replicationCount ((p : ℤ) + 1) := by
    rw [canCommit, entryAt_succ, List.getElem?_eq_getElem hp]
    simp
  rw [tryCommit, run_bind_getLogEntry h, entryAt_succ, List.getElem?_eq_getElem hp]
  simp only [nonNull, pure_bind]
  rw [hget]
  by_cases hterm : n.log[p].term = n.state.currentTerm
  · by_cases hcount : n.replicationCount ((p : ℤ) + 1) > n.peers.length / 2
    · rw [if_pos hterm, if_pos hcount, if_pos (hcan.mpr ⟨hterm, hcount⟩)]
      exact run_commitTo h ha hm'
    · rw [if_pos hterm, if_neg hcount, if_neg (fun hc => hcount (hcan.mp hc).2)]
      rfl
  · rw [if_neg hterm, if_neg (fun hc => hterm (hcan.mp hc).1)]
    rfl

/-- The scan of `updateCommitIndex` over the `k` indices from `m` on. -/
def commitScan (n : RaftNode Id) (m : ℤ) : ℕ → RaftNode Id
  | 0 => n
  | k + 1 => (if n.canCommit m then n.commitTo m else n).commitScan (m + 1) k

/-- The rounds, one index after the other. -/
theorem run_commitLoop (h : n.Healthy) (ha : 0 ≤ n.lastApplied) (m : ℤ) (k : ℕ) (hm : 1 ≤ m)
    (hk : m + k ≤ n.log.length + 1) :
    (commitLoop m k).run n = .ok () (n.commitScan m k) := by
  induction k generalizing n m with
  | zero => rfl
  | succ k ih =>
      rw [commitLoop, commitScan, Exec.run_bind_ok (run_tryCommit h ha hm (by omega))]
      split_ifs with hc
      · exact ih (by simpa using h) (by simp; omega) (m + 1) (by omega) (by simp; omega)
      · exact ih h ha (m + 1) (by omega) (by omega)

/-- The node after `updateCommitIndex`. -/
def commitUpdated (n : RaftNode Id) : RaftNode Id :=
  n.commitScan (n.commitIndex + 1) (n.log.length - n.commitIndex).toNat

/-- The commit rule scans the log past the commit index. -/
theorem run_updateCommitIndex (h : n.Healthy) (ha : 0 ≤ n.lastApplied)
    (hc : 0 ≤ n.commitIndex) :
    updateCommitIndex.run n = .ok () n.commitUpdated := by
  rw [updateCommitIndex, run_bind_getLastLogIndex h, run_bind_getCommitIndex h, commitUpdated]
  rcases le_or_gt (n.log.length : ℤ) n.commitIndex with hle | hgt
  · rw [show (n.log.length - n.commitIndex).toNat = 0 by omega]
    rfl
  · exact run_commitLoop h ha _ _ (by omega) (by omega)

/-! ### What the scan leaves alone -/

/-- `n'` differs from `n` at most in the commit index, the applied index and the
key-value table. -/
def CommitOnly (n n' : RaftNode Id) : Prop :=
  ∃ s, n' = n.setStorage s ∧ s.log = n.log ∧ (s.Healthy ↔ n.Healthy)

/-- Nothing was committed. -/
theorem CommitOnly.refl (n : RaftNode Id) : CommitOnly n n :=
  ⟨n.storage, rfl, rfl, Iff.rfl⟩

/-- One commit after another. -/
theorem CommitOnly.trans {n n' n'' : RaftNode Id} (h : CommitOnly n n')
    (h' : CommitOnly n' n'') : CommitOnly n n'' := by
  obtain ⟨s, rfl, hlog, hh⟩ := h
  obtain ⟨s', rfl, hlog', hh'⟩ := h'
  exact ⟨s', rfl, hlog'.trans hlog, hh'.trans hh⟩

/-- A commit touches the two indices and the table. -/
theorem commitOnly_commitTo (n : RaftNode Id) (c : ℤ) : CommitOnly n (n.commitTo c) :=
  ⟨(n.commitTo c).storage, rfl, log_commitTo c, healthy_commitTo c⟩

/-- So does a scan, by induction on its rounds. -/
theorem commitOnly_commitScan (n : RaftNode Id) (m : ℤ) (k : ℕ) :
    CommitOnly n (n.commitScan m k) := by
  induction k generalizing n m with
  | zero => exact CommitOnly.refl n
  | succ k ih =>
      rw [commitScan]
      split_ifs
      · exact (commitOnly_commitTo n m).trans (ih _ _)
      · exact ih _ _

/-- So does the commit rule. -/
theorem commitOnly_commitUpdated (n : RaftNode Id) : CommitOnly n n.commitUpdated :=
  commitOnly_commitScan n _ _

/-- Whether an index may be committed does not depend on what was committed. -/
theorem CommitOnly.canCommit_iff {n n' : RaftNode Id} (h : CommitOnly n n') (m : ℤ) :
    n'.canCommit m ↔ n.canCommit m := by
  obtain ⟨s, rfl, hlog, -⟩ := h
  unfold canCommit replicationCount
  simp [hlog]

section CommitOnly

variable {n n' : RaftNode Id} (h : CommitOnly n n')
include h

/-- A commit leaves the log alone. -/
theorem CommitOnly.log_eq : n'.log = n.log := by
  obtain ⟨s, rfl, hlog, -⟩ := h
  exact hlog

/-- It makes no statement fail. -/
theorem CommitOnly.healthy_iff : n'.Healthy ↔ n.Healthy := by
  obtain ⟨s, rfl, -, hh⟩ := h
  exact hh

/-- It leaves the memory of the node alone. -/
theorem CommitOnly.fields_eq : n'.state = n.state ∧ n'.votedFor = n.votedFor ∧
    n'.nodeId = n.nodeId ∧ n'.peers = n.peers ∧ n'.nextIndex = n.nextIndex ∧
    n'.matchIndex = n.matchIndex := by
  obtain ⟨s, rfl, -, -⟩ := h
  exact ⟨rfl, rfl, rfl, rfl, rfl, rfl⟩

end CommitOnly

/-! ### What a merge leaves alone -/

/-- Following a leader's commit index only commits. -/
theorem commitOnly_commitFollowed (n : RaftNode Id) (c : ℤ) :
    CommitOnly n (n.commitFollowed c) := by
  unfold commitFollowed
  split_ifs
  · exact commitOnly_commitTo n _
  · exact CommitOnly.refl n

/-- The commit index that a leader's is followed to. -/
theorem commitIndex_commitFollowed (c : ℤ) : (n.commitFollowed c).commitIndex
    = if c > n.commitIndex then min c n.log.length else n.commitIndex := by
  unfold commitFollowed
  split_ifs
  · exact commitIndex_commitTo _
  · rfl

section Merged

variable (req : AppendEntriesRequest Id)

/-- Past its entries a call only commits. -/
theorem commitOnly_merged : CommitOnly (n.setStorage (n.storage.withLog
    (splice LogEntry.term n.log req.prevLogIndex.toNat req.entries))) (n.merged req) :=
  commitOnly_commitFollowed _ _

@[simp] theorem log_merged : (n.merged req).log
    = splice LogEntry.term n.log req.prevLogIndex.toNat req.entries := by
  rw [(commitOnly_merged req).log_eq]
  simp
/-- The commit index after a call. -/
theorem commitIndex_merged : (n.merged req).commitIndex
    = if req.leaderCommit > n.commitIndex then min req.leaderCommit (n.merged req).log.length
      else n.commitIndex := by
  rw [log_merged, merged, commitIndex_commitFollowed]
  simp
/-- The applied index after a call. -/
theorem lastApplied_merged :
    (n.merged req).lastApplied = if req.leaderCommit > n.commitIndex then
      max n.lastApplied (n.merged req).commitIndex else n.lastApplied := by
  have hcommit : ∀ l, (n.setStorage (n.storage.withLog l)).commitIndex = n.commitIndex :=
    fun _ => rfl
  unfold merged commitFollowed
  rw [hcommit]
  by_cases hgt : req.leaderCommit > n.commitIndex
  · rw [if_pos hgt, if_pos hgt, lastApplied_commitTo, commitIndex_commitTo]
    rfl
  · rw [if_neg hgt, if_neg hgt]
    rfl
@[simp] theorem healthy_merged : (n.merged req).Healthy ↔ n.Healthy := by
  rw [(commitOnly_merged req).healthy_iff]
  simp
@[simp] theorem state_merged : (n.merged req).state = n.state :=
  (commitOnly_merged req).fields_eq.1
@[simp] theorem votedFor_merged : (n.merged req).votedFor = n.votedFor :=
  (commitOnly_merged req).fields_eq.2.1
@[simp] theorem nodeId_merged : (n.merged req).nodeId = n.nodeId :=
  (commitOnly_merged req).fields_eq.2.2.1
@[simp] theorem peers_merged : (n.merged req).peers = n.peers :=
  (commitOnly_merged req).fields_eq.2.2.2.1
@[simp] theorem nextIndex_merged : (n.merged req).nextIndex = n.nextIndex :=
  (commitOnly_merged req).fields_eq.2.2.2.2.1
@[simp] theorem matchIndex_merged : (n.merged req).matchIndex = n.matchIndex :=
  (commitOnly_merged req).fields_eq.2.2.2.2.2

end Merged

/-! ### What the scan reaches -/

/-- A scan from above the commit index does not lower it. -/
theorem commitIndex_le_commitScan (n : RaftNode Id) (m : ℤ) (k : ℕ) (hm : n.commitIndex ≤ m) :
    n.commitIndex ≤ (n.commitScan m k).commitIndex := by
  induction k generalizing n m with
  | zero => exact le_rfl
  | succ k ih =>
      rw [commitScan]
      split_ifs
      · have := ih (n.commitTo m) (m + 1) (by simp)
        rw [commitIndex_commitTo] at this
        omega
      · exact ih n (m + 1) (by omega)

/-- The commit rule does not lower the commit index. -/
theorem commitIndex_le_commitUpdated (n : RaftNode Id) :
    n.commitIndex ≤ n.commitUpdated.commitIndex :=
  commitIndex_le_commitScan n _ _ (by omega)

/-- A scan commits no index outside its range. -/
theorem commitIndex_commitScan_le (n : RaftNode Id) (m : ℤ) (k : ℕ) :
    (n.commitScan m k).commitIndex ≤ max n.commitIndex (m + k - 1) := by
  induction k generalizing n m with
  | zero => exact le_max_left _ _
  | succ k ih =>
      rw [commitScan]
      split_ifs
      · have := ih (n.commitTo m) (m + 1)
        rw [commitIndex_commitTo] at this
        push_cast
        omega
      · have := ih n (m + 1)
        push_cast
        omega

/-- It does not commit past the log. -/
theorem commitIndex_commitUpdated_le (n : RaftNode Id) :
    n.commitUpdated.commitIndex ≤ max n.commitIndex n.log.length := by
  have := commitIndex_commitScan_le n (n.commitIndex + 1) (n.log.length - n.commitIndex).toNat
  unfold commitUpdated
  omega

/-- A scan takes nothing back that was applied. -/
theorem lastApplied_le_commitScan (n : RaftNode Id) (m : ℤ) (k : ℕ) :
    n.lastApplied ≤ (n.commitScan m k).lastApplied := by
  induction k generalizing n m with
  | zero => exact le_rfl
  | succ k ih =>
      rw [commitScan]
      split_ifs
      · have := ih (n.commitTo m) (m + 1)
        rw [lastApplied_commitTo] at this
        exact (le_max_left _ _).trans this
      · exact ih n (m + 1)

/-- Neither does the commit rule. -/
theorem lastApplied_le_commitUpdated (n : RaftNode Id) :
    n.lastApplied ≤ n.commitUpdated.lastApplied :=
  lastApplied_le_commitScan n _ _

/-- Every index of the scan that may be committed is at or below the commit index
afterwards. -/
theorem le_commitIndex_commitScan (n : RaftNode Id) (m : ℤ) (k : ℕ) {c : ℤ} (hc : m ≤ c)
    (hck : c < m + k) (hcan : n.canCommit c) : c ≤ (n.commitScan m k).commitIndex := by
  induction k generalizing n m with
  | zero => omega
  | succ k ih =>
      rw [commitScan]
      rcases eq_or_lt_of_le hc with rfl | hlt
      · rw [if_pos hcan]
        have := commitIndex_le_commitScan (n.commitTo m) (m + 1) k (by simp)
        rwa [commitIndex_commitTo] at this
      · split_ifs
        · exact ih _ _ (by omega) (by omega)
            (((commitOnly_commitTo n m).canCommit_iff c).mpr hcan)
        · exact ih _ _ (by omega) (by omega) hcan

/-- An index that can be committed is. -/
theorem le_commitIndex_commitUpdated (n : RaftNode Id) {c : ℤ} (hc : c ≤ n.log.length)
    (hcan : n.canCommit c) : c ≤ n.commitUpdated.commitIndex := by
  rcases le_or_gt c n.commitIndex with hle | hgt
  · exact hle.trans (commitIndex_le_commitUpdated n)
  · exact le_commitIndex_commitScan n _ _ (by omega) (by omega) hcan

/-- A scan in which no index may be committed changes nothing. -/
theorem commitScan_of_not_canCommit (n : RaftNode Id) (m : ℤ) (k : ℕ)
    (h : ∀ c, m ≤ c → c < m + k → ¬ n.canCommit c) : n.commitScan m k = n := by
  induction k generalizing m with
  | zero => rfl
  | succ k ih =>
      rw [commitScan, if_neg (h m le_rfl (by omega))]
      exact ih (m + 1) (fun c hc hck => h c (by omega) (by omega))

/-! ### The state machine behind the commit index -/

/-- Everything committed is applied, and the table is the replay of the applied
entries. -/
structure UpToDate (n : RaftNode Id) : Prop where
  nonneg : 0 ≤ n.commitIndex
  applied_eq : n.lastApplied = n.commitIndex
  committed_le : n.commitIndex ≤ n.log.length
  kvStore_eq : n.kvStore = replayLog (fun _ => none) (n.log.take n.commitIndex.toNat)

/-- Committing further keeps the table in step. -/
theorem UpToDate.commitTo (h : n.UpToDate) {c : ℤ} (hc : n.commitIndex ≤ c)
    (hlen : c ≤ n.log.length) : (n.commitTo c).UpToDate where
  nonneg := by
    have := h.nonneg
    rw [commitIndex_commitTo]
    omega
  applied_eq := by
    rw [lastApplied_commitTo, commitIndex_commitTo, h.applied_eq, max_eq_right hc]
  committed_le := by simpa using hlen
  kvStore_eq := by
    rw [kvStore_commitTo, commitIndex_commitTo, log_commitTo, h.kvStore_eq, h.applied_eq]
    exact Replay.replay_take_extend _ _ _ _ (Int.toNat_le_toNat hc)

/-- A log that keeps the committed entries keeps the table in step. -/
theorem UpToDate.withLog (h : n.UpToDate) {l : List LogEntry}
    (hl : l.take n.commitIndex.toNat = n.log.take n.commitIndex.toNat) :
    (n.setStorage (n.storage.withLog l)).UpToDate where
  nonneg := by simpa using h.nonneg
  applied_eq := by simpa using h.applied_eq
  committed_le := by
    have hlen := congrArg List.length hl
    have hle := h.committed_le
    have hnonneg := h.nonneg
    rw [List.length_take, List.length_take] at hlen
    simp only [commitIndex_setStorage, SQLiteStorage.commitIndex_withLog, storage_commitIndex,
      log_setStorage, SQLiteStorage.log_withLog]
    omega
  kvStore_eq := by
    simp only [kvStore_setStorage, SQLiteStorage.kvStore_withLog, storage_kvStore,
      commitIndex_setStorage, SQLiteStorage.commitIndex_withLog, storage_commitIndex,
      log_setStorage, SQLiteStorage.log_withLog]
    rw [hl, h.kvStore_eq]

/-- On a node that is up to date, following a leader does not lower the commit index. -/
theorem commitIndex_le_commitFollowed (h : n.UpToDate) (c : ℤ) :
    n.commitIndex ≤ (n.commitFollowed c).commitIndex := by
  have hle := h.committed_le
  rw [commitIndex_commitFollowed]
  split_ifs with hc
  · omega
  · exact le_rfl

/-- A node that follows a leader stays up to date. -/
theorem UpToDate.commitFollowed (h : n.UpToDate) (c : ℤ) : (n.commitFollowed c).UpToDate := by
  have hle := h.committed_le
  unfold RaftNode.commitFollowed
  split_ifs with hc
  · exact h.commitTo (by omega) (min_le_right _ _)
  · exact h

/-- So does one that scans its log. -/
theorem UpToDate.commitScan (h : n.UpToDate) (m : ℤ) (k : ℕ) (hm : n.commitIndex ≤ m)
    (hk : m + k ≤ n.log.length + 1) : (n.commitScan m k).UpToDate := by
  induction k generalizing n m with
  | zero => exact h
  | succ k ih =>
      rw [RaftNode.commitScan]
      split_ifs
      · exact ih (h.commitTo hm (by omega)) (m + 1) (by simp) (by simp; omega)
      · exact ih h (m + 1) (by omega) (by omega)

/-- So does one that runs the commit rule. -/
theorem UpToDate.commitUpdated (h : n.UpToDate) : n.commitUpdated.UpToDate := by
  have := h.committed_le
  exact h.commitScan _ _ (by omega) (by omega)

end RaftNode

end KVStore
