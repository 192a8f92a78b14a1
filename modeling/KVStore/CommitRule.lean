/-
# The commit rule of the leader

`updateCommitIndex` neither stops at the first index it may not commit nor at
the first one it may, and it applies entries in the middle of its scan.  What it
leaves behind is nonetheless what one commit of the greatest index it may commit
leaves behind (`Advances`), older-term entries in between included, and it does
not depend on the order in which `matchIndex` is iterated.
-/
import KVStore.Quorum

namespace KVStore

namespace RaftNode

variable {Id : Type} {n : RaftNode Id}

/-! ## One scan -/

/-- From `n` to `n'` the commit index went up to an index that may be committed,
and the entries up to it were applied. -/
structure Advances (n n' : RaftNode Id) : Prop where
  canCommit : n.canCommit n'.commitIndex
  applied_eq : n'.lastApplied = n'.commitIndex
  kvStore_eq : n'.kvStore =
    replayLog n.kvStore ((n.log.take n'.commitIndex.toNat).drop n.lastApplied.toNat)

theorem advances_commitTo {m : ℤ} (hm : n.lastApplied ≤ m) (hcan : n.canCommit m) :
    Advances n (n.commitTo m) where
  canCommit := by rwa [commitIndex_commitTo]
  applied_eq := by rw [lastApplied_commitTo, commitIndex_commitTo, max_eq_right hm]
  kvStore_eq := by rw [kvStore_commitTo, commitIndex_commitTo]

/-- Committing `m` first and then a greater index is committing the greater one. -/
theorem Advances.of_commitTo {n' : RaftNode Id} {m : ℤ} (hm : n.lastApplied ≤ m)
    (hm' : m ≤ n'.commitIndex) (h : Advances (n.commitTo m) n') : Advances n n' where
  canCommit := ((commitOnly_commitTo n m).canCommit_iff _).mp h.canCommit
  applied_eq := h.applied_eq
  kvStore_eq := by
    rw [h.kvStore_eq, log_commitTo, kvStore_commitTo, lastApplied_commitTo, max_eq_right hm]
    exact Replay.replay_stretch _ _ _ _ (Int.toNat_le_toNat hm) (Int.toNat_le_toNat hm')

/-- **A scan does nothing, or what one commit does.** -/
theorem commitScan_advances (n : RaftNode Id) (m : ℤ) (k : ℕ) (ha : n.lastApplied ≤ m)
    (hc : n.commitIndex ≤ m) : n.commitScan m k = n ∨ Advances n (n.commitScan m k) := by
  induction k generalizing n m with
  | zero => exact Or.inl rfl
  | succ k ih =>
      rw [commitScan]
      by_cases hcan : n.canCommit m
      · rw [if_pos hcan]
        right
        rcases ih (n.commitTo m) (m + 1) (by simp; omega) (by simp) with hsame | hadv
        · rw [hsame]
          exact advances_commitTo ha hcan
        · have hle := commitIndex_le_commitScan (n.commitTo m) (m + 1) k (by simp)
          rw [commitIndex_commitTo] at hle
          exact hadv.of_commitTo ha hle
      · rw [if_neg hcan]
        exact ih n (m + 1) (by omega) (by omega)

theorem commitUpdated_advances (ha : n.lastApplied ≤ n.commitIndex) :
    n.commitUpdated = n ∨ Advances n n.commitUpdated :=
  commitScan_advances n _ _ (by omega) (by omega)

/-! ## The order of `matchIndex` -/

/-- The node with another `matchIndex`. -/
def withMatchIndex (n : RaftNode Id) (m : IndexMap Id) : RaftNode Id := { n with matchIndex := m }

/-- The count does not depend on the iteration order. -/
theorem canCommit_withMatchIndex {m : IndexMap Id} (h : m.entries.Perm n.matchIndex.entries)
    (i : ℤ) : (n.withMatchIndex m).canCommit i ↔ n.canCommit i := by
  have hcount : (n.withMatchIndex m).replicationCount i = n.replicationCount i := by
    rw [replicationCount_eq, replicationCount_eq]
    exact congrArg (1 + ·) ((h.map Sigma.snd).countP_eq _)
  unfold canCommit
  rw [hcount]
  rfl

theorem commitScan_withMatchIndex {m : IndexMap Id} (h : m.entries.Perm n.matchIndex.entries)
    (i : ℤ) (k : ℕ) :
    (n.withMatchIndex m).commitScan i k = (n.commitScan i k).withMatchIndex m := by
  induction k generalizing n i with
  | zero => rfl
  | succ k ih =>
      rw [commitScan, commitScan]
      by_cases hcan : n.canCommit i
      · rw [if_pos hcan, if_pos ((canCommit_withMatchIndex h i).mpr hcan)]
        exact ih (n := n.commitTo i) h (i + 1)
      · rw [if_neg hcan, if_neg (fun hc => hcan ((canCommit_withMatchIndex h i).mp hc))]
        exact ih h (i + 1)

/-! ## The rule -/

variable [DecidableEq Id]

/-- An index the leader may advance to: uncommitted, of an entry of its term, with
the node itself and the peers recorded there more than half of the peers. -/
def Committable (n : RaftNode Id) (i : ℤ) : Prop :=
  n.commitIndex < i ∧ i ≤ n.log.length ∧
    (SQLiteStorage.entryAt n.log i).map LogEntry.term = some n.state.currentTerm ∧
    1 + (n.peers.filter (n.recordedAt i)).length > n.peers.length / 2

instance (i : ℤ) : Decidable (n.Committable i) := inferInstanceAs (Decidable (_ ∧ _))

theorem committable_iff (hr : n.RecordsPeers) (i : ℤ) :
    n.Committable i ↔ n.commitIndex < i ∧ i ≤ n.log.length ∧ n.canCommit i := by
  unfold Committable canCommit
  rw [replicationCount_eq_peers hr]

/-- **The commit rule of the leader.**  `updateCommitIndex` returns.  It changes
nothing when no index is committable, and otherwise sets the commit index to the
greatest such index; a changed commit index is applied up to, in order, each entry
once.  Nothing else changes, and another iteration order of `matchIndex` gives the
same result. -/
theorem updateCommitIndex_rule (n : RaftNode Id) (h : n.Healthy) (h0 : 0 ≤ n.lastApplied)
    (ha : n.lastApplied ≤ n.commitIndex) (hc : n.commitIndex ≤ n.log.length)
    (hr : n.RecordsPeers) :
    ∃ n', updateCommitIndex.run n = .ok () n' ∧
      ((∀ i, ¬ n.Committable i) → n' = n) ∧
      ((∃ i, n.Committable i) → IsGreatest {i | n.Committable i} n'.commitIndex) ∧
      (n'.commitIndex ≠ n.commitIndex →
        n'.lastApplied = n'.commitIndex ∧
        n'.kvStore =
          replayLog n.kvStore ((n.log.take n'.commitIndex.toNat).drop n.lastApplied.toNat)) ∧
      CommitOnly n n' ∧
      ∀ m : IndexMap Id, m.entries.Perm n.matchIndex.entries →
        updateCommitIndex.run (n.withMatchIndex m) = .ok () (n'.withMatchIndex m) := by
  have hrun := run_updateCommitIndex h h0 (h0.trans ha)
  have hcases := commitUpdated_advances ha
  refine ⟨_, hrun, ?_, ?_, ?_, commitOnly_commitUpdated n, ?_⟩
  · intro hnone
    apply commitScan_of_not_canCommit
    intro i hi hi' hcan
    exact hnone i ((committable_iff hr i).mpr ⟨by omega, by omega, hcan⟩)
  · rintro ⟨i, hi⟩
    have hge : ∀ i, n.Committable i → i ≤ n.commitUpdated.commitIndex := by
      intro i hi
      obtain ⟨-, hlen, hcan⟩ := (committable_iff hr i).mp hi
      exact le_commitIndex_commitUpdated n hlen hcan
    refine ⟨?_, hge⟩
    have hlt : n.commitIndex < n.commitUpdated.commitIndex := hi.1.trans_le (hge i hi)
    have hle := commitIndex_commitUpdated_le n
    rcases hcases with hsame | hadv
    · rw [hsame] at hlt
      exact absurd hlt (lt_irrefl _)
    · exact (committable_iff hr _).mpr ⟨hlt, by omega, hadv.canCommit⟩
  · intro hne
    rcases hcases with hsame | hadv
    · exact absurd (congrArg RaftNode.commitIndex hsame) hne
    · exact ⟨hadv.applied_eq, hadv.kvStore_eq⟩
  · intro m hperm
    have hrun' : updateCommitIndex.run (n.withMatchIndex m)
        = .ok () (n.withMatchIndex m).commitUpdated := by
      exact run_updateCommitIndex h h0 (h0.trans ha)
    rw [hrun']
    exact congrArg (EStateM.Result.ok ()) (commitScan_withMatchIndex hperm _ _)

/-- A leader of term 2 with four peers, of which two are recorded at index 2. -/
def halfWay : RaftNode ℕ :=
  ((fresh 0 [1, 2, 3, 4]).after
    [.appendEntries ⟨1, 2, 0, 0, [⟨1, "a", "1"⟩, ⟨2, "b", "1"⟩, ⟨2, "c", "1"⟩], 0⟩,
      .becomeLeader]).withMatchIndex ((((∅ : IndexMap ℕ).insert 1 3).insert 2 2).insert 3 0)

theorem updateCommitIndex_halfWay :
    ∃ n', updateCommitIndex.run halfWay = .ok () n' ∧
      IsGreatest {i | halfWay.Committable i} n'.commitIndex ∧ n'.commitIndex = 2 ∧
      n'.lastApplied = 2 := by
  have hsane := (sane_fresh 0 [1, 2, 3, 4]).after
    [.appendEntries ⟨1, 2, 0, 0, [⟨1, "a", "1"⟩, ⟨2, "b", "1"⟩, ⟨2, "c", "1"⟩], 0⟩,
      .becomeLeader]
  have hr : halfWay.RecordsPeers := by
    intro f hf
    have hkeys : halfWay.matchIndex.keys = [3, 2, 1] := by decide +kernel
    have hpeers : halfWay.peers = [1, 2, 3, 4] := by decide +kernel
    have hsub : ∀ f ∈ [3, 2, 1], f ∈ [1, 2, 3, 4] := by decide
    rw [AList.mem_keys, hkeys] at hf
    rw [hpeers]
    exact hsub f hf
  have htwo : halfWay.Committable 2 := by decide +kernel
  obtain ⟨n', hrun, -, hgreatest, happlied, -⟩ := updateCommitIndex_rule halfWay hsane.healthy
    (by decide +kernel) (by decide +kernel) (by decide +kernel) hr
  obtain ⟨hmem, hmax⟩ := hgreatest ⟨2, htwo⟩
  have hcommit : n'.commitIndex = 2 := by
    have hle : n'.commitIndex ≤ 3 := hmem.2.1
    have hge : 2 ≤ n'.commitIndex := hmax htwo
    have hthree : ¬ halfWay.Committable 3 := by decide +kernel
    have hne : n'.commitIndex ≠ 3 := fun heq => hthree (heq ▸ hmem)
    omega
  have hzero : halfWay.commitIndex = 0 := by decide +kernel
  exact ⟨n', hrun, ⟨hmem, hmax⟩, hcommit, (happlied (by omega)).1.trans hcommit⟩

end RaftNode

end KVStore
