/-
# `appendEntries` computes the log merge

A call whose term is not stale answers `false` and keeps the log when the log
has no entry of term `prevLogTerm` at `prevLogIndex`.  Otherwise it keeps the
longest stretch of its own log whose terms agree with the entries of the call
and, if entries are left over, replaces everything after that stretch by them.

Two consequences for calls of any shape: which of them commit entries beyond
those they cover (`commits_covered_iff`), and which of them throw instead of
answering (`clean_iff`).
-/
import KVStore.Events

namespace KVStore

open Splice

namespace Merge

variable {Id : Type} {n : RaftNode Id}

/-- The log has no entry of term `prevLogTerm` at `prevLogIndex`. -/
def Refused (l : List LogEntry) (prevLogIndex prevLogTerm : ℤ) : Prop :=
  prevLogIndex > l.length ∨
    (prevLogIndex > 0 ∧
      (SQLiteStorage.entryAt l prevLogIndex).map LogEntry.term ≠ some prevLogTerm)

theorem mismatch_eq_true_iff {l : List LogEntry} {i t : ℤ} :
    RaftNode.mismatch l i t = true ↔ Refused l i t := by
  unfold RaftNode.mismatch Refused
  rw [Bool.or_eq_true, Bool.and_eq_true, decide_eq_true_iff, decide_eq_true_iff,
    decide_eq_true_iff]

/-- The terms of `es` agree with those of `l` after `prevLogIndex` for the first
`k` entries. -/
abbrev TermsAgree (l : List LogEntry) (prevLogIndex : ℤ) (es : List LogEntry) (k : ℕ) : Prop :=
  Agrees LogEntry.term l prevLogIndex.toNat es k

/-- The log of a node after the merge part of an accepted call. -/
theorem log_merged_eq {req : AppendEntriesRequest Id}
    (hle : req.prevLogIndex ≤ n.log.length) :
    ∃ k, IsGreatest {k | TermsAgree n.log req.prevLogIndex req.entries k} k ∧
      ((n.observed req.term).merged req).log =
        if k = req.entries.length then n.log
        else n.log.take (req.prevLogIndex.toNat + k) ++ req.entries.drop k := by
  refine ⟨_, isGreatest_matchLen LogEntry.term n.log req.prevLogIndex.toNat req.entries, ?_⟩
  rw [RaftNode.log_merged, RaftNode.log_observed]
  exact splice_eq _ _ _ _ (by omega)

/-- **`appendEntries` computes the Raft log merge.** -/
theorem appendEntries_merges (h : n.Healthy) (ha : 0 ≤ n.lastApplied)
    (req : AppendEntriesRequest Id) (hterm : n.state.currentTerm ≤ req.term)
    (hprev : 0 ≤ req.prevLogIndex) :
    (Refused n.log req.prevLogIndex req.prevLogTerm →
      ∃ n', (RaftNode.appendEntries req).run n = .ok false n' ∧ n'.log = n.log) ∧
    (¬ Refused n.log req.prevLogIndex req.prevLogTerm →
      ∃ n' k, (RaftNode.appendEntries req).run n = .ok true n' ∧
        IsGreatest {k | TermsAgree n.log req.prevLogIndex req.entries k} k ∧
        n'.log =
          if k = req.entries.length then n.log
          else n.log.take (req.prevLogIndex.toNat + k) ++ req.entries.drop k) := by
  constructor
  · intro href
    refine ⟨n.observed req.term, ?_, RaftNode.log_observed _⟩
    exact RaftNode.run_appendEntries_of_mismatch h ha (not_lt.mpr hterm)
      (mismatch_eq_true_iff.mpr href)
  · intro href
    have hmis : RaftNode.mismatch n.log req.prevLogIndex req.prevLogTerm = false :=
      Bool.eq_false_iff.mpr fun hm => href (mismatch_eq_true_iff.mp hm)
    have hle : req.prevLogIndex ≤ n.log.length := by
      by_contra hlt
      exact href (Or.inl (not_le.mp hlt))
    obtain ⟨k, hk, hlog⟩ := log_merged_eq hle
    exact ⟨_, k, RaftNode.run_appendEntries_of_accept h ha (not_lt.mpr hterm) hmis hprev, hk,
      hlog⟩

/-- A node of term 2 that holds three entries. -/
def holder : RaftNode ℕ :=
  (RaftNode.fresh 0 [1, 2]).after
    [.appendEntries ⟨1, 2, 0, 0, [⟨1, "a", "1"⟩, ⟨1, "b", "1"⟩, ⟨2, "c", "1"⟩], 0⟩]

theorem sane_holder : holder.Sane := (RaftNode.sane_fresh 0 [1, 2]).after _

/-- A call that overlaps the second of them and conflicts with the third. -/
def overlap : AppendEntriesRequest ℕ :=
  ⟨2, 3, 1, 1, [⟨1, "b", "1"⟩, ⟨3, "c", "2"⟩, ⟨3, "d", "1"⟩], 0⟩

theorem appendEntries_merges_overlap :
    ¬ Refused holder.log overlap.prevLogIndex overlap.prevLogTerm ∧
      ∃ n' k, (RaftNode.appendEntries overlap).run holder = .ok true n' ∧
        IsGreatest {k | TermsAgree holder.log overlap.prevLogIndex overlap.entries k} k ∧
        n'.log =
          if k = overlap.entries.length then holder.log
          else holder.log.take (overlap.prevLogIndex.toNat + k) ++ overlap.entries.drop k := by
  have hsane := sane_holder
  have href : ¬ Refused holder.log overlap.prevLogIndex overlap.prevLogTerm := by
    rw [← mismatch_eq_true_iff]
    decide +kernel
  exact ⟨href, (appendEntries_merges hsane.healthy hsane.lastApplied_nonneg overlap
    (by decide +kernel) (by decide)).2 href⟩

/-! ## What a call commits -/

/-- The length of the log after an accepted call: entries beyond the covered ones
stay exactly when the call brings nothing new. -/
theorem length_merged {req : AppendEntriesRequest Id} (hacc : n.accepts req = true) :
    (((n.observed req.term).merged req).log.length : ℤ) =
      if TermsAgree n.log req.prevLogIndex req.entries req.entries.length then
        (n.log.length : ℤ)
      else req.covers := by
  obtain ⟨-, hmis, hneg⟩ := (RaftNode.accepts_iff req).mp hacc
  have hprev := RaftNode.prevLogIndex_le_of_accepts hacc
  have hbound : req.prevLogIndex ≤ n.log.length := by omega
  obtain ⟨k, ⟨hk, hmax⟩, hlog⟩ := log_merged_eq hbound
  have hle : k ≤ req.entries.length := hk.1
  rw [hlog]
  by_cases hall : k = req.entries.length
  · rw [if_pos hall, if_pos (hall ▸ hk)]
  · have hnot : ¬ TermsAgree n.log req.prevLogIndex req.entries req.entries.length := by
      intro hagree
      exact hall (le_antisymm hle (hmax hagree))
    rw [if_neg hall, if_neg hnot]
    -- there are entries, so the index before them is not negative
    have hpos : 0 ≤ req.prevLogIndex := by
      by_contra hlt
      refine hneg ⟨not_le.mp hlt, ?_⟩
      rintro hnil
      rw [hnil] at hle hall
      exact hall (Nat.le_zero.mp hle)
    have hin := hk.add_le hprev
    rw [List.length_append, List.length_take, List.length_drop, Nat.min_eq_left hin,
      AppendEntriesRequest.covers]
    omega

/-- **A call commits at most what it covers exactly when** the leader has committed
no more, or the node holds no more, or an entry of the call replaces one of the
node's. -/
theorem commits_covered_iff (h : n.Healthy) (ha : 0 ≤ n.lastApplied)
    (req : AppendEntriesRequest Id) {n' : RaftNode Id}
    (hrun : (RaftNode.appendEntries req).run n = .ok true n') :
    (n'.commitIndex ≤ max n.commitIndex req.covers ∧
        n'.lastApplied ≤ max n.lastApplied (max n.commitIndex req.covers)) ↔
      (req.leaderCommit ≤ max n.commitIndex req.covers ∨
        (n.log.length : ℤ) ≤ max n.commitIndex req.covers ∨
        ¬ TermsAgree n.log req.prevLogIndex req.entries req.entries.length) := by
  obtain ⟨hacc, rfl⟩ := (RaftNode.run_appendEntries_eq_true h ha req).mp hrun
  have hlen := length_merged hacc
  have hcommit := RaftNode.commitIndex_merged (n := n.observed req.term) req
  have happlied := RaftNode.lastApplied_merged (n := n.observed req.term) req
  rw [RaftNode.commitIndex_observed] at hcommit happlied
  rw [RaftNode.lastApplied_observed] at happlied
  by_cases hagree : TermsAgree n.log req.prevLogIndex req.entries req.entries.length
  · rw [if_pos hagree] at hlen
    simp only [hagree, not_true_eq_false, or_false]
    split_ifs at hcommit happlied <;> omega
  · rw [if_neg hagree] at hlen
    simp only [hagree, not_false_eq_true, or_true, iff_true]
    split_ifs at hcommit happlied <;> omega

/-- A node that holds an entry of term 1 that the leader of term 2 does not have. -/
def leftover : RaftNode ℕ :=
  (RaftNode.fresh 0 [1, 2]).after
    [.appendEntries ⟨1, 1, 0, 0, [⟨1, "a", "1"⟩, ⟨1, "b", "1"⟩], 0⟩]

/-- The leader of term 2 has committed two entries of its own and sends the first. -/
def firstOnly : AppendEntriesRequest ℕ := ⟨2, 2, 0, 0, [⟨1, "a", "1"⟩], 2⟩

theorem commits_leftover :
    ∃ n', (RaftNode.appendEntries firstOnly).run leftover = .ok true n' ∧
      ¬ n'.commitIndex ≤ max leftover.commitIndex firstOnly.covers := by
  have hsane : leftover.Sane := (RaftNode.sane_fresh 0 [1, 2]).after _
  have hrun := (RaftNode.run_appendEntries_eq_true hsane.healthy hsane.lastApplied_nonneg
    firstOnly).mpr ⟨by decide +kernel, rfl⟩
  exact ⟨_, hrun, by decide +kernel⟩

/-- The overlapping call of a leader that has committed three entries. -/
def overlapCommitted : AppendEntriesRequest ℕ := { overlap with leaderCommit := 3 }

/-- It raises the commit index, to no more than it covers. -/
theorem commits_covered_overlap :
    ∃ n', (RaftNode.appendEntries overlapCommitted).run holder = .ok true n' ∧
      holder.commitIndex < n'.commitIndex ∧
      n'.commitIndex ≤ max holder.commitIndex overlapCommitted.covers ∧
      n'.lastApplied
        ≤ max holder.lastApplied (max holder.commitIndex overlapCommitted.covers) := by
  have hsane := sane_holder
  have hrun := (RaftNode.run_appendEntries_eq_true hsane.healthy hsane.lastApplied_nonneg
    overlapCommitted).mpr ⟨by decide +kernel, rfl⟩
  refine ⟨_, hrun, by decide +kernel, ?_⟩
  exact (commits_covered_iff hsane.healthy hsane.lastApplied_nonneg overlapCommitted hrun).mpr
    (Or.inl (by decide +kernel))

/-! ## Malformed calls -/

/-- A call returns, and one that answers `false` changes nothing that is stored. -/
def Clean (n : RaftNode Id) (req : AppendEntriesRequest Id) : Prop :=
  (∃ b n', (RaftNode.appendEntries req).run n = .ok b n') ∧
    ∀ n', (RaftNode.appendEntries req).run n = .ok false n' →
      n'.log = n.log ∧ n'.commitIndex = n.commitIndex ∧ n'.lastApplied = n.lastApplied ∧
        n'.kvStore = n.kvStore

/-- **A call is refused cleanly or taken exactly when** it is stale, or has no
entries, or does not place them below index `1`. -/
theorem clean_iff (h : n.Healthy) (ha : 0 ≤ n.lastApplied) (req : AppendEntriesRequest Id) :
    Clean n req ↔
      req.term < n.state.currentTerm ∨ req.entries = [] ∨ 0 ≤ req.prevLogIndex := by
  unfold Clean
  rw [RaftNode.run_appendEntries h ha]
  by_cases hstale : req.term < n.state.currentTerm
  · simp [hstale]
  · rw [if_neg hstale]
    by_cases hmis : RaftNode.mismatch n.log req.prevLogIndex req.prevLogTerm = true
    · -- only an index above the end or a positive one is refused
      have hprev : 0 ≤ req.prevLogIndex := by
        rcases mismatch_eq_true_iff.mp hmis with hlong | ⟨hpos, -⟩
        · omega
        · exact le_of_lt hpos
      rw [if_pos hmis]
      refine ⟨fun _ => Or.inr (Or.inr hprev), fun _ => ⟨⟨_, _, rfl⟩, ?_⟩⟩
      rintro n' ⟨⟩
      exact ⟨rfl, rfl, rfl, rfl⟩
    · rw [if_neg hmis]
      by_cases hneg : req.prevLogIndex < 0 ∧ req.entries ≠ []
      · rw [if_pos hneg]
        constructor
        · rintro ⟨⟨b, n', hrun⟩, -⟩
          cases hrun
        · rintro (hlt | hnil | hnn)
          · exact absurd hlt hstale
          · exact absurd hnil hneg.2
          · exact absurd hneg.1 (not_lt.mpr hnn)
      · rw [if_neg hneg]
        refine ⟨fun _ => ?_, fun _ => ⟨⟨_, _, rfl⟩, ?_⟩⟩
        · by_cases hnil : req.entries = []
          · exact Or.inr (Or.inl hnil)
          · exact Or.inr (Or.inr (not_lt.mp fun hlt => hneg ⟨hlt, hnil⟩))
        · rintro n' ⟨⟩

/-- A call whose only entry would go to index `0`. -/
def belowFirst : AppendEntriesRequest ℕ := ⟨2, 3, -1, 0, [⟨3, "a", "1"⟩], 0⟩

/-- The row of index `0` is `null`, and the loop asks for its term. -/
theorem belowFirst_throws :
    (RaftNode.appendEntries belowFirst).run holder
        = .error .nullPointerException (holder.observed 3) ∧
      ¬ Clean holder belowFirst := by
  have hsane := sane_holder
  have hrun : (RaftNode.appendEntries belowFirst).run holder
      = .error .nullPointerException (holder.observed 3) := by
    rw [RaftNode.run_appendEntries hsane.healthy hsane.lastApplied_nonneg,
      if_neg (by decide +kernel), if_neg (by decide +kernel), if_pos (by decide)]
    rfl
  refine ⟨hrun, fun hclean => ?_⟩
  obtain ⟨b, n', hok⟩ := hclean.1
  rw [hrun] at hok
  cases hok

theorem overlap_clean : Clean holder overlap := by
  have hsane := sane_holder
  exact (clean_iff hsane.healthy hsane.lastApplied_nonneg overlap).mpr
    (Or.inr (Or.inr (by decide)))

end Merge

end KVStore
