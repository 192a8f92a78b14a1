/-
# Crashes while entries are applied

`applyCommittedEntries` writes the table entry by entry and records `lastApplied`
once at the end.  A process that dies in between leaves a table that is ahead of
`lastApplied`, and the next process applies the same entries again on top of it.

`Recoverable` : applying the entries after `lastApplied` on top of the table gives
the replay of all committed entries.  It holds at every moment, because the last
writer of each key is among the entries applied again (`Replay.replay_of_subset`).
A run of crashes and restarts therefore ends where the run without crashes does
(`ApplyStep.recovery_converges`).
-/
import KVStore.Regime

namespace KVStore

open Exec RaftNode

/-! ## Replaying the log -/

/-- The table after the log entries `1..i`. -/
def Durable.replayed (d : Durable) (i : ℕ) : String → Option String :=
  replayLog (fun _ => none) (d.log.take i)

namespace Durable

variable {d : Durable}

/-- A replay can be taken up where it stopped. -/
theorem replayed_extend {i j : ℕ} (h : i ≤ j) :
    replayLog (d.replayed i) ((d.log.take j).drop i) = d.replayed j :=
  Replay.replay_take_extend _ _ _ _ h

/-- Two logs that agree up to `c` have the same prefixes below it. -/
theorem take_of_agree {l l' : List LogEntry} {c i : ℕ} (h : l.take c = l'.take c) (hi : i ≤ c) :
    l.take i = l'.take i := by
  have hcut := congrArg (List.take i) h
  rwa [List.take_take, List.take_take, Nat.min_eq_left hi] at hcut

/-- A shorter stretch of the log is part of a longer one. -/
theorem stretch_subset (a : ℕ) {i j : ℕ} (h : i ≤ j) :
    (d.log.take i).drop a ⊆ (d.log.take j).drop a :=
  ((List.take_prefix_take_left h).sublist.drop a).subset

end Durable

/-- Applying what is committed brings the table to the replay of the committed
entries. -/
structure Recoverable (d : Durable) : Prop where
  nonneg : 0 ≤ d.lastApplied
  applied_le : d.lastApplied ≤ d.commitIndex
  bounded : d.commitIndex ≤ d.log.length
  replays : replayLog d.kvStore ((d.log.take d.commitIndex.toNat).drop d.lastApplied.toNat)
    = d.replayed d.commitIndex.toNat

namespace Recoverable

variable {d : Durable}

/-- The log past the commit index is of no matter. -/
theorem relog (h : Recoverable d) {l : List LogEntry}
    (hl : l.take d.commitIndex.toNat = d.log.take d.commitIndex.toNat)
    (hlen : d.commitIndex ≤ l.length) : Recoverable { d with log := l } where
  nonneg := h.nonneg
  applied_le := h.applied_le
  bounded := hlen
  replays := by
    have hrep := h.replays
    unfold Durable.replayed at hrep ⊢
    rw [← hl] at hrep
    exact hrep

/-- The commit index may grow within the log. -/
theorem commit (h : Recoverable d) {x : ℤ} (hge : d.commitIndex ≤ x) (hle : x ≤ d.log.length) :
    Recoverable { d with commitIndex := x } where
  nonneg := h.nonneg
  applied_le := h.applied_le.trans hge
  bounded := hle
  replays := by
    have hnn := h.nonneg
    have hal := h.applied_le
    calc replayLog d.kvStore ((d.log.take x.toNat).drop d.lastApplied.toNat)
        = replayLog (replayLog d.kvStore
            ((d.log.take d.commitIndex.toNat).drop d.lastApplied.toNat))
            ((d.log.take x.toNat).drop d.commitIndex.toNat) :=
          (Replay.replay_stretch _ _ _ _ (by omega) (by omega)).symm
      _ = d.replayed x.toNat := by
          rw [h.replays]
          exact Durable.replayed_extend (by omega)

/-- **A loop that was cut after any entry can be run again.** -/
theorem upTo (h : Recoverable d) {i : ℕ} (hi : (i : ℤ) ≤ d.commitIndex) :
    Recoverable (d.upTo i) where
  nonneg := h.nonneg
  applied_le := h.applied_le
  bounded := h.bounded
  replays := by
    have hsub := Durable.stretch_subset (d := d) d.lastApplied.toNat
      (show i ≤ d.commitIndex.toNat by omega)
    exact (Replay.replay_of_subset _ _ _ hsub).trans h.replays

/-- A loop that runs to its end leaves the replay of the committed entries. -/
theorem kvStore_applied (h : Recoverable d) :
    d.applied.kvStore = d.replayed d.commitIndex.toNat := h.replays

/-- Once everything committed is applied, the two indices agree. -/
theorem lastApplied_applied (h : Recoverable d) : d.applied.lastApplied = d.commitIndex :=
  max_eq_right h.applied_le

/-- Applying everything committed keeps the table recoverable. -/
theorem applied (h : Recoverable d) : Recoverable d.applied where
  nonneg := by
    rw [h.lastApplied_applied]
    exact h.nonneg.trans h.applied_le
  applied_le := le_of_eq h.lastApplied_applied
  bounded := h.bounded
  replays := by
    have hnil : (d.log.take d.commitIndex.toNat).drop d.commitIndex.toNat = [] := by
      rw [List.drop_eq_nil_iff, List.length_take]
      omega
    show replayLog d.applied.kvStore ((d.log.take d.commitIndex.toNat).drop
      d.applied.lastApplied.toNat) = d.replayed d.commitIndex.toNat
    rw [h.lastApplied_applied, hnil]
    exact h.kvStore_applied

end Recoverable

/-! ## Outcomes without failures -/

/-- No statement fails; the process may die. -/
def Faultless (l : List Outcome) : Prop := .fails ∉ l

/-- What follows a statement is as faultless. -/
theorem Faultless.tail {l : List Outcome} (h : Faultless l) : Faultless l.tail :=
  fun hc => h (List.mem_of_mem_tail hc)

/-- Without failures every statement is spared. -/
theorem Faultless.spared {l : List Outcome} (h : Faultless l) (k : ℕ) : Spared k l :=
  fun hc => h (List.mem_of_mem_take hc)

/-- The next statement does not fail. -/
theorem Faultless.head {l : List Outcome} (h : Faultless l) : l.head? ≠ some .fails :=
  (h.spared 1).head

/-- The process dies after `k` statements. -/
theorem faultless_dying (k : ℕ) : Faultless (List.replicate k .succeeds ++ [.crashes]) := by
  unfold Faultless
  rw [List.mem_append, List.mem_replicate]
  simp

variable {Id : Type} [DecidableEq Id]

/-! ## Crashes of `applyCommittedEntries` -/

/-- What happens to the database between two calls that apply entries, a call that
runs to its end, and one in which the process dies after `k` statements and is
restarted. -/
inductive ApplyStep : Type where
  | appendLogEntry (entry : LogEntry)
  | deleteLogEntriesFrom (index : ℤ)
  | setCommitIndex (commitIndex : ℤ)
  | applies
  | dies (k : ℕ)
  deriving DecidableEq

namespace ApplyStep

def step (n : RaftNode Id) : ApplyStep → RaftNode Id
  | appendLogEntry entry =>
      finalState (onStorage (SQLiteStorage.appendLogEntry entry)) (n.facing [])
  | deleteLogEntriesFrom index =>
      finalState (onStorage (SQLiteStorage.deleteLogEntriesFrom index)) (n.facing [])
  | setCommitIndex commitIndex =>
      finalState (onStorage (SQLiteStorage.setCommitIndex commitIndex)) (n.facing [])
  | applies => finalState applyCommittedEntries (n.facing [])
  | dies k =>
      (finalState applyCommittedEntries
        (n.facing (List.replicate k .succeeds ++ [.crashes]))).restart

/-- Committed entries are not altered, and the commit index grows within the log. -/
def Allowed (n : RaftNode Id) : ApplyStep → Prop
  | deleteLogEntriesFrom index => n.commitIndex < index
  | setCommitIndex commitIndex =>
      n.commitIndex ≤ commitIndex ∧ commitIndex ≤ n.log.length
  | _ => True

instance (n : RaftNode Id) : ∀ a, Decidable (Allowed n a)
  | deleteLogEntriesFrom _ => inferInstanceAs (Decidable (_ < _))
  | setCommitIndex _ => inferInstanceAs (Decidable (_ ∧ _))
  | appendLogEntry _ | applies | dies _ => inferInstanceAs (Decidable True)

/-- The steps of a run that are no crash. -/
def undisturbed (as : List ApplyStep) : List ApplyStep :=
  as.filter fun
    | dies _ => false
    | _ => true

variable {n m : RaftNode Id}

omit [DecidableEq Id] in
/-- Wherever the process dies, and also if it does not. -/
theorem recoverable_apply (h : Recoverable n.durable) (outcomes : List Outcome)
    (hout : Faultless outcomes) :
    let n' := finalState applyCommittedEntries (n.facing outcomes)
    Recoverable n'.durable ∧ n'.log = n.log ∧ n'.commitIndex = n.commitIndex := by
  have hal := h.applied_le
  let T := fun n' : RaftNode Id =>
    Recoverable n'.durable ∧ n'.log = n.log ∧ n'.commitIndex = n.commitIndex
  have htriple : Triple (fun n' : RaftNode Id => n'.durable = n.durable ∧ Faultless n'.pending)
      applyCommittedEntries (fun _ => T) T := by
    refine (triple_applyCommittedEntries (d := n.durable) (p := Faultless) (F := fun _ => True)
      (E := T) (fun _ hl => hl.tail) (fun _ _ _ => trivial) ?_ h.nonneg h.bounded).conseq ?_ ?_
      fun _ hT => hT
    · rintro n' i - hi hd - - -
      refine ⟨?_, congrArg Durable.log hd, congrArg Durable.commitIndex hd⟩
      show Recoverable n'.durable
      rw [hd]
      exact h.upTo (by omega)
    · rintro n' ⟨hd, hfate⟩
      exact ⟨hd, hfate, hfate.spared _, trivial⟩
    · rintro _ n' ⟨hd, -⟩
      refine ⟨?_, congrArg Durable.log hd, congrArg Durable.commitIndex hd⟩
      rw [hd]
      exact h.applied
  exact htriple.finalState ⟨rfl, hout⟩

section Effects

variable (n)

/-- What an append leaves in the tables. -/
theorem durable_appends (entry : LogEntry) :
    (step n (appendLogEntry entry)).durable = { n.durable with log := n.log ++ [entry] } :=
  durable_appendLogEntry (n := n.facing []) entry

/-- What a truncation leaves in the tables. -/
theorem durable_deletes (index : ℤ) :
    (step n (deleteLogEntriesFrom index)).durable
      = { n.durable with log := n.log.take (index - 1).toNat } :=
  durable_deleteLogEntriesFrom (n := n.facing []) index

/-- What a commit leaves in the tables. -/
theorem durable_commits (c : ℤ) :
    (step n (setCommitIndex c)).durable = { n.durable with commitIndex := c } :=
  RaftNode.durable_setCommitIndex (n := n.facing []) c

end Effects

/-- **One step keeps the table recoverable.** -/
theorem recoverable_step (h : Recoverable n.durable) {a : ApplyStep} (ha : Allowed n a) :
    Recoverable (step n a).durable := by
  have hbound : n.commitIndex ≤ n.log.length := h.bounded
  cases a with
  | appendLogEntry entry =>
      rw [durable_appends]
      refine h.relog (List.take_append_of_le_length ?_) ?_
      · show n.commitIndex.toNat ≤ n.log.length
        omega
      · show n.commitIndex ≤ _
        rw [List.length_append]
        omega
  | deleteLogEntriesFrom index =>
      have hlt : n.commitIndex < index := ha
      rw [durable_deletes]
      refine h.relog ?_ ?_
      · show (n.log.take _).take n.commitIndex.toNat = n.log.take n.commitIndex.toNat
        rw [List.take_take, Nat.min_eq_left (by omega)]
      · show n.commitIndex ≤ _
        rw [List.length_take]
        omega
  | setCommitIndex c =>
      rw [durable_commits]
      exact h.commit ha.1 ha.2
  | applies => exact (recoverable_apply h [] (by simp [Faultless])).1
  | dies k =>
      show Recoverable (restart _).durable
      rw [Regime.durable_restart]
      exact (recoverable_apply h _ (faultless_dying k)).1

/-- Two nodes with the same log and commit index. -/
def Agree (n m : RaftNode Id) : Prop := n.log = m.log ∧ n.commitIndex = m.commitIndex

omit [DecidableEq Id] in
/-- What is allowed on a node is allowed on any that agrees with it. -/
theorem Agree.allowed (h : Agree n m) {a : ApplyStep} (ha : Allowed n a) : Allowed m a := by
  cases a with
  | deleteLogEntriesFrom index =>
      show m.commitIndex < index
      rw [← h.2]
      exact ha
  | setCommitIndex c =>
      show m.commitIndex ≤ c ∧ c ≤ m.log.length
      rw [← h.1, ← h.2]
      exact ha
  | appendLogEntry _ | applies | dies _ => trivial

/-- A step does the same to the log and the commit index of two nodes that agree. -/
theorem Agree.step (h : Agree n m) (hn : Recoverable n.durable) (hm : Recoverable m.durable)
    (a : ApplyStep) : Agree (step n a) (step m a) := by
  have hlog := h.1
  have hcommit := h.2
  have hfield : ∀ {d d' : Durable} {n' m' : RaftNode Id}, n'.durable = d → m'.durable = d' →
      d.log = d'.log → d.commitIndex = d'.commitIndex → Agree n' m' := by
    rintro _ _ n' m' rfl rfl h1 h2
    exact ⟨h1, h2⟩
  cases a with
  | appendLogEntry entry =>
      refine hfield (durable_appends n entry) (durable_appends m entry) ?_ hcommit
      show n.log ++ [entry] = m.log ++ [entry]
      rw [hlog]
  | deleteLogEntriesFrom index =>
      refine hfield (durable_deletes n index) (durable_deletes m index) ?_ hcommit
      show n.log.take _ = m.log.take _
      rw [hlog]
  | setCommitIndex c => exact hfield (durable_commits n c) (durable_commits m c) hlog rfl
  | applies =>
      have hn' := (recoverable_apply hn [] (by simp [Faultless])).2
      have hm' := (recoverable_apply hm [] (by simp [Faultless])).2
      exact ⟨hn'.1.trans (hlog.trans hm'.1.symm), hn'.2.trans (hcommit.trans hm'.2.symm)⟩
  | dies k =>
      have hn' := (recoverable_apply hn _ (faultless_dying k)).2
      have hm' := (recoverable_apply hm _ (faultless_dying k)).2
      refine hfield (Regime.durable_restart _) (Regime.durable_restart _) ?_ ?_
      · exact hn'.1.trans (hlog.trans hm'.1.symm)
      · exact hn'.2.trans (hcommit.trans hm'.2.symm)

/-- A crash changes neither the log nor the commit index. -/
theorem agree_dies (hn : Recoverable n.durable) (k : ℕ) : Agree (step n (dies k)) n := by
  obtain ⟨-, hlog, hcommit⟩ := recoverable_apply hn _ (faultless_dying k)
  have hd := Regime.durable_restart (finalState applyCommittedEntries
    (n.facing (List.replicate k .succeeds ++ [.crashes])))
  exact ⟨(congrArg Durable.log hd).trans hlog, (congrArg Durable.commitIndex hd).trans hcommit⟩

/-- A run and the same run without its crashes. -/
theorem agree_run (as : List ApplyStep) : ∀ n m : RaftNode Id, Recoverable n.durable →
    Recoverable m.durable → Agree n m → Run.Along step Allowed n as →
    Recoverable (Run.run step n as).durable ∧
      Recoverable (Run.run step m (undisturbed as)).durable ∧
      Agree (Run.run step n as) (Run.run step m (undisturbed as)) := by
  induction as with
  | nil => exact fun n m hn hm h _ => ⟨hn, hm, h⟩
  | cons a as ih =>
      rintro n m hn hm h ⟨ha, has⟩
      have hn' := recoverable_step hn ha
      by_cases hdies : ∃ k, a = dies k
      · obtain ⟨k, rfl⟩ := hdies
        have hagree := agree_dies hn k
        exact ih _ m hn' hm ⟨hagree.1.trans h.1, hagree.2.trans h.2⟩ has
      · have hkeep : undisturbed (a :: as) = a :: undisturbed as := by
          unfold undisturbed
          rw [List.filter_cons_of_pos]
          cases a <;> simp_all
        rw [hkeep]
        exact ih _ _ hn' (recoverable_step hm (h.allowed ha)) (h.step hn hm a) has

omit [DecidableEq Id] in
/-- A call that runs to its end, on a recoverable table. -/
theorem run_applies (h : Recoverable n.durable) :
    ∃ n', applyCommittedEntries.run (n.facing []) = .ok () n' ∧ n'.log = n.log ∧
      n'.commitIndex = n.commitIndex ∧ n'.lastApplied = n.commitIndex ∧
      n'.kvStore = n.durable.replayed n.commitIndex.toNat := by
  refine ⟨(n.facing []).applied,
    run_applyCommittedEntries (n := n.facing []) rfl h.nonneg h.bounded, rfl, ?_, ?_, ?_⟩
  · simp only [applied, commitIndex_setStorage, SQLiteStorage.commitIndex_withLastApplied]
    rfl
  · simp only [applied, lastApplied_setStorage, SQLiteStorage.lastApplied_withLastApplied]
    exact h.lastApplied_applied
  · exact h.kvStore_applied

/-- **Recovery converges**: after any crashes, the first call that runs to its end
leaves everything committed applied, as a run without crashes does. -/
theorem recovery_converges (nodeId : Id) (peerIds : List Id) (as : List ApplyStep)
    (has : Run.Along step Allowed (fresh nodeId peerIds) as) :
    let n := Run.run step (fresh nodeId peerIds) as
    let m := Run.run step (fresh nodeId peerIds) (undisturbed as)
    ∃ n' m', applyCommittedEntries.run (n.facing []) = .ok () n' ∧
      applyCommittedEntries.run (m.facing []) = .ok () m' ∧
      n'.log = n.log ∧ n'.commitIndex = n.commitIndex ∧ n'.lastApplied = n'.commitIndex ∧
      n'.kvStore = n'.durable.replayed n'.commitIndex.toNat ∧ n'.durable = m'.durable := by
  intro n m
  have hfresh : Recoverable (fresh nodeId peerIds).durable := ⟨le_rfl, le_rfl, le_rfl, rfl⟩
  obtain ⟨hn, hm, hlog, hcommit⟩ := agree_run as _ _ hfresh hfresh ⟨rfl, rfl⟩ has
  obtain ⟨n', hrun, hlog', hcommit', happlied', hkv'⟩ := run_applies hn
  obtain ⟨m', hrunm, hlogm, hcommitm, happliedm, hkvm⟩ := run_applies hm
  have hreplay : ∀ {d d' : Durable} (i : ℕ), d.log = d'.log → d.replayed i = d'.replayed i :=
    fun i h => by rw [Durable.replayed, h]; rfl
  refine ⟨n', m', hrun, hrunm, hlog', hcommit', happlied'.trans hcommit'.symm, ?_, ?_⟩
  · rw [hkv', hcommit']
    exact hreplay _ hlog'.symm
  · apply Durable.ext
    · exact hlog'.trans (hlog.trans hlogm.symm)
    · exact hcommit'.trans (hcommit.trans hcommitm.symm)
    · exact happlied'.trans (hcommit.trans happliedm.symm)
    · show n'.kvStore = m'.kvStore
      rw [hkv', hkvm, hcommit]
      exact hreplay _ hlog

/-- The process dies twice, with the table ahead of `lastApplied` by different
amounts, and the commit index grows in between. -/
def twiceDying : List ApplyStep :=
  [appendLogEntry ⟨1, "x", "1"⟩, appendLogEntry ⟨1, "x", "2"⟩, setCommitIndex 2, dies 6,
    appendLogEntry ⟨1, "y", "1"⟩, setCommitIndex 3, dies 4]

/-- The first `applyCommittedEntries` that is not cut short puts the table right. -/
theorem recovery_converges_twiceDying :
    Run.Along step Allowed (fresh 0 [1, 2]) twiceDying ∧
      ∃ n', applyCommittedEntries.run
          ((Run.run step (fresh 0 [1, 2]) twiceDying).facing []) = .ok () n' ∧
        n'.lastApplied = n'.commitIndex ∧
        n'.kvStore = n'.durable.replayed n'.commitIndex.toNat := by
  have hallowed : Run.Along step Allowed (fresh 0 [1, 2]) twiceDying := by decide +kernel
  obtain ⟨n', _, hrun, -, -, -, happlied, hkv, -⟩ := recovery_converges 0 [1, 2] twiceDying hallowed
  exact ⟨hallowed, n', hrun, happlied, hkv⟩

end ApplyStep

end KVStore
