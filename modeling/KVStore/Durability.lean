/-
# What survives crashes

A process may die between any two statements of any call, and the next process
applies some entries again on top of a table that is ahead of `lastApplied`.  Seen
as a whole the table may then pass through states the log never went through.  Seen
key by key it does not, as long as the calls of the server come one after the other
(overlapping puts may apply their entries in another order):

* `Life.reads_key_state` : at every moment of every run, a get of a key answers with
  the value the key had after the log entries `1..j`, for some `j` between
  `lastApplied` and `commitIndex` (the `j` may differ from key to key);
* `Life.acknowledged_survives` : a put that was answered `true` stays in the log at
  its index, stays applied, and its key is never again read as absent or as
  something older.
-/
import KVStore.Interrupted
import KVStore.SingleNode

namespace KVStore

open Exec Role RaftNode

variable {Id : Type} [DecidableEq Id]

/-! ## One key of the table -/

/-- The key stands at the log entries `1..j`, for some `j` between `lastApplied` and
`commitIndex`. -/
def KeyState (d : Durable) (key : String) : Prop :=
  ∃ j : ℕ, d.lastApplied ≤ j ∧ (j : ℤ) ≤ d.commitIndex ∧ d.kvStore key = d.replayed j key

/-- Some entry after `lastApplied` up to `i` writes the key. -/
def Durable.Writes (d : Durable) (i : ℕ) (key : String) : Prop :=
  ∃ e ∈ (d.log.take i).drop d.lastApplied.toNat, e.key = key

namespace Durable

variable {d : Durable} {key : String} {i j : ℕ}

/-- A key that the loop does not write stays as it is. -/
theorem kvStore_upTo_of_not_writes (h : ¬ d.Writes i key) :
    (d.upTo i).kvStore key = d.kvStore key := by
  apply Replay.replay_of_notMem
  intro e he hk
  exact h ⟨e, he, hk⟩

/-- A key that the loop writes follows the log. -/
theorem kvStore_upTo_of_writes (hi : d.lastApplied.toNat ≤ i) (h : d.Writes i key) :
    (d.upTo i).kvStore key = d.replayed i key := by
  rw [← replayed_extend hi]
  exact Replay.replay_congr _ _ (Or.inl h)

/-- Between two indices after `lastApplied` the log does nothing to a key that no
entry writes. -/
theorem replayed_of_not_writes (hj : d.lastApplied.toNat ≤ j) (hji : j ≤ i)
    (h : ¬ d.Writes i key) : d.replayed i key = d.replayed j key := by
  rw [← replayed_extend hji]
  apply Replay.replay_of_notMem
  intro e he hk
  refine h ⟨e, ?_, hk⟩
  rw [show j = d.lastApplied.toNat + (j - d.lastApplied.toNat) by omega, ← List.drop_drop] at he
  exact List.mem_of_mem_drop he

end Durable

/-- Every key of the table stands at the log. -/
structure KeyWise (d : Durable) : Prop where
  nonneg : 0 ≤ d.lastApplied
  bounded : d.commitIndex ≤ d.log.length
  stands : ∀ key, KeyState d key

namespace KeyWise

variable {d : Durable}

/-- Nothing counts as applied that is not committed. -/
theorem applied_le (h : KeyWise d) : d.lastApplied ≤ d.commitIndex := by
  obtain ⟨j, hal, hle, -⟩ := h.stands ""
  exact hal.trans hle

/-- The log past the commit index is of no matter. -/
theorem relog (h : KeyWise d) {l : List LogEntry}
    (hl : l.take d.commitIndex.toNat = d.log.take d.commitIndex.toNat)
    (hlen : d.commitIndex ≤ l.length) : KeyWise { d with log := l } := by
  refine ⟨h.nonneg, hlen, fun key => ?_⟩
  obtain ⟨j, hal, hle, hkv⟩ := h.stands key
  refine ⟨j, hal, hle, ?_⟩
  show d.kvStore key = replayLog (fun _ => none) (l.take j) key
  rw [Durable.take_of_agree hl (by omega)]
  exact hkv

/-- The commit index may grow within the log. -/
theorem commit (h : KeyWise d) {x : ℤ} (hge : d.commitIndex ≤ x) (hle : x ≤ d.log.length) :
    KeyWise { d with commitIndex := x } := by
  refine ⟨h.nonneg, hle, fun key => ?_⟩
  obtain ⟨j, hal, hjc, hkv⟩ := h.stands key
  exact ⟨j, hal, hjc.trans hge, hkv⟩

/-- **A loop that is cut after any entry leaves every key at the log**: at the entry
it was cut after if it wrote the key, and where it was otherwise. -/
theorem upTo (h : KeyWise d) {i : ℕ} (hi : d.lastApplied.toNat ≤ i)
    (hic : (i : ℤ) ≤ d.commitIndex) : KeyWise (d.upTo i) := by
  refine ⟨h.nonneg, h.bounded, fun key => ?_⟩
  by_cases hw : d.Writes i key
  · refine ⟨i, ?_, hic, Durable.kvStore_upTo_of_writes hi hw⟩
    show d.lastApplied ≤ i
    omega
  · obtain ⟨j, hal, hle, hkv⟩ := h.stands key
    exact ⟨j, hal, hle, (Durable.kvStore_upTo_of_not_writes hw).trans hkv⟩

/-- A loop that runs to its end brings every key to the commit index. -/
theorem kvStore_applied (h : KeyWise d) (key : String) :
    d.applied.kvStore key = d.replayed d.commitIndex.toNat key := by
  have hnn := h.nonneg
  have hac := h.applied_le
  show (d.upTo d.commitIndex.toNat).kvStore key = _
  by_cases hw : d.Writes d.commitIndex.toNat key
  · exact Durable.kvStore_upTo_of_writes (by omega) hw
  · obtain ⟨j, hal, hle, hkv⟩ := h.stands key
    calc (d.upTo d.commitIndex.toNat).kvStore key
        = d.kvStore key := Durable.kvStore_upTo_of_not_writes hw
      _ = d.replayed j key := hkv
      _ = d.replayed d.commitIndex.toNat key :=
          (Durable.replayed_of_not_writes (by omega) (by omega) hw).symm

/-- Applying everything committed keeps the keys in place. -/
theorem applied (h : KeyWise d) : KeyWise d.applied := by
  have hnn := h.nonneg
  have hac := h.applied_le
  have hlast : d.applied.lastApplied = d.commitIndex := max_eq_right hac
  refine ⟨by rw [hlast]; omega, h.bounded, fun key => ?_⟩
  refine ⟨d.commitIndex.toNat, by rw [hlast]; omega, ?_, h.kvStore_applied key⟩
  show (d.commitIndex.toNat : ℤ) ≤ d.commitIndex
  omega

end KeyWise

/-- At every moment every key of the table stands at the log. -/
def keyWise : CrashInvariant where
  Inv := KeyWise
  Thrown := KeyWise
  thrown := fun _ h => h
  nonneg := fun _ h => h.nonneg
  bounded := fun _ h => h.bounded
  relog := fun _ _ h hl hlen => h.relog hl hlen
  midway := by
    intro d x h hge hle i hi hix
    exact (h.commit hge hle).upTo hi (hix.trans (max_le (h.applied_le.trans hge) le_rfl))
  complete := fun _ _ h hge hle => (h.commit hge hle).applied

/-! ## What is never undone -/

/-- What a moment keeps of an earlier one: neither index has fallen, and what was
committed is as it was. -/
structure Since (d₀ d : Durable) : Prop where
  recoverable : Recoverable d
  commitIndex_le : d₀.commitIndex ≤ d.commitIndex
  lastApplied_le : d₀.lastApplied ≤ d.lastApplied
  kept : d.log.take d₀.commitIndex.toNat = d₀.log.take d₀.commitIndex.toNat

namespace Since

variable {d₀ d : Durable}

/-- Nothing happened since. -/
theorem refl (h : Recoverable d) : Since d d := ⟨h, le_rfl, le_rfl, rfl⟩

/-- An entry that was committed at the earlier moment. -/
theorem getElem?_eq (h : Since d₀ d) {i : ℕ} (hi : (i : ℤ) < d₀.commitIndex) :
    d.log[i]? = d₀.log[i]? := by
  have hget := congrArg (fun l => l[i]?) h.kept
  simp only [List.getElem?_take] at hget
  rwa [if_pos (by omega), if_pos (by omega)] at hget

end Since

/-- What was committed or applied stays so, at every moment. -/
def since (d₀ : Durable) : CrashInvariant where
  Inv := Since d₀
  Thrown := Since d₀
  thrown := fun _ h => h
  nonneg := fun _ h => h.recoverable.nonneg
  bounded := fun _ h => h.recoverable.bounded
  relog := by
    intro d l h hl hlen
    refine ⟨h.recoverable.relog hl hlen, h.commitIndex_le, h.lastApplied_le, ?_⟩
    exact (Durable.take_of_agree hl (Int.toNat_le_toNat h.commitIndex_le)).trans h.kept
  midway := by
    intro d x h hge hle i _ hix
    have hix' := hix.trans (max_le (h.recoverable.applied_le.trans hge) le_rfl)
    exact ⟨(h.recoverable.commit hge hle).upTo hix', h.commitIndex_le.trans hge, h.lastApplied_le,
      h.kept⟩
  complete := by
    intro d x h hge hle
    refine ⟨(h.recoverable.commit hge hle).applied, h.commitIndex_le.trans hge, ?_, h.kept⟩
    exact h.lastApplied_le.trans (le_max_left _ _)

/-- A call that raises the commit index from `c` and is not cut applies what it
commits. -/
def raised (c : ℤ) : CrashInvariant where
  Inv := fun d => Recoverable d ∧ (d.commitIndex = c ∨ d.lastApplied = d.commitIndex)
  Thrown := Recoverable
  thrown := fun _ h => h.1
  nonneg := fun _ h => h.1.nonneg
  bounded := fun _ h => h.1.bounded
  relog := fun _ _ h hl hlen => ⟨h.1.relog hl hlen, h.2⟩
  midway := by
    intro d x h hge hle i _ hix
    exact (h.1.commit hge hle).upTo (hix.trans (max_le (h.1.applied_le.trans hge) le_rfl))
  complete := by
    intro d x h hge hle
    have hrec := h.1.commit hge hle
    exact ⟨hrec.applied, Or.inr hrec.lastApplied_applied⟩

/-- A proposal that only proceeds keeps its invariant. -/
theorem Proposal.Inv.proceeds {s : Proposal Id} (h : s.Inv) (k : ℕ) :
    (Run.run Proposal.step s (List.replicate k .proceed)).Inv := by
  induction k generalizing s with
  | zero => exact h
  | succ k ih =>
      rw [List.replicate_succ, Run.run_cons]
      exact ih h.proceed

namespace RaftNode

variable {n : RaftNode Id}

/-- What is committed can be applied, on every new node. -/
theorem recoverable_fresh (nodeId : Id) (peerIds : List Id) :
    Recoverable (fresh nodeId peerIds).durable := ⟨le_rfl, le_rfl, le_rfl, rfl⟩

/-- A node on a recoverable database, no statement of which fails. -/
theorem sane_facing (h : Recoverable n.durable) (haddr : n.Addressable) : (n.facing []).Sane :=
  ⟨rfl, h.nonneg, h.nonneg.trans h.applied_le, haddr⟩

/-- The answer of a put is that of its proposal. -/
theorem answer_put (key value : String) : n.answer (.put key value) =
    match (proposeEntry key value).run n with
    | .ok b _ => some (.put ⟨b⟩)
    | .error _ _ => none := by
  unfold answer
  rcases hrun : (proposeEntry key value).run n with ⟨b, n'⟩ | ⟨e, n'⟩
  · rw [run_put hrun]
  · have hput : (KVStoreServiceImpl.put key value).run n = .error e n' :=
      Exec.run_bind_error hrun
    have hthrown : (handle (.put key value)).run n = .error e n' := Exec.run_bind_error hput
    rw [hthrown]

/-- **A put that is answered `true`** has appended its entry, committed it and
applied everything committed. -/
theorem put_answered (h : Recoverable n.durable) (haddr : n.Addressable) {key value : String}
    (hack : (n.facing []).answer (.put key value) = some (.put ⟨true⟩)) :
    let n' := (n.facing []).step (.put key value)
    n'.log = n.log ++ [⟨n.state.currentTerm, key, value⟩] ∧
      (n.log.length : ℤ) + 1 ≤ n'.commitIndex ∧ n'.lastApplied = n'.commitIndex := by
  intro n'
  have hsane := sane_facing h haddr
  have hrole : (n.facing []).state.currentRole = LEADER := by
    by_contra hrole
    rw [answer, run_put_other hrole] at hack
    cases hack
  have hlog : n'.log = n.log ++ [⟨n.state.currentTerm, key, value⟩] := by
    show ((n.facing []).step (.put key value)).log = _
    rw [log_step hsane, logAfter, if_pos hrole]
    rfl
  -- the call is a proposal that nothing interrupts
  have hcommit : (n.log.length : ℤ) + 1 ≤ n'.commitIndex := by
    obtain ⟨n'', hrun⟩ : ∃ n'', (proposeEntry key value).run (n.facing []) = .ok true n'' := by
      rw [answer_put] at hack
      rcases hrun : (proposeEntry key value).run (n.facing []) with ⟨b, n''⟩ | ⟨e, n''⟩
      · rw [hrun] at hack
        obtain rfl : b = true := by simpa using hack
        exact ⟨n'', rfl⟩
      · rw [hrun] at hack
        cases hack
    have hinv := (Proposal.inv_start hsane key value).proceeds ((n.facing []).peers.length + 2)
    rw [Proposal.run_proceed hsane.healthy hrole, hrun] at hinv
    have hn' : n' = n'' := step_of_run (run_put hrun)
    rw [hn']
    rcases hinv.progress with hthrew | hdone | ⟨fs, hfs, -⟩
    · cases hthrew
    · exact hdone
    · cases hfs
  refine ⟨hlog, hcommit, ?_⟩
  have hbound := h.bounded
  have hspares : Regime.Spares n (.put key value) := trivial
  have hraised := (Life.inv_step (I := raised n.commitIndex) ⟨h, Or.inl rfl⟩ haddr hspares).1.2
  rcases hraised with hsame | happlied
  · have hsame' : n'.commitIndex = n.commitIndex := hsame
    rw [commitIndex_durable, log_durable] at hbound
    omega
  · exact happlied

end RaftNode

/-! ## Whole runs -/

namespace Life

variable {nodeId : Id} {peerIds : List Id} {as : List (Life Id)}

/-- An invariant that no cut breaks, at every moment of every run. -/
theorem thrown_after {I : CrashInvariant} (hI : ∀ d, I.Thrown d → I.Inv d) {n : RaftNode Id}
    (h : I.Inv n.durable) (haddr : n.Addressable) (has : Run.Along Life.step Spares n as) :
    I.Inv (Run.run Life.step n as).durable ∧ (Run.run Life.step n as).Addressable := by
  refine Run.along_invariant (P := fun n : RaftNode Id => I.Inv n.durable ∧ n.Addressable)
    ?_ ⟨h, haddr⟩ has
  rintro n a ⟨h, haddr⟩ hev
  cases a with
  | event ev => exact inv_step h haddr hev
  | dies ev k =>
      obtain ⟨hthrown, -⟩ := thrown_cutAt h haddr hev k
      show I.Inv (n.cutAt ev k).restart.durable ∧ (n.cutAt ev k).restart.Addressable
      rw [Regime.durable_restart]
      exact ⟨hI _ hthrown, Regime.addressable_restart _⟩
  | throws ev k =>
      obtain ⟨hthrown, haddr'⟩ := thrown_cutAt h haddr hev k
      exact ⟨hI _ hthrown, haddr'⟩

/-- A fresh node has nothing out of place. -/
theorem keyWise_fresh (nodeId : Id) (peerIds : List Id) :
    KeyWise (fresh nodeId peerIds).durable :=
  ⟨le_rfl, le_rfl, fun _ => ⟨0, le_rfl, le_rfl, rfl⟩⟩

/-- Every moment of every run. -/
theorem keyWise_cutAt (has : Run.Along Life.step Spares (fresh nodeId peerIds) as)
    {ev : Event Id} (hev : Regime.Spares (after nodeId peerIds as) ev) (k : ℕ) :
    KeyWise ((after nodeId peerIds as).cutAt ev k).durable ∧
      ((after nodeId peerIds as).cutAt ev k).Addressable := by
  obtain ⟨hinv, haddr⟩ := thrown_after (I := keyWise) (fun _ h => h)
    (keyWise_fresh nodeId peerIds) (Regime.addressable_fresh nodeId peerIds) has
  exact thrown_cutAt hinv haddr hev k

/-- **What a get answers is what the log said at some point** between `lastApplied`
and `commitIndex`: in every run whose calls come one after the other and alter no
committed entry, whatever call is under way and wherever earlier ones were cut. -/
theorem reads_key_state (nodeId : Id) (peerIds : List Id) (as : List (Life Id))
    (has : Run.Along Life.step Spares (fresh nodeId peerIds) as) (ev : Event Id)
    (hev : Regime.Spares (after nodeId peerIds as) ev) (k : ℕ) (key : String) :
    let n := (after nodeId peerIds as).cutAt ev k
    ∃ j : ℕ, n.lastApplied ≤ j ∧ (j : ℤ) ≤ n.commitIndex ∧
      (n.facing []).answer (.get key) = some (.get (getAnswer (n.durable.replayed j key))) := by
  intro n
  obtain ⟨h, haddr⟩ := keyWise_cutAt has hev k
  obtain ⟨j, hal, hle, hkv⟩ := h.stands key
  have hsane : (n.facing []).Sane :=
    ⟨rfl, h.nonneg, h.nonneg.trans h.applied_le, haddr⟩
  refine ⟨j, hal, hle, ?_⟩
  rw [answer, run_get hsane, ← hkv]
  rfl

/-- A get in the middle of the call after a crash, where the table as a whole is in no
state the log went through. -/
theorem reads_key_state_mixed :
    let n := (after 0 [1, 2] [dies rewriting 18]).cutAt heartbeat 9
    ∃ j : ℕ, n.lastApplied ≤ j ∧ (j : ℤ) ≤ n.commitIndex ∧
      (n.facing []).answer (.get "x") = some (.get (getAnswer (n.durable.replayed j "x"))) :=
  reads_key_state 0 [1, 2] [dies rewriting 18] (by decide +kernel) heartbeat (by decide +kernel)
    9 "x"

/-- **An acknowledged put is never lost.**  Once a put has been answered `true`, at
every later moment of every run whose calls come one after the other and alter no
committed entry, its entry is in the log at its index and applied, and the key holds
the value of an entry of the log at that index or a later one. -/
theorem acknowledged_survives (nodeId : Id) (peerIds : List Id) (pre post : List (Life Id))
    (key value : String)
    (has : Run.Along Life.step Spares (fresh nodeId peerIds)
      (pre ++ event (.put key value) :: post))
    (hack : ((after nodeId peerIds pre).facing []).answer (.put key value)
      = some (.put ⟨true⟩)) (ev : Event Id)
    (hev : Regime.Spares (after nodeId peerIds (pre ++ event (.put key value) :: post)) ev)
    (k : ℕ) :
    let n := after nodeId peerIds pre
    let d := ((after nodeId peerIds (pre ++ event (.put key value) :: post)).cutAt ev k).durable
    d.log[n.log.length]? = some ⟨n.state.currentTerm, key, value⟩ ∧
      (n.log.length : ℤ) + 1 ≤ d.lastApplied ∧
      ∃ i e, n.log.length ≤ i ∧ d.log[i]? = some e ∧ e.key = key ∧
        d.kvStore key = some e.value := by
  intro n d
  obtain ⟨hpre, hput, hpost⟩ := Run.along_append.mp has
  have hrun : after nodeId peerIds (pre ++ event (.put key value) :: post)
      = Run.run Life.step (Life.step n (event (.put key value))) post := by
    unfold after
    rw [Run.run_append, Run.run_cons]
    rfl
  -- the moment of the answer
  obtain ⟨hrec, haddr⟩ : Recoverable n.durable ∧ n.Addressable :=
    thrown_after (I := recoverable) (fun _ h => h) (recoverable_fresh nodeId peerIds)
      (Regime.addressable_fresh nodeId peerIds) hpre
  let n' := Life.step n (event (.put key value))
  obtain ⟨hlog, hcommit, happlied⟩ :
      n'.log = n.log ++ [(⟨n.state.currentTerm, key, value⟩ : LogEntry)] ∧
        (n.log.length : ℤ) + 1 ≤ n'.commitIndex ∧ n'.lastApplied = n'.commitIndex :=
    put_answered hrec haddr hack
  obtain ⟨hrec', haddr'⟩ : Recoverable n'.durable ∧ n'.Addressable :=
    inv_step (I := recoverable) hrec haddr hput
  -- and the moment in question
  have hsince : Since n'.durable d := by
    obtain ⟨hinv, hlater⟩ := thrown_after (I := since n'.durable) (n := n') (fun _ h => h)
      (Since.refl hrec') haddr' hpost
    rw [← hrun] at hinv hlater
    exact (thrown_cutAt hinv hlater hev k).1
  have hentry : d.log[n.log.length]? = some ⟨n.state.currentTerm, key, value⟩ := by
    have hlt : (n.log.length : ℤ) < n'.durable.commitIndex := by
      rw [commitIndex_durable]
      omega
    rw [hsince.getElem?_eq hlt, log_durable, hlog]
    exact List.getElem?_concat_length
  have hlast : (n.log.length : ℤ) + 1 ≤ d.lastApplied := by
    have hle : n'.lastApplied ≤ d.lastApplied := hsince.lastApplied_le
    omega
  refine ⟨hentry, hlast, ?_⟩
  have hkeys : KeyWise d := (keyWise_cutAt has hev k).1
  obtain ⟨j, hal, hle, hkv⟩ := hkeys.stands key
  have hj : n.log.length + 1 ≤ j := by omega
  -- the entry is among those the key stands at, so its last writer is there or later
  have hmem : (⟨n.state.currentTerm, key, value⟩ : LogEntry)
      ∈ (d.log.take j).drop n.log.length := by
    refine List.mem_of_getElem? (i := 0) ?_
    rw [List.getElem?_drop, List.getElem?_take_of_lt (by omega)]
    exact hentry
  obtain ⟨e, he, hk, hv⟩ := Replay.replay_of_mem LogEntry.key LogEntry.value
    (d.replayed n.log.length) _ ⟨_, hmem, rfl⟩
  obtain ⟨i, hi⟩ := List.getElem?_of_mem he
  rw [List.getElem?_drop] at hi
  refine ⟨n.log.length + i, e, Nat.le_add_right _ _, ?_, hk, ?_⟩
  · rw [List.getElem?_take] at hi
    split_ifs at hi
    exact hi
  · rw [hkv, ← Durable.replayed_extend (show n.log.length ≤ j by omega)]
    exact hv

/-- A put is acknowledged, the process dies in the middle of the next put of the same
key, and again in the middle of an election. -/
theorem acknowledged_survives_crashes :
    let pre : List (Life ℕ) := [event .startElection, event .becomeLeader]
    let post : List (Life ℕ) := [dies (.put "k" "2") 7, dies .startElection 1]
    let d := ((after 0 [1] (pre ++ event (.put "k" "1") :: post)).cutAt (.get "k") 0).durable
    d.log[0]? = some ⟨1, "k", "1"⟩ ∧ (1 : ℤ) ≤ d.lastApplied ∧
      ∃ i e, 0 ≤ i ∧ d.log[i]? = some e ∧ e.key = "k" ∧ d.kvStore "k" = some e.value :=
  acknowledged_survives 0 [1] [event .startElection, event .becomeLeader]
    [dies (.put "k" "2") 7, dies .startElection 1] "k" "1" (by decide +kernel) (by decide +kernel)
    (.get "k") (by decide +kernel) 0

end Life

end KVStore
