/-
# Runs in which statements fail

Some methods of the storage rethrow an `SQLException`, others print it and carry
on, a read with `0` for what it could not read.  This module follows runs in which
any statement may fail.

* The table is the replay of the entries `1..lastApplied` as long as the failures
  leave the statements of `applyCommittedEntries` that count alone (`ApplySpared`)
  and the commit index is read where it decides how far to commit
  (`kvStore_replayed_lastApplied`).
* The commit index does not decrease as long as it is read there, whatever else
  fails (`commitIndex_never_decreases`).
-/
import KVStore.Recovery

namespace KVStore

open Exec RaftNode

variable {Id : Type}

/-- An event of which some statements fail.  `fails` goes through the statements
in the order they are issued; those beyond its end succeed. -/
structure Attempt (Id : Type) where
  event : Event Id
  fails : List Bool

namespace Attempt

def outcomes (a : Attempt Id) : List Outcome :=
  a.fails.map fun failed => if failed then .fails else .succeeds

/-- The process does not die. -/
theorem crashes_notMem_outcomes (a : Attempt Id) : .crashes ∉ a.outcomes := by
  unfold outcomes
  rw [List.mem_map]
  rintro ⟨failed, -, h⟩
  cases failed <;> cases h

variable [DecidableEq Id]

def step (n : RaftNode Id) (a : Attempt Id) : RaftNode Id := (n.facing a.outcomes).step a.event

/-- A new node, after a run. -/
def after (nodeId : Id) (peerIds : List Id) (as : List (Attempt Id)) : RaftNode Id :=
  Run.run step (fresh nodeId peerIds) as

end Attempt

/-! ## The table and `lastApplied` -/

/-- The table is the replay of what is recorded as applied. -/
structure Exact (d : Durable) : Prop where
  nonneg : 0 ≤ d.lastApplied
  applied_le : d.lastApplied ≤ d.commitIndex
  bounded : d.commitIndex ≤ d.log.length
  replays : d.kvStore = d.replayed d.lastApplied.toNat

namespace Exact

variable {d : Durable}

/-- The log past the commit index is of no matter. -/
theorem relog (h : Exact d) {l : List LogEntry}
    (hl : l.take d.commitIndex.toNat = d.log.take d.commitIndex.toNat)
    (hlen : d.commitIndex ≤ l.length) : Exact { d with log := l } where
  nonneg := h.nonneg
  applied_le := h.applied_le
  bounded := hlen
  replays := by
    have hnn := h.nonneg
    have hal := h.applied_le
    have hpre : l.take d.lastApplied.toNat = d.log.take d.lastApplied.toNat :=
      Durable.take_of_agree hl (by omega)
    show d.kvStore = replayLog (fun _ => none) (l.take d.lastApplied.toNat)
    rw [hpre]
    exact h.replays

/-- Nor is a greater commit index. -/
theorem commit (h : Exact d) {x : ℤ} (hge : d.commitIndex ≤ x) (hle : x ≤ d.log.length) :
    Exact { d with commitIndex := x } :=
  ⟨h.nonneg, h.applied_le.trans hge, hle, h.replays⟩

/-- **Applying again from an earlier index on** ends in the same table: what the
table holds already is among the entries applied again. -/
theorem replay_from (h : Exact d) {i j : ℕ} (hi : (i : ℤ) ≤ d.lastApplied)
    (hj : d.lastApplied ≤ j) :
    replayLog d.kvStore ((d.log.take j).drop i) = d.replayed j := by
  have hsub := Durable.stretch_subset (d := d) i (show d.lastApplied.toNat ≤ j by omega)
  calc replayLog d.kvStore ((d.log.take j).drop i)
      = replayLog (replayLog (d.replayed i) ((d.log.take d.lastApplied.toNat).drop i))
          ((d.log.take j).drop i) := by
        rw [h.replays, Durable.replayed_extend (by omega)]
    _ = replayLog (d.replayed i) ((d.log.take j).drop i) := Replay.replay_of_subset _ _ _ hsub
    _ = d.replayed j := Durable.replayed_extend (by omega)

end Exact

/-- The statements of `applyCommittedEntries` that count do not fail.  A read that
fails yields `0`, so that the loop goes from `first` to `last`.

* Where it has no round and `first` is what is recorded already, nothing changes,
  and the last statement may fail as well.
* Where it has a round and the first statement of that round fails, the exception
  ends the call before anything is written.
* Otherwise no statement after the two reads fails, and what is recorded in the end
  is not less than before, as it would be if both reads failed. -/
def ApplySpared (s : SQLiteStorage) : Prop :=
  let first := if s.pending.head? = some .fails then 0 else s.lastApplied
  let last := if s.pending.tail.head? = some .fails then 0 else s.commitIndex
  first = s.lastApplied ∧ last ≤ first ∨
    first < last ∧ s.pending.tail.tail.head? = some .fails ∨
    s.lastApplied ≤ max first last ∧ Spared (2 * (last - first).toNat + 1) s.pending.tail.tail

instance (s : SQLiteStorage) : Decidable (ApplySpared s) :=
  inferInstanceAs (Decidable (_ ∨ _ ∨ _))

section Apply

/-- The process does not die. -/
def Surviving (l : List Outcome) : Prop := .crashes ∉ l

/-- A process that survives survives its later statements. -/
theorem Surviving.tail {l : List Outcome} (h : Surviving l) : Surviving l.tail :=
  fun hc => h (List.mem_of_mem_tail hc)

/-- It survives its next statement. -/
theorem Surviving.head {l : List Outcome} (h : Surviving l) : l.head? ≠ some .crashes :=
  fun hc => h (List.mem_of_head? hc)

variable [DecidableEq Id] {d : Durable} {E : RaftNode Id → Prop}

omit [DecidableEq Id] in
/-- A read of the state table: what is stored, or `0` if the statement fails. -/
theorem triple_readState {column : Database → ℤ} {m : RaftNode Id} (hm : Surviving m.pending) :
    Triple (fun n => n = m)
      (onStorage (SQLiteStorage.printStackTrace 0 (SQLiteStorage.query column)))
      (fun c n => c = (if m.pending.head? = some .fails then 0 else column m.storage.db) ∧
        n = m.issued m.storage.db) E := by
  refine triple_printStackTrace (fun n hn hf _ => ?_) (fun n hn hf => ?_) (fun n hn hc => ?_)
  · subst hn
    exact ⟨(if_neg hf).symm, rfl⟩
  · subst hn
    exact ⟨(if_pos hf).symm, rfl⟩
  · subst hn
    exact absurd hc hm.head

/-- Recording again what is recorded already. -/
theorem triple_setLastApplied_same (h : Exact d) :
    Triple (fun n : RaftNode Id => n.durable = d ∧ Surviving n.pending ∧ n.Addressable)
      (onStorage (SQLiteStorage.setLastApplied d.lastApplied))
      (fun _ n => Exact n.durable ∧ Surviving n.pending ∧ n.Addressable ∧ n.log = d.log ∧
        n.commitIndex = d.commitIndex) E := by
  refine triple_printStackTrace (fun n hn _ _ => ?_) (fun n hn _ => ?_)
    (fun n hn hc => absurd hc hn.2.1.head)
  · obtain ⟨rfl, hsurv, haddr⟩ := hn
    have hd : (n.issued { n.storage.db with state := n.storage.db.state.updateAll fun r =>
        { r with lastApplied := n.durable.lastApplied } }).durable = n.durable :=
      durable_setLastApplied n.lastApplied
    refine ⟨?_, hsurv.tail, haddr, congrArg Durable.log hd, congrArg Durable.commitIndex hd⟩
    exact hd.symm ▸ h
  · obtain ⟨rfl, hsurv, haddr⟩ := hn
    exact ⟨h, hsurv.tail, haddr, rfl, rfl⟩

/-- The loop from `first` on, and the statement after it. -/
theorem triple_applyLoop_from (h : Exact d) {first : ℤ} (h0 : 0 ≤ first)
    (hfirst : first ≤ d.lastApplied) {rounds : ℕ} (hge : d.lastApplied ≤ first + rounds)
    (hle : first + rounds ≤ d.commitIndex) :
    Triple
      (fun n : RaftNode Id => n.durable = d ∧ Surviving n.pending ∧
        Spared (2 * rounds + 1) n.pending ∧ n.Addressable)
      (do onStorage (SQLiteStorage.setLastApplied (← applyLoop first rounds)))
      (fun _ n => Exact n.durable ∧ Surviving n.pending ∧ n.Addressable ∧ n.log = d.log ∧
        n.commitIndex = d.commitIndex) E := by
  have hloop := triple_applyLoop_record (d := { d with lastApplied := first })
    (b := d.lastApplied) (p := Surviving) (F := fun n : RaftNode Id => n.Addressable) (E := E)
    (fun _ h => h.tail) (fun _ _ hn => hn)
    (fun n i _ _ _ hsurv hc _ => absurd hc hsurv.head) h0 h.bounded rounds
    (by show first + rounds ≤ max first d.commitIndex; omega)
  refine hloop.post ?_
  rintro _ n ⟨hd, hsurv, haddr⟩
  -- what the table held already is among the entries applied again
  have hkv : n.kvStore = d.replayed (first.toNat + rounds) :=
    (congrArg Durable.kvStore hd).trans
      (h.replay_from (i := first.toNat) (j := first.toNat + rounds) (by omega) (by omega))
  have hlast : n.lastApplied = first + rounds := congrArg Durable.lastApplied hd
  have hlog : n.log = d.log := congrArg Durable.log hd
  have hcommit : n.commitIndex = d.commitIndex := congrArg Durable.commitIndex hd
  refine ⟨⟨?_, ?_, ?_, ?_⟩, hsurv, haddr, hlog, hcommit⟩
  · show 0 ≤ n.lastApplied
    omega
  · show n.lastApplied ≤ n.commitIndex
    omega
  · show n.commitIndex ≤ n.log.length
    rw [hcommit, hlog]
    exact h.bounded
  · show n.kvStore = replayLog (fun _ => none) (n.log.take n.lastApplied.toNat)
    rw [hkv, hlog, hlast, show (first + rounds).toNat = first.toNat + rounds by omega]
    rfl

/-- A round whose entry cannot be read ends the loop at once. -/
theorem triple_applyLoop_unread (h : Exact d) (first : ℤ) (rounds : ℕ)
    {Q : Unit → RaftNode Id → Prop} :
    Triple
      (fun n : RaftNode Id => n.durable = d ∧ n.pending.head? = some .fails ∧ n.Addressable)
      (do onStorage (SQLiteStorage.setLastApplied (← applyLoop first (rounds + 1))))
      Q (fun n => Exact n.durable ∧ n.Addressable) := by
  refine Triple.bind (R := fun _ _ => False) ?_ fun _ => fun _ hn => hn.elim
  rw [applyLoop]
  refine Triple.bind (R := fun _ _ => False) ?_ fun _ => fun _ hn => hn.elim
  refine triple_rethrow (fun n hn hok _ => hok hn.2.1) (fun n hn _ => ⟨?_, hn.2.2⟩)
  obtain ⟨rfl, -⟩ := hn
  exact h

/-- **What applying leaves, when the failures let it be.** -/
theorem triple_applyCommittedEntries_spared (h : Exact d) :
    Triple
      (fun n : RaftNode Id => n.durable = d ∧ Surviving n.pending ∧ n.Addressable ∧
        ApplySpared n.storage)
      applyCommittedEntries
      (fun _ n => Exact n.durable ∧ Surviving n.pending ∧ n.Addressable ∧ n.log = d.log ∧
        n.commitIndex = d.commitIndex)
      (fun n => Exact n.durable ∧ n.Addressable) := by
  refine Triple.of_forall fun m hm => ?_
  obtain ⟨rfl, hsurv, haddr, hcond⟩ := hm
  set first := if m.storage.pending.head? = some .fails then 0 else m.storage.lastApplied
    with hfirst
  set last := if m.storage.pending.tail.head? = some .fails then 0 else m.storage.commitIndex
    with hlast
  have hnn : 0 ≤ m.lastApplied := h.nonneg
  have hal : m.lastApplied ≤ m.commitIndex := h.applied_le
  have hfirst_le : 0 ≤ first ∧ first ≤ m.lastApplied := by
    rw [hfirst]
    split_ifs
    · exact ⟨le_rfl, hnn⟩
    · exact ⟨hnn, le_rfl⟩
  have hlast_le : last ≤ m.commitIndex := by
    rw [hlast]
    split_ifs
    · exact hnn.trans hal
    · exact le_rfl
  rw [applyCommittedEntries]
  -- the two reads yield `first` and `last`
  refine Triple.bind (triple_readState hsurv) fun a => ?_
  refine Triple.of_forall fun m' hm' => ?_
  obtain ⟨ha, rfl⟩ := hm'
  refine Triple.bind (triple_readState (m := m.issued m.storage.db) hsurv.tail) fun c => ?_
  refine Triple.of_forall fun m' hm' => ?_
  obtain ⟨hc, rfl⟩ := hm'
  obtain rfl : a = first := ha
  obtain rfl : c = last := hc
  rcases hcond with ⟨heq, hle⟩ | ⟨hlt, hfails⟩ | ⟨hge, hspared⟩
  · -- no round, and what is recorded is what was
    rw [show (last - first).toNat = 0 by omega]
    show Triple _ (onStorage (SQLiteStorage.setLastApplied first)) _ _
    rw [show first = m.durable.lastApplied from heq]
    refine (triple_setLastApplied_same h).pre ?_
    rintro n rfl
    exact ⟨rfl, hsurv.tail.tail, haddr⟩
  · rw [show (last - first).toNat = (last - first - 1).toNat + 1 by omega]
    refine (triple_applyLoop_unread h first _).pre ?_
    rintro n rfl
    exact ⟨rfl, hfails, haddr⟩
  · have hge' : m.lastApplied ≤ max first last := hge
    refine (triple_applyLoop_from h hfirst_le.1 hfirst_le.2 ?_ ?_).pre ?_
    · show m.lastApplied ≤ _
      omega
    · show _ ≤ m.commitIndex
      omega
    · rintro n rfl
      exact ⟨rfl, hsurv.tail.tail, hspared, haddr⟩

/-- A failed write of the commit index leaves the old one. -/
theorem triple_setCommitIndex (x : ℤ) :
    Triple (fun n : RaftNode Id => n.durable = d ∧ Surviving n.pending ∧ n.Addressable)
      (onStorage (SQLiteStorage.setCommitIndex x))
      (fun _ n => (n.durable = { d with commitIndex := x } ∨ n.durable = d) ∧
        Surviving n.pending ∧ n.Addressable) E := by
  refine triple_printStackTrace (fun n hn _ _ => ?_) (fun n hn _ => ?_)
    (fun n hn hc => absurd hc hn.2.1.head)
  · obtain ⟨rfl, hsurv, haddr⟩ := hn
    exact ⟨Or.inl (durable_setCommitIndex x), hsurv.tail, haddr⟩
  · obtain ⟨rfl, hsurv, haddr⟩ := hn
    exact ⟨Or.inr rfl, hsurv.tail, haddr⟩

end Apply

/-- Where the commit index is read to decide how far to commit, the read does not
fail, or what it yields then is what is stored. -/
def readsCommitIndex (s : SQLiteStorage) : Bool :=
  decide (s.pending.head? = some .fails → s.commitIndex = 0)

/-- The commit index is read, and the failures leave `applyCommittedEntries` alone. -/
def sparing : Guard := ⟨readsCommitIndex, fun s => decide (ApplySpared s)⟩

/-- The regime of a table that is the replay of what is recorded as applied. -/
def exactness [DecidableEq Id] : Regime Id where
  Inv := Exact
  Thrown := Exact
  fate := Surviving
  guard := sparing
  fate_nil := by simp [Surviving]
  fate_tail := fun _ h => h.tail
  thrown := fun _ h => h
  bounded := fun _ h => h.bounded
  relog := fun _ _ h hl hlen => h.relog hl hlen
  read := fun _ _ hread => of_decide_eq_true hread
  commit := by
    intro d x h hge hle
    refine Triple.bind (Triple.pre (Triple.guard (q := fun _ n => decide (ApplySpared n.storage))
      (triple_setCommitIndex (d := d) x)) ?_) fun _ => ?_
    · rintro n ⟨hd, hsurv, haddr, hguard⟩
      exact ⟨⟨hd, hsurv, haddr⟩, hguard⟩
    refine Triple.of_forall fun m hm => ?_
    obtain ⟨⟨hd, hsurv, haddr⟩, hcond⟩ := hm
    have hcond : ApplySpared m.storage := of_decide_eq_true hcond
    -- if the write fails the old commit index stands, and applying goes on with it
    have hexact : Exact m.durable ∧ m.log = d.log ∧ m.commitIndex ≤ x := by
      rcases hd with hd | hd
      · exact ⟨hd ▸ h.commit hge hle, congrArg Durable.log hd,
          le_of_eq (congrArg Durable.commitIndex hd)⟩
      · exact ⟨hd ▸ h, congrArg Durable.log hd, (congrArg Durable.commitIndex hd).trans_le hge⟩
    refine Triple.post (Triple.pre (triple_applyCommittedEntries_spared hexact.1) ?_) ?_
    · rintro n rfl
      exact ⟨rfl, hsurv, haddr, hcond⟩
    · rintro _ n ⟨hn, hsurv', haddr', hlog, hcommit⟩
      refine ⟨hn, hsurv', haddr', hlog.trans hexact.2.1, ?_⟩
      rw [hcommit]
      exact hexact.2.2

namespace Attempt

variable [DecidableEq Id]

/-- No committed entry is altered, and the failures leave alone what the table and
`lastApplied` depend on. -/
def LeavesApplying (n : RaftNode Id) (a : Attempt Id) : Prop :=
  Regime.Spares n a.event ∧ sparing.meets (n.facing a.outcomes) a.event = true

instance (n : RaftNode Id) (a : Attempt Id) : Decidable (LeavesApplying n a) :=
  inferInstanceAs (Decidable (_ ∧ _))

/-- **Failed writes are not counted as applied**: in every run whose failures leave
applying alone the table is the replay of the entries `1..lastApplied`. -/
theorem kvStore_replayed_lastApplied (nodeId : Id) (peerIds : List Id) (as : List (Attempt Id))
    (has : Run.Along step LeavesApplying (fresh nodeId peerIds) as) :
    (after nodeId peerIds as).kvStore
      = (after nodeId peerIds as).durable.replayed (after nodeId peerIds as).lastApplied.toNat := by
  have hinv : Exact (after nodeId peerIds as).durable ∧ (after nodeId peerIds as).Addressable := by
    refine Run.along_invariant (P := fun n : RaftNode Id => Exact n.durable ∧ n.Addressable)
      ?_ ⟨⟨le_rfl, le_rfl, le_rfl, rfl⟩, Regime.addressable_fresh nodeId peerIds⟩ has
    rintro n a ⟨h, haddr⟩ ⟨hspares, hmeets⟩
    exact Regime.step_facing (R := exactness) h haddr a.crashes_notMem_outcomes hmeets hspares
  exact hinv.1.replays

/-- A call that commits one write, and the write fails. -/
def lostWrite : Attempt ℕ :=
  ⟨.appendEntries ⟨1, 1, 0, 0, [⟨1, "x", "1"⟩], 1⟩, List.replicate 9 false ++ [true]⟩

/-- The write is lost, and its entry counts as applied. -/
theorem kvStore_lostWrite :
    Run.Along step (fun n a => Regime.Spares n a.event) (fresh 0 [1, 2]) [lostWrite] ∧
      (after 0 [1, 2] [lostWrite]).lastApplied = 1 ∧
      (after 0 [1, 2] [lostWrite]).kvStore
        ≠ (after 0 [1, 2] [lostWrite]).durable.replayed
            (after 0 [1, 2] [lostWrite]).lastApplied.toNat := by
  refine ⟨by decide +kernel, by decide +kernel, fun hkv => ?_⟩
  have hx := congrFun hkv "x"
  revert hx
  decide +kernel

/-- Two calls that commit a write each; the second one fails to read `lastApplied`
and applies the first write again. -/
def reapplying : List (Attempt ℕ) :=
  [⟨.appendEntries ⟨1, 1, 0, 0, [⟨1, "x", "1"⟩], 1⟩, []⟩,
    ⟨.appendEntries ⟨1, 1, 1, 1, [⟨1, "x", "2"⟩], 2⟩, List.replicate 7 false ++ [true]⟩]

/-- The table is right all the same: the later write of the key is applied last again. -/
theorem kvStore_reapplying :
    (after 0 [1, 2] reapplying).kvStore
      = (after 0 [1, 2] reapplying).durable.replayed
          (after 0 [1, 2] reapplying).lastApplied.toNat :=
  kvStore_replayed_lastApplied 0 [1, 2] reapplying (by decide +kernel)

end Attempt

/-! ## The commit index -/

section Frame

/-- The property looks, of what is stored, at the log and the commit index only:
a statement that keeps these keeps it. -/
def Framed (P : RaftNode Id → Prop) : Prop :=
  ∀ (n : RaftNode Id) (db : Database), (n.issued db).log = n.log →
    (n.issued db).commitIndex = n.commitIndex → P n → P (n.issued db)

variable {P : RaftNode Id → Prop} (hP : Framed P)
include hP

/-- What is framed outlasts a statement that changes nothing. -/
theorem Framed.lasts : Lasts P := fun n hn => hP n _ rfl rfl hn

/-- A write of the table does not matter to it. -/
theorem Framed.triple_updateKeyValue (key value : String) :
    Triple P (onStorage (SQLiteStorage.updateKeyValue key value)) (fun _ => P) P :=
  triple_printStackTrace (fun n hn _ _ => hP n _ rfl rfl hn) (fun n hn _ => hP.lasts n hn)
    (fun n hn _ => hP.lasts n hn)

/-- Nor does a write of `lastApplied`. -/
theorem Framed.triple_setLastApplied (a : ℤ) :
    Triple P (onStorage (SQLiteStorage.setLastApplied a)) (fun _ => P) P :=
  triple_printStackTrace
    (fun n hn _ _ => hP n _ rfl (n.storage.commitIndex_withLastApplied a) hn)
    (fun n hn _ => hP.lasts n hn) (fun n hn _ => hP.lasts n hn)

/-- Nor do the rounds of the apply loop. -/
theorem Framed.triple_applyLoop (rounds : ℕ) : ∀ i : ℤ,
    Triple P (applyLoop i rounds) (fun _ => P) P := by
  induction rounds with
  | zero => exact fun _ => Triple.pure fun n hn => hn
  | succ rounds ih =>
      intro i
      rw [applyLoop]
      refine Triple.bind (triple_getLogEntry hP.lasts (fun n hn => hn) (i + 1)) fun entry => ?_
      refine Triple.bind (R := fun _ => P) ?_ fun _ => ih (i + 1)
      rw [applyToStateMachine]
      refine Triple.bind (triple_nonNull (fun n hn => hn.1) entry) fun e => ?_
      exact (hP.triple_updateKeyValue e.key e.value).pre fun n hn => hn.1.1

/-- **Applying touches neither the log nor the commit index**, whichever of its
statements fail. -/
theorem Framed.triple_applyCommittedEntries :
    Triple P applyCommittedEntries (fun _ => P) P := by
  rw [applyCommittedEntries]
  refine Triple.bind (R := fun _ => P) ?_ fun a => ?_
  · exact triple_printStackTrace (fun n hn _ _ => hP.lasts n hn) (fun n hn _ => hP.lasts n hn)
      (fun n hn _ => hP.lasts n hn)
  refine Triple.bind (triple_getCommitIndex hP.lasts fun n hn => hn) fun c => ?_
  exact (hP.triple_applyLoop _ a).bind fun a' => hP.triple_setLastApplied a'

end Frame

/-- The commit index is read; nothing else is asked. -/
def reading : Guard := ⟨readsCommitIndex, fun _ => true⟩

/-- The regime of a commit index that has reached `c`. -/
def reached [DecidableEq Id] (c : ℤ) : Regime Id where
  Inv := fun d => c ≤ d.commitIndex ∧ d.commitIndex ≤ d.log.length
  Thrown := fun d => c ≤ d.commitIndex ∧ d.commitIndex ≤ d.log.length
  fate := Surviving
  guard := reading
  fate_nil := by simp [Surviving]
  fate_tail := fun _ h => h.tail
  thrown := fun _ h => h
  bounded := fun _ h => h.2
  relog := fun _ _ h _ hlen => ⟨h.1, hlen⟩
  read := fun _ _ hread => of_decide_eq_true hread
  commit := by
    intro d x h hge hle
    refine Triple.bind (Triple.pre (triple_setCommitIndex (d := d) x) ?_) fun _ => ?_
    · exact fun n hn => ⟨hn.1, hn.2.1, hn.2.2.1⟩
    -- from here on neither the log nor the commit index changes
    have hframed : Framed fun n : RaftNode Id => n.log = d.log ∧
        (c ≤ n.commitIndex ∧ n.commitIndex ≤ x) ∧ Surviving n.pending ∧ n.Addressable := by
      rintro n db hlog hcommit ⟨hl, hc, hsurv, haddr⟩
      exact ⟨hlog.trans hl, hcommit ▸ hc, hsurv.tail, haddr⟩
    refine hframed.triple_applyCommittedEntries.conseq ?_ ?_ ?_
    · rintro n ⟨hd, hsurv, haddr⟩
      have hle' := h.1
      rcases hd with hd | hd
      · refine ⟨congrArg Durable.log hd, ?_, hsurv, haddr⟩
        rw [show n.commitIndex = x from congrArg Durable.commitIndex hd]
        exact ⟨hle'.trans hge, le_rfl⟩
      · refine ⟨congrArg Durable.log hd, ?_, hsurv, haddr⟩
        rw [show n.commitIndex = d.commitIndex from congrArg Durable.commitIndex hd]
        exact ⟨hle', hge⟩
    · rintro _ n ⟨hlog, ⟨hc, hx⟩, hsurv, haddr⟩
      refine ⟨⟨hc, ?_⟩, hsurv, haddr, hlog, hx⟩
      show n.commitIndex ≤ n.log.length
      rw [hlog]
      exact hx.trans hle
    · rintro n ⟨hlog, ⟨hc, hx⟩, -, haddr⟩
      refine ⟨⟨hc, ?_⟩, haddr⟩
      show n.commitIndex ≤ n.log.length
      rw [hlog]
      exact hx.trans hle

namespace Attempt

variable [DecidableEq Id]

/-- No committed entry is altered, and the commit index is read where it decides
how far to commit. -/
def ReadsCommitIndex (n : RaftNode Id) (a : Attempt Id) : Prop :=
  Regime.Spares n a.event ∧ reading.meets (n.facing a.outcomes) a.event = true

instance (n : RaftNode Id) (a : Attempt Id) : Decidable (ReadsCommitIndex n a) :=
  inferInstanceAs (Decidable (_ ∧ _))

/-- **The commit index never moves backwards** in a run in which it is read where
it decides how far to commit, whatever else fails. -/
theorem commitIndex_never_decreases (nodeId : Id) (peerIds : List Id) (as : List (Attempt Id))
    (has : Run.Along step ReadsCommitIndex (fresh nodeId peerIds) as) :
    Run.Along step (fun n a => n.commitIndex ≤ (step n a).commitIndex)
      (fresh nodeId peerIds) as := by
  refine Run.Along.imp
    (P := fun n : RaftNode Id => n.commitIndex ≤ n.log.length ∧ n.Addressable)
    ?_ ⟨le_rfl, Regime.addressable_fresh nodeId peerIds⟩ has
  rintro n a ⟨hbound, haddr⟩ ⟨hspares, hmeets⟩
  have hinv : (reached n.commitIndex : Regime Id).Inv n.durable := ⟨le_rfl, hbound⟩
  obtain ⟨⟨hge, hbound'⟩, haddr'⟩ :=
    Regime.step_facing hinv haddr a.crashes_notMem_outcomes hmeets hspares
  exact ⟨⟨hbound', haddr'⟩, hge⟩

/-- Two entries are committed; then a call of a leader whose commit index is behind
fails to read the commit index. -/
def fallingBack : List (Attempt ℕ) :=
  [⟨.appendEntries ⟨1, 1, 0, 0, [⟨1, "x", "1"⟩, ⟨1, "y", "1"⟩], 2⟩, []⟩,
    ⟨.appendEntries ⟨1, 1, 2, 1, [], 1⟩, [false, false, true]⟩]

/-- The commit index falls from `2` back to the leader's `1`. -/
theorem commitIndex_fallingBack :
    Run.Along step (fun n a => Regime.Spares n a.event) (fresh 0 [1, 2]) fallingBack ∧
      ¬ Run.Along step (fun n a => n.commitIndex ≤ (step n a).commitIndex)
        (fresh 0 [1, 2]) fallingBack := by
  decide +kernel

/-- The second call fails to write the commit index. -/
def unraised : List (Attempt ℕ) :=
  [⟨.appendEntries ⟨1, 1, 0, 0, [⟨1, "x", "1"⟩], 1⟩, []⟩,
    ⟨.appendEntries ⟨1, 1, 1, 1, [⟨1, "x", "2"⟩], 2⟩, List.replicate 6 false ++ [true]⟩]

/-- A write that fails leaves the commit index where it was. -/
theorem commitIndex_unraised :
    Run.Along step (fun n a => n.commitIndex ≤ (step n a).commitIndex)
      (fresh 0 [1, 2]) unraised :=
  commitIndex_never_decreases 0 [1, 2] unraised (by decide +kernel)

end Attempt

end KVStore
