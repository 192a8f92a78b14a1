/-
# Calls that are cut short

A run of a node in which any event may be cut after any number of its statements:
the process dies and is restarted, or an exception of the storage ends the call.
No two calls overlap; only the reads of a get may come at any moment.

While entries are applied again the table may pass through states the log never
went through.  It does not if the entries applied before the cut write no key twice
with different values (`Life.reads_prefix_state`).  What is committed can be applied
at every moment (`recoverable`).
-/
import Mathlib.Data.Nat.Find
import KVStore.Recovery

namespace KVStore

open Exec RaftNode

variable {Id : Type} [DecidableEq Id]

/-! ## Invariants of a process that may die -/

/-- What an invariant needs to hold at every moment of a process that may die:
`Inv` between calls, `Thrown` where the process died. -/
structure CrashInvariant where
  Inv : Durable → Prop
  Thrown : Durable → Prop
  thrown : ∀ d, Inv d → Thrown d
  nonneg : ∀ d, Inv d → 0 ≤ d.lastApplied
  bounded : ∀ d, Inv d → d.commitIndex ≤ d.log.length
  relog : ∀ d (l : List LogEntry), Inv d →
    l.take d.commitIndex.toNat = d.log.take d.commitIndex.toNat → d.commitIndex ≤ l.length →
    Inv { d with log := l }
  /-- The loop is cut after it applied entry `i`. -/
  midway : ∀ d (x : ℤ), Inv d → d.commitIndex ≤ x → x ≤ d.log.length →
    ∀ i : ℕ, d.lastApplied.toNat ≤ i → (i : ℤ) ≤ max d.lastApplied x →
      Thrown (({ d with commitIndex := x } : Durable).upTo i)
  /-- The loop runs to its end. -/
  complete : ∀ d (x : ℤ), Inv d → d.commitIndex ≤ x → x ≤ d.log.length →
    Inv ({ d with commitIndex := x } : Durable).applied

/-- `setCommitIndex(x); applyCommittedEntries();` where no statement fails: everything
is applied, or the process dies, and `E` holds then. -/
theorem triple_commitTo_applied {p : List Outcome → Prop} (hp : ∀ l, p l → Faultless l)
    (htail : ∀ l, p l → p l.tail) {E : Durable → Prop} {d : Durable} {x : ℤ}
    (h0 : 0 ≤ d.lastApplied) (hx : x ≤ d.log.length)
    (hset : ∀ l, p l → l.head? = some .crashes → E d)
    (hmidway : ∀ (l : List Outcome) (i : ℕ), p l → l.head? = some .crashes →
      d.lastApplied.toNat ≤ i → (i : ℤ) ≤ max d.lastApplied x →
      E (({ d with commitIndex := x } : Durable).upTo i)) :
    Triple (fun n : RaftNode Id => n.durable = d ∧ p n.pending ∧ n.Addressable)
      (do onStorage (SQLiteStorage.setCommitIndex x); applyCommittedEntries)
      (fun _ n => n.durable = ({ d with commitIndex := x } : Durable).applied ∧ p n.pending ∧
        n.Addressable)
      (fun n => E n.durable ∧ n.Addressable) := by
  refine Triple.bind (R := fun _ n => n.durable = { d with commitIndex := x } ∧
    p n.pending ∧ n.Addressable) ?_ fun _ => ?_
  · refine triple_printStackTrace (fun n hn _ _ => ?_) (fun n hn hfail => ?_)
      (fun n hn hcrash => ⟨hn.1 ▸ hset _ hn.2.1 hcrash, hn.2.2⟩)
    · refine ⟨?_, htail _ hn.2.1, hn.2.2⟩
      rw [← hn.1]
      exact durable_setCommitIndex x
    · exact absurd hfail (hp _ hn.2.1).head
  · refine (triple_applyCommittedEntries (d := { d with commitIndex := x }) (p := p)
      (F := Addressable) htail (fun n s hn => hn) ?_ h0 hx).pre ?_
    · rintro n i hi hle hmid hfate hcrash haddr
      exact ⟨hmid ▸ hmidway _ i hfate hcrash hi hle, haddr⟩
    · rintro n ⟨hn, hfate, haddr⟩
      exact ⟨hn, hfate, (hp _ hfate).spared _, haddr⟩

namespace CrashInvariant

variable (I : CrashInvariant)

/-- `setCommitIndex(x); applyCommittedEntries();` with `E` wherever the process
dies. -/
theorem triple_commitTo {p : List Outcome → Prop} (hp : ∀ l, p l → Faultless l)
    (htail : ∀ l, p l → p l.tail) {E : Durable → Prop} {d : Durable} (hd : I.Inv d) {x : ℤ}
    (hge : d.commitIndex ≤ x) (hx : x ≤ d.log.length)
    (hE : ∀ l d, p l → l.head? = some .crashes → I.Thrown d → E d) :
    Triple (fun n : RaftNode Id => n.durable = d ∧ p n.pending ∧ n.Addressable)
      (do onStorage (SQLiteStorage.setCommitIndex x); applyCommittedEntries)
      (fun _ n => I.Inv n.durable ∧ p n.pending ∧ n.Addressable ∧ n.log = d.log ∧
        n.commitIndex ≤ x)
      (fun n => E n.durable ∧ n.Addressable) := by
  refine (triple_commitTo_applied hp htail (I.nonneg d hd) hx ?_ ?_).post ?_
  · exact fun l hfate hcrash => hE l d hfate hcrash (I.thrown d hd)
  · exact fun l i hfate hcrash hi hle => hE l _ hfate hcrash (I.midway d x hd hge hx i hi hle)
  · rintro _ n ⟨hn, hfate, haddr⟩
    refine ⟨hn ▸ I.complete d x hd hge hx, hfate, haddr, ?_, ?_⟩
    · exact congrArg Durable.log hn
    · exact le_of_eq (congrArg Durable.commitIndex hn)

/-- The process may die at any statement. -/
def dying : Regime Id where
  Inv := I.Inv
  Thrown := I.Thrown
  fate := Faultless
  guard := .none
  fate_nil := by simp [Faultless]
  fate_tail := fun _ h => h.tail
  thrown := I.thrown
  bounded := I.bounded
  relog := I.relog
  read := fun _ h _ hfail => absurd hfail h.head
  commit := fun d x hd hge hx =>
    (I.triple_commitTo (fun _ h => h) (fun _ h => h.tail) hd hge hx
      fun _ _ _ _ h => h).pre fun _ hn => ⟨hn.1, hn.2.1, hn.2.2.1⟩

/-- The process does not die. -/
def living : Regime Id where
  Inv := I.Inv
  Thrown := I.Inv
  fate := fun l => l = []
  guard := .none
  fate_nil := rfl
  fate_tail := fun _ h => by rw [h]; rfl
  thrown := fun _ h => h
  bounded := I.bounded
  relog := I.relog
  read := by
    intro s h _ hfail
    rw [h] at hfail
    cases hfail
  commit := by
    intro d x hd hge hx
    refine (I.triple_commitTo (p := fun l => l = []) ?_ ?_ hd hge hx ?_).pre
      fun _ hn => ⟨hn.1, hn.2.1, hn.2.2.1⟩
    · rintro l rfl
      simp [Faultless]
    · rintro l rfl
      rfl
    · rintro l d rfl hcrash
      cases hcrash

end CrashInvariant

/-! ## The life of a node -/

/-- What happens to a node: an event, an event in the middle of which the process
dies and is restarted, or one that a `RuntimeException` of the storage ends.
Either way `k` statements of the event have happened. -/
inductive Life (Id : Type) : Type where
  | event (ev : Event Id)
  | dies (ev : Event Id) (k : ℕ)
  | throws (ev : Event Id) (k : ℕ)

namespace RaftNode

/-- The node when `k` statements of the event have happened; the node after the
event when it has no more than `k`. -/
def cutAt (n : RaftNode Id) (ev : Event Id) (k : ℕ) : RaftNode Id :=
  (n.facing (List.replicate k .succeeds ++ [.crashes])).step ev

end RaftNode

namespace Life

/-- The event in question. -/
def theEvent : Life Id → Event Id
  | event ev | dies ev _ | throws ev _ => ev

def step (n : RaftNode Id) : Life Id → RaftNode Id
  | event ev => (n.facing []).step ev
  | dies ev k => (n.cutAt ev k).restart
  | throws ev k => n.cutAt ev k

/-- A new node, after a run. -/
def after (nodeId : Id) (peerIds : List Id) (as : List (Life Id)) : RaftNode Id :=
  Run.run Life.step (fresh nodeId peerIds) as

/-- No call alters an entry at or below the commit index. -/
def Spares (n : RaftNode Id) (a : Life Id) : Prop := Regime.Spares n a.theEvent

omit [DecidableEq Id] in
instance (n : RaftNode Id) (a : Life Id) : Decidable (Spares n a) :=
  inferInstanceAs (Decidable (Regime.Spares n a.theEvent))

variable {I : CrashInvariant} {n : RaftNode Id}

/-- Every moment of an event. -/
theorem thrown_cutAt (h : I.Inv n.durable) (haddr : n.Addressable) {ev : Event Id}
    (hev : Regime.Spares n ev) (k : ℕ) :
    I.Thrown (n.cutAt ev k).durable ∧ (n.cutAt ev k).Addressable :=
  Regime.step_facing (R := I.dying) h haddr (faultless_dying k) (Guard.meets_none _ _) hev

/-- An event that is not cut. -/
theorem inv_step (h : I.Inv n.durable) (haddr : n.Addressable) {ev : Event Id}
    (hev : Regime.Spares n ev) :
    I.Inv ((n.facing []).step ev).durable ∧ ((n.facing []).step ev).Addressable :=
  Regime.step_facing (R := I.living) h haddr rfl (Guard.meets_none _ _) hev

/-- **An invariant of the durable part holds after every run** whose cuts leave it. -/
theorem inv_after {C : RaftNode Id → Life Id → Prop} {nodeId : Id} {peerIds : List Id}
    (hfresh : I.Inv (fresh nodeId peerIds).durable)
    (hspares : ∀ n a, C n a → Spares n a)
    (hcut : ∀ n ev k, C n (dies ev k) ∨ C n (throws ev k) → I.Thrown (n.cutAt ev k).durable →
      I.Inv (n.cutAt ev k).durable)
    {as : List (Life Id)} (has : Run.Along Life.step C (fresh nodeId peerIds) as) :
    I.Inv (after nodeId peerIds as).durable ∧ (after nodeId peerIds as).Addressable := by
  refine Run.along_invariant (P := fun n : RaftNode Id => I.Inv n.durable ∧ n.Addressable)
    ?_ ⟨hfresh, Regime.addressable_fresh nodeId peerIds⟩ has
  rintro n a ⟨h, haddr⟩ hC
  have hev := hspares n a hC
  cases a with
  | event ev => exact inv_step h haddr hev
  | dies ev k =>
      obtain ⟨hthrown, -⟩ := thrown_cutAt h haddr hev k
      have hinv := hcut n ev k (Or.inl hC) hthrown
      show I.Inv (n.cutAt ev k).restart.durable ∧ (n.cutAt ev k).restart.Addressable
      rw [Regime.durable_restart]
      exact ⟨hinv, Regime.addressable_restart _⟩
  | throws ev k =>
      obtain ⟨hthrown, haddr'⟩ := thrown_cutAt h haddr hev k
      exact ⟨hcut n ev k (Or.inr hC) hthrown, haddr'⟩

end Life

/-! ## What readers see -/

/-- The table is the replay of the log entries `1..j` for some `j` between
`lastApplied` and `commitIndex`. -/
def PrefixState (d : Durable) : Prop :=
  ∃ j : ℕ, d.lastApplied ≤ j ∧ (j : ℤ) ≤ d.commitIndex ∧ d.kvStore = d.replayed j

/-- The entries after `lastApplied` up to `j` write no key twice with different
values. -/
def Durable.NoRewrite (d : Durable) (j : ℕ) : Prop :=
  Replay.NoRewrite LogEntry.key LogEntry.value ((d.log.take j).drop d.lastApplied.toNat)

instance (d : Durable) (j : ℕ) : Decidable (d.NoRewrite j) :=
  inferInstanceAs (Decidable (Replay.NoRewrite _ _ _))

/-- The table stands at `j`, and applying again what it holds beyond `lastApplied`
does not move it. -/
structure Standing (d : Durable) (j : ℕ) : Prop where
  nonneg : 0 ≤ d.lastApplied
  bounded : d.commitIndex ≤ d.log.length
  applied_le : d.lastApplied ≤ j
  le_commit : (j : ℤ) ≤ d.commitIndex
  stands : d.kvStore = d.replayed j
  noRewrite : d.NoRewrite j

namespace Standing

variable {d : Durable} {j : ℕ}

/-- The log past the commit index is of no matter. -/
theorem relog (h : Standing d j) {l : List LogEntry}
    (hl : l.take d.commitIndex.toNat = d.log.take d.commitIndex.toNat)
    (hlen : d.commitIndex ≤ l.length) : Standing { d with log := l } j := by
  have hle := h.le_commit
  have hj : l.take j = d.log.take j := Durable.take_of_agree hl (by omega)
  refine ⟨h.nonneg, hlen, h.applied_le, h.le_commit, ?_, ?_⟩
  · show d.kvStore = replayLog (fun _ => none) (l.take j)
    rw [hj]
    exact h.stands
  · show Replay.NoRewrite _ _ ((l.take j).drop d.lastApplied.toNat)
    rw [hj]
    exact h.noRewrite

/-- **Applied again, the table stays where it stands until the loop passes that
point**, and follows the loop from there on. -/
theorem kvStore_upTo (h : Standing d j) (i : ℕ) :
    (d.upTo i).kvStore = d.replayed (max i j) := by
  have hnn := h.nonneg
  have hal := h.applied_le
  -- what the table holds beyond `lastApplied` may be applied again, in part or whole
  have hagain : ∀ l ⊆ (d.log.take j).drop d.lastApplied.toNat,
      replayLog d.kvStore l = d.kvStore := by
    intro l hl
    rw [h.stands, ← Durable.replayed_extend (show d.lastApplied.toNat ≤ j by omega)]
    exact h.noRewrite.replay_again hl _
  show replayLog d.kvStore ((d.log.take i).drop d.lastApplied.toNat) = _
  rcases le_total i j with hij | hji
  · rw [max_eq_right hij, ← h.stands]
    exact hagain _ (Durable.stretch_subset _ hij)
  · rw [max_eq_left hji]
    calc replayLog d.kvStore ((d.log.take i).drop d.lastApplied.toNat)
        = replayLog (replayLog d.kvStore ((d.log.take j).drop d.lastApplied.toNat))
            ((d.log.take i).drop j) :=
          (Replay.replay_stretch _ _ _ _ (by omega) hji).symm
      _ = d.replayed i := by
          rw [hagain _ (List.Subset.refl _), h.stands]
          exact Durable.replayed_extend hji

/-- The commit index may grow within the log. -/
theorem commit (h : Standing d j) {x : ℤ} (hge : d.commitIndex ≤ x) (hle : x ≤ d.log.length) :
    Standing { d with commitIndex := x } j :=
  ⟨h.nonneg, hle, h.applied_le, h.le_commit.trans hge, h.stands, h.noRewrite⟩

/-- Once everything committed is applied, the table stands at the commit index. -/
theorem applied (h : Standing d j) : Standing d.applied d.commitIndex.toNat := by
  have hal := h.applied_le
  have hle := h.le_commit
  have hnn := h.nonneg
  have hlast : d.applied.lastApplied = d.commitIndex := max_eq_right (by omega)
  refine ⟨by rw [hlast]; omega, h.bounded, by rw [hlast]; omega, ?_, ?_, ?_⟩
  · show (d.commitIndex.toNat : ℤ) ≤ d.commitIndex
    omega
  · show (d.upTo d.commitIndex.toNat).kvStore = d.replayed _
    rw [h.kvStore_upTo, max_eq_left (by omega)]
  · -- nothing is applied beyond `lastApplied`
    have hnil : (d.log.take d.commitIndex.toNat).drop d.applied.lastApplied.toNat = [] := by
      rw [hlast, List.drop_eq_nil_iff, List.length_take]
      omega
    show Replay.NoRewrite _ _ ((d.log.take d.commitIndex.toNat).drop d.applied.lastApplied.toNat)
    rw [hnil]
    exact fun a ha => nomatch ha

end Standing

/-- At every moment the table is a prefix state, and between calls it stands at
one. -/
def readable : CrashInvariant where
  Inv := fun d => ∃ j, Standing d j
  Thrown := fun d => 0 ≤ d.lastApplied ∧ d.commitIndex ≤ d.log.length ∧ PrefixState d
  thrown := fun _ ⟨j, h⟩ => ⟨h.nonneg, h.bounded, j, h.applied_le, h.le_commit, h.stands⟩
  nonneg := fun _ ⟨_, h⟩ => h.nonneg
  bounded := fun _ ⟨_, h⟩ => h.bounded
  relog := fun _ _ ⟨j, h⟩ hl hlen => ⟨j, h.relog hl hlen⟩
  midway := by
    rintro d x ⟨j, h⟩ hge hle i - hix
    have h' := h.commit hge hle
    have hal : d.lastApplied ≤ j := h.applied_le
    have hjx : (j : ℤ) ≤ x := h'.le_commit
    refine ⟨h.nonneg, hle, max i j, ?_, ?_, h'.kvStore_upTo i⟩
    · show d.lastApplied ≤ _
      omega
    · show ((max i j : ℕ) : ℤ) ≤ x
      omega
  complete := fun _ _ ⟨_, h⟩ hge hle => ⟨_, (h.commit hge hle).applied⟩

/-- With `j` the first index from `lastApplied` on whose replay the table is, the
entries after `lastApplied` up to `j` write no key twice with different values. -/
def Clean (d : Durable) : Prop :=
  ∀ j : ℕ, d.lastApplied ≤ j → d.kvStore = d.replayed j →
    (∀ i : ℕ, d.lastApplied ≤ i → i < j → d.kvStore ≠ d.replayed i) → d.NoRewrite j

/-- A table is clean if no key is written twice past `lastApplied`. -/
theorem clean_of_noRewrite {d : Durable}
    (h : Replay.NoRewrite LogEntry.key LogEntry.value (d.log.drop d.lastApplied.toNat)) :
    Clean d := by
  intro j _ _ _ a ha b hb
  have hsub : (d.log.take j).drop d.lastApplied.toNat ⊆ d.log.drop d.lastApplied.toNat :=
    ((List.take_sublist j d.log).drop _).subset
  exact h a (hsub ha) b (hsub hb)

/-- A clean table stands at the first index whose replay it is. -/
theorem standing_of_clean {d : Durable} (h : readable.Thrown d) (hclean : Clean d) :
    readable.Inv d := by
  classical
  obtain ⟨hnn, hbound, hprefix⟩ := h
  let j := Nat.find hprefix
  obtain ⟨hal, hle, hstands⟩ := Nat.find_spec hprefix
  refine ⟨j, hnn, hbound, hal, hle, hstands, hclean j hal hstands ?_⟩
  intro i hi hij heq
  have hile : (i : ℤ) ≤ d.commitIndex := by omega
  exact Nat.find_min hprefix hij ⟨hi, hile, heq⟩

namespace Life

/-- No committed entry is altered, and where the event is cut the table is clean. -/
def CutsClean (n : RaftNode Id) : Life Id → Prop
  | event ev => Regime.Spares n ev
  | dies ev k | throws ev k => Regime.Spares n ev ∧ Clean (n.cutAt ev k).durable

/-- A fresh node can be read. -/
theorem readable_fresh (nodeId : Id) (peerIds : List Id) :
    readable.Inv (fresh nodeId peerIds).durable :=
  ⟨0, le_rfl, le_rfl, le_rfl, le_rfl, rfl, fun _ ha => nomatch ha⟩

/-- **Readers see only states the log went through**: in every run whose cuts leave
the table clean, after any number of statements of whatever event comes next. -/
theorem reads_prefix_state (nodeId : Id) (peerIds : List Id) (as : List (Life Id))
    (has : Run.Along Life.step CutsClean (fresh nodeId peerIds) as) (ev : Event Id)
    (hev : Regime.Spares (after nodeId peerIds as) ev) (k : ℕ) :
    PrefixState ((after nodeId peerIds as).cutAt ev k).durable := by
  have hspares : ∀ (n : RaftNode Id) a, CutsClean n a → Spares n a := by
    intro n a ha
    cases a with
    | event ev => exact ha
    | dies ev k => exact ha.1
    | throws ev k => exact ha.1
  have hcut : ∀ (n : RaftNode Id) ev k, CutsClean n (dies ev k) ∨ CutsClean n (throws ev k) →
      readable.Thrown (n.cutAt ev k).durable → readable.Inv (n.cutAt ev k).durable := by
    rintro n ev k (hC | hC) hthrown
    · exact standing_of_clean hthrown hC.2
    · exact standing_of_clean hthrown hC.2
  obtain ⟨hinv, haddr⟩ := inv_after (readable_fresh nodeId peerIds) hspares hcut has
  exact (thrown_cutAt hinv haddr hev k).1.2.2

/-- A call that commits three writes, two of them to one key. -/
def rewriting : Event ℕ :=
  .appendEntries ⟨1, 1, 0, 0, [⟨1, "x", "1"⟩, ⟨1, "x", "2"⟩, ⟨1, "y", "1"⟩], 3⟩

/-- A later call that raises the commit index of the leader. -/
def heartbeat : Event ℕ := .appendEntries ⟨1, 1, 3, 1, [], 4⟩

/-- The process dies when all three writes are done and `lastApplied` is not; the
next one applies the first write again. -/
theorem reads_mixed_state :
    let as : List (Life ℕ) := [dies rewriting 18]
    Run.Along Life.step Spares (fresh 0 [1, 2]) as ∧
      Regime.Spares (after 0 [1, 2] as) heartbeat ∧
      ¬ PrefixState ((after 0 [1, 2] as).cutAt heartbeat 9).durable := by
  refine ⟨by decide +kernel, by decide +kernel, ?_⟩
  rintro ⟨j, -, hj, hkv⟩
  have hx := congrFun hkv "x"
  have hy := congrFun hkv "y"
  have hcommit :
      ((after 0 [1, 2] [dies rewriting 18]).cutAt heartbeat 9).durable.commitIndex = 3 := by
    decide +kernel
  have hj3 : j ≤ 3 := by omega
  revert hx hy
  clear hkv hj hcommit
  revert j
  decide +kernel

/-- A call that commits writes to two keys. -/
def writing : Event ℕ :=
  .appendEntries ⟨1, 1, 0, 0, [⟨1, "x", "1"⟩, ⟨1, "y", "1"⟩], 2⟩

/-- The process dies after the first of them. -/
theorem reads_prefix_state_writing :
    PrefixState ((after 0 [1, 2] [dies writing 12]).cutAt
      (.appendEntries ⟨1, 1, 2, 1, [], 3⟩) 9).durable := by
  refine reads_prefix_state 0 [1, 2] [dies writing 12] ⟨⟨?_, ?_⟩, trivial⟩ _ ?_ 9
  · decide +kernel
  · exact clean_of_noRewrite (by decide +kernel)
  · decide +kernel

end Life

/-! ## What is committed can be applied -/

/-- At every moment what is committed can be applied. -/
def recoverable : CrashInvariant where
  Inv := Recoverable
  Thrown := Recoverable
  thrown := fun _ h => h
  nonneg := fun _ h => h.nonneg
  bounded := fun _ h => h.bounded
  relog := fun _ _ h hl hlen => h.relog hl hlen
  midway := by
    intro d x h hge hle i _ hix
    have hal := h.applied_le
    refine (h.commit hge hle).upTo ?_
    show (i : ℤ) ≤ x
    omega
  complete := fun _ _ h hge hle => (h.commit hge hle).applied

end KVStore
