/-
# Committed entries that stay unapplied

Runs in which any event may be cut short, and in them every call of `appendEntries` that
answers `true`: the calls of other nodes, and those that `sendAppendEntries` makes on its own
node, in a put as in a send of its own.

What was committed and not applied when an event was cut is applied by the next accepted call
that raises the commit index, and by no other.  The calls of a node on itself carry the commit
index they find, so they never raise it (`Life.accepted_applies_iff`).
-/
import KVStore.Interrupted

namespace KVStore

open Exec RaftNode

/-- A call of `appendEntries`, with the node as it finds it. -/
structure Call (Id : Type) where
  node : RaftNode Id
  req : AppendEntriesRequest Id

variable {Id : Type}

namespace Call

/-- The call is not cut short. -/
def returns (c : Call Id) : Bool :=
  match (RaftNode.appendEntries c.req).run c.node with
  | .ok _ _ => true
  | .error _ _ => false

/-- The term is not stale, and the log check passes. -/
def Accepted (c : Call Id) : Prop :=
  c.node.state.currentTerm ≤ c.req.term ∧
    mismatch c.node.log c.req.prevLogIndex c.req.prevLogTerm = false

instance (c : Call Id) : Decidable c.Accepted := inferInstanceAs (Decidable (_ ∧ _))

/-- If it answers `true`, everything committed is applied. -/
def Applies (c : Call Id) : Prop :=
  ∀ n', (RaftNode.appendEntries c.req).run c.node = .ok true n' →
    n'.lastApplied = n'.commitIndex ∧ n'.kvStore = n'.durable.replayed n'.commitIndex.toNat

/-- If it is accepted and not cut short, it finds everything committed applied, or it raises
the commit index. -/
def CatchesUp (c : Call Id) : Prop :=
  c.returns = true → c.Accepted →
    c.node.lastApplied = c.node.commitIndex ∨ c.req.leaderCommit > c.node.commitIndex

instance (c : Call Id) : Decidable c.CatchesUp :=
  inferInstanceAs (Decidable (c.returns = true → c.Accepted → _ ∨ _))

end Call

variable [DecidableEq Id]

namespace RaftNode

/-- The calls that sends to the given followers make, one after the other. -/
def sendCalls : List Id → RaftNode Id → List (Call Id)
  | [], _ => []
  | f :: fs, n =>
      (match (buildAppendEntries f).run n with
        | .ok req n' => [⟨n', req⟩]
        | .error _ _ => []) ++
      match (sendAppendEntries f).run n with
      | .ok _ n' => sendCalls fs n'
      | .error _ _ => []

/-- The calls of a put: once the entry is appended the leader sends to every peer. -/
def putCalls (n : RaftNode Id) (key value : String) : List (Call Id) :=
  if n.state.currentRole ≠ .LEADER then []
  else
    match (do
      let _ ← onStorage (SQLiteStorage.appendLogEntry ⟨n.state.currentTerm, key, value⟩)
      onStorage SQLiteStorage.getLastLogIndex : Method Id ℤ).run n with
    | .ok _ n' => n'.sendCalls n'.peers
    | .error _ _ => []

/-- The calls of `appendEntries` on the node that an event makes. -/
def calls (n : RaftNode Id) : Event Id → List (Call Id)
  | .appendEntries req => [⟨n, req⟩]
  | .sendAppendEntries f => n.sendCalls [f]
  | .put key value => n.putCalls key value
  | .get _ | .startElection | .becomeLeader | .voteResponse _ | .restart => []

end RaftNode

namespace Life

omit [DecidableEq Id] in
/-- What becomes of the statements of the event. -/
def outcomes : Life Id → List Outcome
  | event _ => []
  | dies _ k | throws _ k => List.replicate k .succeeds ++ [.crashes]

/-- The calls that are made, also in an event that is cut. -/
def calls (n : RaftNode Id) (a : Life Id) : List (Call Id) :=
  (n.facing a.outcomes).calls a.theEvent

/-- Every call that answers `true` leaves everything committed applied. -/
def Applies (n : RaftNode Id) (a : Life Id) : Prop := ∀ c ∈ calls n a, c.Applies

/-- Every accepted call that is not cut short finds everything committed applied, or raises
the commit index. -/
def CatchesUp (n : RaftNode Id) (a : Life Id) : Prop := ∀ c ∈ calls n a, c.CatchesUp

instance (n : RaftNode Id) (a : Life Id) : Decidable (CatchesUp n a) :=
  inferInstanceAs (Decidable (∀ c ∈ calls n a, _))

end Life

/-! ## What a call finds -/

/-- The node in a regime that no statement fails in, with what is sent to it. -/
def Call.Ready (I : CrashInvariant) (c : Call Id) : Prop :=
  I.dying.Holds c.node ∧ (c.node.state.currentTerm ≤ c.req.term → Regime.Fits c.req c.node)

section Ready

variable {I : CrashInvariant}

/-- What a node in the regime sends to itself finds it in the regime. -/
theorem ready_sendCalls (fs : List Id) : ∀ {n : RaftNode Id}, I.dying.Holds n →
    ∀ c ∈ n.sendCalls fs, c.Ready I := by
  induction fs with
  | nil => exact fun _ _ hc => absurd hc List.not_mem_nil
  | cons f fs ih =>
      intro n h c hc
      rw [sendCalls, List.mem_append] at hc
      rcases hc with hc | hc
      · -- what the node sends to itself
        rcases hbuild : (buildAppendEntries f).run n with ⟨req, n'⟩ | ⟨err, n'⟩
        · rw [hbuild] at hc
          obtain rfl := List.mem_singleton.mp hc
          exact (Regime.buildAppendEntries f).ok h hbuild
        · rw [hbuild] at hc
          exact absurd hc List.not_mem_nil
      · rcases hsend : (sendAppendEntries f).run n with ⟨_, n'⟩ | ⟨err, n'⟩
        · rw [hsend] at hc
          have hsent := (Regime.sendAppendEntries (R := I.dying) f).ok
            ⟨h, Guard.sendAppendEntries_none f n⟩ hsend
          exact ih hsent c hc
        · rw [hsend] at hc
          exact absurd hc List.not_mem_nil

/-- So do the calls of a put. -/
theorem ready_putCalls {n : RaftNode Id} (h : I.dying.Holds n) (key value : String) :
    ∀ c ∈ n.putCalls key value, c.Ready I := by
  intro c hc
  unfold putCalls at hc
  split_ifs at hc with hrole
  · exact absurd hc List.not_mem_nil
  · have happend : Triple I.dying.Holds
        (do
          let _ ← onStorage (SQLiteStorage.appendLogEntry ⟨n.state.currentTerm, key, value⟩)
          onStorage SQLiteStorage.getLastLogIndex : Method Id ℤ)
        (fun _ => I.dying.Holds) I.dying.Broken := by
      refine Triple.bind (Triple.pre (Regime.appendLogEntry _ (C := fun _ => True)
        fun _ _ _ => trivial) fun n hn => ⟨hn, trivial⟩) fun _ => ?_
      refine (triple_getLastLogIndex (Regime.lasts fun _ _ => trivial)
        fun n hn => hn.1.broken).post fun _ n hn => hn.1.1
    split at hc
    · rename_i hrun
      exact ready_sendCalls _ (happend.ok h hrun) c hc
    · exact absurd hc List.not_mem_nil

/-- **Every call that an event makes** finds the invariant, and entries that conflict with
nothing committed. -/
theorem ready_calls {n : RaftNode Id} (h : I.dying.Holds n) {ev : Event Id}
    (hev : Regime.Spares n ev) : ∀ c ∈ n.calls ev, c.Ready I := by
  intro c hc
  cases ev with
  | appendEntries req =>
      obtain rfl := List.mem_singleton.mp hc
      exact ⟨h, fun hterm => Regime.fits_of_spares hev hterm⟩
  | sendAppendEntries f => exact ready_sendCalls [f] h c hc
  | put key value => exact ready_putCalls h key value c hc
  | get _ | startElection | becomeLeader | voteResponse _ | restart =>
      exact absurd hc List.not_mem_nil

end Ready

/-! ## One call -/

section OneCall

variable {c a : ℤ}

/-- The guard that lets nobody store a commit index. -/
def uncommittingGuard : Guard := ⟨fun _ => true, fun _ => false⟩

/-- Nobody gets past the first statement of a commit. -/
theorem triple_commitTo_uncommitting (x : ℤ) {d : Durable} {Q : Unit → RaftNode Id → Prop} :
    Triple (fun n => n.durable = d ∧ Faultless n.pending ∧ n.Addressable ∧
        uncommittingGuard.commit x n = true)
      (do onStorage (SQLiteStorage.setCommitIndex x); applyCommittedEntries)
      Q (fun n => True ∧ n.Addressable) := by
  refine Triple.bind (R := fun _ _ => False) ?_ fun _ _ hn => hn.elim
  have hset : Triple (fun n : RaftNode Id => n.Addressable)
      (onStorage (SQLiteStorage.setCommitIndex x)) (fun _ _ => True)
      (fun n => True ∧ n.Addressable) :=
    triple_printStackTrace (fun _ _ _ _ => trivial) (fun _ _ _ => trivial)
      fun n hn _ => ⟨trivial, hn⟩
  refine (Triple.guard (q := fun _ _ => false) hset).conseq ?_ ?_ fun _ h => h
  · exact fun n hn => hn.2.2
  · exact fun _ n hn => Bool.false_ne_true hn.2

/-- The regime of a node on which nothing is committed: its commit index is `c`, and it has
applied `a`. -/
def uncommitting (c a : ℤ) : Regime Id where
  Inv := fun d => Recoverable d ∧ d.commitIndex = c ∧ d.lastApplied = a
  Thrown := fun _ => True
  fate := Faultless
  guard := uncommittingGuard
  fate_nil := (recoverable.dying : Regime Id).fate_nil
  fate_tail := (recoverable.dying : Regime Id).fate_tail
  thrown := fun _ _ => trivial
  bounded := fun _ h => h.1.bounded
  relog := fun _ _ h hl hlen => ⟨h.1.relog hl hlen, h.2⟩
  read := fun s h _ => (recoverable.dying : Regime Id).read s h rfl
  commit := fun _ x _ _ _ => triple_commitTo_uncommitting x

/-- What a call does to the two indices once it has merged its entries. -/
def Followed (c a leaderCommit : ℤ) (n : RaftNode Id) : Prop :=
  Recoverable n.durable ∧
    if leaderCommit > c then n.lastApplied = n.commitIndex
    else n.commitIndex = c ∧ n.lastApplied = a

/-- A raised commit index is applied at once, wherever the table stood. -/
theorem triple_commitTo_recoverable {m : RaftNode Id} (h : Recoverable m.durable)
    (hfate : Faultless m.pending) (haddr : m.Addressable) {x : ℤ} (hge : m.commitIndex ≤ x)
    (hle : x ≤ m.log.length) :
    Triple (fun n => n = m)
      (do onStorage (SQLiteStorage.setCommitIndex x); applyCommittedEntries)
      (fun _ n => Recoverable n.durable ∧ n.lastApplied = n.commitIndex) (fun _ => True) := by
  have hraised : Recoverable { m.durable with commitIndex := x } := h.commit hge hle
  refine (triple_commitTo_applied (E := fun _ => True) (fun _ h => h) (fun _ h => h.tail)
    h.nonneg hle (fun _ _ _ => trivial) fun _ _ _ _ _ _ => trivial).conseq ?_ ?_
    fun _ _ => trivial
  · rintro n rfl
    exact ⟨rfl, hfate, haddr⟩
  · rintro _ n ⟨happlied, -⟩
    refine ⟨happlied ▸ hraised.applied, ?_⟩
    rw [← lastApplied_durable, ← commitIndex_durable, happlied]
    exact hraised.lastApplied_applied

/-- The commit index is raised and all is applied, or nothing happens. -/
theorem triple_followCommit (leaderCommit : ℤ) :
    Triple (uncommitting c a).Holds (followCommit leaderCommit)
      (fun _ (n : RaftNode Id) => Followed c a leaderCommit n) (fun _ => True) := by
  rw [followCommit]
  refine Triple.bind (Triple.pre (triple_getCommitIndex_of_spared Regime.lasts_holds
    fun _ _ => trivial) fun n hn => ⟨hn, fun hfail => absurd hfail (Faultless.head hn.fate)⟩)
    fun own => ?_
  split_ifs with hgt
  · refine Triple.bind (triple_getLastLogIndex (Regime.lasts fun _ h => h) fun _ _ => trivial)
      fun last => ?_
    refine Triple.of_forall fun m hm => ?_
    obtain ⟨⟨h, rfl⟩, rfl⟩ := hm
    have hcommit : m.commitIndex = c := h.inv.2.1
    have hbound : m.commitIndex ≤ m.log.length := h.inv.1.bounded
    refine (triple_commitTo_recoverable h.inv.1 h.fate h.addressable (le_min hgt.le hbound)
      (min_le_right _ _)).post fun _ n hn => ⟨hn.1, ?_⟩
    rw [if_pos (hcommit ▸ hgt)]
    exact hn.2
  · refine Triple.pure fun n hn => ?_
    obtain ⟨h, rfl⟩ := hn
    have hcommit : n.commitIndex = c := h.inv.2.1
    refine ⟨h.inv.1, ?_⟩
    rw [if_neg (hcommit ▸ hgt)]
    exact h.inv.2

/-- **What a call answers and does to the two indices**, if it is not cut short. -/
theorem triple_appendEntries {m : RaftNode Id} {req : AppendEntriesRequest Id}
    (hholds : recoverable.dying.Holds m)
    (hfits : m.state.currentTerm ≤ req.term → Regime.Fits req m) :
    Triple (fun n => n = m) (RaftNode.appendEntries req)
      (fun answer n => (answer = true ↔ m.state.currentTerm ≤ req.term ∧
          mismatch m.log req.prevLogIndex req.prevLogTerm = false) ∧
        (answer = true → Followed m.commitIndex m.lastApplied req.leaderCommit n))
      (fun _ => True) := by
  rw [RaftNode.appendEntries]
  refine Triple.bind_get fun m' hm' => ?_
  obtain rfl : m' = m := hm'
  split_ifs with hstale
  · refine Triple.pure fun n _ => ⟨?_, fun htrue => Bool.noConfusion htrue⟩
    exact iff_of_false Bool.false_ne_true fun hacc => not_le.mpr hstale hacc.1
  · have hterm : m'.state.currentTerm ≤ req.term := not_lt.mp hstale
    rintro n rfl
    rw [run_observeTerm]
    -- what the log check sees once the node has seen the term of the call
    let Seen (t : RaftNode Id) : Prop :=
      (uncommitting n.commitIndex n.lastApplied).Holds t ∧ t.log = n.log ∧ Regime.Fits req t
    have hseen : Seen (n.observed req.term) :=
      ⟨⟨⟨hholds.inv, rfl, rfl⟩, hholds.fate, hholds.addressable⟩, rfl, hfits hterm⟩
    have hlasts : Lasts Seen := fun t ht => ⟨ht.1.issued, ht.2⟩
    refine Triple.bind (triple_logMismatch hlasts (fun _ _ => trivial) _ _)
      (fun refused => ?_) _ hseen
    split_ifs with hrefused
    · refine Triple.pure fun t ht => ⟨?_, fun htrue => Bool.noConfusion htrue⟩
      obtain ⟨⟨-, hlog, -⟩, hmis⟩ := ht
      refine iff_of_false Bool.false_ne_true fun hacc => ?_
      rw [← hlog, ← hmis] at hacc
      exact Bool.false_ne_true (hacc.2.symm.trans hrefused)
    · have hpass := Bool.eq_false_iff.mpr hrefused
      refine Triple.of_forall fun t ht => ?_
      obtain ⟨⟨hheld, hlog, hfits'⟩, hmis⟩ := ht
      have hacc : mismatch n.log req.prevLogIndex req.prevLogTerm = false := by
        rw [← hlog, ← hmis]
        exact hpass
      refine Triple.bind (Triple.conseq
        (Regime.mergeLoop (R := uncommitting n.commitIndex n.lastApplied) _ _)
        ?_ (fun _ _ h => h) fun _ _ => trivial) fun _ => ?_
      · exact fun u hu => hu ▸ ⟨hheld, hfits' (hmis ▸ hpass)⟩
      · refine (triple_followCommit req.leaderCommit).bind fun _ => Triple.pure fun u hu => ?_
        exact ⟨iff_of_true rfl ⟨hterm, hacc⟩, fun _ => hu⟩

/-- Where everything committed is applied, the table is the replay of it. -/
theorem Recoverable.kvStore_eq {d : Durable} (h : Recoverable d)
    (happlied : d.lastApplied = d.commitIndex) : d.kvStore = d.replayed d.commitIndex.toNat := by
  have hnil : (d.log.take d.commitIndex.toNat).drop d.lastApplied.toNat = [] := by
    rw [happlied, List.drop_eq_nil_iff, List.length_take]
    omega
  have hrep := h.replays
  rw [hnil] at hrep
  exact hrep

/-- **One call**: what it answers `true` to leaves everything applied exactly if it found
everything applied or raised the commit index. -/
theorem Call.applies_iff {call : Call Id} (h : call.Ready recoverable) :
    call.Applies ↔ call.CatchesUp := by
  have hcall := triple_appendEntries h.1 h.2
  unfold Call.Applies Call.CatchesUp Call.returns
  rcases hrun : (RaftNode.appendEntries call.req).run call.node with ⟨answer, n'⟩ | ⟨err, n'⟩
  · obtain ⟨hanswer, hfollowed⟩ := hcall.ok rfl hrun
    constructor
    · intro happ _ hacc
      obtain rfl : answer = true := hanswer.mpr hacc
      obtain ⟨-, hindices⟩ := hfollowed rfl
      have heq := (happ n' rfl).1
      split_ifs at hindices with hgt
      · exact Or.inr hgt
      · rw [hindices.1, hindices.2] at heq
        exact Or.inl heq
    · intro hcatch n'' hok
      obtain ⟨rfl, rfl⟩ : answer = true ∧ n' = n'' := by simpa using hok
      obtain ⟨hrec, hindices⟩ := hfollowed rfl
      have heq : n'.lastApplied = n'.commitIndex := by
        split_ifs at hindices with hgt
        · exact hindices
        · rw [hindices.1, hindices.2]
          exact (hcatch rfl (hanswer.mp rfl)).resolve_right hgt
      exact ⟨heq, hrec.kvStore_eq heq⟩
  · refine iff_of_true (fun n'' hok => ?_) fun hreturns => absurd hreturns Bool.false_ne_true
    cases hok

end OneCall

/-! ## Whole runs -/

namespace Life

omit [DecidableEq Id] in
/-- Whatever becomes of an event, no statement fails. -/
theorem faultless_outcomes (a : Life Id) : Faultless a.outcomes := by
  cases a with
  | event ev => exact List.not_mem_nil
  | dies ev k => exact faultless_dying k
  | throws ev k => exact faultless_dying k

/-- **Committed entries do not stay unapplied exactly when** every accepted call that is not
cut short finds nothing left to apply or raises the commit index. -/
theorem accepted_applies_iff (nodeId : Id) (peerIds : List Id) (as : List (Life Id))
    (has : Run.Along Life.step Spares (fresh nodeId peerIds) as) :
    Run.Along Life.step Applies (fresh nodeId peerIds) as ↔
      Run.Along Life.step CatchesUp (fresh nodeId peerIds) as := by
  have hstep : ∀ p a, p ++ [a] <+: as →
      (Applies (Run.run Life.step (fresh nodeId peerIds) p) a ↔
        CatchesUp (Run.run Life.step (fresh nodeId peerIds) p) a) := by
    intro p a hp
    obtain ⟨t, rfl⟩ := hp
    obtain ⟨hpa, -⟩ := Run.along_append.mp has
    obtain ⟨hpre, ha⟩ := Run.along_append.mp hpa
    have hfresh : recoverable.Inv (fresh nodeId peerIds).durable :=
      ⟨le_rfl, le_rfl, le_rfl, rfl⟩
    obtain ⟨hinv, haddr⟩ := inv_after (I := recoverable) hfresh (fun _ _ h => h)
      (fun _ _ _ _ h => h) hpre
    have hholds : recoverable.dying.Holds ((after nodeId peerIds p).facing a.outcomes) :=
      ⟨hinv, faultless_outcomes a, haddr⟩
    exact forall₂_congr fun c hc => Call.applies_iff (ready_calls hholds ha.1 c hc)
  rw [Run.along_iff, Run.along_iff]
  exact forall_congr' fun p => forall_congr' fun a => forall_congr' fun hp => hstep p a hp

/-- A call that commits one entry; the process dies right after it raised the
commit index. -/
def halfCommitted : Life ℕ := dies (.appendEntries ⟨1, 1, 0, 0, [⟨1, "x", "1"⟩], 1⟩) 6

/-- The leader's next call has nothing new. -/
def nothingNew : AppendEntriesRequest ℕ := ⟨1, 1, 1, 1, [], 1⟩

/-- The heartbeat is answered `true` and applies nothing. -/
theorem not_applies_nothingNew :
    Run.Along Life.step Spares (fresh 0 [1, 2]) [halfCommitted, event (.appendEntries nothingNew)] ∧
      ¬ Run.Along Life.step Applies (fresh 0 [1, 2])
        [halfCommitted, event (.appendEntries nothingNew)] := by
  refine ⟨by decide +kernel, ?_⟩
  rintro ⟨-, happ, -⟩
  let n := (step (fresh 0 [1, 2]) halfCommitted).facing []
  have hrun := (run_appendEntries_eq_true (n := n) rfl (by decide +kernel) nothingNew).mpr
    ⟨by decide +kernel, rfl⟩
  have heq := (happ ⟨n, nothingNew⟩ (List.mem_singleton.mpr rfl) _ hrun).1
  revert heq
  decide +kernel

/-- A call that raises the commit index applies what the dead process left, and what the
node then sends to itself finds nothing left to apply. -/
theorem accepted_applies_raised :
    Run.Along Life.step Applies (fresh 0 [1, 2])
      [halfCommitted, event (.appendEntries ⟨1, 1, 1, 1, [⟨1, "y", "1"⟩], 2⟩),
        event (.sendAppendEntries 1)] :=
  (accepted_applies_iff 0 [1, 2] _ (by decide +kernel)).mpr (by decide +kernel)

end Life

end KVStore
