/-
# Invariants of the durable part under failing statements

A `Regime` is an invariant of the durable part of a node together with what is
assumed of the statements to come and a guard.  `Regime.handle` : from a node in
the regime, every event that keeps to the guard and alters no committed entry ends
in the regime, or throws in a state of which `Thrown` holds.
-/
import KVStore.Faults
import KVStore.Proposal

namespace KVStore

open Exec RaftNode

variable {Id : Type}

/-- Every send starts at index `1` or later. -/
def RaftNode.Addressable [DecidableEq Id] (n : RaftNode Id) : Prop := ∀ f, 1 ≤ n.nextIdx f

structure Regime (Id : Type) [DecidableEq Id] where
  Inv : Durable → Prop
  /-- What is left of the invariant where a call was cut short. -/
  Thrown : Durable → Prop
  fate : List Outcome → Prop
  guard : Guard
  fate_nil : fate []
  fate_tail : ∀ l, fate l → fate l.tail
  thrown : ∀ d, Inv d → Thrown d
  bounded : ∀ d, Inv d → d.commitIndex ≤ d.log.length
  /-- The invariant looks at the log only up to the commit index. -/
  relog : ∀ d (l : List LogEntry), Inv d →
    l.take d.commitIndex.toNat = d.log.take d.commitIndex.toNat → d.commitIndex ≤ l.length →
    Inv { d with log := l }
  /-- A read that the guard lets fail yields what is stored. -/
  read : ∀ s : SQLiteStorage, fate s.pending → guard.read s = true →
    s.pending.head? = some .fails → s.commitIndex = 0
  commit : ∀ (d : Durable) (x : ℤ), Inv d → d.commitIndex ≤ x → x ≤ d.log.length →
    Triple
      (fun n : RaftNode Id => n.durable = d ∧ fate n.pending ∧ n.Addressable ∧
        guard.commit x n = true)
      (do onStorage (SQLiteStorage.setCommitIndex x); applyCommittedEntries)
      (fun _ n => Inv n.durable ∧ fate n.pending ∧ n.Addressable ∧
        n.log = d.log ∧ n.commitIndex ≤ x)
      (fun n => Thrown n.durable ∧ n.Addressable)

namespace Regime

variable [DecidableEq Id] (R : Regime Id)

/-- The node is in the regime. -/
structure Holds (n : RaftNode Id) : Prop where
  inv : R.Inv n.durable
  fate : R.fate n.pending
  addressable : n.Addressable

/-- A call was cut short on the node. -/
def Broken (n : RaftNode Id) : Prop := R.Thrown n.durable ∧ n.Addressable

variable {R}

/-- A call that stops at once leaves what a broken call leaves. -/
theorem Holds.broken {n : RaftNode Id} (h : R.Holds n) : R.Broken n :=
  ⟨R.thrown _ h.inv, h.addressable⟩

/-- A statement that alters no table keeps the node in the regime. -/
theorem Holds.issued {n : RaftNode Id} (h : R.Holds n) : R.Holds (n.issued n.storage.db) :=
  ⟨h.inv, R.fate_tail _ h.fate, h.addressable⟩

/-- An appended entry keeps the invariant. -/
theorem append {d : Durable} (h : R.Inv d) (e : LogEntry) :
    R.Inv { d with log := d.log ++ [e] } := by
  have hbound := R.bounded d h
  refine R.relog d _ h (List.take_append_of_le_length (by omega)) ?_
  rw [List.length_append]
  omega

/-- So does deleting entries past the commit index. -/
theorem truncate {d : Durable} (h : R.Inv d) {i : ℕ} (hi : d.commitIndex ≤ i) :
    R.Inv { d with log := d.log.take i } := by
  have hbound := R.bounded d h
  refine R.relog d _ h ?_ ?_
  · rw [List.take_take, Nat.min_eq_left (by omega)]
  · rw [List.length_take]
    omega

/-- What reads only the durable part and the memory of a node stays with the
regime. -/
theorem lasts {F : RaftNode Id → Prop} (hF : Lasts F) : Lasts fun n => R.Holds n ∧ F n :=
  fun n hn => ⟨hn.1.issued, hF n hn.2⟩

/-- The regime lasts through statements that alter no table. -/
theorem lasts_holds : Lasts R.Holds := fun _ hn => hn.issued

/-! ## The merge -/

/-- No entry of `es`, placed from index `index` on, conflicts with a committed one. -/
def Compatible (index : ℤ) (es : List LogEntry) (d : Durable) : Prop :=
  1 ≤ index → ∀ (j : ℕ) (x e : LogEntry), es[j]? = some e → index + j ≤ d.commitIndex →
    SQLiteStorage.entryAt d.log (index + j) = some x → x.term = e.term

/-- What is left to merge is compatible from the next index on. -/
theorem Compatible.tail {index : ℤ} {e : LogEntry} {es : List LogEntry} {d : Durable}
    (hi : 1 ≤ index) (h : Compatible index (e :: es) d) : Compatible (index + 1) es d := by
  intro _ j x e' he' hj hx
  refine h hi (j + 1) x e' (by simpa using he') (by push_cast; omega) ?_
  rw [show index + ((j + 1 : ℕ) : ℤ) = index + 1 + j by push_cast; omega]
  exact hx

/-- A log that agrees with the old one up to the commit index is as compatible. -/
theorem Compatible.of_take {index : ℤ} {es : List LogEntry} {d : Durable} {l : List LogEntry}
    (h : Compatible index es d) (hl : l.take d.commitIndex.toNat = d.log.take d.commitIndex.toNat) :
    Compatible index es { d with log := l } := by
  intro hi j x e he hj hx
  refine h hi j x e he hj ?_
  have hget := congrArg (fun m => m[(index + j - 1).toNat]?) hl
  simp only [List.getElem?_take] at hget
  have hlt : (index + j - 1).toNat < d.commitIndex.toNat := by
    have : index + j ≤ d.commitIndex := hj
    omega
  rw [if_pos hlt, if_pos hlt] at hget
  unfold SQLiteStorage.entryAt at hx ⊢
  rw [if_pos (by omega)] at hx ⊢
  exact hget ▸ hx

/-- Appending keeps the entries compatible. -/
theorem Compatible.append {index : ℤ} {es : List LogEntry} {d : Durable}
    (h : Compatible index es d) (hd : d.commitIndex ≤ d.log.length) (e : LogEntry) :
    Compatible index es { d with log := d.log ++ [e] } :=
  h.of_take (List.take_append_of_le_length (by omega))

/-- So does a truncation past the commit index. -/
theorem Compatible.take {index : ℤ} {es : List LogEntry} {d : Durable}
    (h : Compatible index es d) {i : ℕ} (hi : d.commitIndex ≤ i) :
    Compatible index es { d with log := d.log.take i } :=
  h.of_take (by rw [List.take_take, Nat.min_eq_left (by omega)])

/-- `appendLogEntry` stays in the regime, with whatever appending keeps. -/
theorem appendLogEntry (e : LogEntry) {C : Durable → Prop}
    (hC : ∀ d, R.Inv d → C d → C { d with log := d.log ++ [e] }) :
    Triple (fun n => R.Holds n ∧ C n.durable) (onStorage (SQLiteStorage.appendLogEntry e))
      (fun _ n => R.Holds n ∧ C n.durable) R.Broken := by
  refine triple_rethrow (fun n hn _ _ => ?_) (fun n hn _ => hn.1.issued.broken)
  refine ⟨⟨?_, R.fate_tail _ hn.1.fate, hn.1.addressable⟩, ?_⟩
  · rw [durable_appendLogEntry]
    exact append hn.1.inv e
  · rw [durable_appendLogEntry]
    exact hC _ hn.1.inv hn.2

/-- The entry that a merge replaces is not committed. -/
theorem deleteLogEntriesFrom (index : ℤ) (es : List LogEntry) :
    Triple (fun n => R.Holds n ∧ Compatible index es n.durable ∧ n.commitIndex < index ∧ 1 ≤ index)
      (onStorage (SQLiteStorage.deleteLogEntriesFrom index))
      (fun _ n => R.Holds n ∧ Compatible index es n.durable) R.Broken := by
  refine triple_printStackTrace (fun n hn _ _ => ?_) (fun n hn _ => ⟨hn.1.issued, hn.2.1⟩)
    (fun n hn _ => hn.1.issued.broken)
  obtain ⟨h, hcompat, hlt, hpos⟩ := hn
  have hle : n.durable.commitIndex ≤ (index - 1).toNat := by
    have : n.durable.commitIndex < index := hlt
    omega
  refine ⟨⟨?_, R.fate_tail _ h.fate, h.addressable⟩, ?_⟩
  · rw [durable_deleteLogEntriesFrom]
    exact truncate h.inv hle
  · rw [durable_deleteLogEntriesFrom]
    exact hcompat.take hle

/-- One round of the merge: the entry is skipped, appended, or replaces the rest of the log. -/
theorem mergeEntry (index : ℤ) (e : LogEntry) (es : List LogEntry) :
    Triple (fun n => R.Holds n ∧ Compatible index (e :: es) n.durable)
      (RaftNode.mergeEntry index e)
      (fun _ n => R.Holds n ∧ Compatible (index + 1) es n.durable) R.Broken := by
  have happend : 1 ≤ index →
      Triple (fun n => R.Holds n ∧ Compatible index (e :: es) n.durable)
        (do let _ ← onStorage (SQLiteStorage.appendLogEntry e))
        (fun _ n => R.Holds n ∧ Compatible (index + 1) es n.durable) R.Broken := by
    intro hpos
    refine Triple.bind
      (appendLogEntry e fun d hd hcompat => hcompat.append (R.bounded d hd) e) fun _ => ?_
    exact Triple.pure fun n hn => ⟨hn.1, hn.2.tail hpos⟩
  rw [RaftNode.mergeEntry]
  refine Triple.bind (triple_getLastLogIndex (lasts fun _ h => h) fun n hn => hn.1.broken)
    fun last => ?_
  split_ifs with hge
  · refine Triple.bind (triple_getLogEntry (fun n hn => ⟨⟨hn.1.1.issued, hn.1.2⟩, hn.2⟩)
      (fun n hn => hn.1.1.broken) index) fun own => ?_
    refine Triple.bind (triple_nonNull (fun n hn => hn.1.1.1.broken) own) fun own => ?_
    -- an entry is there, so the index is positive
    have hpos : ∀ l : List LogEntry, some own = SQLiteStorage.entryAt l index → 1 ≤ index := by
      intro l hl
      by_contra hneg
      rw [entryAt_of_nonpos _ (by omega)] at hl
      cases hl
    refine Triple.of_forall fun m hm => ?_
    obtain ⟨⟨⟨⟨h, hcompat⟩, -⟩, hown⟩, hsome⟩ := hm
    rw [hsome] at hown
    have hindex := hpos _ hown
    split_ifs with hterm
    · have huncommitted : m.commitIndex < index := by
        by_contra hle
        refine hterm (hcompat hindex 0 own e rfl ?_ ?_)
        · have : index ≤ m.durable.commitIndex := not_lt.mp hle
          simpa using this
        · simpa using hown.symm
      refine Triple.bind ((deleteLogEntriesFrom index (e :: es)).pre ?_) fun _ => happend hindex
      rintro n rfl
      exact ⟨h, hcompat, huncommitted, hindex⟩
    · exact Triple.pure fun n hn => hn ▸ ⟨h, hcompat.tail hindex⟩
  · refine Triple.of_forall fun m hm => ?_
    have hlen := hm.2
    exact (happend (by omega)).pre fun n hn => hn ▸ hm.1

/-- The whole merge, by induction on the entries. -/
theorem mergeLoop (index : ℤ) (es : List LogEntry) :
    Triple (fun n => R.Holds n ∧ Compatible index es n.durable)
      (RaftNode.mergeLoop index es) (fun _ => R.Holds) R.Broken := by
  induction es generalizing index with
  | nil => exact Triple.pure fun n hn => hn.1
  | cons e es ih => exact (mergeEntry index e es).bind fun _ => ih (index + 1)

/-! ## Committing -/

/-- Raising the commit index within the log and applying what is committed. -/
theorem commitTo {x : ℤ} {m : RaftNode Id} (h : R.Holds m) (hge : m.commitIndex ≤ x)
    (hle : x ≤ m.log.length) (hguard : R.guard.commit x m = true) :
    Triple (fun n => n = m)
      (do onStorage (SQLiteStorage.setCommitIndex x); applyCommittedEntries)
      (fun _ n => R.Holds n ∧ n.log = m.log ∧ n.commitIndex ≤ x) R.Broken := by
  refine (R.commit m.durable x h.inv hge hle).conseq ?_ ?_ fun n hn => hn
  · rintro n rfl
    exact ⟨rfl, h.fate, h.addressable, hguard⟩
  · rintro _ n ⟨hinv, hfate, haddr, hlog, hcommit⟩
    exact ⟨⟨hinv, hfate, haddr⟩, hlog, hcommit⟩

/-- `followCommit` commits no further than the log; its failed reads are harmless. -/
theorem followCommit (leaderCommit : ℤ) :
    Triple (fun n => R.Holds n ∧ R.guard.followCommit leaderCommit n = true)
      (RaftNode.followCommit leaderCommit) (fun _ => R.Holds) R.Broken := by
  rw [RaftNode.followCommit]
  -- where a failed read is let through
  have hharmless : Lasts fun n : RaftNode Id => n.commitIndex = 0 ∨ leaderCommit ≤ 0 ∨
      n.commitIndex ≤ min leaderCommit n.log.length := fun _ h => h
  have hread : Triple (fun n => R.Holds n ∧ R.guard.followCommit leaderCommit n = true) _ _
      R.Broken :=
    (triple_getCommitIndex_or lasts_holds (fun n hn => hn.broken) hharmless).guard.pre
      fun n hn => by
        obtain ⟨hhead, hrest⟩ := Bool.and_eq_true_iff.mp hn.2
        refine ⟨⟨hn.1, fun hfail => ?_⟩, hrest⟩
        simp only [Bool.or_eq_true, decide_eq_true_iff, or_assoc] at hhead
        exact hhead.imp_left fun hread => R.read _ hn.1.fate hread hfail
  refine hread.bind fun c => ?_
  split_ifs with hgt
  · refine Triple.bind (Triple.guard (triple_getLastLogIndex
      (lasts fun _ h => h) fun n hn => hn.1.broken)) fun last => ?_
    refine Triple.of_forall fun m hm => ?_
    obtain ⟨⟨⟨h, hc⟩, rfl⟩, hguard⟩ := hm
    have hbound : m.commitIndex ≤ m.log.length := R.bounded _ h.inv
    have hge : m.commitIndex ≤ min leaderCommit m.log.length := by
      omega
    exact (commitTo h hge (min_le_right _ _) hguard).post fun _ n hn => hn.1
  · exact Triple.pure fun n hn => hn.1.1

/-- If the log check passes, the entries conflict with no committed one. -/
def Fits (req : AppendEntriesRequest Id) (n : RaftNode Id) : Prop :=
  mismatch n.log req.prevLogIndex req.prevLogTerm = false →
    Compatible (req.prevLogIndex + 1) req.entries n.durable

/-- A call of `appendEntries` whose entries, if it is accepted, spare the committed ones. -/
theorem appendEntries (req : AppendEntriesRequest Id) :
    Triple (fun n => (R.Holds n ∧ (n.state.currentTerm ≤ req.term → Fits req n)) ∧
        R.guard.appendEntries req n = true)
      (RaftNode.appendEntries req) (fun _ => R.Holds) R.Broken := by
  rw [RaftNode.appendEntries]
  refine Triple.bind_get fun m hm => ?_
  obtain ⟨⟨h, hcompat⟩, hguard⟩ := hm
  unfold Guard.appendEntries at hguard
  split_ifs with hstale
  · exact Triple.pure fun n hn => hn ▸ h
  · rw [if_neg hstale] at hguard
    rintro n rfl
    rw [run_observeTerm]
    -- from here on the node has seen the term of the call
    have hseen : R.Holds (n.observed req.term) ∧ Fits req (n.observed req.term) :=
      ⟨⟨h.inv, h.fate, h.addressable⟩, hcompat (not_lt.mp hstale)⟩
    refine Triple.bind (Triple.guard (P := fun n => R.Holds n ∧ Fits req n)
      (triple_logMismatch (lasts fun _ h => h) (fun n hn => hn.1.broken) _ _))
      (fun refused => ?_) _ ⟨hseen, hguard⟩
    split_ifs with hrefused
    · exact Triple.pure fun n hn => hn.1.1.1
    · refine Triple.bind (Triple.pre (Triple.guard
        (q := fun _ n => R.guard.followCommit req.leaderCommit n)
        (mergeLoop (req.prevLogIndex + 1) req.entries)) ?_) fun _ => ?_
      · rintro n ⟨⟨⟨h, hfits⟩, hmis⟩, hguard⟩
        exact ⟨⟨h, hfits (hmis ▸ Bool.eq_false_iff.mpr hrefused)⟩, hguard⟩
      · exact (followCommit req.leaderCommit).bind fun _ => Triple.pure fun n hn => hn

/-- One round of the commit rule, at an index within the log. -/
theorem tryCommit (i : ℤ) (last : ℕ) (hi : i ≤ last) :
    Triple
      (fun n => (R.Holds n ∧ n.commitIndex ≤ i ∧ n.log.length = last) ∧
        R.guard.tryCommit i n = true)
      (RaftNode.tryCommit i)
      (fun _ n => R.Holds n ∧ n.commitIndex ≤ i ∧ n.log.length = last) R.Broken := by
  have hentry : Triple (fun n => R.Holds n ∧ n.commitIndex ≤ i ∧ n.log.length = last)
      (do nonNull (← onStorage (SQLiteStorage.getLogEntry i)))
      (fun _ n => R.Holds n ∧ n.commitIndex ≤ i ∧ n.log.length = last) R.Broken := by
    refine Triple.bind (triple_getLogEntry (lasts fun _ h => h) (fun n hn => hn.1.broken) i)
      fun own => ?_
    exact (triple_nonNull (fun n hn => hn.1.1.broken) own).post fun _ n hn => hn.1.1
  have hsplit : RaftNode.tryCommit i
      = ((do nonNull (← onStorage (SQLiteStorage.getLogEntry i))) >>= fun entry => do
          let node ← get
          if entry.term = node.state.currentTerm then
            if node.replicationCount i > node.peers.length / 2 then
              onStorage (SQLiteStorage.setCommitIndex i)
              applyCommittedEntries : Method Id Unit) := by
    rw [RaftNode.tryCommit, bind_assoc]
  rw [hsplit]
  refine Triple.bind hentry.guard fun entry => ?_
  refine Triple.bind_get fun m hm => ?_
  obtain ⟨⟨h, hle, hlast⟩, hguard⟩ := hm
  split_ifs at hguard ⊢ with hterm hcount
  · refine (commitTo h hle (by omega) hguard).post fun _ n hn => ⟨hn.1, hn.2.2, ?_⟩
    rw [hn.2.1, hlast]
  · exact Triple.pure fun n hn => hn ▸ ⟨h, hle, hlast⟩
  · exact Triple.pure fun n hn => hn ▸ ⟨h, hle, hlast⟩

/-- The rounds of the commit rule, from `i` up to the end of the log. -/
theorem commitLoop (last rounds : ℕ) : ∀ i : ℤ, i + rounds ≤ last + 1 →
    Triple
      (fun n => (R.Holds n ∧ n.commitIndex ≤ i ∧ n.log.length = last) ∧
        R.guard.commitLoop i rounds n = true)
      (RaftNode.commitLoop i rounds) (fun _ => R.Holds) R.Broken := by
  induction rounds with
  | zero =>
      intro i _
      exact Triple.pure fun n hn => hn.1.1
  | succ rounds ih =>
      intro i hi
      rw [RaftNode.commitLoop]
      have htry : Triple
          (fun n => (R.Holds n ∧ n.commitIndex ≤ i ∧ n.log.length = last) ∧
            R.guard.commitLoop i (rounds + 1) n = true) _ _ R.Broken :=
        (tryCommit i last (by push_cast at hi; omega)).guard.pre
          fun n hn => by
            obtain ⟨hfirst, hrest⟩ := Bool.and_eq_true_iff.mp hn.2
            exact ⟨⟨hn.1, hfirst⟩, hrest⟩
      refine htry.bind fun _ => (ih (i + 1) (by push_cast at hi; omega)).pre ?_
      rintro n ⟨⟨h, hle, hlast⟩, hguard⟩
      exact ⟨⟨h, by omega, hlast⟩, hguard⟩

/-- `updateCommitIndex` starts above the commit index it reads. -/
theorem updateCommitIndex :
    Triple (fun n => R.Holds n ∧ R.guard.updateCommitIndex n = true)
      RaftNode.updateCommitIndex (fun _ => R.Holds) R.Broken := by
  rw [RaftNode.updateCommitIndex]
  refine Triple.bind (Triple.guard (triple_getLastLogIndex lasts_holds fun n hn => hn.broken))
    fun last => ?_
  have hread : Triple
      (fun n => (R.Holds n ∧ last = n.log.length) ∧
        (R.guard.read n.storage && afterOk (onStorage SQLiteStorage.getCommitIndex)
          (fun c n => R.guard.commitLoop (c + 1) (last - c).toNat n) n) = true) _ _ R.Broken :=
    (triple_getCommitIndex_of_spared (lasts fun _ h => h) fun n hn => hn.1.broken).guard.pre
      fun n hn => by
        obtain ⟨hhead, hrest⟩ := Bool.and_eq_true_iff.mp hn.2
        exact ⟨⟨hn.1, fun hfail => R.read _ hn.1.1.fate hhead hfail⟩, hrest⟩
  refine hread.bind fun c => ?_
  refine Triple.of_forall fun m hm => ?_
  obtain ⟨⟨⟨h, rfl⟩, rfl⟩, hguard⟩ := hm
  have hbound : m.commitIndex ≤ m.log.length := R.bounded _ h.inv
  refine (commitLoop m.log.length _ _ (by omega)).pre ?_
  rintro n rfl
  exact ⟨⟨h, by omega, rfl⟩, hguard⟩

/-! ## Sends and proposals -/

/-- Reading the previous term alters nothing, and keeps every fact that lasts. -/
theorem prevLogTerm {F : RaftNode Id → Prop} (hF : Lasts F) (i : ℤ) :
    Triple (fun n => R.Holds n ∧ F n) (RaftNode.prevLogTerm i) (fun _ n => R.Holds n ∧ F n)
      R.Broken := by
  rw [RaftNode.prevLogTerm]
  split_ifs
  · refine Triple.bind (triple_getLogEntry (lasts hF) (fun n hn => hn.1.broken) i) fun own => ?_
    refine Triple.bind (triple_nonNull (fun n hn => hn.1.1.broken) own) fun own => ?_
    exact Triple.pure fun n hn => hn.1.1
  · exact Triple.pure fun n hn => hn

/-- A node's own entries, sent to itself, conflict with none of its entries. -/
theorem compatible_own {i : ℤ} (hi : 1 ≤ i) (d : Durable) :
    Compatible i ((d.log.take d.log.length).drop (i - 1).toNat) d := by
  intro _ j x e he _ hx
  rw [List.take_length, List.getElem?_drop] at he
  unfold SQLiteStorage.entryAt at hx
  rw [if_pos (by omega), show (i + j - 1).toNat = (i - 1).toNat + j by omega, he] at hx
  cases hx
  rfl

/-- The request a node builds from its own log fits that log. -/
theorem buildAppendEntries (f : Id) :
    Triple R.Holds (RaftNode.buildAppendEntries f)
      (fun req n => R.Holds n ∧ (n.state.currentTerm ≤ req.term → Fits req n)) R.Broken := by
  rw [RaftNode.buildAppendEntries]
  refine Triple.bind_get_keep fun m hm => ?_
  have hpos := hm.addressable f
  rw [RaftNode.appendEntriesFrom]
  refine Triple.bind (triple_getLastLogIndex lasts_holds fun n hn => hn.broken) fun last => ?_
  refine Triple.bind (triple_getLogEntries (lasts fun _ h => h) (fun n hn => hn.1.broken) _ _)
    fun entries => ?_
  refine Triple.bind (Triple.pre (prevLogTerm (F := fun n =>
    Compatible (m.nextIdx f - 1 + 1) entries n.durable) (fun _ h => h) _) ?_) fun prevTerm => ?_
  · rintro n ⟨⟨h, rfl⟩, rfl⟩
    refine ⟨h, ?_⟩
    rw [sub_add_cancel]
    exact compatible_own hpos n.durable
  refine Triple.bind_get_keep fun m' _ => ?_
  refine Triple.bind (triple_getCommitIndex (lasts (F := fun n =>
    Compatible (m.nextIdx f - 1 + 1) entries n.durable) fun _ h => h) fun n hn => hn.1.broken)
    fun leaderCommit => ?_
  exact Triple.pure fun n hn => ⟨hn.1, fun _ _ => hn.2⟩

/-- An entry of `nextIndex` that is at least `1` keeps the node addressable. -/
theorem addressable_nextIndex {n : RaftNode Id} (h : n.Addressable) (f : Id) {i : ℤ} (hi : 1 ≤ i) :
    ({ n with nextIndex := n.nextIndex.insert f i } : RaftNode Id).Addressable := by
  intro g
  unfold nextIdx
  by_cases hg : g = f
  · subst hg
    simpa using hi
  · rw [AList.lookup_insert_ne hg]
    exact h g

/-- Recording an answer moves `nextIndex`, and on success the commit rule runs. -/
theorem recordAppendEntries (f : Id) (success : Bool) :
    Triple (fun n => R.Holds n ∧ R.guard.recordAppendEntries f success n = true)
      (RaftNode.recordAppendEntries f success) (fun _ => R.Holds) R.Broken := by
  rw [RaftNode.recordAppendEntries]
  unfold Guard.recordAppendEntries
  split_ifs
  · refine Triple.bind (Triple.guard (triple_getLastLogIndex lasts_holds fun n hn => hn.broken))
      fun last => ?_
    refine Triple.bind (Triple.modify (Q := fun _ n => R.Holds n ∧
      afterOk (onStorage SQLiteStorage.getLastLogIndex) (fun last' n =>
        R.guard.updateCommitIndex { n with matchIndex := n.matchIndex.insert f last' }) n = true)
      ?_) fun _ => ?_
    · rintro n ⟨⟨h, rfl⟩, hguard⟩
      exact ⟨⟨h.inv, h.fate, addressable_nextIndex h.addressable f (by omega)⟩, hguard⟩
    refine Triple.bind (Triple.guard (triple_getLastLogIndex lasts_holds fun n hn => hn.broken))
      fun last' => ?_
    refine Triple.bind (Triple.modify (Q := fun _ n => R.Holds n ∧
      R.guard.updateCommitIndex n = true) ?_) fun _ => updateCommitIndex
    rintro n ⟨⟨h, -⟩, hguard⟩
    exact ⟨⟨h.inv, h.fate, h.addressable⟩, hguard⟩
  · refine Triple.modify fun n hn => ?_
    exact ⟨hn.1.inv, hn.1.fate, addressable_nextIndex hn.1.addressable f (by omega)⟩

/-- A send: the request is built, handled by the node itself and recorded. -/
theorem sendAppendEntries (f : Id) :
    Triple (fun n => R.Holds n ∧ R.guard.sendAppendEntries f n = true)
      (RaftNode.sendAppendEntries f) (fun _ => R.Holds) R.Broken := by
  rw [RaftNode.sendAppendEntries]
  refine Triple.bind (Triple.guard (buildAppendEntries f)) fun req => ?_
  refine Triple.bind (Triple.pre (Triple.guard (q := fun success n =>
    R.guard.recordAppendEntries f success n) (appendEntries req)) ?_) fun success => ?_
  · rintro n ⟨h, hguard⟩
    obtain ⟨hfirst, hrest⟩ := Bool.and_eq_true_iff.mp hguard
    exact ⟨⟨h, hfirst⟩, hrest⟩
  · exact recordAppendEntries f success

/-- The sends to a list of followers, one after the other. -/
theorem sendAll (fs : List Id) :
    Triple (fun n => R.Holds n ∧ R.guard.sendAll fs n = true)
      (RaftNode.sendAll fs) (fun _ => R.Holds) R.Broken := by
  induction fs with
  | nil => exact Triple.pure fun n hn => hn.1
  | cons f fs ih =>
      rw [RaftNode.sendAll]
      refine Triple.bind (Triple.pre (Triple.guard (q := fun _ n => R.guard.sendAll fs n)
        (sendAppendEntries f)) ?_) fun _ => ih
      rintro n ⟨h, hguard⟩
      obtain ⟨hfirst, hrest⟩ := Bool.and_eq_true_iff.mp hguard
      exact ⟨⟨h, hfirst⟩, hrest⟩

/-- A replication sends to every peer and runs the commit rule. -/
theorem replicateEntry (index : ℤ) :
    Triple (fun n => R.Holds n ∧ R.guard.replicateEntry n = true)
      (RaftNode.replicateEntry index) (fun _ => R.Holds) R.Broken := by
  rw [RaftNode.replicateEntry]
  refine Triple.bind_get fun m hm => ?_
  obtain ⟨hfirst, hrest⟩ := Bool.and_eq_true_iff.mp hm.2
  refine Triple.bind (Triple.pre (Triple.guard (q := fun _ n => R.guard.updateCommitIndex n)
    (sendAll m.peers)) ?_) fun _ => ?_
  · rintro n rfl
    exact ⟨⟨hm.1, hfirst⟩, hrest⟩
  · exact updateCommitIndex.bind fun _ => Triple.pure fun n hn => hn

/-- A proposal appends its entry first, on a leader. -/
theorem proposeEntry (key value : String) :
    Triple (fun n => R.Holds n ∧ R.guard.proposeEntry key value n = true)
      (RaftNode.proposeEntry key value) (fun _ => R.Holds) R.Broken := by
  rw [RaftNode.proposeEntry]
  refine Triple.bind_get fun m hm => ?_
  obtain ⟨h, hguard⟩ := hm
  unfold Guard.proposeEntry at hguard
  split_ifs at hguard ⊢ with hrole
  · exact Triple.pure fun n hn => hn ▸ h
  · refine Triple.bind_get fun m' hm' => ?_
    obtain rfl : m' = m := hm'
    refine Triple.bind (Triple.pre (Triple.guard (q := fun _ n =>
        afterOk (onStorage SQLiteStorage.getLastLogIndex) (fun _ n => R.guard.replicateEntry n) n)
      (appendLogEntry _ (C := fun _ => True) fun _ _ h => h)) ?_) fun _ => ?_
    · rintro n rfl
      exact ⟨⟨h, trivial⟩, hguard⟩
    refine Triple.bind (Triple.guard (triple_getLastLogIndex (lasts fun _ h => h)
      fun n hn => hn.1.broken)) fun index => ?_
    exact (replicateEntry index).pre fun n hn => ⟨hn.1.1.1, hn.2⟩

/-! ## Elections and the rest -/

/-- An election only reads the tables. -/
theorem startElection :
    Triple R.Holds RaftNode.startElection (fun _ => R.Holds) R.Broken := by
  rw [RaftNode.startElection]
  refine Triple.bind (Triple.modify (Q := fun _ => R.Holds) ?_) fun _ => ?_
  · exact fun n hn => ⟨hn.inv, hn.fate, hn.addressable⟩
  refine Triple.bind (triple_getLastLogIndex lasts_holds fun n hn => hn.broken) fun last => ?_
  refine Triple.bind (R := fun _ => R.Holds) ?_ fun _ => Triple.pure fun n hn => hn
  rw [SQLiteStorage.getLastLogTerm, onStorage_bind]
  refine Triple.bind (triple_getLastLogIndex (lasts fun _ h => h) fun n hn => hn.1.broken)
    fun last => ?_
  split_ifs
  · rw [onStorage_bind]
    refine Triple.bind (triple_getLogEntry (fun n hn => ⟨⟨hn.1.1.issued, hn.1.2⟩, hn.2⟩)
      (fun n hn => hn.1.1.broken) last) fun entry => ?_
    cases entry with
    | none => exact Triple.pure fun n hn => hn.1.1.1
    | some entry => exact Triple.pure fun n hn => hn.1.1.1
  · exact Triple.pure fun n hn => hn.1.1

/-- `becomeLeader` sets every `nextIndex` past the end of the log. -/
theorem becomeLeader :
    Triple R.Holds (RaftNode.becomeLeader : Method Id Unit) (fun _ => R.Holds) R.Broken := by
  rw [RaftNode.becomeLeader]
  refine Triple.bind (Triple.modify (Q := fun _ => R.Holds) ?_) fun _ => ?_
  · exact fun n hn => ⟨hn.inv, hn.fate, hn.addressable⟩
  refine Triple.bind (triple_getLastLogIndex lasts_holds fun n hn => hn.broken) fun last => ?_
  refine Triple.modify ?_
  rintro n ⟨h, rfl⟩
  constructor
  · rw [resetIndices_eq]
    exact h.inv
  · rw [resetIndices_eq]
    exact h.fate
  · intro f
    rw [nextIdx_resetIndices]
    split_ifs
    · omega
    · exact h.addressable f

/-- A vote response touches the role and the term alone. -/
theorem requestVoteResponse (response : Option RequestVoteResponse) :
    Triple R.Holds (RaftNode.requestVoteResponse response) (fun _ => R.Holds) R.Broken := by
  cases response with
  | none => exact Triple.pure fun n hn => hn
  | some r =>
      rw [RaftNode.requestVoteResponse]
      refine Triple.bind_get fun m hm => ?_
      split_ifs
      · refine Triple.bind (Triple.modify (Q := fun _ => R.Holds) ?_) fun _ =>
          Triple.pure fun n hn => hn
        rintro n rfl
        exact ⟨hm.inv, hm.fate, hm.addressable⟩
      · exact Triple.pure fun n hn => hn ▸ hm

/-- A new process finds what the old one stored. -/
theorem durable_restart (n : RaftNode Id) : n.restart.durable = n.durable :=
  Durable.ext rfl (commitIndex_reopen n.storage) (lastApplied_reopen n.storage) rfl

/-- A new process starts with an empty `nextIndex`. -/
theorem addressable_restart (n : RaftNode Id) : n.restart.Addressable := by
  intro f
  simp [restart, create, nextIdx]

/-- So does a fresh node. -/
theorem addressable_fresh (nodeId : Id) (peerIds : List Id) :
    (fresh nodeId peerIds).Addressable := by
  intro f
  simp [fresh, create, nextIdx]

/-- A restart returns to the regime, from any state that kept the invariant. -/
theorem Holds.restart {n : RaftNode Id} (h : R.Inv n.durable) : R.Holds n.restart :=
  ⟨durable_restart n ▸ h, R.fate_nil, addressable_restart n⟩

/-! ## Every event -/

/-- The event alters no committed entry: a call that would be accepted has, at
every index at or below the commit index, the term the log has there. -/
def Spares (n : RaftNode Id) : Event Id → Prop
  | .appendEntries req => n.accepts req = true → Proposal.NoConflict n.log n.commitIndex req
  | _ => True

instance (n : RaftNode Id) : ∀ ev : Event Id, Decidable (Spares n ev)
  | .appendEntries req => inferInstanceAs (Decidable (n.accepts req = true → _))
  | .put _ _ | .get _ | .startElection | .becomeLeader | .voteResponse _
  | .sendAppendEntries _ | .restart => inferInstanceAs (Decidable True)

omit [DecidableEq Id] in
/-- A call that spares the committed entries fits the log, once its term is let in. -/
theorem fits_of_spares {n : RaftNode Id} {req : AppendEntriesRequest Id}
    (h : Spares n (.appendEntries req)) (hterm : n.state.currentTerm ≤ req.term) :
    Fits req n := by
  intro hmis hpos j x e he hj hx
  have hprev : 0 ≤ req.prevLogIndex := by omega
  have hno := h ((accepts_iff req).mpr ⟨hterm, hmis, fun hneg => by omega⟩)
  refine hno j (List.getElem?_eq_some_iff.mp he).1 ?_ x ?_ e he
  · have : req.prevLogIndex + 1 + j ≤ n.commitIndex := hj
    omega
  · unfold SQLiteStorage.entryAt at hx
    rw [if_pos (by omega)] at hx
    rw [show req.prevLogIndex.toNat + j = (req.prevLogIndex + 1 + j - 1).toNat by omega]
    exact hx

/-- **Every event that keeps to the guard and alters no committed entry stays in
the regime**, or throws where `Thrown` holds. -/
theorem handle (ev : Event Id) :
    Triple (fun n => R.Holds n ∧ R.guard.meets n ev = true ∧ Spares n ev)
      (RaftNode.handle ev) (fun _ => R.Holds) R.Broken := by
  have hdone : ∀ {α : Type} {m : Method Id α} {g : α → Answer} {P : RaftNode Id → Prop},
      Triple P m (fun _ => R.Holds) R.Broken →
      Triple P (m >>= fun a => Pure.pure (g a)) (fun _ => R.Holds) R.Broken :=
    fun h => h.bind fun _ => Triple.pure fun n hn => hn
  cases ev with
  | put key value =>
      refine hdone (Triple.bind (R := fun _ => R.Holds) ?_ fun _ => Triple.pure fun n hn => hn)
      exact (proposeEntry key value).pre fun n hn => ⟨hn.1, hn.2.1⟩
  | get key =>
      refine hdone (Triple.bind (R := fun _ => R.Holds) ?_ fun _ => Triple.pure fun n hn => hn)
      exact (triple_get lasts_holds (fun n hn => hn.broken) key).pre fun n hn => hn.1
  | startElection => exact hdone (startElection.pre fun n hn => hn.1)
  | becomeLeader => exact hdone (becomeLeader.pre fun n hn => hn.1)
  | voteResponse response => exact hdone ((requestVoteResponse response).pre fun n hn => hn.1)
  | sendAppendEntries f =>
      exact hdone ((sendAppendEntries f).pre fun n hn => ⟨hn.1, hn.2.1⟩)
  | appendEntries req =>
      refine hdone ((appendEntries req).pre fun n hn => ⟨⟨hn.1, ?_⟩, hn.2.1⟩)
      exact fun hterm => fits_of_spares hn.2.2 hterm
  | restart =>
      refine Triple.bind (Triple.modify (Q := fun _ => R.Holds) ?_) fun _ =>
        Triple.pure fun n hn => hn
      exact fun n hn => Holds.restart hn.1.inv

/-- The event, with the statements of the node facing the given outcomes. -/
theorem step_facing {n : RaftNode Id} (h : R.Inv n.durable) (haddr : n.Addressable)
    {outcomes : List Outcome} (hfate : R.fate outcomes) {ev : Event Id}
    (hmeets : R.guard.meets (n.facing outcomes) ev = true) (hspares : Spares n ev) :
    R.Broken ((n.facing outcomes).step ev) := by
  have hpre : R.Holds (n.facing outcomes) := ⟨h, hfate, haddr⟩
  exact ((handle ev).post fun _ m hm => hm.broken).finalState ⟨hpre, hmeets, hspares⟩

end Regime

/-! ## The guard that asks nothing -/

namespace Guard

variable [DecidableEq Id]

def none : Guard := ⟨fun _ => true, fun _ => true⟩

section None

omit [DecidableEq Id]

/-- Every commit meets the empty guard. -/
theorem commit_none (x : ℤ) (n : RaftNode Id) : none.commit x n = true :=
  afterOk_of_forall (fun _ _ => rfl) n

/-- `followCommit` meets the empty guard. -/
theorem followCommit_none (c : ℤ) (n : RaftNode Id) : none.followCommit c n = true := by
  unfold followCommit
  rw [Bool.and_eq_true_iff]
  refine ⟨rfl, afterOk_of_forall (fun c' n => ?_) n⟩
  split_ifs
  · exact afterOk_of_forall (fun last n => commit_none _ n) n
  · rfl

/-- So does every call of `appendEntries`. -/
theorem appendEntries_none (req : AppendEntriesRequest Id) (n : RaftNode Id) :
    none.appendEntries req n = true := by
  unfold appendEntries
  split_ifs
  · rfl
  · refine afterOk_of_forall (fun refused n => ?_) _
    split_ifs
    · rfl
    · exact afterOk_of_forall (fun _ n => followCommit_none _ n) n

/-- A round of the commit rule meets the empty guard. -/
theorem tryCommit_none (i : ℤ) (n : RaftNode Id) : none.tryCommit i n = true := by
  refine afterOk_of_forall (fun entry n => ?_) n
  split_ifs
  · exact commit_none i n
  · rfl
  · rfl

/-- So does every number of rounds. -/
theorem commitLoop_none (rounds : ℕ) : ∀ (i : ℤ) (n : RaftNode Id),
    none.commitLoop i rounds n = true := by
  induction rounds with
  | zero => exact fun _ _ => rfl
  | succ rounds ih =>
      intro i n
      rw [commitLoop, Bool.and_eq_true_iff]
      exact ⟨tryCommit_none i n, afterOk_of_forall (fun _ n => ih (i + 1) n) n⟩

/-- So does the whole rule. -/
theorem updateCommitIndex_none (n : RaftNode Id) : none.updateCommitIndex n = true := by
  refine afterOk_of_forall (fun last n => ?_) n
  rw [Bool.and_eq_true_iff]
  exact ⟨rfl, afterOk_of_forall (fun c n => commitLoop_none _ _ n) n⟩

end None

/-- Every send meets the empty guard. -/
theorem sendAppendEntries_none (f : Id) (n : RaftNode Id) :
    none.sendAppendEntries f n = true := by
  refine afterOk_of_forall (fun req n => ?_) n
  rw [Bool.and_eq_true_iff]
  refine ⟨appendEntries_none req n, afterOk_of_forall (fun success n => ?_) n⟩
  unfold recordAppendEntries
  split_ifs
  · refine afterOk_of_forall (fun last n => ?_) n
    exact afterOk_of_forall (fun last' n => updateCommitIndex_none _) _
  · rfl

/-- So does every list of sends. -/
theorem sendAll_none (fs : List Id) : ∀ n : RaftNode Id, none.sendAll fs n = true := by
  induction fs with
  | nil => exact fun _ => rfl
  | cons f fs ih =>
      intro n
      rw [sendAll, Bool.and_eq_true_iff]
      exact ⟨sendAppendEntries_none f n, afterOk_of_forall (fun _ n => ih n) n⟩

/-- Every event meets the empty guard. -/
theorem meets_none (n : RaftNode Id) (ev : Event Id) : none.meets n ev = true := by
  cases ev with
  | put key value =>
      show none.proposeEntry key value n = true
      unfold proposeEntry
      split_ifs
      · rfl
      · refine afterOk_of_forall (fun _ n => ?_) n
        refine afterOk_of_forall (fun _ n => ?_) n
        rw [replicateEntry, Bool.and_eq_true_iff]
        exact ⟨sendAll_none _ n, afterOk_of_forall (fun _ n => updateCommitIndex_none n) n⟩
  | sendAppendEntries f => exact sendAppendEntries_none f n
  | appendEntries req => exact appendEntries_none req n
  | get _ | startElection | becomeLeader | voteResponse _ | restart => rfl

end Guard

end KVStore
