/-
# Every interleaving of the calls to one server

Puts, gets, elections, vote requests and queued sends run on one node at the same
time, statement by statement in any order, and the process may be killed between any
two statements and started again.  `Ready` is the invariant of the node that all of
them keep; what a thread may rely on beside it (`sharing`) is that the log is only
appended to, that a key that has been found stays found, and that no other thread
appends in its name.

The proposition `sure` stands for the assumption that every statement succeeds.
Without it any statement may fail, and then a call may end in the exception of the
statement, and the table may miss entries that count as applied; the rest of the
invariant holds all the same.
-/
import KVStore.Concurrent
import KVStore.Sharing

namespace KVStore

open Role Threads

/-- What the entries write. -/
def pairs (l : List LogEntry) : List (String × String) := l.map fun e => (e.key, e.value)

/-- What two logs in a row write. -/
@[simp] theorem pairs_append (l l' : List LogEntry) : pairs (l ++ l') = pairs l ++ pairs l' :=
  List.map_append

/-- An entry of the log writes its pair. -/
theorem mem_pairs_of_mem {l : List LogEntry} {e : LogEntry} (h : e ∈ l) :
    (e.key, e.value) ∈ pairs l :=
  List.mem_map.mpr ⟨e, h, rfl⟩

namespace RaftNode

variable {Id : Type} [DecidableEq Id] {n n' : RaftNode Id} {sure : Prop}

omit [DecidableEq Id] in
/-- The entries up to index `a` are there, and their keys are in the table if no
statement fails. -/
structure Found (sure : Prop) (n : RaftNode Id) (a : ℤ) : Prop where
  nonneg : 0 ≤ a
  le : a ≤ n.log.length
  present : sure → ∀ e ∈ n.log.take a.toNat, (n.kvStore e.key).isSome

/-- No call on the node can go wrong but by a statement that fails. -/
structure Ready (sure : Prop) (n : RaftNode Id) : Prop where
  healthy : sure → n.Healthy
  survives : .crashes ∉ n.pending
  nextIdx_pos : ∀ f, 1 ≤ n.nextIdx f
  inReach : n.InReach
  commitIndex_nonneg : 0 ≤ n.commitIndex
  committed : n.commitIndex ≤ n.log.length
  applied : n.Found sure n.lastApplied
  sourced : ∀ key value, n.kvStore key = some value → (key, value) ∈ pairs n.log

omit [DecidableEq Id] in
/-- The log is only appended to and no key is lost. -/
structure Grows (n n' : RaftNode Id) : Prop where
  log : n.log <+: n'.log
  found : ∀ key, (n.kvStore key).isSome → (n'.kvStore key).isSome

/-- What an action that appends nothing makes of the node. -/
structure Moves (sure : Prop) (n n' : RaftNode Id) : Prop where
  ready : n'.Ready sure
  peers : n'.peers = n.peers
  log : n'.log = n.log
  grows : n.Grows n'

section Grows

omit [DecidableEq Id]

/-- A node that does nothing grows. -/
theorem Grows.refl (n : RaftNode Id) : n.Grows n := ⟨List.prefix_rfl, fun _ => id⟩

/-- Growth step by step. -/
theorem Grows.trans {n'' : RaftNode Id} (h : n.Grows n') (h' : n'.Grows n'') : n.Grows n'' :=
  ⟨h.log.trans h'.log, fun key hk => h'.found key (h.found key hk)⟩

/-- A log that grows is no shorter. -/
theorem Grows.length_le (h : n.Grows n') : (n.log.length : ℤ) ≤ n'.log.length := by
  exact_mod_cast h.log.length_le

/-- An entry of a log that grows stays at its index. -/
theorem Grows.getElem? (h : n.Grows n') {k : ℕ} {e : LogEntry} (he : n.log[k]? = some e) :
    n'.log[k]? = some e := by
  obtain ⟨l, hl⟩ := h.log
  rw [← hl, List.getElem?_append_left (List.getElem?_eq_some_iff.mp he).1]
  exact he

/-- Up to index `0` there is nothing to find. -/
theorem found_zero (n : RaftNode Id) : n.Found sure 0 :=
  ⟨le_rfl, Int.natCast_nonneg _, fun _ _ he => nomatch he⟩

/-- What is found stays found. -/
theorem Found.grows {a : ℤ} (h : n.Found sure a) (hg : n.Grows n') : n'.Found sure a := by
  refine ⟨h.nonneg, h.le.trans hg.length_le, fun hs e he => hg.found _ (h.present hs e ?_)⟩
  obtain ⟨l, hl⟩ := hg.log
  rwa [← hl, List.take_append_of_le_length (by have := h.le; omega)] at he

/-- One more entry whose key is in the table. -/
theorem Found.succ {a : ℤ} (h : n.Found sure a) {e : LogEntry} (he : n.log[a.toNat]? = some e)
    (hkey : sure → (n.kvStore e.key).isSome) : n.Found sure (a + 1) := by
  have hlt := (List.getElem?_eq_some_iff.mp he).1
  have hnonneg := h.nonneg
  refine ⟨by omega, by omega, fun hs x hx => ?_⟩
  rw [show (a + 1).toNat = a.toNat + 1 by omega, List.take_add_one, he, List.mem_append] at hx
  rcases hx with hx | hx
  · exact h.present hs x hx
  · obtain rfl : x = e := by simpa using hx
    exact hkey hs

end Grows

/-- A fresh node is ready. -/
theorem ready_fresh (nodeId : Id) (peerIds : List Id) : (fresh nodeId peerIds).Ready sure where
  healthy _ := rfl
  survives := List.not_mem_nil
  nextIdx_pos := (sane_fresh nodeId peerIds).nextIdx_pos
  inReach := (inStep_fresh nodeId peerIds).inReach
  commitIndex_nonneg := le_rfl
  committed := le_rfl
  applied := found_zero _
  sourced := fun _ _ hkv => nomatch hkv

/-- A new process on the same database. -/
theorem Ready.restart (h : n.Ready sure) : n.restart.Ready sure where
  healthy _ := rfl
  survives := List.not_mem_nil
  nextIdx_pos := fun f => by simp [RaftNode.restart, create, nextIdx]
  inReach := fun f => by simp [RaftNode.restart, create, nextIdx]
  commitIndex_nonneg := h.commitIndex_nonneg.trans_eq (commitIndex_reopen n.storage).symm
  committed := (commitIndex_reopen n.storage).trans_le h.committed
  applied := by
    have hlast : n.restart.lastApplied = n.lastApplied := lastApplied_reopen n.storage
    rw [hlast]
    exact ⟨h.applied.nonneg, h.applied.le, h.applied.present⟩
  sourced := h.sourced

/-! ## What the writes of a node keep of it -/

/-- A write of fields other than the storage and `nextIndex`. -/
theorem Ready.of_fields (h : n.Ready sure) (hstorage : n'.storage = n.storage)
    (hnext : n'.nextIndex = n.nextIndex) (hpeers : n'.peers = n.peers) : n.Moves sure n' := by
  have hidx : n'.nextIdx = n.nextIdx := by
    funext f
    rw [nextIdx, nextIdx, hnext]
  have hlog : n'.log = n.log := congrArg SQLiteStorage.log hstorage
  have hkv : n'.kvStore = n.kvStore := congrArg SQLiteStorage.kvStore hstorage
  have hcommit : n'.commitIndex = n.commitIndex := congrArg SQLiteStorage.commitIndex hstorage
  have happlied : n'.lastApplied = n.lastApplied := congrArg SQLiteStorage.lastApplied hstorage
  have hpending : n'.pending = n.pending := congrArg SQLiteStorage.pending hstorage
  have hgrows : n.Grows n' := ⟨hlog ▸ List.prefix_rfl, fun key => hkv ▸ id⟩
  refine ⟨⟨fun hs => hpending.trans (h.healthy hs), ?_, ?_, ?_, ?_, ?_, ?_, ?_⟩, hpeers, hlog,
    hgrows⟩
  · rw [hpending]
    exact h.survives
  · rw [hidx]
    exact h.nextIdx_pos
  · rw [InReach, hidx, hlog]
    exact h.inReach
  · rw [hcommit]
    exact h.commitIndex_nonneg
  · rw [hcommit, hlog]
    exact h.committed
  · rw [happlied]
    exact h.applied.grows hgrows
  · rw [hlog, hkv]
    exact h.sourced

/-- A write of `nextIndex` within reach of the log. -/
theorem Ready.insert_nextIndex (h : n.Ready sure) {i : ℤ} (hpos : 1 ≤ i)
    (hle : i ≤ n.log.length + 1) (f : Id) :
    n.Moves sure ({ n with nextIndex := n.nextIndex.insert f i } : RaftNode Id) := by
  have hidx : ∀ g, ({ n with nextIndex := n.nextIndex.insert f i } : RaftNode Id).nextIdx g
      = if g = f then i else n.nextIdx g := by
    intro g
    by_cases hg : g = f
    · subst hg
      simp [nextIdx]
    · simp [nextIdx, hg, AList.lookup_insert_ne hg]
  refine ⟨⟨h.healthy, h.survives, ?_, ?_, h.commitIndex_nonneg, h.committed,
    ⟨h.applied.nonneg, h.applied.le, h.applied.present⟩, h.sourced⟩, rfl, rfl,
    ⟨List.prefix_rfl, fun _ => id⟩⟩
  · intro g
    rw [hidx]
    split_ifs
    · exact hpos
    · exact h.nextIdx_pos g
  · intro g
    rw [hidx]
    split_ifs
    · exact hle
    · exact h.inReach g

/-- A statement that leaves the database as `db`. -/
theorem Ready.issued (h : n.Ready sure) {db : Database} (hgrows : n.Grows (n.issued db))
    (hcommit : 0 ≤ (n.issued db).commitIndex ∧
      (n.issued db).commitIndex ≤ (n.issued db).log.length)
    (happlied : (n.issued db).Found sure (n.issued db).lastApplied)
    (hsourced : ∀ key value, (n.issued db).kvStore key = some value →
      (key, value) ∈ pairs (n.issued db).log) : (n.issued db).Ready sure where
  healthy hs := by
    show n.pending.tail = []
    rw [show n.pending = [] from h.healthy hs]
    rfl
  survives hmem := h.survives (List.mem_of_mem_tail hmem)
  nextIdx_pos := h.nextIdx_pos
  inReach f := by
    have hf := h.inReach f
    have hle := hgrows.length_le
    show n.nextIdx f ≤ _
    omega
  commitIndex_nonneg := hcommit.1
  committed := hcommit.2
  applied := happlied
  sourced := hsourced

/-- A statement that reads, or a write that failed. -/
theorem Ready.skip (h : n.Ready sure) : n.Moves sure (n.issued n.storage.db) := by
  have hgrows : n.Grows (n.issued n.storage.db) := ⟨List.prefix_rfl, fun _ => id⟩
  exact ⟨h.issued hgrows ⟨h.commitIndex_nonneg, h.committed⟩ (h.applied.grows hgrows) h.sourced,
    rfl, rfl, hgrows⟩

/-- A commit index within the log. -/
theorem Ready.setCommitIndex (h : n.Ready sure) {c : ℤ} (h0 : 0 ≤ c) (hc : c ≤ n.log.length) :
    n.Moves sure (n.issued { n.storage.db with
      state := n.storage.db.state.updateAll fun r => { r with commitIndex := c } }) := by
  have hd := durable_setCommitIndex (n := n) c
  set n' := n.issued { n.storage.db with
    state := n.storage.db.state.updateAll fun r => { r with commitIndex := c } } with hn'
  have hcommit : n'.commitIndex = c := congrArg Durable.commitIndex hd
  have happlied : n'.lastApplied = n.lastApplied := congrArg Durable.lastApplied hd
  have hgrows : n.Grows n' := ⟨List.prefix_rfl, fun _ => id⟩
  refine ⟨h.issued hgrows ?_ ?_ h.sourced, rfl, rfl, hgrows⟩
  · rw [← hn', hcommit]
    exact ⟨h0, hc⟩
  · rw [← hn', happlied]
    exact h.applied.grows hgrows

/-- An applied index whose entries are in the table. -/
theorem Ready.setLastApplied (h : n.Ready sure) {a : ℤ} (ha : n.Found sure a) :
    n.Moves sure (n.issued { n.storage.db with
      state := n.storage.db.state.updateAll fun r => { r with lastApplied := a } }) := by
  have hd := durable_setLastApplied (n := n) a
  set n' := n.issued { n.storage.db with
    state := n.storage.db.state.updateAll fun r => { r with lastApplied := a } } with hn'
  have hcommit : n'.commitIndex = n.commitIndex := congrArg Durable.commitIndex hd
  have happlied : n'.lastApplied = a := congrArg Durable.lastApplied hd
  have hgrows : n.Grows n' := ⟨List.prefix_rfl, fun _ => id⟩
  refine ⟨h.issued hgrows ?_ ?_ h.sourced, rfl, rfl, hgrows⟩
  · rw [← hn', hcommit]
    exact ⟨h.commitIndex_nonneg, h.committed⟩
  · rw [← hn', happlied]
    exact ha.grows hgrows

/-- An entry of the log is written to the table. -/
theorem Ready.updateKeyValue (h : n.Ready sure) {e : LogEntry} (he : e ∈ n.log) :
    n.Moves sure (n.issued { n.storage.db with
      kvStore := Function.update n.storage.db.kvStore e.key (some e.value) }) := by
  have hfound : ∀ key, (n.kvStore key).isSome →
      (Function.update n.kvStore e.key (some e.value) key).isSome := by
    intro key hkey
    by_cases hk : key = e.key
    · rw [hk, Function.update_self]
      rfl
    · rwa [Function.update_of_ne hk]
  have hgrows : n.Grows (n.issued { n.storage.db with
      kvStore := Function.update n.storage.db.kvStore e.key (some e.value) }) :=
    ⟨List.prefix_rfl, hfound⟩
  refine ⟨h.issued hgrows ⟨h.commitIndex_nonneg, h.committed⟩ (h.applied.grows hgrows) ?_, rfl,
    rfl, hgrows⟩
  intro key value hkv
  change Function.update n.kvStore e.key (some e.value) key = some value at hkv
  by_cases hk : key = e.key
  · subst hk
    rw [Function.update_self, Option.some.injEq] at hkv
    subst hkv
    exact mem_pairs_of_mem he
  · rw [Function.update_of_ne hk] at hkv
    exact h.sourced key value hkv

/-- The append is the one action that changes the log. -/
theorem Ready.appendLogEntry (h : n.Ready sure) (e : LogEntry) :
    let n' := n.issued { n.storage.db with logs := n.storage.db.logs.insert e }
    n'.Ready sure ∧ n'.log = n.log ++ [e] ∧ n.Grows n' := by
  intro n'
  have hlog : n'.log = n.log ++ [e] := congrArg Durable.log (durable_appendLogEntry e)
  have hgrows : n.Grows n' := ⟨hlog ▸ List.prefix_append _ _, fun _ => id⟩
  refine ⟨h.issued hgrows ⟨h.commitIndex_nonneg, h.committed.trans hgrows.length_le⟩
    (h.applied.grows hgrows) fun key value hkv => ?_, hlog, hgrows⟩
  show (key, value) ∈ pairs n'.log
  rw [hlog, pairs_append]
  exact List.mem_append_left _ (h.sourced key value hkv)

/-! ## Statements that may fail -/

section Statements

omit [DecidableEq Id]

variable {α : Type} (f : Database → α × Database) (h : .crashes ∉ n.pending)
include h

/-- A statement whose failure is thrown on takes effect, or throws because it failed. -/
theorem run_rethrow (message : String) :
    (onStorage (SQLiteStorage.rethrow message (SQLiteStorage.execute f)) : Method Id α).run n
        = .ok (f n.storage.db).1 (n.issued (f n.storage.db).2) ∨
      n.pending ≠ [] ∧
      (onStorage (SQLiteStorage.rethrow message (SQLiteStorage.execute f)) : Method Id α).run n
        = .error (.runtimeException message) (n.issued n.storage.db) := by
  rcases n with ⟨nodeId, peers, nodup, ⟨db, pending⟩, rest⟩
  rcases pending with _ | ⟨outcome, pending⟩
  · exact Or.inl rfl
  · cases outcome with
    | succeeds => exact Or.inl rfl
    | fails => exact Or.inr ⟨List.cons_ne_nil _ _, rfl⟩
    | crashes => exact absurd List.mem_cons_self h

/-- A statement whose failure is swallowed takes effect, or yields its default. -/
theorem run_printStackTrace (default : α) :
    (onStorage (SQLiteStorage.printStackTrace default (SQLiteStorage.execute f)) :
        Method Id α).run n = .ok (f n.storage.db).1 (n.issued (f n.storage.db).2) ∨
      n.pending ≠ [] ∧
      (onStorage (SQLiteStorage.printStackTrace default (SQLiteStorage.execute f)) :
        Method Id α).run n = .ok default (n.issued n.storage.db) := by
  rcases n with ⟨nodeId, peers, nodup, ⟨db, pending⟩, rest⟩
  rcases pending with _ | ⟨outcome, pending⟩
  · exact Or.inl rfl
  · cases outcome with
    | succeeds => exact Or.inl rfl
    | fails => exact Or.inr ⟨List.cons_ne_nil _ _, rfl⟩
    | crashes => exact absurd List.mem_cons_self h

end Statements

end RaftNode

namespace Concurrent

variable {ι Id : Type}

/-- What a task puts. -/
def Task.puts : Task Id → List (String × String)
  | .put key value => [(key, value)]
  | _ => []

/-- A statement has failed. -/
def Failure (sure : Prop) (e : JavaException) : Prop :=
  ¬ sure ∧ ∃ message, e = .runtimeException message

variable [DecidableEq Id]

/-! ## What the threads share -/

section Shares

variable (sure : Prop) (n : RaftNode Id) (tasks : ι → Task Id)

/-- The node is ready, and every author has put its own entry behind the log of the
node `n` the process began with. -/
structure Inv (s : Shared ι Id) : Prop where
  ready : s.node.Ready sure
  peers : s.node.peers = n.peers
  log_eq : pairs s.node.log = pairs n.log ++ s.authors.flatMap fun i => (tasks i).puts
  nodup : s.authors.Nodup
  byPut : ∀ i ∈ s.authors, (tasks i).puts ≠ []

/-- Every action lets the node grow, and appends in the name of its thread only. -/
def sharing : Sharing ι (Shared ι Id) where
  inv := Inv sure n tasks
  keeps s s' := s.node.Grows s'.node ∧ s.authors ⊆ s'.authors
  spares i s s' := i ∈ s'.authors → i ∈ s.authors
  keeps_refl s := ⟨.refl s.node, List.Subset.refl _⟩
  keeps_trans _ _ _ h h' := ⟨h.1.trans h'.1, List.Subset.trans h.2 h'.2⟩
  spares_refl _ _ := id
  spares_trans _ _ _ _ h h' hi := h (h' hi)

/-- The program keeps to what the threads share and throws only what a failed statement
throws. -/
abbrev Does {α : Type} (i : ι) (P : Shared ι Id → Prop) (p : Method ι Id α)
    (Q : α → Shared ι Id → Prop) : Prop :=
  (sharing sure n tasks).Triple i P p Q fun e _ => Failure sure e

end Shares

variable {sure : Prop} {n : RaftNode Id} {tasks : ι → Task Id} {i : ι} {α β : Type}
  {P : Shared ι Id → Prop} {Q : α → Shared ι Id → Prop}

section Kept

/-- No thread shortens the log. -/
theorem kept_le (x : ℤ) : (sharing sure n tasks).Kept fun s => x ≤ s.node.log.length :=
  fun _ _ hk h => h.trans hk.1.length_le

/-- No thread undoes what is found. -/
theorem kept_found (a : ℤ) : (sharing sure n tasks).Kept fun s => s.node.Found sure a :=
  fun _ _ hk h => h.grows hk.1

/-- No thread replaces an entry. -/
theorem kept_entry (k : ℕ) (e : LogEntry) :
    (sharing sure n tasks).Kept fun s => s.node.log[k]? = some e :=
  fun _ _ hk h => hk.1.getElem? h

/-- No thread takes an author away. -/
theorem kept_author (j : ι) : (sharing sure n tasks).Kept fun s => j ∈ s.authors :=
  fun _ _ hk h => hk.2 h

/-- Knowing nothing is kept. -/
theorem kept_true : (sharing sure n tasks).Kept fun _ => True := fun _ _ _ => id

/-- No other thread appends in the name of this one. -/
theorem stable_notMem : (sharing sure n tasks).Stable i fun s => i ∉ s.authors :=
  fun _ _ h hr hc => h (hr.2.2 hc)

end Kept

/-! ## Single steps -/

/-- A step that moves the node keeps the invariant. -/
theorem Inv.guar {s : Shared ι Id} (h : Inv sure n tasks s) {n' : RaftNode Id}
    (hmoves : s.node.Moves sure n') : (sharing sure n tasks).Guar i s { s with node := n' } := by
  refine ⟨⟨hmoves.ready, hmoves.peers.trans h.peers, ?_, h.nodup, h.byPut⟩,
    ⟨hmoves.grows, List.Subset.refl _⟩, fun _ _ => id⟩
  show pairs n'.log = _
  rw [hmoves.log]
  exact h.log_eq

/-- One atomic computation that keeps the log. -/
theorem does_atomically {m : RaftNode.Method Id α} (hP : (sharing sure n tasks).Stable i P)
    (hQ : ∀ a, (sharing sure n tasks).Stable i (Q a))
    (h : ∀ s, Inv sure n tasks s → P s → ∃ a n', m.run s.node = .ok a n' ∧
      s.node.Moves sure n' ∧ Q a { s with node := n' }) :
    Does sure n tasks i P (atomically m) Q := by
  refine Sharing.Triple.atomic hP hQ (fun _ _ _ h _ => h) fun s hinv hs => ?_
  obtain ⟨a, n', hrun, hmoves, hq⟩ := h s hinv hs
  rw [Exec.run_zoom_ok hrun]
  exact ⟨hinv.guar hmoves, hq⟩

/-- A statement whose failure is rethrown. -/
theorem does_rethrow {message : String} {f : Database → α × Database}
    (hP : (sharing sure n tasks).Kept P) (hQ : ∀ a, (sharing sure n tasks).Kept (Q a))
    (h : ∀ s, Inv sure n tasks s → P s →
      s.node.Moves sure (s.node.issued (f s.node.storage.db).2) ∧
      Q (f s.node.storage.db).1 { s with node := s.node.issued (f s.node.storage.db).2 }) :
    Does sure n tasks i P
      (statement (SQLiteStorage.rethrow message (SQLiteStorage.execute f))) Q := by
  refine Sharing.Triple.atomic hP.stable (fun a => (hQ a).stable) (fun _ _ _ h _ => h)
    fun s hinv hs => ?_
  obtain ⟨hmoves, hq⟩ := h s hinv hs
  rcases RaftNode.run_rethrow f hinv.ready.survives message with hrun | ⟨hpending, hrun⟩
  · rw [Exec.run_zoom_ok hrun]
    exact ⟨hinv.guar hmoves, hq⟩
  · rw [Exec.run_zoom_error hrun]
    exact ⟨hinv.guar hinv.ready.skip, fun hsure => hpending (hinv.ready.healthy hsure),
      message, rfl⟩

/-- A statement whose failure is printed and passed over. -/
theorem does_printStackTrace {default : α} {f : Database → α × Database}
    (hP : (sharing sure n tasks).Kept P) (hQ : ∀ a, (sharing sure n tasks).Kept (Q a))
    (h : ∀ s, Inv sure n tasks s → P s →
      s.node.Moves sure (s.node.issued (f s.node.storage.db).2) ∧
      Q (f s.node.storage.db).1 { s with node := s.node.issued (f s.node.storage.db).2 })
    (hdefault : ¬ sure → ∀ s, P s → Q default s) :
    Does sure n tasks i P
      (statement (SQLiteStorage.printStackTrace default (SQLiteStorage.execute f))) Q := by
  refine does_atomically hP.stable (fun a => (hQ a).stable) fun s hinv hs => ?_
  obtain ⟨hmoves, hq⟩ := h s hinv hs
  rcases RaftNode.run_printStackTrace f hinv.ready.survives default with hrun | ⟨hpending, hrun⟩
  · exact ⟨_, _, hrun, hmoves, hq⟩
  · refine ⟨_, _, hrun, hinv.ready.skip, ?_⟩
    have hfails := hdefault (fun hsure => hpending (hinv.ready.healthy hsure)) s hs
    exact hQ default s _ (hinv.guar (i := i) hinv.ready.skip).2.1 hfails

/-- A `SELECT` whose failure is rethrown. -/
theorem does_query {message : String} {f : Database → α} (hP : (sharing sure n tasks).Kept P)
    (hQ : ∀ a, (sharing sure n tasks).Kept (Q a))
    (h : ∀ s, Inv sure n tasks s → P s → Q (f s.node.storage.db) s) :
    Does sure n tasks i P
      (statement (SQLiteStorage.rethrow message (SQLiteStorage.query f))) Q :=
  does_rethrow hP hQ fun s hinv hs =>
    ⟨hinv.ready.skip, hQ _ s _ (hinv.guar (i := i) hinv.ready.skip).2.1 (h s hinv hs)⟩

/-- A `SELECT` that yields `default` when it fails. -/
theorem does_query_default {default : α} {f : Database → α}
    (hP : (sharing sure n tasks).Kept P) (hQ : ∀ a, (sharing sure n tasks).Kept (Q a))
    (h : ∀ s, Inv sure n tasks s → P s → Q (f s.node.storage.db) s)
    (hdefault : ¬ sure → ∀ s, P s → Q default s) :
    Does sure n tasks i P
      (statement (SQLiteStorage.printStackTrace default (SQLiteStorage.query f))) Q :=
  does_printStackTrace hP hQ (fun s hinv hs =>
    ⟨hinv.ready.skip, hQ _ s _ (hinv.guar (i := i) hinv.ready.skip).2.1 (h s hinv hs)⟩) hdefault

/-- Reading a field of the node, with what the invariant says of it. -/
theorem does_read {f : RaftNode Id → α} (hQ : ∀ a, (sharing sure n tasks).Kept (Q a))
    (h : ∀ s, Inv sure n tasks s → Q (f s.node) s) :
    Does sure n tasks i (fun _ => True) (read f) Q := by
  refine does_atomically kept_true.stable (fun a => (hQ a).stable) fun s hinv _ => ?_
  exact ⟨_, _, rfl, ⟨hinv.ready, rfl, rfl, .refl _⟩, h s hinv⟩

/-- Reading a field and learning nothing. -/
theorem does_read_field {f : RaftNode Id → α} (hP : (sharing sure n tasks).Stable i P) :
    Does sure n tasks i P (read f) fun _ => P := by
  refine does_atomically hP (fun _ => hP) fun s hinv hs => ?_
  exact ⟨_, _, rfl, ⟨hinv.ready, rfl, rfl, .refl _⟩, hs⟩

/-- A write of fields that neither the storage nor `nextIndex` is part of. -/
def Aside (f : RaftNode Id → RaftNode Id) : Prop :=
  ∀ n, (f n).storage = n.storage ∧ (f n).nextIndex = n.nextIndex ∧ (f n).peers = n.peers

/-- Writing a field that the invariant does not look at. -/
theorem does_write {f : RaftNode Id → RaftNode Id} (hf : Aside f) :
    Does sure n tasks i (fun _ => True) (write f) fun _ _ => True := by
  refine does_atomically kept_true.stable (fun _ => kept_true.stable) fun s hinv _ => ?_
  obtain ⟨hstorage, hnext, hpeers⟩ := hf s.node
  exact ⟨(), f s.node, rfl, hinv.ready.of_fields hstorage hnext hpeers, trivial⟩

/-- A write of `nextIndex` for one follower. -/
theorem does_write_nextIndex (f : Id) (j : ℤ) :
    Does sure n tasks i (fun s => 1 ≤ j ∧ j - 1 ≤ s.node.log.length)
      (write fun n => { n with nextIndex := n.nextIndex.insert f j }) fun _ _ => True := by
  have hkept := (Sharing.kept_const (C := sharing sure n tasks) (1 ≤ j)).and (kept_le (j - 1))
  refine does_atomically hkept.stable (fun _ => kept_true.stable) fun s hinv hs => ?_
  have hle := hs.2
  exact ⟨(), _, rfl, hinv.ready.insert_nextIndex hs.1 (by omega) f, trivial⟩

/-- A result alters nothing. -/
theorem does_ret {a : α} (hP : (sharing sure n tasks).Stable i P)
    (h : ∀ s, Inv sure n tasks s → P s → Q a s) :
    Does sure n tasks i P (pure a : Method ι Id α) Q :=
  Sharing.Triple.ret hP h

/-- Two statements in a row that leave nothing to know. -/
theorem does_seq {p : Method ι Id α} {q : Method ι Id β} {R : β → Shared ι Id → Prop}
    (hP : (sharing sure n tasks).Kept P) (hp : Does sure n tasks i P p fun _ _ => True)
    (hq : Does sure n tasks i P q R) : Does sure n tasks i P (p >>= fun _ => q) R :=
  Sharing.Triple.bind_frame hP hp fun _ => hq.pre fun _ _ hs => hs.2

/-- Such a write, and what comes after it. -/
theorem does_write_bind {f : RaftNode Id → RaftNode Id} {p : Method ι Id α}
    (hP : (sharing sure n tasks).Kept P) (hf : Aside f) (hp : Does sure n tasks i P p Q) :
    Does sure n tasks i P (write f >>= fun _ => p) Q :=
  does_seq hP ((does_write hf).pre fun _ _ _ => trivial) hp

/-- An index of the log. -/
def Within (j : ℤ) (s : Shared ι Id) : Prop := 0 ≤ j ∧ j ≤ s.node.log.length

omit [DecidableEq Id] in
/-- Index `0` is within every log. -/
theorem within_zero (s : Shared ι Id) : Within 0 s := ⟨le_rfl, Int.natCast_nonneg _⟩

omit [DecidableEq Id] in
/-- An index within the log has its entry. -/
theorem Within.entry {j : ℤ} {s : Shared ι Id} (h : Within j s) (hj : 0 < j) :
    ∃ e, SQLiteStorage.entryAt s.node.log j = some e ∧ s.node.log[(j - 1).toNat]? = some e := by
  have hlt : (j - 1).toNat < s.node.log.length := by
    have := h.2
    omega
  rw [SQLiteStorage.entryAt, if_pos (by omega), List.getElem?_eq_getElem hlt]
  exact ⟨_, rfl, rfl⟩

/-- An index within the log stays within it. -/
theorem kept_within (j : ℤ) : (sharing sure n tasks).Kept (Within j) :=
  (Sharing.kept_const (0 ≤ j)).and (kept_le j)

/-- The last index is within the log when it is read, and later. -/
theorem does_getLastLogIndex :
    Does sure n tasks i (fun _ => True) (statement SQLiteStorage.getLastLogIndex) Within := by
  refine does_query kept_true kept_within fun s _ _ => ?_
  rw [LogTable.maxIndex_getD]
  exact ⟨Int.natCast_nonneg _, le_rfl⟩

/-- A failed read yields `0`, which is an index of every log. -/
theorem does_getCommitIndex :
    Does sure n tasks i (fun _ => True) (statement SQLiteStorage.getCommitIndex) Within :=
  does_query_default kept_true kept_within
    (fun _ hinv _ => ⟨hinv.ready.commitIndex_nonneg, hinv.ready.committed⟩)
    fun _ s _ => within_zero s

/-- What the applied index covers is found. -/
theorem does_getLastApplied :
    Does sure n tasks i (fun _ => True) (statement SQLiteStorage.getLastApplied)
      fun a s => s.node.Found sure a :=
  does_query_default kept_true kept_found (fun _ hinv _ => hinv.ready.applied)
    fun _ s _ => RaftNode.found_zero s.node

/-- The entry at an index of the log is there when it is read. -/
theorem does_entry_bind {j : ℤ} {f : LogEntry → Method ι Id α} (hj : 0 < j)
    (hP : (sharing sure n tasks).Kept P) (hwithin : ∀ s, P s → Within j s)
    (h : ∀ e, Does sure n tasks i (fun s => s.node.log[(j - 1).toNat]? = some e ∧ P s) (f e) Q) :
    Does sure n tasks i P
      (do f (← nonNull (← statement (SQLiteStorage.getLogEntry j)))) Q := by
  have hread : Does sure n tasks i P (statement (SQLiteStorage.getLogEntry j))
      fun own s => ∃ e, own = some e ∧ s.node.log[(j - 1).toNat]? = some e ∧ P s := by
    refine does_query hP (fun own => ?_) fun s hinv hs => ?_
    · rintro s s' hk ⟨e, he, hs⟩
      exact ⟨e, he, ((kept_entry (n := n) _ e).and hP) s s' hk hs⟩
    · obtain ⟨e, he, hlog⟩ := (hwithin s hs).entry hj
      exact ⟨e, (LogTable.selectIndex_eq _ _).trans he, hlog, hs⟩
  refine hread.bind fun own => ?_
  cases own with
  | none =>
      rintro s - ⟨e, he, -⟩
      cases he
  | some own =>
      refine (h own).pre ?_
      rintro s - ⟨e, he, hs⟩
      obtain rfl := Option.some.inj he
      exact hs

/-- The commit index is set within the log. -/
theorem does_setCommitIndex (c : ℤ) :
    Does sure n tasks i (Within c) (statement (SQLiteStorage.setCommitIndex c))
      fun _ _ => True :=
  does_printStackTrace (kept_within c) (fun _ => kept_true)
    (fun _ hinv hc => ⟨hinv.ready.setCommitIndex hc.1 hc.2, trivial⟩) fun _ _ _ => trivial

/-- The applied index is set where its entries are found. -/
theorem does_setLastApplied (a : ℤ) :
    Does sure n tasks i (fun s => s.node.Found sure a) (statement (SQLiteStorage.setLastApplied a))
      fun _ _ => True :=
  does_printStackTrace (kept_found a) (fun _ => kept_true)
    (fun _ hinv ha => ⟨hinv.ready.setLastApplied ha, trivial⟩) fun _ _ _ => trivial

/-! ## Applying committed entries -/

/-- The next entry is applied, or counts as applied though its write has failed. -/
theorem does_applyToStateMachine (a : ℤ) (e : LogEntry) :
    Does sure n tasks i (fun s => s.node.log[a.toNat]? = some e ∧ s.node.Found sure a)
      (statement (SQLiteStorage.updateKeyValue e.key e.value))
      fun _ s => s.node.Found sure (a + 1) := by
  refine does_printStackTrace ((kept_entry _ e).and (kept_found a)) (fun _ => kept_found _)
    (fun s hinv hs => ?_) fun hfails s hs => hs.2.succ hs.1 fun hsure => absurd hsure hfails
  obtain ⟨he, ha⟩ := hs
  have hmoves := hinv.ready.updateKeyValue (List.mem_of_getElem? he)
  refine ⟨hmoves, (ha.grows hmoves.grows).succ (hmoves.grows.getElem? he) fun _ => ?_⟩
  show (Function.update s.node.kvStore e.key (some e.value) e.key).isSome
  rw [Function.update_self]
  rfl

/-- **The loop finds every entry up to the commit index it has read**, whatever the
other threads do to the log, the table and both indices meanwhile. -/
theorem does_applyLoop (rounds : ℕ) : ∀ a : ℤ,
    Does sure n tasks i (fun s => s.node.Found sure a ∧ a + rounds ≤ s.node.log.length)
      (applyLoop a rounds) fun r s => s.node.Found sure r := by
  induction rounds with
  | zero => exact fun a => does_ret ((kept_found a).and (kept_le _)).stable fun s _ hs => hs.1
  | succ rounds ih =>
      intro a s hinv hs
      have ha := hs.1.nonneg
      simp only [applyLoop, applyToStateMachine, bind_assoc]
      refine does_entry_bind (j := a + 1)
        (P := fun s => s.node.Found sure a ∧ a + (rounds + 1 : ℕ) ≤ s.node.log.length)
        (by omega) ((kept_found a).and (kept_le _)) ?_ (fun e => ?_) s hinv hs
      · rintro s ⟨-, hle⟩
        exact ⟨by omega, by push_cast at hle; omega⟩
      · rw [show a + 1 - 1 = a by omega]
        have hP : (sharing sure n tasks).Kept fun s => s.node.log[a.toNat]? = some e ∧
            s.node.Found sure a ∧ a + (rounds + 1 : ℕ) ≤ s.node.log.length :=
          (kept_entry _ e).and ((kept_found a).and (kept_le _))
        refine Sharing.Triple.bind_frame hP ((does_applyToStateMachine a e).pre ?_) fun _ => ?_
        · exact fun s _ hs => ⟨hs.1, hs.2.1⟩
        · refine (ih (a + 1)).pre fun s _ hs => ⟨hs.1, ?_⟩
          have := hs.2.2.2
          push_cast at this
          omega

/-- Applying committed entries ends with an index whose entries are found. -/
theorem does_applyCommittedEntries :
    Does sure n tasks i (fun _ => True) applyCommittedEntries fun _ _ => True := by
  refine does_getLastApplied.bind fun a => ?_
  refine Sharing.Triple.bind_always (kept_found a) does_getCommitIndex fun c => ?_
  refine Sharing.Triple.bind ((does_applyLoop _ a).pre ?_) fun r => does_setLastApplied r
  rintro s - ⟨hc, ha⟩
  refine ⟨ha, ?_⟩
  have hle := ha.le
  have hle' := hc.2
  omega

/-! ## `appendEntries` -/

/-- The entries are in the log from index `j` on. -/
def Holds (j : ℤ) (es : List LogEntry) (s : Shared ι Id) : Prop :=
  0 < j ∧ es <+: s.node.log.drop (j - 1).toNat

omit [DecidableEq Id] in
/-- The first of the entries is in the log, and the others are from the next index on. -/
theorem Holds.head {j : ℤ} {e : LogEntry} {es : List LogEntry} {s : Shared ι Id}
    (h : Holds j (e :: es) s) :
    Within j s ∧ s.node.log[(j - 1).toNat]? = some e ∧ Holds (j + 1) es s := by
  obtain ⟨hj, l, hl⟩ := h
  have hget : s.node.log[(j - 1).toNat]? = some e := by
    have := congrArg List.head? hl
    rwa [List.head?_drop, List.cons_append, List.head?_cons, eq_comm] at this
  have hlt := (List.getElem?_eq_some_iff.mp hget).1
  refine ⟨⟨hj.le, by omega⟩, hget, by omega, l, ?_⟩
  have htail := congrArg List.tail hl
  rw [List.tail_drop, List.cons_append, List.tail_cons] at htail
  rw [htail]
  congr 1
  omega

/-- Entries that are in the log stay there. -/
theorem kept_holds (j : ℤ) (es : List LogEntry) : (sharing sure n tasks).Kept (Holds j es) := by
  rintro s s' ⟨hgrows, -⟩ ⟨hj, hes⟩
  obtain ⟨l, hl⟩ := hgrows.log
  refine ⟨hj, hes.trans ?_⟩
  rw [← hl, List.drop_append]
  exact List.prefix_append _ _

/-- An entry that is in its place is left there. -/
theorem does_mergeEntry (j : ℤ) (e : LogEntry) (es : List LogEntry) :
    Does sure n tasks i (Holds j (e :: es)) (mergeEntry j e) fun _ _ => True := by
  intro s hinv hs
  have hj := hs.1
  have hlast : Does sure n tasks i (Holds j (e :: es)) (statement SQLiteStorage.getLastLogIndex)
      fun last s => j ≤ last ∧ Holds j (e :: es) s := by
    refine does_query (kept_holds j _)
      (fun last => (Sharing.kept_const _).and (kept_holds j _)) fun s _ hs => ⟨?_, hs⟩
    rw [LogTable.maxIndex_getD]
    exact hs.head.1.2
  revert s
  refine Sharing.Triple.bind hlast fun last => ?_
  split_ifs with hle
  · refine does_entry_bind hj ((Sharing.kept_const _).and (kept_holds j _))
      (fun s hs => hs.2.head.1) fun own => ?_
    split_ifs with hterm
    · -- the term is that of the entry itself
      rintro s - ⟨hown, -, hs⟩
      rw [hs.head.2.1] at hown
      exact absurd (congrArg LogEntry.term (Option.some.inj hown)).symm hterm
    · exact does_ret ((kept_entry _ _).and
        ((Sharing.kept_const _).and (kept_holds j _))).stable fun _ _ _ => trivial
  · rintro s - ⟨hlast, -⟩
    exact absurd hlast hle

/-- The merge of entries that are in the log, by induction on the entries. -/
theorem does_mergeLoop (es : List LogEntry) : ∀ j : ℤ,
    Does sure n tasks i (Holds j es) (mergeLoop j es) fun _ _ => True := by
  induction es with
  | nil => exact fun j => does_ret (kept_holds j []).stable fun _ _ _ => trivial
  | cons e es ih =>
      intro j
      refine does_seq (kept_holds j _) (does_mergeEntry j e es) ((ih (j + 1)).pre ?_)
      exact fun s _ hs => hs.head.2.2

/-- The log check reads an entry within the log. -/
theorem does_logMismatch (j t : ℤ) :
    Does sure n tasks i (fun _ => True) (logMismatch j t) fun _ _ => True := by
  refine Sharing.Triple.bind does_getLastLogIndex fun last => ?_
  split_ifs with hlt hpos
  · exact does_ret (kept_within last).stable fun _ _ _ => trivial
  · refine does_entry_bind hpos (kept_within last) (fun s hs => ?_) fun own => ?_
    · have := hs.2
      exact ⟨by omega, by omega⟩
    · exact does_ret ((kept_entry _ _).and (kept_within last)).stable fun _ _ _ => trivial
  · exact does_ret (kept_within last).stable fun _ _ _ => trivial

/-- Following a leader's commit index stops at the end of the log. -/
theorem does_followCommit (c : ℤ) :
    Does sure n tasks i (fun _ => True) (followCommit c) fun _ _ => True := by
  refine Sharing.Triple.bind does_getCommitIndex fun own => ?_
  split_ifs with hlt
  · refine Sharing.Triple.bind_always (kept_within own) does_getLastLogIndex fun last => ?_
    refine Sharing.Triple.bind ((does_setCommitIndex _).pre ?_) fun _ => does_applyCommittedEntries
    rintro s - ⟨hlast, hown⟩
    have h0 := hown.1
    have h1 := hlast.1
    have h2 := hlast.2
    exact ⟨by omega, by omega⟩
  · exact does_ret (kept_within own).stable fun _ _ _ => trivial

/-- Stepping down writes the role, the term and the vote. -/
theorem does_stepDown (t : ℤ) :
    Does sure n tasks i (fun _ => True) (stepDown t) fun _ _ => True := by
  unfold stepDown writeTerm writeRole
  iterate 4 refine does_write_bind kept_true (fun _ => ⟨rfl, rfl, rfl⟩) ?_
  exact does_write fun _ => ⟨rfl, rfl, rfl⟩

/-- A greater term makes the node step down. -/
theorem does_observeTerm (t : ℤ) :
    Does sure n tasks i (fun _ => True) (observeTerm t) fun _ _ => True := by
  refine (does_read_field kept_true.stable).bind fun own => ?_
  split_ifs
  · exact does_stepDown t
  · exact does_ret kept_true.stable fun _ _ _ => trivial

/-- The timer is none of the invariant's business. -/
theorem does_resetElectionTimer :
    Does sure n tasks i (fun _ => True) resetElectionTimer fun _ _ => True := by
  unfold resetElectionTimer
  refine does_write_bind kept_true (fun _ => ⟨rfl, rfl, rfl⟩) ?_
  exact does_write fun _ => ⟨rfl, rfl, rfl⟩

/-- **A call with entries the log already holds deletes nothing and appends
nothing.** -/
theorem does_appendEntries (req : AppendEntriesRequest Id) :
    Does sure n tasks i (Holds (req.prevLogIndex + 1) req.entries) (appendEntries req)
      fun _ _ => True := by
  have hP : (sharing sure n tasks).Kept (Holds (req.prevLogIndex + 1) req.entries) := kept_holds _ _
  refine Sharing.Triple.locked ?_ .write
  refine (does_read_field hP.stable).bind fun own => ?_
  split_ifs
  · exact does_ret hP.stable fun _ _ _ => trivial
  · refine does_seq hP ((does_observeTerm req.term).pre fun _ _ _ => trivial) ?_
    refine does_seq hP (does_resetElectionTimer.pre fun _ _ _ => trivial) ?_
    refine Sharing.Triple.bind_always hP (does_logMismatch _ _) fun refused => ?_
    split_ifs
    · exact does_ret (kept_true.and hP).stable fun _ _ _ => trivial
    · refine Sharing.Triple.bind ((does_mergeLoop _ _).pre fun _ _ hs => hs.2) fun _ => ?_
      exact (does_followCommit _).bind fun _ => does_ret kept_true.stable fun _ _ _ => trivial

/-! ## Replication by the leader -/

/-- Counting reads `matchIndex` peer by peer. -/
theorem does_countReplicas (j : ℤ) (fs : List Id) : ∀ count : ℕ,
    Does sure n tasks i (fun _ => True) (countReplicas j fs count) fun _ _ => True := by
  induction fs with
  | nil => exact fun count => does_ret kept_true.stable fun _ _ _ => trivial
  | cons f fs ih => exact fun count => (does_read_field kept_true.stable).bind fun _ => ih _

/-- The count is nothing that would last. -/
theorem does_replicationCount (j : ℤ) :
    Does sure n tasks i (fun _ => True) (replicationCount j) fun _ _ => True :=
  (does_read_field kept_true.stable).bind fun keys => does_countReplicas j keys 1

/-- One round of the commit rule, at an index within the log. -/
theorem does_tryCommit (j : ℤ) :
    Does sure n tasks i (fun s => 0 < j ∧ Within j s) (tryCommit j) fun _ _ => True := by
  have hP : (sharing sure n tasks).Kept fun s => 0 < j ∧ Within j s :=
    (Sharing.kept_const _).and (kept_within j)
  intro s hinv hs
  have hj := hs.1
  revert s
  refine does_entry_bind hj hP (fun _ hs => hs.2) fun entry => ?_
  have hP' := (kept_entry (n := n) (j - 1).toNat entry).and hP
  refine Sharing.Triple.bind (does_read_field hP'.stable) fun term => ?_
  split_ifs
  · refine Sharing.Triple.bind_always hP' (does_replicationCount j) fun count => ?_
    refine Sharing.Triple.bind (does_read_field (kept_true.and hP').stable) fun peers => ?_
    split_ifs
    · refine Sharing.Triple.bind ((does_setCommitIndex j).pre ?_) fun _ =>
        does_applyCommittedEntries
      exact fun _ _ hs => hs.2.2.2
    · exact does_ret (kept_true.and hP').stable fun _ _ _ => trivial
  · exact does_ret hP'.stable fun _ _ _ => trivial

/-- The rounds of the commit rule, by induction on how many are left. -/
theorem does_commitLoop (rounds : ℕ) : ∀ j : ℤ,
    Does sure n tasks i (fun s => 0 < j ∧ j + rounds - 1 ≤ s.node.log.length) (commitLoop j rounds)
      fun _ _ => True := by
  induction rounds with
  | zero =>
      exact fun j => does_ret ((Sharing.kept_const _).and (kept_le _)).stable fun _ _ _ => trivial
  | succ rounds ih =>
      intro j
      refine does_seq ((Sharing.kept_const _).and (kept_le _)) ((does_tryCommit j).pre ?_)
        ((ih (j + 1)).pre ?_)
      · rintro s - ⟨hj, hle⟩
        push_cast at hle
        exact ⟨hj, by omega, by omega⟩
      · rintro s - ⟨hj, hle⟩
        push_cast at hle
        exact ⟨by omega, by omega⟩

/-- The commit rule stays within the log. -/
theorem does_updateCommitIndex :
    Does sure n tasks i (fun _ => True) updateCommitIndex fun _ _ => True := by
  refine Sharing.Triple.bind does_getLastLogIndex fun last => ?_
  refine Sharing.Triple.bind_always (kept_within last) does_getCommitIndex fun c => ?_
  refine (does_commitLoop _ _).pre ?_
  rintro s - ⟨⟨hc, hle⟩, -, hlast⟩
  exact ⟨by omega, by omega⟩

/-- Entries that are read are in the log from their index on. -/
theorem does_getLogEntries {j : ℤ} (hj : 0 < j) (k : ℤ) :
    Does sure n tasks i (fun _ => True) (statement (SQLiteStorage.getLogEntries j k))
      (Holds j) := by
  refine does_query kept_true (kept_holds j) fun s _ _ => ⟨hj, ?_⟩
  rw [LogTable.selectRange_eq]
  exact (List.take_prefix k.toNat s.node.log).drop (j - 1).toNat

/-- The previous term is read at an index within the log. -/
theorem does_prevLogTerm (j : ℤ) :
    Does sure n tasks i (Within j) (prevLogTerm j) fun _ _ => True := by
  unfold prevLogTerm
  split_ifs with hj
  · refine does_entry_bind hj (kept_within j) (fun _ => id) fun own => ?_
    exact does_ret ((kept_entry _ _).and (kept_within j)).stable fun _ _ _ => trivial
  · exact does_ret (kept_within j).stable fun _ _ _ => trivial

/-- The entries of a request are in the log, from the index on that it names. -/
theorem does_buildAppendEntries (f : Id) :
    Does sure n tasks i (fun _ => True) (buildAppendEntries f)
      fun req => Holds (req.prevLogIndex + 1) req.entries := by
  have hread : Does sure n tasks i (fun _ => True) (read fun node => node.nextIdx f)
      fun j => Within (j - 1) := by
    refine does_read (fun j => kept_within (j - 1)) fun s hinv => ?_
    have hpos := hinv.ready.nextIdx_pos f
    have hle := hinv.ready.inReach f
    exact ⟨by omega, by omega⟩
  refine Sharing.Triple.bind hread fun j => ?_
  refine Sharing.Triple.bind_always (kept_within _) does_getLastLogIndex fun last => ?_
  intro s hinv hs
  have hj := hs.2.1
  revert s
  have hP : (sharing sure n tasks).Kept fun s => Within last s ∧ Within (j - 1) s :=
    (kept_within last).and (kept_within (j - 1))
  refine Sharing.Triple.bind_always hP (does_getLogEntries (by omega) last) fun es => ?_
  have hP' := (kept_holds (n := n) j es).and hP
  refine Sharing.Triple.bind_frame hP' ((does_prevLogTerm (j - 1)).pre fun _ _ hs => hs.2.2)
    fun t => ?_
  refine Sharing.Triple.bind (does_read_field (kept_true.and hP').stable) fun term => ?_
  refine Sharing.Triple.bind_always (kept_true.and hP') does_getCommitIndex fun c => ?_
  refine does_ret ((kept_within c).and (kept_true.and hP')).stable fun s _ hs => ?_
  show Holds (j - 1 + 1) es s
  rw [sub_add_cancel]
  exact hs.2.2.1

/-- A recorded answer moves `nextIndex` and `matchIndex`, and runs the commit rule. -/
theorem does_recordAppendEntries (f : Id) (success : Bool) :
    Does sure n tasks i (fun _ => True) (recordAppendEntries f success) fun _ _ => True := by
  unfold recordAppendEntries
  split_ifs
  · refine Sharing.Triple.bind does_getLastLogIndex fun last => ?_
    refine Sharing.Triple.bind ((does_write_nextIndex f (last + 1)).pre ?_) fun _ => ?_
    · rintro s - ⟨h0, hle⟩
      exact ⟨by omega, by omega⟩
    · refine Sharing.Triple.bind does_getLastLogIndex fun last => ?_
      refine does_write_bind (kept_within last) (fun _ => ⟨rfl, rfl, rfl⟩) ?_
      exact does_updateCommitIndex.pre fun _ _ _ => trivial
  · have hread : Does sure n tasks i (fun _ => True) (read fun node => node.nextIdx f)
        fun j s => j - 1 ≤ s.node.log.length := by
      refine does_read (fun j => kept_le (j - 1)) fun s hinv => ?_
      have hle := hinv.ready.inReach f
      omega
    refine Sharing.Triple.bind hread fun j => (does_write_nextIndex f _).pre fun s _ hs => ?_
    exact ⟨by omega, by omega⟩

/-- A send hands the node entries it already holds. -/
theorem does_sendAppendEntries (f : Id) :
    Does sure n tasks i (fun _ => True) (sendAppendEntries f) fun _ _ => True :=
  Sharing.Triple.bind (does_buildAppendEntries f) fun req =>
    (does_appendEntries req).bind fun success => does_recordAppendEntries f success

/-- A replication that ends answers `true`. -/
theorem does_replicateEntry (j : ℤ) :
    Does sure n tasks i (fun _ => True) (replicateEntry j) fun b _ => b = true := by
  have hsends : ∀ fs : List Id,
      Does sure n tasks i (fun _ => True) (sendAll fs) fun _ _ => True := by
    intro fs
    induction fs with
    | nil => exact does_ret kept_true.stable fun _ _ _ => trivial
    | cons f fs ih => exact (does_sendAppendEntries f).bind fun _ => ih
  refine (does_read_field kept_true.stable).bind fun peers => (hsends peers).bind fun _ => ?_
  exact does_updateCommitIndex.bind fun _ => does_ret kept_true.stable fun _ _ _ => rfl

/-- The put of thread `i` is appended, and `i` becomes an author; if the statement fails,
the call ends. -/
theorem does_appendLogEntry {key value : String} (htask : tasks i = .put key value) (t : ℤ) :
    Does sure n tasks i (fun s => i ∉ s.authors) (appendLogEntry i ⟨t, key, value⟩)
      fun _ s => i ∈ s.authors := by
  refine Sharing.Triple.atomic stable_notMem (fun _ => (kept_author i).stable)
    (fun _ _ _ h _ => h) fun s hinv hi => ?_
  have hrun : (RaftNode.onStorage (SQLiteStorage.appendLogEntry ⟨t, key, value⟩) :
        RaftNode.Method Id ℤ).run s.node = .ok _ _ ∨ s.node.pending ≠ [] ∧
      (RaftNode.onStorage (SQLiteStorage.appendLogEntry ⟨t, key, value⟩)).run s.node
        = .error _ _ := RaftNode.run_rethrow _ hinv.ready.survives _
  rcases hrun with hrun | ⟨hpending, hrun⟩
  · obtain ⟨hready, hlog, hgrows⟩ := hinv.ready.appendLogEntry ⟨t, key, value⟩
    rw [Exec.run_bind_ok (Exec.run_zoom_ok hrun)]
    refine ⟨⟨⟨hready, hinv.peers, ?_, ?_, ?_⟩, ⟨hgrows, List.subset_append_left _ _⟩, ?_⟩, ?_⟩
    · refine (congrArg pairs hlog).trans ?_
      rw [pairs_append, List.flatMap_append, ← List.append_assoc, ← hinv.log_eq,
        List.flatMap_singleton, htask]
      rfl
    · exact List.nodup_append.mpr ⟨hinv.nodup, List.nodup_singleton i,
        fun a ha b hb hab => hi (by rwa [← List.mem_singleton.mp hb, ← hab])⟩
    · intro j hj
      rcases List.mem_append.mp hj with hj | hj
      · exact hinv.byPut j hj
      · rw [List.mem_singleton.mp hj, htask]
        exact List.cons_ne_nil _ _
    · intro j hji hj
      rcases List.mem_append.mp hj with hj | hj
      · exact hj
      · exact absurd (List.mem_singleton.mp hj) hji
    · exact List.mem_append_right _ List.mem_cons_self
  · rw [Exec.run_bind_error (Exec.run_zoom_error hrun)]
    exact ⟨hinv.guar hinv.ready.skip, fun hsure => hpending (hinv.ready.healthy hsure), _, rfl⟩

/-- **A put is answered `true` exactly when its entry is in the log.** -/
theorem does_proposeEntry {key value : String} (htask : tasks i = .put key value) :
    Does sure n tasks i (fun s => i ∉ s.authors) (proposeEntry i key value)
      fun b s => b = true ↔ i ∈ s.authors := by
  refine Sharing.Triple.bind (does_read_field stable_notMem) fun role => ?_
  split_ifs
  · exact does_ret stable_notMem fun s _ hi => iff_of_false Bool.false_ne_true hi
  · refine Sharing.Triple.bind (does_read_field stable_notMem) fun t => ?_
    refine Sharing.Triple.bind (does_appendLogEntry htask t) fun _ => ?_
    refine Sharing.Triple.bind_always (kept_author i) does_getLastLogIndex fun last => ?_
    refine Sharing.Triple.post (fun s hinv hs => (does_replicateEntry last s hinv trivial).frame
      (kept_author i) hs.2) fun b s _ hb => ?_
    exact iff_of_true hb.1 hb.2

/-! ## Elections -/

/-- An election only reads the tables. -/
theorem does_startElection :
    Does sure n tasks i (fun _ => True) startElection fun _ _ => True := by
  have hterm : Does sure n tasks i (fun _ => True) getLastLogTerm fun _ _ => True := by
    refine Sharing.Triple.bind does_getLastLogIndex fun last => ?_
    split_ifs
    · refine Sharing.Triple.bind_always (kept_within last) (does_query (Q := fun _ _ => True)
        kept_true (fun _ => kept_true) fun _ _ _ => trivial) fun entry => ?_
      cases entry <;> exact does_ret (kept_true.and (kept_within last)).stable fun _ _ _ => trivial
    · exact does_ret (kept_within last).stable fun _ _ _ => trivial
  unfold startElection
  refine does_write_bind kept_true (fun _ => ⟨rfl, rfl, rfl⟩) ?_
  refine Sharing.Triple.bind (does_read_field kept_true.stable) fun term => ?_
  refine does_write_bind kept_true (fun _ => ⟨rfl, rfl, rfl⟩) ?_
  refine does_write_bind kept_true (fun _ => ⟨rfl, rfl, rfl⟩) ?_
  refine Sharing.Triple.bind_always kept_true does_getLastLogIndex fun last => ?_
  refine Sharing.Triple.bind (hterm.pre fun _ _ _ => trivial) fun _ => ?_
  exact does_ret kept_true.stable fun _ _ _ => trivial

/-- A vote response may make the node step down. -/
theorem does_requestVote (response : Option RequestVoteResponse) :
    Does sure n tasks i (fun _ => True) (requestVote response) fun _ _ => True := by
  refine Sharing.Triple.locked ?_ .read
  refine (does_read_field kept_true.stable).bind fun term => ?_
  cases response with
  | none => exact does_ret kept_true.stable fun _ _ _ => trivial
  | some r =>
      refine (does_read_field kept_true.stable).bind fun own => ?_
      split_ifs
      · exact (does_stepDown r.term).bind fun _ => does_ret kept_true.stable fun _ _ _ => trivial
      · exact does_ret kept_true.stable fun _ _ _ => trivial

/-- `becomeLeader` sets every `nextIndex` past the end of the log. -/
theorem does_becomeLeader :
    Does sure n tasks i (fun _ => True) becomeLeader fun _ _ => True := by
  have hreset : ∀ (last : ℤ) (fs : List Id),
      Does sure n tasks i (Within last) (resetIndices last fs) fun _ _ => True := by
    intro last fs
    induction fs with
    | nil => exact does_ret (kept_within last).stable fun _ _ _ => trivial
    | cons f fs ih =>
        refine does_seq (kept_within last) ((does_write_nextIndex f (last + 1)).pre ?_) ?_
        · rintro s - ⟨h0, hle⟩
          exact ⟨by omega, by omega⟩
        · exact does_write_bind (kept_within last) (fun _ => ⟨rfl, rfl, rfl⟩) ih
  unfold becomeLeader writeRole
  refine does_write_bind kept_true (fun _ => ⟨rfl, rfl, rfl⟩) ?_
  refine Sharing.Triple.bind does_getLastLogIndex fun last => ?_
  exact Sharing.Triple.bind (does_read_field (kept_within last).stable)
    fun peers => hreset last peers

/-! ## Tasks -/

/-- No thread takes a key out of the table. -/
theorem kept_key (key : String) :
    (sharing sure n tasks).Kept fun s => (s.node.kvStore key).isSome :=
  fun _ _ hk h => hk.1.found key h

/-- No thread takes a pair out of the log. -/
theorem kept_pair (p : String × String) :
    (sharing sure n tasks).Kept fun s => p ∈ pairs s.node.log :=
  fun _ _ hk h => (hk.1.log.map _).subset h

/-- A get answers what the table holds when the thread reads it, or nothing when the
statement fails. -/
theorem does_get {key : String} (htask : tasks i = .get key)
    {R : Option String → Shared ι Id → Prop} (hP : (sharing sure n tasks).Kept P)
    (hR : ∀ v, (sharing sure n tasks).Kept (R v))
    (h : ∀ s, Inv sure n tasks s → P s → R (s.node.kvStore key) s)
    (hfails : ¬ sure → ∀ s, P s → R none s) :
    Does sure n tasks i P ((tasks i).body i)
      fun a s => ∃ v, a = .get ⟨v.getD "", v.isSome⟩ ∧ R v s := by
  rw [htask]
  have hread : Does sure n tasks i P (statement (SQLiteStorage.get key)) R :=
    does_query_default hP hR h hfails
  exact Sharing.Triple.bind hread fun v => does_ret (hR v).stable fun s _ hv => ⟨v, rfl, hv⟩

/-- What a thread knows when its task has been answered. -/
def Task.Answered (task : Task Id) (i : ι) (a : Answer) (s : Shared ι Id) : Prop :=
  match task with
  | .put _ _ => ∃ b, a = .put ⟨b⟩ ∧ (b = true ↔ i ∈ s.authors)
  | .get key => ∃ v : Option String, a = .get ⟨v.getD "", v.isSome⟩ ∧
      ∀ value, v = some value → (key, value) ∈ pairs s.node.log
  | _ => ∀ response, a ≠ .put response

/-- **Every task keeps to what the threads share**, throws nothing but what a failed
statement throws, and answers as it should. -/
theorem does_body (i : ι) :
    Does sure n tasks i (fun s => i ∉ s.authors) ((tasks i).body i) ((tasks i).Answered i) := by
  -- a task that is neither a put nor a get
  have hplain : ∀ {α : Type} {p : Method ι Id α} {f : α → Answer},
      (∀ x response, f x ≠ .put response) →
      Does sure n tasks i (fun _ => True) p (fun _ _ => True) →
      Does sure n tasks i (fun s => i ∉ s.authors) (do return f (← p))
        fun a _ => ∀ response, a ≠ .put response :=
    fun hf hp => (hp.bind fun x => does_ret kept_true.stable fun _ _ _ => hf x).pre
      fun _ _ _ => trivial
  cases htask : tasks i with
  | put key value =>
      refine Sharing.Triple.bind (does_proposeEntry htask) fun b => ?_
      refine does_ret ?_ fun s _ hb => ⟨b, rfl, hb⟩
      -- an author stays one, and nobody else makes it one
      intro s s' hb hr
      exact hb.trans ⟨fun hi => hr.2.1.2 hi, fun hi => hr.2.2 hi⟩
  | get key =>
      have hget : Does sure n tasks i (fun _ => True) ((tasks i).body i) fun a s =>
          ∃ v : Option String, a = .get ⟨v.getD "", v.isSome⟩ ∧
          ∀ value, v = some value → (key, value) ∈ pairs s.node.log := by
        refine does_get htask kept_true (fun v s s' hk h value hv => ?_) (fun s hinv _ => ?_)
          fun _ _ _ value hv => nomatch hv
        · exact kept_pair (n := n) (key, value) s s' hk (h value hv)
        · exact hinv.ready.sourced key
      rw [htask] at hget
      exact hget.pre fun _ _ _ => trivial
  | sendAppendEntries f => exact hplain (fun _ _ => nofun) (does_sendAppendEntries f)
  | startElection => exact hplain (fun _ _ => nofun) does_startElection
  | leaderElectionTask =>
      refine hplain (fun _ _ => nofun) ((does_read_field kept_true.stable).bind fun role => ?_)
      split_ifs
      · exact does_startElection.bind fun _ => does_ret kept_true.stable fun _ _ _ => trivial
      · exact does_ret kept_true.stable fun _ _ _ => trivial
  | requestVote response => exact hplain (fun _ _ => nofun) (does_requestVote response)
  | becomeLeader => exact hplain (fun _ _ => nofun) does_becomeLeader

/-! ## Processes -/

/-- A process that has just been started on the node's database, with the calls that
will be made. -/
def boot (n : RaftNode Id) (tasks : ι → Task Id) : System ι JavaException (Shared ι Id) Answer :=
  System.start ⟨n, []⟩ fun i => (tasks i).body i

/-- A process that has just been started keeps the invariant. -/
theorem sound_boot (h : n.Ready sure) (tasks : ι → Task Id) :
    (sharing sure n tasks).Sound (fun i => (tasks i).Answered i) (fun _ e _ => Failure sure e)
      (boot n tasks) := by
  have hinv : Inv sure n tasks ⟨n, []⟩ :=
    ⟨h, rfl, (List.append_nil _).symm, List.nodup_nil, fun _ hi => nomatch hi⟩
  exact ⟨hinv, fun i => does_body i _ hinv List.not_mem_nil⟩

section After

variable [DecidableEq ι]

/-- So does every moment of every schedule, and the log only grows. -/
theorem sound_after (h : n.Ready sure) (tasks : ι → Task Id) (sched : List ι) :
    (sharing sure n tasks).Sound (fun i => (tasks i).Answered i) (fun _ e _ => Failure sure e)
      (Run.run System.step (boot n tasks) sched) ∧
    n.Grows (Run.run System.step (boot n tasks) sched).state.node := by
  obtain ⟨hsound, hkeeps, -⟩ := Sharing.sound_run (sound_boot h tasks) sched
  exact ⟨hsound, hkeeps⟩

/-- From any moment on the log is only appended to. -/
theorem log_prefix_of_sound {tasks : ι → Task Id}
    {S : System ι JavaException (Shared ι Id) Answer}
    (h : (sharing sure n tasks).Sound (fun i => (tasks i).Answered i)
      (fun _ e _ => Failure sure e) S) (later : List ι) :
    S.state.node.log <+: (Run.run System.step S later).state.node.log := by
  obtain ⟨-, hkeeps, -⟩ := Sharing.sound_run h later
  exact hkeeps.log

/-- The authors are puts, among them all that were answered `true` and none that was
answered `false`. -/
theorem authors_after (h : n.Ready sure) (tasks : ι → Task Id) (sched : List ι) :
    let S := Run.run System.step (boot n tasks) sched
    (∀ i ∈ S.state.authors, ∃ key value, tasks i = .put key value) ∧
      ∀ i b, (S.prog i).returned = some (.put ⟨b⟩) → (b = true ↔ i ∈ S.state.authors) := by
  intro S
  obtain ⟨hsound, -⟩ := sound_after h tasks sched
  constructor
  · intro i hi
    have hputs := hsound.inv.byPut i hi
    cases htask : tasks i with
    | put key value => exact ⟨key, value, rfl⟩
    | _ =>
        rw [htask] at hputs
        exact absurd rfl hputs
  · intro i b hi
    have hq := hsound.of_ret (Prog.eq_ret_of_returned hi)
    unfold Task.Answered at hq
    split at hq
    · obtain ⟨b', hb', hiff⟩ := hq
      injection hb' with hb'
      injection hb' with hb'
      rwa [hb']
    · obtain ⟨v, hv, -⟩ := hq
      cases hv
    · exact absurd rfl (hq _)

/-- What a get finds was in the log when the process began, or some put has put it. -/
theorem get_after (h : n.Ready sure) (tasks : ι → Task Id) (sched : List ι) {j : ι}
    {key : String} (htask : tasks j = .get key) {r : GetResponse}
    (hr : ((Run.run System.step (boot n tasks) sched).prog j).returned = some (.get r))
    (hfound : r.found = true) :
    (key, r.value) ∈ pairs n.log ∨ ∃ i, tasks i = .put key r.value := by
  obtain ⟨hsound, -⟩ := sound_after h tasks sched
  have hq := hsound.of_ret (Prog.eq_ret_of_returned hr)
  rw [htask] at hq
  obtain ⟨v, hv, hpairs⟩ := hq
  injection hv with hv
  subst hv
  obtain ⟨value, rfl⟩ := Option.isSome_iff_exists.mp hfound
  have hmem := hpairs value rfl
  rw [hsound.inv.log_eq, List.mem_append, List.mem_flatMap] at hmem
  rcases hmem with hmem | ⟨i, -, hputs⟩
  · exact Or.inl hmem
  · refine Or.inr ⟨i, ?_⟩
    cases hi : tasks i with
    | put k v =>
        rw [hi] at hputs
        obtain ⟨rfl, rfl⟩ := Prod.mk.inj (List.mem_singleton.mp hputs)
        rfl
    | _ =>
        rw [hi] at hputs
        cases hputs

end After

variable [DecidableEq ι]

/-- The calls one process gets and the steps it takes before it is killed. -/
structure Lifetime (ι Id : Type) where
  tasks : ι → Task Id
  sched : List ι

/-- The node of the next process, on the database the one before left when it was
killed between two statements. -/
def reboot (n : RaftNode Id) (life : Lifetime ι Id) : RaftNode Id :=
  (Run.run System.step (boot n life.tasks) life.sched).state.node.restart

/-- The node that a server comes up with after the given lifetimes. -/
abbrev rebooted (nodeId : Id) (peerIds : List Id) (lives : List (Lifetime ι Id)) : RaftNode Id :=
  Run.run reboot (RaftNode.fresh nodeId peerIds) lives

/-- Every process starts on a node that is ready. -/
theorem ready_rebooted (nodeId : Id) (peerIds : List Id) (lives : List (Lifetime ι Id)) :
    (rebooted nodeId peerIds lives).Ready True := by
  refine Run.run_invariant (P := RaftNode.Ready True) ?_
    (RaftNode.ready_fresh nodeId peerIds) lives
  exact fun n life hn => (sound_after hn life.tasks life.sched).1.inv.ready.restart

/-! ## Main results -/

/-- **No interleaving brings a server down.**  Whatever calls were made to this process and
to those before it, in whatever order their statements came, and whenever the earlier
processes were killed: no call throws, between any two moments the log is only appended
to, both indices stay within it, every entry applied has its key in the table, and the
table holds nothing that the log does not. -/
theorem interleavings_keep_log (nodeId : Id) (peerIds : List Id) (lives : List (Lifetime ι Id))
    (tasks : ι → Task Id) (sched : List ι) :
    let n := rebooted nodeId peerIds lives
    let S := Run.run System.step (boot n tasks) sched
    (∀ i e, S.prog i ≠ .throw e) ∧ n.log <+: S.state.node.log ∧
      (∀ later, S.state.node.log <+: (Run.run System.step S later).state.node.log) ∧
      (0 ≤ S.state.node.commitIndex ∧ S.state.node.commitIndex ≤ S.state.node.log.length) ∧
      (0 ≤ S.state.node.lastApplied ∧ S.state.node.lastApplied ≤ S.state.node.log.length) ∧
      (∀ e ∈ S.state.node.log.take S.state.node.lastApplied.toNat,
        (S.state.node.kvStore e.key).isSome) ∧
      ∀ key value, S.state.node.kvStore key = some value →
        (key, value) ∈ pairs S.state.node.log := by
  intro n S
  obtain ⟨hsound, hgrows⟩ := sound_after (ready_rebooted nodeId peerIds lives) tasks sched
  have hready := hsound.inv.ready
  exact ⟨fun i e hp => (hsound.of_throw hp).1 trivial, hgrows.log, log_prefix_of_sound hsound,
    ⟨hready.commitIndex_nonneg, hready.committed⟩,
    ⟨hready.applied.nonneg, hready.applied.le⟩, hready.applied.present trivial, hready.sourced⟩

/-- **A put takes effect exactly once if it is answered `true` and never if it is answered
`false`.**  At every moment of every interleaving, what the log has gained since the process
began are the entries of different puts, among them all that were answered `true` and none
that was answered `false`. -/
theorem puts_take_effect_once (nodeId : Id) (peerIds : List Id) (lives : List (Lifetime ι Id))
    (tasks : ι → Task Id) (sched : List ι) :
    let n := rebooted nodeId peerIds lives
    let S := Run.run System.step (boot n tasks) sched
    ∃ authors : List ι, authors.Nodup ∧
      pairs S.state.node.log = pairs n.log ++ authors.flatMap (fun i => (tasks i).puts) ∧
      (∀ i ∈ authors, ∃ key value, tasks i = .put key value) ∧
      (∀ i, (S.prog i).returned = some (.put ⟨true⟩) → i ∈ authors) ∧
      ∀ i, (S.prog i).returned = some (.put ⟨false⟩) → i ∉ authors := by
  intro n S
  have hready := ready_rebooted nodeId peerIds lives
  obtain ⟨hsound, -⟩ := sound_after hready tasks sched
  obtain ⟨hputs, hanswered⟩ := authors_after hready tasks sched
  refine ⟨S.state.authors, hsound.inv.nodup, hsound.inv.log_eq, hputs, ?_, ?_⟩
  · exact fun i hi => (hanswered i true hi).mp rfl
  · exact fun i hi hmem => Bool.false_ne_true ((hanswered i false hi).mpr hmem)

/-- **What a get may answer in an interleaving.**  A value it finds was in the log when the
process began or is the value of a put to its key; and a key that was in the table at some
moment is found by every get whose first step comes later. -/
theorem get_answers_puts (nodeId : Id) (peerIds : List Id) (lives : List (Lifetime ι Id))
    (tasks : ι → Task Id) (before after : List ι) {j : ι} (hj : j ∉ before) {key : String}
    (htask : tasks j = .get key) :
    let n := rebooted nodeId peerIds lives
    let S := Run.run System.step (boot n tasks) before
    ∀ r, ((Run.run System.step S after).prog j).returned = some (.get r) →
      (r.found = true → (key, r.value) ∈ pairs n.log ∨ ∃ i, tasks i = .put key r.value) ∧
      ((S.state.node.kvStore key).isSome → r.found = true) := by
  intro n S r hr
  have hready := ready_rebooted nodeId peerIds lives
  constructor
  · intro hfound
    rw [← Run.run_append] at hr
    exact get_after hready tasks (before ++ after) htask hr hfound
  · intro hkey
    obtain ⟨hsound, -⟩ := sound_after hready tasks before
    have hget : Does True n tasks j (fun s => (s.node.kvStore key).isSome) ((tasks j).body j)
        fun a s => ∃ v : Option String, a = .get ⟨v.getD "", v.isSome⟩ ∧ v.isSome :=
      does_get htask (kept_key key) (fun v => Sharing.kept_const _) (fun _ _ h => h)
        fun hfails => absurd trivial hfails
    have hprog : S.prog j = (tasks j).body j := System.prog_run_of_notMem hj
    have hbetter := hsound.update (i := j) (by
      rw [hprog]
      exact hget _ hsound.inv hkey)
    have hq := ((Sharing.sound_run hbetter after).1).of_ret (Prog.eq_ret_of_returned hr)
    rw [Function.update_self] at hq
    obtain ⟨v, hv, hsome⟩ := hq
    injection hv with hv
    rw [hv]
    exact hsome

/-- Two puts to one key, once the node leads. -/
def twoPuts : Fin 4 → Concurrent.Task ℕ
  | 0 => .becomeLeader
  | 1 => .put "k" "a"
  | 2 => .put "k" "b"
  | 3 => .get "k"

/-- The first put stops before it writes the table and goes on when the second is done. -/
def overtaken : List (Fin 4) :=
  List.replicate 5 0 ++ List.replicate 14 1 ++ List.replicate 60 2 ++ List.replicate 40 1

/-- The theorem at two acknowledged puts of which the second overtakes the first: the get
answers the value of the first, though the other stands behind it in the log. -/
theorem get_answers_puts_overtaken :
    ((Run.run System.step (Run.run System.step
        (boot (rebooted 0 [] ([] : List (Lifetime (Fin 4) ℕ))) twoPuts) overtaken) [3]).prog
          3).returned = some (.get ⟨"a", true⟩) ∧
      pairs (Run.run System.step (boot (rebooted 0 [] ([] : List (Lifetime (Fin 4) ℕ))) twoPuts)
        overtaken).state.node.log = [("k", "a"), ("k", "b")] ∧
      ∃ i, twoPuts i = .put "k" "a" := by
  have hret : ((Run.run System.step (Run.run System.step
      (boot (rebooted 0 [] ([] : List (Lifetime (Fin 4) ℕ))) twoPuts) overtaken) [3]).prog
        3).returned = some (.get ⟨"a", true⟩) := by
    decide +kernel
  have hanswer := get_answers_puts 0 [] ([] : List (Lifetime (Fin 4) ℕ)) twoPuts overtaken [3]
    (j := 3) (by decide +kernel) rfl ⟨"a", true⟩ hret
  exact ⟨hret, by decide +kernel, (hanswer.1 rfl).resolve_left List.not_mem_nil⟩

end Concurrent

end KVStore
