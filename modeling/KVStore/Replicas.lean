/-
# Replicas

What the logs and tables of the nodes of a cluster have to do with each other, in
the runs of `LogMatching`.

* `Cluster.terms_ascend` : the terms in a log never fall and never pass the term of
  its node, in every run without restarts and without an election at the largest
  term, whoever is elected;
* `Cluster.leader_append_only` : as long as a node leads in one term it only appends
  to its log, and its log holds everything of that term that is in any other log;
* `Cluster.replicas_agree` : a node that has applied index `i` holds the table that
  any log with an entry of the same term at `i` replays to.
-/
import KVStore.Durability
import KVStore.LogMatching

namespace KVStore

open Role Splice RaftNode

variable {Id : Type} [DecidableEq Id]

/-! ## Terms in a log -/

/-- The terms of a log never fall and never pass `t`. -/
structure Ordered (t : ℤ) (l : List LogEntry) : Prop where
  ascending : Ascending LogEntry.term l
  term_le : ∀ e ∈ l, e.term ≤ t

namespace Ordered

variable {t u : ℤ} {l L : List LogEntry}

theorem nil (t : ℤ) : Ordered t [] := ⟨List.Pairwise.nil, fun _ he => nomatch he⟩

theorem mono (h : Ordered t l) (htu : t ≤ u) : Ordered u l :=
  ⟨h.ascending, fun e he => (h.term_le e he).trans htu⟩

/-- The append of a leader of term `t`. -/
theorem append (h : Ordered t l) (key value : String) : Ordered t (l ++ [⟨t, key, value⟩]) := by
  constructor
  · refine List.pairwise_append.mpr ⟨h.ascending, List.pairwise_singleton _ _, ?_⟩
    intro x hx y hy
    rw [List.mem_singleton.mp hy]
    exact h.term_le x hx
  · intro e he
    rcases List.mem_append.mp he with he | he
    · exact h.term_le e he
    · rw [List.mem_singleton.mp he]

/-- A message of term `t` whose log check passes. -/
theorem splice (h : Ordered t l) (hL : Ordered t L) {i : ℤ} (hi : 0 ≤ i) (hiL : i ≤ L.length)
    (hmis : mismatch l i (termAt L i) = false) :
    Ordered t (splice LogEntry.term l i.toNat (L.drop i.toNat)) := by
  obtain ⟨hlen, hterm⟩ := mismatch_eq_false_iff.mp hmis
  have hp : i.toNat ≤ l.length := by omega
  constructor
  · refine h.ascending.splice_drop hL.ascending hp (by omega) ?_
    rintro r x y hr hx hy
    obtain rfl : i = (r : ℤ) + 1 := by omega
    have heq := hterm (by omega)
    rw [termAt, entryAt_succ, entryAt_succ, hx, hy] at heq
    exact Option.some.inj heq
  · intro e he
    rcases mem_of_mem_splice (τ := LogEntry.term) hp he with he | he
    · exact h.term_le e he
    · exact hL.term_le e (List.mem_of_mem_drop he)

end Ordered

/-- The log of a node is ordered by terms up to the node's own. -/
def RaftNode.InOrder (n : RaftNode Id) : Prop := Ordered n.state.currentTerm n.log

namespace RaftNode

variable {n : RaftNode Id}

/-- Any event but a call of `appendEntries` keeps the log in order. -/
theorem InOrder.step (h : n.InOrder) (hs : n.Sane) (h0 : 0 ≤ n.state.currentTerm) {ev : Event Id}
    (hk : n.KeepsTerm ev) (hev : ev.isLocal = true) : (n.step ev).InOrder := by
  unfold InOrder
  rw [log_step hs]
  have hle := currentTerm_le_step hs h0 hk
  cases ev with
  | put key value =>
      have hstate : (n.step (.put key value)).state = n.state := state_step hs _
      rw [hstate, logAfter]
      split_ifs
      · exact h.append key value
      · exact h
  | appendEntries req => cases hev
  | get _ | startElection | becomeLeader | voteResponse _ | sendAppendEntries _ | restart =>
      exact h.mono hle

/-- A message built from an ordered log keeps the log of the receiver in order. -/
theorem InOrder.deliver (h : n.InOrder) (hs : n.Sane) {call : LeaderCall Id}
    (h1 : 1 ≤ call.nextIdx) (h2 : call.nextIdx ≤ call.leaderLog.length + 1)
    (hcall : Ordered call.term call.leaderLog) :
    (n.step (.appendEntries call.request)).InOrder := by
  have hseen : (n.step (.appendEntries call.request)).state = stateSeen n.state call.term :=
    state_step hs _
  have hle := currentTerm_le_stateSeen n.state call.term
  unfold InOrder
  rw [log_step hs, hseen, logAfter]
  split_ifs with hacc
  · obtain ⟨hge, hmis, -⟩ := (accepts_iff call.request).mp hacc
    -- the receiver has the term of the message from now on
    have hterm : (stateSeen n.state call.term).currentTerm = call.term := by
      have hge' : n.state.currentTerm ≤ call.term := hge
      unfold stateSeen
      split_ifs
      · rfl
      · omega
    rw [hterm]
    refine (h.mono hge).splice hcall ?_ ?_ hmis
    · show 0 ≤ call.nextIdx - 1
      omega
    · show call.nextIdx - 1 ≤ _
      omega
  · exact h.mono hle

end RaftNode

namespace Cluster

variable {c : Cluster Id}

omit [DecidableEq Id] in
/-- A step of the protocol at a node is local and keeps its term. -/
theorem Protocol.event {i : Id} {ev : Event Id} (h : c.Protocol (.event i ev)) :
    (c.nodes i).KeepsTerm ev ∧ ev.isLocal = true ∧ ev ≠ .restart := by
  cases ev with
  | restart | appendEntries req => exact absurd h id
  | startElection => exact ⟨h, rfl, by simp⟩
  | put _ _ | get _ | becomeLeader | voteResponse _ | sendAppendEntries _ =>
      exact ⟨trivial, rfl, by simp⟩

/-- All logs, of the nodes and of the messages, are in order. -/
structure TermOrder (c : Cluster Id) : Prop where
  sane : c.Sane
  nonneg : ∀ i, 0 ≤ (c.nodes i).state.currentTerm
  nodes : ∀ i, (c.nodes i).InOrder
  messages : ∃ calls : List (LeaderCall Id), c.network = calls.map LeaderCall.request ∧
    ∀ call ∈ calls, 1 ≤ call.nextIdx ∧ call.nextIdx ≤ call.leaderLog.length + 1 ∧
      Ordered call.term call.leaderLog

theorem termOrder_init (M : Members Id) : TermOrder (init M) where
  sane := sane_init M
  nonneg := fun _ => le_rfl
  nodes := fun _ => Ordered.nil _
  messages := ⟨[], rfl, fun _ hcall => nomatch hcall⟩

theorem TermOrder.act (h : TermOrder c) {i : Id} {ev : Event Id} (hk : (c.nodes i).KeepsTerm ev)
    (hlog : ((c.nodes i).step ev).InOrder) : TermOrder (c.act i ev) where
  sane := h.sane.act i ev
  nonneg := forall_act (P := fun _ n => 0 ≤ n.state.currentTerm) h.nonneg
    ((h.nonneg i).trans (currentTerm_le_step (h.sane i) (h.nonneg i) hk))
  nodes := forall_act (P := fun _ n => n.InOrder) h.nodes hlog
  messages := h.messages

/-- One step. -/
theorem TermOrder.step (h : TermOrder c) {a : Action Id} (hp : c.Protocol a) :
    TermOrder (c.step a) := by
  obtain ⟨calls, hnet, hcalls⟩ := h.messages
  cases a with
  | event i ev =>
      obtain ⟨hk, hlocal, -⟩ := hp.event
      exact h.act hk ((h.nodes i).step (h.sane i) (h.nonneg i) hk hlocal)
  | send i nextIdx follower =>
      have hnodes : (c.step (.send i nextIdx follower)).nodes = c.nodes := nodes_of_no_effect rfl
      refine ⟨h.sane.step _, ?_, ?_, calls ++ c.sends (.send i nextIdx follower), ?_, ?_⟩
      · rw [hnodes]
        exact h.nonneg
      · rw [hnodes]
        exact h.nodes
      · rw [network_step h.sane, hnet, List.map_append]
      · intro call hcall
        rcases List.mem_append.mp hcall with hold | hnew
        · exact hcalls call hold
        · obtain ⟨j, -, hlog, hterm, h1, h2⟩ := mem_sends hnew
          refine ⟨h1, h2, ?_⟩
          rw [hterm, hlog]
          exact h.nodes j
  | deliver i k =>
      show TermOrder (c.deliver i k)
      rcases deliver_cases hnet i k with hc | ⟨call, hcall, hc⟩
      · rw [hc]
        exact h
      · rw [hc]
        obtain ⟨h1, h2, hord⟩ := hcalls call hcall
        exact h.act trivial ((h.nodes i).deliver (h.sane i) h1 h2 hord)

/-- **Terms never fall along a log, and none is above the term of its node**, in
every run of the protocol, however many leaders a term has. -/
theorem terms_ascend (M : Members Id) (as : List (Action Id))
    (hp : Run.Along Cluster.step Protocol (init M) as) (i : Id) :
    let n := ((init M).after as).nodes i
    (∀ (j k : ℕ) (x y : LogEntry), j ≤ k → n.log[j]? = some x → n.log[k]? = some y →
      x.term ≤ y.term) ∧
    ∀ (k : ℕ) (x : LogEntry), n.log[k]? = some x → x.term ≤ n.state.currentTerm := by
  intro n
  have hord : n.InOrder :=
    (Run.along_invariant (fun _ _ h hp => h.step hp) (termOrder_init M) hp).nodes i
  constructor
  · intro j k x y hjk hx hy
    refine hord.ascending.le_of_mem_take (q := k) ?_ hy
    refine List.mem_of_getElem? (i := j) ?_
    rw [List.getElem?_take_of_lt (by omega)]
    exact hx
  · intro k x hx
    exact hord.term_le x (List.mem_of_getElem? hx)

/-- Two leaders of one term, a message of the first and one of the second. -/
theorem terms_ascend_run :
    let as : List (Action (Fin 3)) := [.event 0 .startElection, .event 0 .becomeLeader,
      .event 1 .startElection, .event 1 .becomeLeader, .event 0 (.put "a" "1"),
      .event 1 (.put "a" "2"), .send 0 1 2, .deliver 2 0, .event 1 .startElection,
      .event 1 .becomeLeader, .event 1 (.put "b" "3"), .send 1 1 2, .deliver 2 1]
    let n := ((init (Members.ofFin 2)).after as).nodes 2
    n.log = [⟨1, "a", "1"⟩, ⟨2, "b", "3"⟩] ∧ (1 : ℤ) ≤ 2 := by
  intro as n
  have hp : Run.Along Cluster.step Protocol (init (Members.ofFin 2)) as := by decide +kernel
  have hlog : n.log = [⟨1, "a", "1"⟩, ⟨2, "b", "3"⟩] := by decide +kernel
  refine ⟨hlog, (terms_ascend (Members.ofFin 2) as hp 2).1 0 1 ⟨1, "a", "1"⟩ ⟨2, "b", "3"⟩
    (by omega) ?_ ?_⟩
  · exact congrArg (fun l => l[0]?) hlog
  · exact congrArg (fun l => l[1]?) hlog

/-! ## The log of a leader -/

theorem OneLeaderPerTerm.of_prefix {as p : List (Action Id)} (h : OneLeaderPerTerm c as)
    (hp : p <+: as) : OneLeaderPerTerm c p := by
  rintro i j t ⟨q, hq, hl⟩ ⟨q', hq', hl'⟩
  exact h i j t ⟨q, hq.trans hp, hl⟩ ⟨q', hq'.trans hp, hl'⟩

variable {Led : Id → ℤ → Prop}

/-- A node that leads after a step, in a term it has led in before, led before the
step, and the step only appended to its log. -/
theorem MatchInv.leader_log (h : MatchInv Led c) {a : Action Id} (hp : c.Protocol a)
    (huniq : ∀ i j t, Led i t → Led j t → i = j) {i : Id} {t : ℤ} (hled : Led i t)
    (hl : ((c.step a).nodes i).Leads t) :
    (c.nodes i).Leads t ∧ (c.nodes i).log <+: ((c.step a).nodes i).log := by
  obtain ⟨calls, hnet, hcoh⟩ := h.coherent
  -- an event of the node itself, or of another one
  have hact : ∀ {j : Id} {ev : Event Id}, ((c.act j ev).nodes i).Leads t →
      ((c.nodes i).Leads t → j = i → (c.nodes i).log <+: ((c.nodes i).step ev).log) →
      (c.nodes i).Leads t ∧ (c.nodes i).log <+: ((c.act j ev).nodes i).log := by
    intro j ev hl' hgrow
    have hleads := h.leadership.leads_of_act h.sane hled hl'
    refine ⟨hleads, ?_⟩
    by_cases hj : i = j
    · subst hj
      rw [nodes_act_self]
      exact hgrow hleads rfl
    · rw [nodes_act_ne hj]
  cases a with
  | event j ev =>
      obtain ⟨-, hlocal, -⟩ := hp.event
      refine hact hl ?_
      rintro ⟨hrole, -⟩ rfl
      rw [log_step (h.sane j)]
      cases ev with
      | put key value =>
          rw [logAfter, if_pos hrole]
          exact List.prefix_append _ _
      | appendEntries req => cases hlocal
      | get _ | startElection | becomeLeader | voteResponse _ | sendAppendEntries _ | restart =>
          exact List.prefix_rfl
  | send j nextIdx follower =>
      have hnodes : (c.step (.send j nextIdx follower)).nodes = c.nodes := nodes_of_no_effect rfl
      rw [hnodes] at hl ⊢
      exact ⟨hl, List.prefix_rfl⟩
  | deliver j k =>
      have hstep : c.step (.deliver j k) = c.deliver j k := rfl
      rw [hstep] at hl ⊢
      rcases deliver_cases hnet j k with hc | ⟨call, hcall, hc⟩
      · rw [hc] at hl ⊢
        exact ⟨hl, List.prefix_rfl⟩
      · rw [hc] at hl ⊢
        refine hact hl ?_
        rintro hleads rfl
        rw [nodes_act_self] at hl
        rw [hcoh.log_deliver_leader h.sane huniq hcall hled hleads hl]

/-- **A leader only appends.**  Whenever a node leads in the same term at two moments
of a run, its log at the first is a beginning of its log at the second; and whatever
log has an entry of that term at the second moment, the leader's log has the same
entries up to there. -/
theorem leader_append_only (M : Members Id) (as : List (Action Id))
    (hp : Run.Along Cluster.step Protocol (init M) as) (huniq : OneLeaderPerTerm (init M) as)
    (p q : List (Action Id)) (hpq : p <+: q) (hq : q <+: as) (i : Id) (t : ℤ)
    (hlp : (((init M).after p).nodes i).Leads t) (hlq : (((init M).after q).nodes i).Leads t) :
    (((init M).after p).nodes i).log <+: (((init M).after q).nodes i).log ∧
    ∀ (j : Id) (k : ℕ) (e : LogEntry), (((init M).after q).nodes j).log[k]? = some e →
      e.term = t →
      (((init M).after q).nodes j).log.take (k + 1) <+: (((init M).after q).nodes i).log := by
  have hinv : ∀ q', q' <+: as → MatchInv ((init M).LedIn q') ((init M).after q') := by
    rintro q' ⟨u, rfl⟩
    exact matchInv_after M (Run.along_append.mp hp).1 (huniq.of_prefix (List.prefix_append _ _))
  constructor
  · obtain ⟨r, rfl⟩ := hpq
    induction r using List.reverseRecOn with
    | nil =>
        rw [List.append_nil]
    | append_singleton r a ih =>
        rw [← List.append_assoc] at hq hlq ⊢
        have hq' := (List.prefix_append (p ++ r) [a]).trans hq
        have hstep := Run.along_iff.mp hp (p ++ r) a hq
        rw [after_snoc] at hlq ⊢
        obtain ⟨hleads, hgrow⟩ := (hinv _ hq').leader_log hstep (huniq.of_prefix hq')
          ⟨p, List.prefix_append _ _, hlp⟩ hlq
        exact (ih hq' hleads).trans hgrow
  · rintro j k e he rfl
    obtain ⟨calls, -, hcoh⟩ := (hinv q hq).coherent
    obtain ⟨g, hled, hpre⟩ := hcoh.created _ (Or.inl ⟨j, rfl⟩) k e he
    obtain rfl : g = i := huniq.of_prefix hq g i e.term hled ⟨q, List.prefix_rfl, hlq⟩
    exact hpre hlq

/-- A leader puts twice and sends both entries to a replica. -/
def twoPuts : List (Action (Fin 3)) := [.event 0 .startElection, .event 0 .becomeLeader,
  .event 0 (.put "a" "1"), .event 0 (.put "b" "2"), .send 0 1 1, .deliver 1 0]

theorem leader_append_only_twoPuts :
    (((init (Members.ofFin 2)).after (twoPuts.take 3)).nodes 0).log
        <+: (((init (Members.ofFin 2)).after twoPuts).nodes 0).log ∧
      (((init (Members.ofFin 2)).after twoPuts).nodes 1).log.take (1 + 1)
        <+: (((init (Members.ofFin 2)).after twoPuts).nodes 0).log := by
  have hp : Run.Along Cluster.step Protocol (init (Members.ofFin 2)) twoPuts := by decide +kernel
  have huniq : OneLeaderPerTerm (init (Members.ofFin 2)) twoPuts := by decide +kernel
  have hlp : (((init (Members.ofFin 2)).after (twoPuts.take 3)).nodes 0).Leads 1 := by
    decide +kernel
  have hlq : (((init (Members.ofFin 2)).after twoPuts).nodes 0).Leads 1 := by decide +kernel
  have hentry : (((init (Members.ofFin 2)).after twoPuts).nodes 1).log[1]?
      = some ⟨1, "b", "2"⟩ := by decide +kernel
  obtain ⟨hgrow, hterm⟩ := leader_append_only (Members.ofFin 2) twoPuts hp huniq
    (twoPuts.take 3) twoPuts (List.take_prefix _ _) List.prefix_rfl 0 1 hlp hlq
  exact ⟨hgrow, hterm 1 1 _ hentry rfl⟩

/-! ## The tables -/

/-- Everything committed is applied, and nothing else. -/
structure Settled (d : Durable) : Prop where
  nonneg : 0 ≤ d.commitIndex
  bounded : d.commitIndex ≤ d.log.length
  applied_eq : d.lastApplied = d.commitIndex
  stands : d.kvStore = d.replayed d.commitIndex.toNat

theorem Settled.recoverable {d : Durable} (h : Settled d) : Recoverable d where
  nonneg := h.applied_eq ▸ h.nonneg
  applied_le := h.applied_eq.le
  bounded := h.bounded
  replays := by
    have hnil : (d.log.take d.commitIndex.toNat).drop d.lastApplied.toNat = [] := by
      rw [h.applied_eq, List.drop_eq_nil_iff, List.length_take]
      omega
    rw [hnil]
    exact h.stands

/-- Between calls everything committed is applied, where no call is cut. -/
def settled : CrashInvariant where
  Inv := Settled
  Thrown := fun _ => True
  thrown := fun _ _ => trivial
  nonneg := fun _ h => h.applied_eq ▸ h.nonneg
  bounded := fun _ h => h.bounded
  relog := by
    intro d l h hl hlen
    refine ⟨h.nonneg, hlen, h.applied_eq, h.stands.trans ?_⟩
    unfold Durable.replayed
    rw [hl]
  midway := fun _ _ _ _ _ _ _ _ => trivial
  complete := by
    intro d x h hge hle
    have hrec := h.recoverable.commit hge hle
    exact ⟨h.nonneg.trans hge, hle, hrec.lastApplied_applied, hrec.kvStore_applied⟩

/-- The step alters no committed entry. -/
def Spares (c : Cluster Id) (a : Action Id) : Prop :=
  ∀ p ∈ c.effect a, Regime.Spares (c.nodes p.1) p.2

omit [DecidableEq Id] in
instance (c : Cluster Id) (a : Action Id) : Decidable (c.Spares a) :=
  inferInstanceAs (Decidable (∀ p ∈ c.effect a, _))

/-- The steps of the protocol that alter no committed entry. -/
def Orderly (c : Cluster Id) (a : Action Id) : Prop := c.Protocol a ∧ c.Spares a

omit [DecidableEq Id] in
instance (c : Cluster Id) (a : Action Id) : Decidable (c.Orderly a) :=
  inferInstanceAs (Decidable (_ ∧ _))

/-- Every node is sane and settled. -/
theorem settled_step (h : c.Sane ∧ ∀ i, Settled (c.nodes i).durable) {a : Action Id}
    (ha : c.Spares a) : (c.step a).Sane ∧ ∀ i, Settled ((c.step a).nodes i).durable := by
  obtain ⟨hs, hset⟩ := h
  refine ⟨hs.step a, ?_⟩
  cases heff : c.effect a with
  | none =>
      rw [nodes_of_no_effect heff]
      exact hset
  | some p =>
      obtain ⟨i, ev⟩ := p
      have hev : Regime.Spares (c.nodes i) ev := ha (i, ev) heff
      -- no statement of a sane node fails
      have hfacing : (c.nodes i).facing [] = c.nodes i := by
        have hhealthy : (c.nodes i).storage.pending = [] := (hs i).healthy
        rw [facing, ← hhealthy]
        exact setStorage_self
      have hstep := (Life.inv_step (I := settled) (hset i) (hs i).nextIdx_pos hev).1
      rw [hfacing] at hstep
      rw [step_of_effect heff]
      exact forall_act (P := fun _ n => Settled n.durable) hset hstep

/-- **Replicas do not diverge.**  A node that has applied index `k + 1` holds the
table to which every log replays that has an entry of the same term there; so two
nodes that have applied the same index, with the same term there, hold the same
table. -/
theorem replicas_agree (M : Members Id) (as : List (Action Id))
    (hp : Run.Along Cluster.step Orderly (init M) as) (huniq : OneLeaderPerTerm (init M) as)
    (i j : Id) (k : ℕ) (x y : LogEntry)
    (hi : (((init M).after as).nodes i).lastApplied = k + 1)
    (hx : (((init M).after as).nodes i).log[k]? = some x)
    (hy : (((init M).after as).nodes j).log[k]? = some y) (hxy : x.term = y.term) :
    let m := ((init M).after as).nodes i
    let n := ((init M).after as).nodes j
    m.kvStore = replayLog (fun _ => none) (n.log.take (k + 1)) ∧
      (n.lastApplied = k + 1 → n.kvStore = m.kvStore) := by
  intro m n
  have hprotocol : Run.Along Cluster.step Protocol (init M) as :=
    hp.imp (P := fun _ => True) (fun _ _ _ h => ⟨trivial, h.1⟩) trivial
  obtain ⟨-, hset⟩ := Run.along_invariant
    (P := fun c : Cluster Id => c.Sane ∧ ∀ i, Settled (c.nodes i).durable)
    (fun _ _ h ha => settled_step h ha.2) ⟨sane_init M, fun _ => ⟨le_rfl, le_rfl, rfl, rfl⟩⟩ hp
  -- each table is the replay of its own log
  have htable : ∀ i', ((((init M).after as).nodes i').lastApplied : ℤ) = k + 1 →
      (((init M).after as).nodes i').kvStore
        = replayLog (fun _ => none) ((((init M).after as).nodes i').log.take (k + 1)) := by
    intro i' hlast
    have happlied : (((init M).after as).nodes i').lastApplied
        = (((init M).after as).nodes i').commitIndex := (hset i').applied_eq
    have hstands : (((init M).after as).nodes i').kvStore = replayLog (fun _ => none)
        ((((init M).after as).nodes i').log.take
          (((init M).after as).nodes i').commitIndex.toNat) := (hset i').stands
    rw [hstands, ← happlied, hlast]
    congr 2
  -- and the two logs are the same up to there
  obtain ⟨calls, -, hcoh⟩ := (matchInv_after M hprotocol huniq).coherent
  have htake : m.log.take (k + 1) = n.log.take (k + 1) :=
    hcoh.matching _ _ (Or.inl ⟨i, rfl⟩) (Or.inl ⟨j, rfl⟩) k x y hx hy hxy
  have hm : m.kvStore = replayLog (fun _ => none) (n.log.take (k + 1)) := by
    rw [← htake]
    exact htable i hi
  exact ⟨hm, fun hj => (htable j hj).trans hm.symm⟩

/-- A follower applies what its leader committed, part of it from an earlier leader. -/
def twoLeaders : List (Action (Fin 3)) := [.event 2 .startElection, .event 2 .becomeLeader,
  .event 2 (.put "a" "0"), .send 2 1 0, .deliver 0 0, .event 0 .startElection,
  .event 0 .becomeLeader, .event 0 (.put "a" "1"), .send 0 1 1, .deliver 1 1]

theorem replicas_agree_twoLeaders :
    (((init (Members.ofFin 2)).after twoLeaders).nodes 1).kvStore
      = (((init (Members.ofFin 2)).after twoLeaders).nodes 0).kvStore := by
  have hp : Run.Along Cluster.step Orderly (init (Members.ofFin 2)) twoLeaders := by
    decide +kernel
  have huniq : OneLeaderPerTerm (init (Members.ofFin 2)) twoLeaders := by decide +kernel
  have hi : (((init (Members.ofFin 2)).after twoLeaders).nodes 0).lastApplied
      = ((1 : ℕ) : ℤ) + 1 := by
    decide +kernel
  have hj : (((init (Members.ofFin 2)).after twoLeaders).nodes 1).lastApplied
      = ((1 : ℕ) : ℤ) + 1 := by
    decide +kernel
  have hx : (((init (Members.ofFin 2)).after twoLeaders).nodes 0).log[1]?
      = some ⟨2, "a", "1"⟩ := by decide +kernel
  have hy : (((init (Members.ofFin 2)).after twoLeaders).nodes 1).log[1]?
      = some ⟨2, "a", "1"⟩ := by decide +kernel
  exact (replicas_agree (Members.ofFin 2) twoLeaders hp huniq 0 1 1 _ _ hi hx hy rfl).2 hj

end Cluster

end KVStore
