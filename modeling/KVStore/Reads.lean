/-
# Reads

A get looks at the table of the node that receives it and at nothing else.  So
it sees a put only after the entry has reached that node, has been committed there
and applied; and it stays there only if no later leader replaces it.  No two calls of
a node overlap here: overlapping puts may apply their entries in another order.

`History G c` says that the cluster has one history `G`: every log, and every log a
message was built from, is a beginning of it, and every table follows its node's
commit index.  It is kept as long as every put is accepted by a leader whose log
extends the log of every node (`ReadSafe`), and then a get at a node that has
applied the index of a put answers with it.
-/
import Mathlib.Data.Fintype.Basic
import KVStore.Cluster
import KVStore.SingleNode

namespace KVStore

open Role Splice RaftNode

variable {Id : Type} [DecidableEq Id]

namespace RaftNode

omit [DecidableEq Id] in
theorem take_of_isPrefix {l l' : List LogEntry} (h : l <+: l') {k : ℕ} (hk : k ≤ l.length) :
    l'.take k = l.take k := by
  obtain ⟨t, rfl⟩ := h
  exact List.take_append_of_le_length hk

omit [DecidableEq Id] in
/-- Splicing a log of one history into another never shortens it. -/
theorem splice_of_history {l L G : List LogEntry} (hl : l <+: G) (hL : L <+: G) {i : ℤ}
    (hi : 0 ≤ i) (hiL : i ≤ L.length) (h : mismatch l i (termAt L i) = false) :
    l <+: splice LogEntry.term l i.toNat (L.drop i.toNat) ∧
      splice LogEntry.term l i.toNat (L.drop i.toNat) <+: G := by
  rcases List.prefix_or_prefix_of_prefix hl hL with hlL | hLl
  · rcases splice_of_accept (matching_of_isPrefix hl hL) hi hiL h with ⟨-, hsame⟩ | hnew
    · rw [hsame]
      exact ⟨List.prefix_rfl, hl⟩
    · rw [hnew]
      exact ⟨hlL, hL⟩
  · rw [splice_drop_of_isPrefix hLl (by omega)]
    exact ⟨List.prefix_rfl, hl⟩

/-- A message of the node's history keeps the node in step. -/
theorem InStep.deliver {n : RaftNode Id} (h : n.InStep) {G : List LogEntry} (hl : n.log <+: G)
    {call : LeaderCall Id} (hL : call.leaderLog <+: G) (h1 : 1 ≤ call.nextIdx)
    (h2 : call.nextIdx ≤ call.leaderLog.length + 1) :
    (n.step (.appendEntries call.request)).InStep ∧
      n.log <+: (n.step (.appendEntries call.request)).log ∧
      (n.step (.appendEntries call.request)).log <+: G := by
  have hsane := h.sane.step (.appendEntries call.request)
  have hle := h.upToDate.committed_le
  have hfinal := finalState_appendEntries h.sane call.request
  rw [← step_appendEntries] at hfinal
  by_cases hacc : n.accepts call.request = true
  · obtain ⟨-, hmis, -⟩ := (accepts_iff call.request).mp hacc
    -- both logs are prefixes of `G`, so the merge truncates nothing
    obtain ⟨hgrow, hG⟩ := splice_of_history hl hL (i := call.nextIdx - 1) (by omega) (by omega) hmis
    have hup := ((h.upToDate.observed call.request.term).merged
      (show (splice LogEntry.term n.log call.request.prevLogIndex.toNat
        call.request.entries).take n.commitIndex.toNat = _ from
          take_of_isPrefix hgrow (by omega))).1
    rw [if_pos hacc] at hfinal
    rw [hfinal] at hsane ⊢
    have hlog : ((n.observed call.request.term).merged call.request).log
        = splice LogEntry.term n.log (call.nextIdx - 1).toNat
            (call.leaderLog.drop (call.nextIdx - 1).toNat) := log_merged _
    rw [hlog]
    refine ⟨⟨hsane, hup, ?_⟩, hgrow, hG⟩
    intro f
    have hreach := h.inReach f
    have hlen := hgrow.length_le
    rw [hlog]
    unfold nextIdx at hreach ⊢
    rw [nextIndex_merged, nextIndex_observed]
    omega
  · rw [if_neg hacc] at hfinal
    rw [hfinal]
    split_ifs
    · exact ⟨h, List.prefix_rfl, hl⟩
    · exact ⟨⟨h.sane.observed _, h.upToDate.observed _, h.inReach⟩, List.prefix_rfl, hl⟩

end RaftNode

namespace Cluster

/-- Every accepted put is accepted by a leader whose log extends all others, and
`appendEntries` is called with messages of the network only. -/
def ReadSafe (c : Cluster Id) : Action Id → Prop
  | .event i (.put _ _) => (c.nodes i).state.currentRole = LEADER →
      ∀ j, (c.nodes j).log <+: (c.nodes i).log
  | .event _ (.appendEntries _) => False
  | _ => True

instance [Fintype Id] (c : Cluster Id) : ∀ a : Action Id, Decidable (c.ReadSafe a)
  | .event _ (.put _ _) => inferInstanceAs (Decidable (_ → ∀ _, _))
  | .event _ (.appendEntries _) => inferInstanceAs (Decidable False)
  | .event _ (.get _) | .event _ .startElection | .event _ .becomeLeader
  | .event _ (.voteResponse _) | .event _ (.sendAppendEntries _) | .event _ .restart
  | .send _ _ _ | .deliver _ _ => inferInstanceAs (Decidable True)

/-- The cluster has the one history `G`. -/
structure History (G : List LogEntry) (c : Cluster Id) : Prop where
  inStep : ∀ i, (c.nodes i).InStep
  log_isPrefix : ∀ i, (c.nodes i).log <+: G
  longest : G = [] ∨ ∃ i, (c.nodes i).log = G
  messages : ∃ calls : List (LeaderCall Id), c.network = calls.map LeaderCall.request ∧
    ∀ call ∈ calls, call.leaderLog <+: G ∧ 1 ≤ call.nextIdx ∧
      call.nextIdx ≤ call.leaderLog.length + 1

variable {c : Cluster Id} {G : List LogEntry}

theorem history_init (M : Members Id) : History [] (init M) where
  inStep := fun i => inStep_fresh i (M.peersOf i)
  log_isPrefix := fun _ => List.prefix_rfl
  longest := Or.inl rfl
  messages := ⟨[], rfl, fun call hcall => by cases hcall⟩

theorem History.sane (h : History G c) : c.Sane := fun i => (h.inStep i).sane

/-- An event that keeps its node in step and its log at least as long. -/
theorem History.act (h : History G c) {i : Id} {ev : Event Id} {G' : List LogEntry}
    (hin : ((c.nodes i).step ev).InStep) (hG : G <+: G')
    (hgrow : (c.nodes i).log <+: ((c.nodes i).step ev).log)
    (hlog : ((c.nodes i).step ev).log <+: G')
    (hnew : G' = G ∨ ((c.nodes i).step ev).log = G') : History G' (c.act i ev) := by
  obtain ⟨calls, hnet, hcalls⟩ := h.messages
  refine ⟨?_, ?_, ?_, calls, hnet, ?_⟩
  · exact forall_act (P := fun _ n => n.InStep) h.inStep hin
  · apply forall_act (P := fun _ n => n.log <+: G') _ hlog
    intro j
    exact (h.log_isPrefix j).trans hG
  · rcases hnew with rfl | hnew
    · rcases h.longest with hnil | ⟨j, hj⟩
      · exact Or.inl hnil
      · refine Or.inr ⟨j, ?_⟩
        by_cases hji : j = i
        · subst hji
          -- the longest log has nothing to grow to
          rw [nodes_act_self]
          rw [hj] at hgrow
          exact (hgrow.eq_of_length_le hlog.length_le).symm
        · rw [nodes_act_ne hji]
          exact hj
    · refine Or.inr ⟨i, ?_⟩
      rw [nodes_act_self]
      exact hnew
  · intro call hcall
    obtain ⟨hL, h1, h2⟩ := hcalls call hcall
    exact ⟨hL.trans hG, h1, h2⟩

/-- A put that a leader with the longest log accepts extends the history. -/
theorem History.put (h : History G c) {i : Id} (hrole : (c.nodes i).state.currentRole = LEADER)
    (hall : ∀ j, (c.nodes j).log <+: (c.nodes i).log) (key value : String) :
    (c.nodes i).log = G ∧
      History (G ++ [⟨(c.nodes i).state.currentTerm, key, value⟩]) (c.act i (.put key value)) := by
  have hGi : (c.nodes i).log = G := by
    apply (h.log_isPrefix i).eq_of_length_le
    rcases h.longest with rfl | ⟨j, rfl⟩
    · exact Nat.zero_le _
    · exact (hall j).length_le
  have hlog : ((c.nodes i).step (.put key value)).log
      = G ++ [⟨(c.nodes i).state.currentTerm, key, value⟩] := by
    rw [log_step (h.sane i), logAfter, if_pos hrole, hGi]
  refine ⟨hGi, h.act ((h.inStep i).step rfl).2.1 (List.prefix_append _ _) ?_ ?_ (Or.inr hlog)⟩
  · rw [hlog, hGi]
    exact List.prefix_append _ _
  · rw [hlog]

/-- A local event that keeps the log. -/
theorem History.quiet (h : History G c) {i : Id} {ev : Event Id} (hev : ev.isLocal = true)
    (hsame : (c.nodes i).logAfter ev = (c.nodes i).log) : History G (c.act i ev) := by
  have hlog := log_step (h.sane i) ev
  rw [hsame] at hlog
  refine h.act ((h.inStep i).step hev).2.1 List.prefix_rfl ?_ ?_ (Or.inl rfl)
  · rw [hlog]
  · rw [hlog]
    exact h.log_isPrefix i

theorem History.send (h : History G c) (i : Id) (nextIdx : ℤ) (follower : Id) :
    History G (c.step (.send i nextIdx follower)) := by
  have hnodes : (c.step (.send i nextIdx follower)).nodes = c.nodes := nodes_of_no_effect rfl
  obtain ⟨calls, hnet, hcalls⟩ := h.messages
  refine ⟨?_, ?_, ?_, calls ++ c.sends (.send i nextIdx follower), ?_, ?_⟩
  · rw [hnodes]
    exact h.inStep
  · rw [hnodes]
    exact h.log_isPrefix
  · rw [hnodes]
    exact h.longest
  · rw [network_step h.sane, hnet, List.map_append]
  · intro call hcall
    rcases List.mem_append.mp hcall with hold | hnew
    · exact hcalls call hold
    · obtain ⟨j, -, hlog, -, h1, h2⟩ := mem_sends hnew
      refine ⟨?_, h1, h2⟩
      rw [hlog]
      exact h.log_isPrefix j

theorem History.deliver (h : History G c) (i : Id) (k : ℕ) : History G (c.deliver i k) := by
  obtain ⟨calls, hnet, hcalls⟩ := h.messages
  rcases deliver_cases hnet i k with hc | ⟨call, hcall, hc⟩
  · rw [hc]
    exact h
  · rw [hc]
    obtain ⟨hL, h1, h2⟩ := hcalls call hcall
    obtain ⟨hin, hgrow, hlog⟩ := (h.inStep i).deliver (h.log_isPrefix i) hL h1 h2
    exact h.act hin List.prefix_rfl hgrow hlog (Or.inl rfl)

/-- **One step extends the history by the entry of a put, or not at all.** -/
theorem History.step (h : History G c) {a : Action Id} (ha : c.ReadSafe a) :
    ∃ R, History (G ++ R) (c.step a) ∧ ∀ e ∈ R, ∃ i, a = .event i (.put e.key e.value) := by
  -- every step but the put of a leader leaves the history as it is
  have hkeep : History G (c.step a) → ∃ R, History (G ++ R) (c.step a) ∧
      ∀ e ∈ R, ∃ i, a = .event i (.put e.key e.value) := by
    intro hG
    refine ⟨[], ?_, fun e he => by cases he⟩
    rwa [List.append_nil]
  cases a with
  | event i ev =>
      cases ev with
      | put key value =>
          by_cases hrole : (c.nodes i).state.currentRole = LEADER
          · refine ⟨_, (h.put hrole (ha hrole) key value).2, ?_⟩
            intro e he
            obtain rfl := List.mem_singleton.mp he
            exact ⟨i, rfl⟩
          · exact hkeep (h.quiet rfl (if_neg hrole))
      | appendEntries req => exact absurd ha id
      | get key => exact hkeep (h.quiet rfl rfl)
      | startElection => exact hkeep (h.quiet rfl rfl)
      | becomeLeader => exact hkeep (h.quiet rfl rfl)
      | voteResponse response => exact hkeep (h.quiet rfl rfl)
      | sendAppendEntries f => exact hkeep (h.quiet rfl rfl)
      | restart => exact hkeep (h.quiet rfl rfl)
  | send i nextIdx follower => exact hkeep (h.send i nextIdx follower)
  | deliver i k => exact hkeep (h.deliver i k)

/-- **A whole run extends the history by the entries of its puts.** -/
theorem History.run (h : History G c) {as : List (Action Id)}
    (hsafe : Run.Along Cluster.step ReadSafe c as) :
    ∃ R, History (G ++ R) (c.after as) ∧
      ∀ e ∈ R, ∃ i, .event i (.put e.key e.value) ∈ as := by
  induction as generalizing c G with
  | nil =>
      refine ⟨[], ?_, fun e he => by cases he⟩
      rwa [List.append_nil]
  | cons a as ih =>
      obtain ⟨R, hR, hputs⟩ := h.step hsafe.1
      obtain ⟨R', hR', hputs'⟩ := ih hR hsafe.2
      refine ⟨R ++ R', ?_, ?_⟩
      · rw [← List.append_assoc]
        exact hR'
      · intro e he
        rcases List.mem_append.mp he with hl | hr
        · obtain ⟨i, rfl⟩ := hputs e hl
          exact ⟨i, List.mem_cons_self⟩
        · obtain ⟨i, hi⟩ := hputs' e hr
          exact ⟨i, List.mem_cons_of_mem _ hi⟩

/-! ## What a get sees -/

/-- A get answers from the first `lastApplied` entries of the history. -/
theorem History.get (h : History G c) (j : Id) (key : String) :
    (c.nodes j).answer (.get key) = some (.get (getAnswer
      (replayLog (fun _ => none) (G.take (c.nodes j).lastApplied.toNat) key))) := by
  have hup := (h.inStep j).upToDate
  have hle := hup.committed_le
  have htake := take_of_isPrefix (h.log_isPrefix j) (k := (c.nodes j).commitIndex.toNat) (by omega)
  rw [answer, run_get (h.inStep j).sane, hup.kvStore_eq, hup.applied_eq, htake]

omit [DecidableEq Id] in
theorem replayLog_seen {R : List LogEntry} {e : LogEntry} (hR : ∀ b ∈ R, b.key ≠ e.key) {k : ℕ}
    (hk : G.length + 1 ≤ k) :
    replayLog (fun _ => none) ((G ++ [e] ++ R).take k) e.key = some e.value := by
  have htake : (G ++ [e] ++ R).take k = G ++ e :: R.take (k - (G.length + 1)) := by
    rw [List.take_append, List.take_of_length_le (by simpa using hk)]
    simp
  rw [htake]
  apply Replay.replay_last
  intro b hb
  exact hR b (List.mem_of_mem_take hb)

omit [DecidableEq Id] in
theorem exists_of_replayLog {R : List LogEntry} {e : LogEntry} {k : ℕ} (hk : k ≤ G.length)
    {key value : String}
    (h : replayLog (fun _ => none) ((G ++ [e] ++ R).take k) key = some value) :
    ∃ b ∈ G, b.key = key ∧ b.value = value := by
  rw [List.append_assoc, List.take_append_of_le_length hk] at h
  obtain ⟨b, hb, hkey, hvalue⟩ := Replay.exists_of_replay _ _ _ h
  exact ⟨b, List.mem_of_mem_take hb, hkey, hvalue⟩

/-- **A get sees the last put of its key exactly where the put has been applied.**
Take any run in which no two calls of a node overlap and every put is accepted by a
leader whose log extends all others.  If the last put of `key` was acknowledged, every
node that has applied its index answers with it; and where no earlier put wrote the same
value, no other node does. -/
theorem reads_see_put (M : Members Id) (as bs : List (Action Id)) (i j : Id)
    (key value : String)
    (hsafe : Run.Along Cluster.step ReadSafe (init M) (as ++ .event i (.put key value) :: bs))
    (hack : (((init M).after as).nodes i).answer (.put key value) = some (.put ⟨true⟩))
    (hlast : ∀ l v, .event l (.put key v) ∉ bs) :
    let index : ℤ := (((init M).after as).nodes i).log.length + 1
    let n := ((init M).after (as ++ .event i (.put key value) :: bs)).nodes j
    (index ≤ n.lastApplied → n.answer (.get key) = some (.get ⟨value, true⟩)) ∧
    ((∀ l, .event l (.put key value) ∉ as) →
      (n.answer (.get key) = some (.get ⟨value, true⟩) ↔ index ≤ n.lastApplied)) := by
  intro index n
  obtain ⟨hsafe_as, hput, hsafe_bs⟩ := Run.along_append.mp hsafe
  obtain ⟨G, hG, hputs⟩ := (history_init M).run hsafe_as
  rw [List.nil_append] at hG
  have hrole : (((init M).after as).nodes i).state.currentRole = LEADER := by
    by_contra hrole
    rw [answer, run_put_other hrole key value] at hack
    cases hack
  obtain ⟨hlog, hG'⟩ := hG.put hrole (hput hrole) key value
  obtain ⟨R, hR, hputs'⟩ := hG'.run hsafe_bs
  let e : LogEntry := ⟨(((init M).after as).nodes i).state.currentTerm, key, value⟩
  have hn : n.answer (.get key) = some (.get (getAnswer
      (replayLog (fun _ => none) ((G ++ [e] ++ R).take n.lastApplied.toNat) e.key))) := by
    have hget := hR.get j key
    rwa [← Cluster.step, ← after_append_cons] at hget
  have hindex : index = G.length + 1 := by rw [← hlog]
  have hother : ∀ b ∈ R, b.key ≠ key := by
    rintro b hb rfl
    obtain ⟨l, hl⟩ := hputs' b hb
    exact hlast l b.value hl
  have hseen : index ≤ n.lastApplied → n.answer (.get key) = some (.get ⟨value, true⟩) := by
    intro hle
    rw [hn, replayLog_seen hother (by omega)]
    rfl
  refine ⟨hseen, fun hfresh => ⟨?_, hseen⟩⟩
  -- below the index, the value can only come from an entry before the put
  intro hget
  by_contra hlt
  rw [hn] at hget
  cases hread : replayLog (fun _ => none) ((G ++ [e] ++ R).take n.lastApplied.toNat) e.key with
  | none =>
      rw [hread] at hget
      cases hget
  | some v =>
      rw [hread] at hget
      obtain rfl : v = value := by simpa [getAnswer] using hget
      obtain ⟨b, hb, rfl, rfl⟩ := exists_of_replayLog (by omega) hread
      obtain ⟨l, hl⟩ := hputs b hb
      exact hfresh l hl

/-- The theorem at a pair of nodes, the second having received the put from the
first and a write to another key after it. -/
theorem reads_see_put_run :
    let M : Members (Fin 2) := Members.ofFin 1
    let as : List (Action (Fin 2)) := [.event 0 .startElection, .event 0 .becomeLeader]
    let bs : List (Action (Fin 2)) := [.event 0 (.put "m" "w"), .send 0 1 1, .deliver 1 0]
    (((init M).after (as ++ .event 0 (.put "k" "v") :: bs)).nodes 1).answer (.get "k")
      = some (.get ⟨"v", true⟩) := by
  intro M as bs
  have hlast : ∀ (l : Fin 2) (v : String), .event l (.put "k" v) ∉ bs := by
    intro l v
    simp [bs]
  exact (reads_see_put M as bs 0 1 "k" "v" (by decide +kernel) (by decide +kernel) hlast).1
    (by decide +kernel)

/-- The first node has acknowledged the put and has it committed and applied; the
second answers that there is no such key. -/
theorem acknowledged_put_not_seen :
    let M : Members (Fin 2) := Members.ofFin 1
    let as : List (Action (Fin 2)) := [.event 0 .startElection, .event 0 .becomeLeader]
    (((init M).after as).nodes 0).answer (.put "k" "v") = some (.put ⟨true⟩) ∧
    (((init M).after (as ++ [.event 0 (.put "k" "v")])).nodes 1).answer (.get "k")
      = some (.get ⟨"", false⟩) := by
  decide +kernel

end Cluster

end KVStore
