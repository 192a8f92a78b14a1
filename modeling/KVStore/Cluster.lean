/-
# A cluster with a network

Every node of a cluster has its own storage and all other nodes as its peers.
The source delivers no `appendEntries` between nodes; the cluster here has the
network the protocol is written for: a leader may at any time compute the
arguments of `sendAppendEntries` from its own storage and put them on the
network, and anything on the network may be delivered to any node's
`appendEntries`, in any order, repeatedly or never.

An action changes at most one node, by an event of that node (`step_of_effect`),
and puts at most one message on the network, built from the sender's log
(`network_step`).
-/
import KVStore.Follower

namespace KVStore

open Role RaftNode

variable {Id : Type}

/-- The membership of a cluster: the peers of each node, in the order its map
iterates them. -/
structure Members (Id : Type) where
  peersOf : Id → List Id
  mem_peersOf : ∀ i f, f ∈ peersOf i ↔ f ≠ i

/-- A cluster with the nodes `0, …, n`. -/
def Members.ofFin (n : ℕ) : Members (Fin (n + 1)) where
  peersOf := fun i => (List.finRange (n + 1)).filter (· ≠ i)
  mem_peersOf := by simp

structure Cluster (Id : Type) where
  nodes : Id → RaftNode Id
  network : List (AppendEntriesRequest Id)

/-- One atomic step of the cluster. -/
inductive Action (Id : Type) : Type where
  /-- An event of node `i`. -/
  | event (i : Id) (ev : Event Id)
  /-- Node `i` computes the arguments of `sendAppendEntries` from `nextIdx` on. -/
  | send (i : Id) (nextIdx : ℤ) (follower : Id)
  /-- Message `k` of the network reaches node `i`. -/
  | deliver (i : Id) (k : ℕ)
  deriving DecidableEq

namespace Cluster

variable [DecidableEq Id]

/-- All nodes new, on empty databases, and nothing on the network. -/
def init (M : Members Id) : Cluster Id := ⟨fun i => fresh i (M.peersOf i), []⟩

/-- Node `i` takes an event. -/
def act (c : Cluster Id) (i : Id) (ev : Event Id) : Cluster Id :=
  { c with nodes := Function.update c.nodes i ((c.nodes i).step ev) }

/-- A leader puts the arguments it computes on the network. -/
def send (c : Cluster Id) (i : Id) (nextIdx : ℤ) (follower : Id) : Cluster Id :=
  if (c.nodes i).state.currentRole = LEADER ∧ 1 ≤ nextIdx then
    match (appendEntriesFrom nextIdx follower).run (c.nodes i) with
    | .ok req _ => { c with network := c.network ++ [req] }
    | .error _ _ => c
  else c

/-- A message of the network reaches a node. -/
def deliver (c : Cluster Id) (i : Id) (k : ℕ) : Cluster Id :=
  match c.network[k]? with
  | some req => c.act i (.appendEntries req)
  | none => c

def step (c : Cluster Id) : Action Id → Cluster Id
  | .event i ev => c.act i ev
  | .send i nextIdx follower => c.send i nextIdx follower
  | .deliver i k => c.deliver i k

/-- The cluster after a run. -/
def after (c : Cluster Id) (as : List (Action Id)) : Cluster Id := Run.run Cluster.step c as

theorem after_snoc (c : Cluster Id) (as : List (Action Id)) (a : Action Id) :
    c.after (as ++ [a]) = (c.after as).step a :=
  Run.run_snoc _ _ _ _

theorem after_append_cons (c : Cluster Id) (as bs : List (Action Id)) (a : Action Id) :
    c.after (as ++ a :: bs) = ((c.after as).step a).after bs :=
  Run.run_append _ _ _ _

variable {c : Cluster Id}

@[simp] theorem nodes_act_self (i : Id) (ev : Event Id) :
    (c.act i ev).nodes i = (c.nodes i).step ev :=
  Function.update_self _ _ _

theorem nodes_act_ne {i j : Id} (h : j ≠ i) (ev : Event Id) : (c.act i ev).nodes j = c.nodes j :=
  Function.update_of_ne h _ _

/-- What holds of every node still does when it holds of the one that took the
event. -/
theorem forall_act {P : Id → RaftNode Id → Prop} {i : Id} {ev : Event Id}
    (h : ∀ j, P j (c.nodes j)) (hi : P i ((c.nodes i).step ev)) (j : Id) :
    P j ((c.act i ev).nodes j) := by
  revert j
  apply (Function.forall_update_iff c.nodes P).mpr
  exact ⟨hi, fun j _ => h j⟩

/-- The node an action happens to, and the event it is there. -/
def effect (c : Cluster Id) : Action Id → Option (Id × Event Id)
  | .event i ev => some (i, ev)
  | .send _ _ _ => none
  | .deliver i k => (c.network[k]?).map fun req => (i, .appendEntries req)

/-- **An action that happens to a node is an event of that node.** -/
theorem step_of_effect {a : Action Id} {i : Id} {ev : Event Id} (h : c.effect a = some (i, ev)) :
    c.step a = c.act i ev := by
  cases a with
  | event j ev' =>
      obtain ⟨rfl, rfl⟩ : j = i ∧ ev' = ev := by simpa [effect] using h
      rfl
  | send j nextIdx follower => cases h
  | deliver j k =>
      rw [effect, Option.map_eq_some_iff] at h
      obtain ⟨req, hreq, heq⟩ := h
      obtain ⟨rfl, rfl⟩ : j = i ∧ Event.appendEntries req = ev := by simpa using heq
      rw [step, deliver, hreq]

/-- Any other action changes no node. -/
theorem nodes_of_no_effect {a : Action Id} (h : c.effect a = none) :
    (c.step a).nodes = c.nodes := by
  cases a with
  | event j ev => cases h
  | send j nextIdx follower =>
      show (c.send j nextIdx follower).nodes = c.nodes
      unfold send
      split_ifs
      · split <;> rfl
      · rfl
  | deliver j k =>
      rw [effect, Option.map_eq_none_iff] at h
      rw [step, deliver, h]

/-- The message an action puts on the network, with the log it was built from. -/
def sends (c : Cluster Id) : Action Id → List (LeaderCall Id)
  | .send i nextIdx follower =>
      if (c.nodes i).state.currentRole = LEADER ∧ 1 ≤ nextIdx ∧
          nextIdx ≤ (c.nodes i).log.length + 1 then
        [⟨(c.nodes i).log, nextIdx, (c.nodes i).state.currentTerm, follower,
          (c.nodes i).commitIndex⟩]
      else []
  | _ => []

omit [DecidableEq Id] in
/-- A message is built by a leader from its own log. -/
theorem mem_sends {a : Action Id} {call : LeaderCall Id} (h : call ∈ c.sends a) :
    ∃ i, (c.nodes i).state.currentRole = LEADER ∧ call.leaderLog = (c.nodes i).log ∧
      call.term = (c.nodes i).state.currentTerm ∧ 1 ≤ call.nextIdx ∧
      call.nextIdx ≤ call.leaderLog.length + 1 := by
  cases a with
  | event i ev => cases h
  | deliver i k => cases h
  | send i nextIdx follower =>
      unfold sends at h
      dsimp only at h
      split_ifs at h with hc
      · obtain rfl := List.mem_singleton.mp h
        exact ⟨i, hc.1, rfl, rfl, hc.2⟩
      · cases h

/-- All nodes are sane. -/
def Sane (c : Cluster Id) : Prop := ∀ i, (c.nodes i).Sane

/-- **An action puts at most one message on the network.** -/
theorem network_step (h : c.Sane) (a : Action Id) :
    (c.step a).network = c.network ++ (c.sends a).map LeaderCall.request := by
  cases a with
  | event i ev => exact (List.append_nil _).symm
  | send i nextIdx follower =>
      rw [step, send, sends]
      by_cases hrole : (c.nodes i).state.currentRole = LEADER ∧ 1 ≤ nextIdx
      · rw [if_pos hrole]
        by_cases hidx : nextIdx ≤ (c.nodes i).log.length + 1
        · rw [run_appendEntriesFrom (h i).healthy hidx, if_pos ⟨hrole.1, hrole.2, hidx⟩,
            List.map_singleton, LeaderCall.request_requestFrom]
        · rw [run_appendEntriesFrom_error (h i).healthy (by omega),
            if_neg (fun hc => hidx hc.2.2)]
          exact (List.append_nil _).symm
      · rw [if_neg hrole, if_neg (fun hc => hrole ⟨hc.1, hc.2.1⟩)]
        exact (List.append_nil _).symm
  | deliver i k =>
      rw [step, deliver]
      cases c.network[k]? <;> exact (List.append_nil _).symm

/-- **A delivery is a call with one of the messages sent**, or nothing at all. -/
theorem deliver_cases {calls : List (LeaderCall Id)}
    (h : c.network = calls.map LeaderCall.request) (i : Id) (k : ℕ) :
    c.deliver i k = c ∨
      ∃ call ∈ calls, c.deliver i k = c.act i (.appendEntries call.request) := by
  unfold deliver
  cases hreq : c.network[k]? with
  | none => exact Or.inl rfl
  | some req =>
      have hmem := List.mem_of_getElem? hreq
      rw [h] at hmem
      obtain ⟨call, hcall, rfl⟩ := List.mem_map.mp hmem
      exact Or.inr ⟨call, hcall, rfl⟩

theorem sane_init (M : Members Id) : (init M).Sane := fun i => sane_fresh i (M.peersOf i)

theorem Sane.act (h : c.Sane) (i : Id) (ev : Event Id) : (c.act i ev).Sane :=
  forall_act (P := fun _ n => n.Sane) h ((h i).step ev)

theorem Sane.step (h : c.Sane) (a : Action Id) : (c.step a).Sane := by
  cases heff : c.effect a with
  | none =>
      unfold Cluster.Sane
      rw [nodes_of_no_effect heff]
      exact h
  | some p =>
      rw [step_of_effect heff]
      exact h.act _ _

end Cluster

end KVStore
