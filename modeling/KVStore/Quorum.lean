/-
# Quorums

A cluster is all nodes of a finite type, each with every other node as its peer.
A node wins an election with the set of itself and the peers that granted their
vote, and commits an index with the set of itself and the peers recorded at or
above it.  Both tests of the source compare the size of the set with half the
number of **peers**, rounded down.

The two counts of the source are the sizes of these sets (`card_voters`,
`card_replicas`).  For an even number of peers any two passing sets meet; for an
odd number the two halves of the cluster both pass (`quorums_intersect_iff`).
-/
import Mathlib.Data.Fintype.Card
import Mathlib.Algebra.Ring.Parity
import KVStore.Events

namespace KVStore

open Role RaftNode

variable {Id : Type} [DecidableEq Id]

/-- Two sets of more than half of a finite set meet. -/
theorem inter_nonempty_of_majority [Fintype Id] {S T : Finset Id}
    (hS : Fintype.card Id < 2 * S.card) (hT : Fintype.card Id < 2 * T.card) :
    (S ∩ T).Nonempty := by
  apply Finset.inter_nonempty_of_card_lt_card_add_card (Finset.subset_univ S)
    (Finset.subset_univ T)
  rw [Finset.card_univ]
  omega

namespace RaftNode

variable {n : RaftNode Id}

/-- The peers of the node are all other nodes. -/
def Belongs (n : RaftNode Id) : Prop := ∀ f, f ∈ n.peers ↔ f ≠ n.nodeId

instance [Fintype Id] : Decidable n.Belongs := inferInstanceAs (Decidable (∀ _, _))

/-- A new node that is given all other nodes as its peers. -/
theorem belongs_fresh {i : Id} {peerIds : List Id} (h : ∀ f, f ∈ peerIds ↔ f ≠ i) :
    (fresh i peerIds).Belongs := by
  intro f
  show f ∈ peerIds.dedup ↔ f ≠ i
  rw [List.mem_dedup]
  exact h f

theorem Belongs.length_peers [Fintype Id] (h : n.Belongs) :
    n.peers.length + 1 = Fintype.card Id := by
  have hall : (n.nodeId :: n.peers).toFinset = Finset.univ := by
    ext f
    simp only [List.toFinset_cons, Finset.mem_insert, List.mem_toFinset, h f, Finset.mem_univ,
      iff_true]
    exact eq_or_ne f n.nodeId
  have hnodup : (n.nodeId :: n.peers).Nodup := by
    refine List.nodup_cons.mpr ⟨?_, n.peersNodup⟩
    intro hmem
    exact (h _).mp hmem rfl
  have hcard := List.toFinset_card_of_nodup hnodup
  rw [hall, Finset.card_univ, List.length_cons] at hcard
  exact hcard.symm

/-- The node itself and the peers that satisfy `p`. -/
def withPeers (n : RaftNode Id) (p : Id → Bool) : Finset Id :=
  insert n.nodeId (n.peers.filter p).toFinset

theorem Belongs.card_withPeers (h : n.Belongs) (p : Id → Bool) :
    (n.withPeers p).card = (n.peers.filter p).length + 1 := by
  rw [withPeers, Finset.card_insert_of_notMem, List.toFinset_card_of_nodup (n.peersNodup.filter p)]
  intro hmem
  rw [List.mem_toFinset, List.mem_filter] at hmem
  exact (h _).mp hmem.1 rfl

/-! ## The sets the two tests count -/

/-- The nodes whose votes an election counts, given what each peer answered. -/
def voters (n : RaftNode Id) (granted : Id → Bool) : Finset Id := n.withPeers granted

/-- A peer is recorded at index `m` or above. -/
def recordedAt (n : RaftNode Id) (m : ℤ) (f : Id) : Bool :=
  match n.matchIndex.lookup f with
  | some x => decide (x ≥ m)
  | none => false

/-- The nodes `updateCommitIndex` counts for index `m`. -/
def replicas (n : RaftNode Id) (m : ℤ) : Finset Id := n.withPeers (n.recordedAt m)

theorem card_voters (h : n.Belongs) (granted : Id → Bool) :
    (n.voters granted).card = voteCount (n.peers.map granted) := by
  rw [voters, h.card_withPeers, voteCount, List.filter_map, List.length_map]
  rfl

/-- `matchIndex` has no entry for a node that is not a peer. -/
def RecordsPeers (n : RaftNode Id) : Prop := ∀ f, f ∈ n.matchIndex → f ∈ n.peers

/-- The count of `updateCommitIndex` is the number of peers recorded at the index,
and the node itself. -/
theorem replicationCount_eq_peers (hr : n.RecordsPeers) (m : ℤ) :
    n.replicationCount m = 1 + (n.peers.filter (n.recordedAt m)).length := by
  -- the loop counts entries of `matchIndex`, of which each recorded peer has one
  have hperm : ((n.matchIndex.entries.filter (fun e => decide (e.2 ≥ m))).map Sigma.fst).Perm
      (n.peers.filter (n.recordedAt m)) := by
    refine (List.perm_ext_iff_of_nodup ?_ (n.peersNodup.filter _)).mpr ?_
    · exact n.matchIndex.nodupKeys.sublist List.filter_sublist
    · intro f
      rw [List.mem_map, List.mem_filter]
      constructor
      · rintro ⟨⟨g, x⟩, he, rfl⟩
        rw [List.mem_filter] at he
        have hlook : n.matchIndex.lookup g = some x := AList.mem_lookup_iff.mpr he.1
        have hmem : g ∈ n.matchIndex := by
          rw [← AList.lookup_isSome, hlook]
          rfl
        refine ⟨hr g hmem, ?_⟩
        simp only [recordedAt, hlook]
        exact he.2
      · rintro ⟨-, hrec⟩
        unfold recordedAt at hrec
        split at hrec
        · next x hlook =>
            exact ⟨⟨f, x⟩, List.mem_filter.mpr ⟨AList.mem_lookup_iff.mp hlook, hrec⟩, rfl⟩
        · cases hrec
  rw [← hperm.length_eq, replicationCount_eq, countP_values]

theorem card_replicas (h : n.Belongs) (hr : n.RecordsPeers) (m : ℤ) :
    (n.replicas m).card = n.replicationCount m := by
  rw [replicas, h.card_withPeers, replicationCount_eq_peers hr, add_comm]

end RaftNode

/-! ## Passing sets -/

/-- The two tests of the source. -/
inductive QuorumTest : Type where
  | vote
  | commit
  deriving DecidableEq

/-- `S` is the set some node of the cluster counts when it passes the test. -/
def Passes : QuorumTest → Finset Id → Prop
  | .vote, S => ∃ (n : RaftNode Id) (granted : Id → Bool), n.Belongs ∧ S = n.voters granted ∧
      voteCount (n.peers.map granted) > n.peers.length / 2
  | .commit, S => ∃ (n : RaftNode Id) (m : ℤ), n.Belongs ∧ n.RecordsPeers ∧ S = n.replicas m ∧
      n.replicationCount m > n.peers.length / 2

/-- A passing set is larger than half the number of peers. -/
theorem Passes.card [Fintype Id] {t : QuorumTest} {S : Finset Id} (h : Passes t S) :
    (Fintype.card Id - 1) / 2 < S.card := by
  cases t with
  | vote =>
      obtain ⟨n, granted, hn, rfl, hpass⟩ := h
      have hlen := hn.length_peers
      rw [card_voters hn, show Fintype.card Id - 1 = n.peers.length by omega]
      exact hpass
  | commit =>
      obtain ⟨n, m, hn, hr, rfl, hpass⟩ := h
      have hlen := hn.length_peers
      rw [card_replicas hn hr, show Fintype.card Id - 1 = n.peers.length by omega]
      exact hpass

/-- The record of a leader that has replicated up to index `1` to `fs`. -/
def recordedFor (fs : List Id) : IndexMap Id := fs.foldl (fun m f => m.insert f 1) ∅

theorem lookup_recordedFor (fs : List Id) (g : Id) :
    (recordedFor fs).lookup g = if g ∈ fs then some 1 else none := by
  induction fs using List.reverseRecOn with
  | nil => simp [recordedFor]
  | append_singleton fs f ih =>
      unfold recordedFor at ih ⊢
      rw [List.foldl_append, List.foldl_cons, List.foldl_nil]
      by_cases hg : g = f
      · subst hg
        simp
      · rw [AList.lookup_insert_ne hg, ih]
        simp [hg]

/-- A node that asks for the members of a set it belongs to counts that set. -/
theorem withPeers_mem {n : RaftNode Id} (hn : n.Belongs) {S : Finset Id} (hS : n.nodeId ∈ S) :
    n.withPeers (fun f => decide (f ∈ S)) = S := by
  ext f
  simp only [withPeers, Finset.mem_insert, List.mem_toFinset, List.mem_filter, hn f,
    decide_eq_true_eq]
  constructor
  · rintro (rfl | ⟨-, hf⟩)
    · exact hS
    · exact hf
  · intro hf
    by_cases hfi : f = n.nodeId
    · exact Or.inl hfi
    · exact Or.inr ⟨hfi, hf⟩

/-- Every set of that size passes both tests. -/
theorem passes_of_card [Fintype Id] (t : QuorumTest) {S : Finset Id}
    (h : (Fintype.card Id - 1) / 2 < S.card) : Passes t S := by
  obtain ⟨i, hi⟩ : S.Nonempty := by
    rw [← Finset.card_pos]
    omega
  let n : RaftNode Id := fresh i (Finset.univ.erase i).toList
  have hpeers : ∀ f, f ∈ n.peers ↔ f ≠ i := belongs_fresh (by simp)
  have hset : n.withPeers (fun f => decide (f ∈ S)) = S := withPeers_mem hpeers hi
  cases t with
  | vote =>
      have hn : n.Belongs := hpeers
      have hlen := hn.length_peers
      refine ⟨n, fun f => decide (f ∈ S), hn, hset.symm, ?_⟩
      rw [← card_voters hn, voters, hset]
      omega
  | commit =>
      -- the same node, with the other members of `S` recorded
      let n' : RaftNode Id := { n with matchIndex := recordedFor (S.erase i).toList }
      have hn' : n'.Belongs := hpeers
      have hlen := hn'.length_peers
      have hr : n'.RecordsPeers := by
        intro f hf
        have hsome := AList.lookup_isSome.mpr hf
        rw [lookup_recordedFor] at hsome
        split_ifs at hsome with hmem
        · exact (hpeers f).mpr (Finset.ne_of_mem_erase (Finset.mem_toList.mp hmem))
        · cases hsome
      have hrec : ∀ f ∈ n'.peers, n'.recordedAt 1 f = decide (f ∈ S) := by
        intro f hf
        have hfi : f ≠ i := (hpeers f).mp hf
        unfold recordedAt
        rw [lookup_recordedFor]
        by_cases hfS : f ∈ S <;> simp [hfS, hfi]
      have hset' : n'.replicas 1 = S := by
        rw [replicas, withPeers, List.filter_congr hrec]
        exact hset
      refine ⟨n', 1, hn', hr, hset'.symm, ?_⟩
      rw [← card_replicas hn' hr, hset']
      omega

/-! ## When quorums meet -/

/-- **Quorums meet exactly when the number of peers is even**, whichever two of
the tests they pass. -/
theorem quorums_intersect_iff [Fintype Id] (a b : QuorumTest) :
    (∀ S T : Finset Id, Passes a S → Passes b T → (S ∩ T).Nonempty) ↔
      Even (Fintype.card Id - 1) := by
  constructor
  · intro hmeet
    by_contra hodd
    obtain ⟨j, hj⟩ := Nat.not_even_iff_odd.mp hodd
    -- split the `2 * j + 2` nodes in halves
    obtain ⟨S, -, hS⟩ := Finset.exists_subset_card_eq (s := (Finset.univ : Finset Id))
      (n := j + 1) (by rw [Finset.card_univ]; omega)
    have hcompl : Sᶜ.card = j + 1 := by
      rw [Finset.card_compl]
      omega
    have hinter := hmeet S Sᶜ (passes_of_card a (by omega)) (passes_of_card b (by omega))
    rw [Finset.inter_compl] at hinter
    exact Finset.not_nonempty_empty hinter
  · rintro ⟨j, hj⟩ S T hS hT
    have hcS := hS.card
    have hcT := hT.card
    apply inter_nonempty_of_majority <;> omega

/-- With one peer each of the two nodes wins an election on its own vote. -/
theorem quorums_disjoint_pair :
    ¬ ∀ S T : Finset (Fin 2), Passes .vote S → Passes .vote T → (S ∩ T).Nonempty := by
  intro hmeet
  have h0 : Passes .vote ({0} : Finset (Fin 2)) :=
    ⟨fresh 0 [1], fun _ => false, by decide, by decide, by decide⟩
  have h1 : Passes .vote ({1} : Finset (Fin 2)) :=
    ⟨fresh 1 [0], fun _ => false, by decide, by decide, by decide⟩
  have hinter := hmeet {0} {1} h0 h1
  revert hinter
  decide

end KVStore
