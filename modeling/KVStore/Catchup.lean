/-
# Catching up with a leader

Two ways for a node to come to hold the log `L` of a leader, both for a node
whose log matches `L` by terms and whose term is not above the leader's.

* Calls that carry slices of `L` (`Slice`) arrive delayed, reordered and
  repeated.  Each one keeps the common prefix of the two logs or extends it to
  the end of its slice (`Caught`), so nothing is lost
  (`slices_lose_nothing`).
* The sender starts somewhere and steps back by one index at each refusal
  (`backtrack`).  An index of `0` is never refused, so it ends
  (`backtrack_converges`).
-/
import KVStore.Follower

namespace KVStore

open Role Splice RaftNode

variable {Id : Type}

/-! ## Slices of the leader's log -/

/-- A call that carries the entries `first + 1, …, last` of the leader log `L`. -/
structure Slice (L : List LogEntry) (Id : Type) where
  leaderId : Id
  first : ℕ
  last : ℕ
  leaderCommit : ℤ
  first_le : first ≤ last
  last_le : last ≤ L.length

namespace Slice

variable {L : List LogEntry} {n : RaftNode Id} {T : ℤ}

/-- The arguments of the call, in term `T`. -/
def request (T : ℤ) (c : Slice L Id) : AppendEntriesRequest Id :=
  ⟨c.leaderId, T, c.first, termAt L c.first, (L.take c.last).drop c.first, c.leaderCommit⟩

/-- The node after the call. -/
def deliver [DecidableEq Id] (T : ℤ) (n : RaftNode Id) (c : Slice L Id) : RaftNode Id :=
  n.step (.appendEntries (c.request T))

/-- What the calls find and keep: a node on a working database that can be brought
to `L` by calls of term `T`. -/
structure Follows (T : ℤ) (L : List LogEntry) (n : RaftNode Id) : Prop where
  healthy : n.Healthy
  lastApplied_nonneg : 0 ≤ n.lastApplied
  term_le : n.state.currentTerm ≤ T
  matching : Matching LogEntry.term n.log L

/-- What one call does to the log: a refusal changes nothing, an acceptance makes
the common prefix reach the end of the slice. -/
structure Caught (L : List LogEntry) (c : Slice L Id) (n : RaftNode Id) (b : Bool)
    (n' : RaftNode Id) : Prop where
  commonPrefix_le : commonPrefix n.log L ≤ commonPrefix n'.log L
  last_le : b = true → c.last ≤ commonPrefix n'.log L

theorem Follows.observed (h : Follows T L n) : Follows T L (n.observed T) where
  healthy := h.healthy
  lastApplied_nonneg := h.lastApplied_nonneg
  term_le := by
    rw [state_observed]
    split_ifs
    · exact le_rfl
    · exact h.term_le
  matching := h.matching

/-- Whether a call is refused depends on the log only. -/
theorem run_appendEntries_slice (h : Follows T L n) (c : Slice L Id) :
    (appendEntries (c.request T)).run n =
      if mismatch n.log c.first (termAt L c.first) then .ok false (n.observed T)
      else .ok true ((n.observed T).merged (c.request T)) := by
  have hstale : ¬ (c.request T).term < n.state.currentTerm := not_lt.mpr h.term_le
  rw [run_appendEntries h.healthy h.lastApplied_nonneg, if_neg hstale]
  refine if_congr Iff.rfl rfl (if_neg ?_)
  rintro ⟨hneg, -⟩
  exact absurd hneg (not_lt.mpr (Int.natCast_nonneg c.first))

/-- A slice that starts inside the common prefix is accepted. -/
theorem mismatch_of_le_commonPrefix {l : List LogEntry} {p : ℕ} (hp : p ≤ commonPrefix l L) :
    mismatch l p (termAt L p) = false := by
  obtain ⟨hl, hL, htake⟩ := le_commonPrefix_iff.mp hp
  have hterm : termAt L p = termAt l p := by
    rcases Nat.eq_zero_or_pos p with rfl | hpos
    · rfl
    · obtain ⟨q, rfl⟩ : ∃ q, p = q + 1 := ⟨p - 1, by omega⟩
      have hget := congrArg (fun m => m[q]?) htake
      simp only [List.getElem?_take, Nat.lt_succ_self, if_true] at hget
      rw [termAt, termAt, Int.natCast_succ, entryAt_succ, entryAt_succ, hget]
  rw [hterm]
  exact mismatch_termAt (by omega)

/-- **One call.**  It answers, the node can still be brought to `L`, and the common
prefix does what `Caught` says. -/
theorem run_slice (h : Follows T L n) (c : Slice L Id) :
    ∃ b n', (appendEntries (c.request T)).run n = .ok b n' ∧ Follows T L n' ∧ Caught L c n b n' := by
  rw [run_appendEntries_slice h]
  by_cases hmis : mismatch n.log c.first (termAt L c.first) = true
  · rw [if_pos hmis]
    exact ⟨false, _, rfl, h.observed, ⟨le_rfl, by simp⟩⟩
  · rw [if_neg hmis]
    have hfirst : (c.first : ℤ) ≤ L.length := by
      have := c.first_le
      have := c.last_le
      omega
    obtain ⟨hp, hpre⟩ := take_eq_of_accept h.matching (Int.natCast_nonneg _) hfirst
      (eq_false_of_ne_true hmis)
    rw [Int.toNat_natCast] at hp hpre
    have hlog : ((n.observed T).merged (c.request T)).log
        = splice LogEntry.term n.log c.first ((L.take c.last).drop c.first) := log_merged _
    obtain ⟨hle, hlast⟩ := commonPrefix_splice_slice h.matching hp c.first_le c.last_le hpre
    refine ⟨true, _, rfl, ⟨?_, ?_, ?_, ?_⟩, ⟨?_, fun _ => ?_⟩⟩
    · rw [healthy_merged]
      exact h.healthy
    · have hnonneg := h.observed.lastApplied_nonneg
      rw [lastApplied_merged]
      split_ifs
      · exact hnonneg.trans (le_max_left _ _)
      · exact hnonneg
    · rw [state_merged]
      exact h.observed.term_le
    · rw [hlog]
      exact matching_splice_slice h.matching hp c.first_le hpre
    · rw [hlog]
      exact hle
    · rw [hlog]
      exact hlast

/-- A slice inside the common prefix is accepted and changes nothing in the log. -/
theorem run_slice_again (h : Follows T L n) (c : Slice L Id)
    (hlast : c.last ≤ commonPrefix n.log L) :
    ∃ n', (appendEntries (c.request T)).run n = .ok true n' ∧ n'.log = n.log := by
  have hmis := mismatch_of_le_commonPrefix (c.first_le.trans hlast)
  rw [run_appendEntries_slice h, if_neg (by simp [hmis])]
  refine ⟨_, rfl, (log_merged _).trans ?_⟩
  obtain ⟨-, hL, htake⟩ := le_commonPrefix_iff.mp hlast
  have hpref : L.take c.last <+: n.log := htake ▸ List.take_prefix _ _
  have hfirst : c.first ≤ (L.take c.last).length := by
    rw [List.length_take_of_le hL]
    exact c.first_le
  exact splice_drop_of_isPrefix hpref hfirst

/-! ### Any sequence of slices -/

variable [DecidableEq Id]

theorem run_deliver (h : Follows T L n) (c : Slice L Id) :
    ∃ b, (appendEntries (c.request T)).run n = .ok b (c.deliver T n) ∧
      Follows T L (c.deliver T n) ∧ Caught L c n b (c.deliver T n) := by
  obtain ⟨b, n', hrun, hfollows, hcaught⟩ := run_slice h c
  have hdeliver : c.deliver T n = n' := by
    rw [deliver, step_appendEntries, Exec.finalState_ok hrun]
  rw [hdeliver]
  exact ⟨b, hrun, hfollows, hcaught⟩

theorem Follows.run (h : Follows T L n) (calls : List (Slice L Id)) :
    Follows T L (Run.run (deliver T) n calls) := by
  refine Run.run_invariant (P := Follows T L) (fun m c hm => ?_) h calls
  obtain ⟨b, -, hfollows, -⟩ := run_deliver hm c
  exact hfollows

theorem commonPrefix_le_run (h : Follows T L n) (calls : List (Slice L Id)) :
    commonPrefix n.log L ≤ commonPrefix (Run.run (deliver T) n calls).log L := by
  induction calls generalizing n with
  | nil => exact le_rfl
  | cons c calls ih =>
      obtain ⟨b, -, hfollows, hcaught⟩ := run_deliver h c
      exact hcaught.commonPrefix_le.trans (ih hfollows)

/-- **Delayed, reordered and repeated appends lose nothing.**  Every call of the
sequence answers, never shortens the common prefix of the node's log and `L`,
and makes it reach the end of its slice when the answer is `true`; the logs match
at every moment; and a call that was accepted is accepted again at any later
moment, with no change to the log. -/
theorem slices_lose_nothing (n : RaftNode Id) (h : n.Healthy) (ha : 0 ≤ n.lastApplied)
    (L : List LogEntry) (T : ℤ) (hterm : n.state.currentTerm ≤ T)
    (hmatch : Matching LogEntry.term n.log L) (calls : List (Slice L Id)) :
    let after := Run.run (deliver T) n
    (∀ p c, p ++ [c] <+: calls →
      ∃ b, (appendEntries (c.request T)).run (after p) = .ok b (after (p ++ [c])) ∧
        commonPrefix (after p).log L ≤ commonPrefix (after (p ++ [c])).log L ∧
        (b = true → c.last ≤ commonPrefix (after (p ++ [c])).log L)) ∧
    (∀ p, p <+: calls → Matching LogEntry.term (after p).log L) ∧
    ∀ p c q, p ++ [c] ++ q <+: calls →
      (appendEntries (c.request T)).run (after p) = .ok true (after (p ++ [c])) →
      ∃ n', (appendEntries (c.request T)).run (after (p ++ [c] ++ q)) = .ok true n' ∧
        n'.log = (after (p ++ [c] ++ q)).log := by
  intro after
  have hfollows : Follows T L n := ⟨h, ha, hterm, hmatch⟩
  have hafter : ∀ p, Follows T L (after p) := hfollows.run
  have hsnoc : ∀ p c, after (p ++ [c]) = c.deliver T (after p) :=
    fun p c => Run.run_snoc _ _ _ _
  refine ⟨?_, fun p _ => (hafter p).matching, ?_⟩
  · intro p c _
    obtain ⟨b, hrun, -, hcaught⟩ := run_deliver (hafter p) c
    rw [hsnoc]
    exact ⟨b, hrun, hcaught.commonPrefix_le, hcaught.last_le⟩
  · intro p c q _ hacc
    obtain ⟨b, hrun, -, hcaught⟩ := run_deliver (hafter p) c
    rw [hsnoc, hrun] at hacc
    cases hacc
    apply run_slice_again (hafter _) c
    have hlater := commonPrefix_le_run (hafter (p ++ [c])) q
    rw [← Run.run_append] at hlater
    exact (hsnoc p c ▸ hcaught.last_le rfl).trans hlater

/-- The log of a leader of term 2. -/
def leaderLog : List LogEntry := [⟨1, "a", "1"⟩, ⟨2, "b", "1"⟩, ⟨2, "c", "1"⟩]

/-- A node that holds the first entry of it and one entry of a lost leader. -/
def behind : RaftNode ℕ :=
  (fresh 0 [1, 2]).after [.appendEntries ⟨1, 1, 0, 0, [⟨1, "a", "1"⟩, ⟨1, "x", "1"⟩], 0⟩]

/-- A slice that is too far ahead, the whole log, and a short message that comes
late. -/
def early : Slice leaderLog ℕ := ⟨2, 3, 3, 0, by decide, by decide⟩
def whole : Slice leaderLog ℕ := ⟨2, 0, 3, 0, by decide, by decide⟩
def late : Slice leaderLog ℕ := ⟨2, 1, 2, 2, by decide, by decide⟩

theorem slices_lose_nothing_late :
    let after := Run.run (deliver 2) behind
    (after [early, whole, late]).log = leaderLog ∧
      Matching LogEntry.term (after [early, whole, late]).log leaderLog ∧
      ∃ n', (appendEntries (whole.request 2)).run (after [early, whole, late]) = .ok true n' ∧
        n'.log = (after [early, whole, late]).log := by
  intro after
  have hsane : behind.Sane := (sane_fresh 0 [1, 2]).after _
  obtain ⟨-, hmatch, hagain⟩ := slices_lose_nothing behind hsane.healthy hsane.lastApplied_nonneg
    leaderLog 2 (by decide +kernel) (by decide +kernel) [early, whole, late]
  have hfollows : Follows 2 leaderLog (after [early]) :=
    Follows.run ⟨hsane.healthy, hsane.lastApplied_nonneg, by decide +kernel, by decide +kernel⟩ _
  have hwhole : (appendEntries (whole.request 2)).run (after [early])
      = .ok true (after [early, whole]) := by
    obtain ⟨b, hrun, -⟩ := run_deliver hfollows whole
    have hmis : mismatch (after [early]).log whole.first (termAt leaderLog whole.first) = false := by
      decide +kernel
    rw [run_appendEntries_slice hfollows, if_neg (by simp [hmis])] at hrun ⊢
    cases hrun
    rfl
  exact ⟨by decide +kernel, hmatch _ (List.prefix_refl _), hagain [early] whole [late]
    (List.prefix_refl _) hwhole⟩

end Slice

/-! ## Stepping back from a refused index -/

variable [DecidableEq Id]

/-- A method of the leader, called while another node is in hand. -/
def onLeader {α : Type} (m : Method Id α) (leader : RaftNode Id) :
    Method Id (α × RaftNode Id) :=
  match m.run leader with
  | .ok a leader' => return (a, leader')
  | .error e _ => throw e

/-- The leader builds the arguments for `follower`, the other node answers them,
and after a refusal the leader steps back and tries again, for so many rounds.
The result is the number of refusals before the first `true`. -/
def backtrack (follower : Id) : ℕ → RaftNode Id → Method Id (Option ℕ)
  | 0, _ => return none
  | rounds + 1, leader => do
      let (req, leader) ← onLeader (buildAppendEntries follower) leader
      if ← appendEntries req then
        return some 0
      let (_, leader) ← onLeader (recordAppendEntries follower false) leader
      let refusals ← backtrack follower rounds leader
      return refusals.map (· + 1)

/-- The leader after a refusal. -/
def steppedBack (leader : RaftNode Id) (f : Id) : RaftNode Id :=
  { leader with nextIndex := leader.nextIndex.insert f (max 1 (leader.nextIdx f - 1)) }

theorem nextIdx_steppedBack (leader : RaftNode Id) (f : Id) :
    (steppedBack leader f).nextIdx f = max 1 (leader.nextIdx f - 1) := by
  rw [steppedBack, nextIdx_insert, if_pos rfl]

/-- The rounds of the repetition. -/
theorem run_backtrack_succ {leader n : RaftNode Id} (hl : leader.Healthy) {f : Id}
    (hi : leader.nextIdx f ≤ leader.log.length + 1) (rounds : ℕ) {b : Bool} {n' : RaftNode Id}
    (hrun : (appendEntries (leader.requestFrom (leader.nextIdx f) f)).run n = .ok b n') :
    (backtrack f (rounds + 1) leader).run n =
      if b then .ok (some 0) n'
      else (do
        let refusals ← backtrack f rounds (steppedBack leader f)
        return refusals.map (· + 1) : Method Id (Option ℕ)).run n' := by
  have hbuild : (onLeader (buildAppendEntries f) leader : Method Id _).run n
      = .ok (leader.requestFrom (leader.nextIdx f) f, leader) n := by
    unfold onLeader
    rw [run_buildAppendEntries, run_appendEntriesFrom hl hi]
    rfl
  rw [backtrack, Exec.run_bind_ok hbuild]
  dsimp only
  rw [Exec.run_bind_ok hrun]
  cases b with
  | true => rfl
  | false => rfl

section Rounds

variable {leader other : RaftNode Id} {f : Id}

/-- An index of `0` is never refused. -/
theorem one_lt_nextIdx_of_mismatch (hi : 1 ≤ leader.nextIdx f)
    (hmis : mismatch other.log (leader.nextIdx f - 1)
      (termAt leader.log (leader.nextIdx f - 1)) = true) : 1 < leader.nextIdx f := by
  by_contra hle
  have hone : leader.nextIdx f - 1 = 0 := by omega
  have hzero : mismatch other.log 0 (termAt leader.log 0) = false :=
    Slice.mismatch_of_le_commonPrefix (Nat.zero_le _)
  rw [hone, hzero] at hmis
  cases hmis

/-- A call that is taken leaves the leader's log at the front. -/
theorem take_log_of_taken (hmatch : Matching LogEntry.term other.log leader.log)
    (hi : 1 ≤ leader.nextIdx f) (hi' : leader.nextIdx f ≤ leader.log.length + 1)
    (hacc : mismatch other.log (leader.nextIdx f - 1)
      (termAt leader.log (leader.nextIdx f - 1)) = false) :
    ((other.observed leader.state.currentTerm).merged
      (leader.requestFrom (leader.nextIdx f) f)).log.take leader.log.length = leader.log := by
  rw [log_merged]
  show (splice LogEntry.term other.log (leader.nextIdx f - 1).toNat
    (leader.log.drop (leader.nextIdx f - 1).toNat)).take leader.log.length = leader.log
  rcases splice_of_accept hmatch (by omega) (by omega) hacc with ⟨hpre, hsame⟩ | hnew
  · rw [hsame]
    exact (List.prefix_iff_eq_take.mp hpre).symm
  · rw [hnew, List.take_length]

end Rounds

/-- **Backtracking converges.**  From any `nextIndex` in `1..|L| + 1` a call is
answered `true` after at most `nextIndex - 1` refusals, and then the first `|L|`
entries of the other node are those of the leader. -/
theorem backtrack_converges (leader other : RaftNode Id) (f : Id) (hl : leader.Healthy)
    (ho : other.Healthy) (ha : 0 ≤ other.lastApplied)
    (hmatch : Matching LogEntry.term other.log leader.log)
    (hterm : other.state.currentTerm ≤ leader.state.currentTerm)
    (hi : 1 ≤ leader.nextIdx f) (hi' : leader.nextIdx f ≤ leader.log.length + 1) (rounds : ℕ)
    (hrounds : leader.nextIdx f ≤ rounds) :
    ∃ refusals other', (backtrack f rounds leader).run other = .ok (some refusals) other' ∧
      (refusals : ℤ) ≤ leader.nextIdx f - 1 ∧
      other'.log.take leader.log.length = leader.log := by
  induction rounds generalizing leader other with
  | zero => omega
  | succ rounds ih =>
      have hstale : ¬ leader.state.currentTerm < other.state.currentTerm := not_lt.mpr hterm
      by_cases hmis : mismatch other.log (leader.nextIdx f - 1)
          (termAt leader.log (leader.nextIdx f - 1)) = true
      · have hgt : 1 < leader.nextIdx f := one_lt_nextIdx_of_mismatch hi hmis
        have hnext : (steppedBack leader f).nextIdx f = leader.nextIdx f - 1 := by
          rw [nextIdx_steppedBack]
          omega
        have hreach : (steppedBack leader f).nextIdx f ≤ (leader.log.length : ℤ) + 1 := by omega
        have hrun : (appendEntries (leader.requestFrom (leader.nextIdx f) f)).run other
            = .ok false (other.observed leader.state.currentTerm) :=
          run_appendEntries_of_mismatch ho ha hstale hmis
        have hfollows : Slice.Follows leader.state.currentTerm leader.log other :=
          ⟨ho, ha, hterm, hmatch⟩
        obtain ⟨refusals, other', hback, hle, htake⟩ := ih (steppedBack leader f)
          (other.observed leader.state.currentTerm) hl ho ha hmatch hfollows.observed.term_le
          (by omega) hreach (by omega)
        refine ⟨refusals + 1, other', ?_, by push_cast; omega, htake⟩
        rw [run_backtrack_succ hl hi' rounds hrun, if_neg (by simp), Exec.run_bind_ok hback]
        rfl
      · have hacc := eq_false_of_ne_true hmis
        have hrun : (appendEntries (leader.requestFrom (leader.nextIdx f) f)).run other
            = .ok true ((other.observed leader.state.currentTerm).merged
                (leader.requestFrom (leader.nextIdx f) f)) :=
          run_appendEntries_of_accept ho ha hstale hacc (show 0 ≤ leader.nextIdx f - 1 by omega)
        have hback := run_backtrack_succ hl hi' rounds hrun
        rw [if_pos rfl] at hback
        exact ⟨0, _, hback, by push_cast; omega, take_log_of_taken hmatch hi hi' hacc⟩

/-- A leader whose log is `leaderLog`, with `nextIndex` at the end of it. -/
def ahead : RaftNode ℕ :=
  (fresh 2 [0, 1]).after [.appendEntries ⟨1, 2, 0, 0, Slice.leaderLog, 0⟩, .becomeLeader]

theorem backtrack_converges_behind :
    ∃ refusals other', (backtrack 0 4 ahead).run Slice.behind = .ok (some refusals) other' ∧
      refusals ≤ 3 ∧ other'.log.take 3 = Slice.leaderLog := by
  have hahead : ahead.Sane := (sane_fresh 2 [0, 1]).after _
  have hbehind : Slice.behind.Sane := (sane_fresh 0 [1, 2]).after _
  obtain ⟨refusals, other', hrun, hle, htake⟩ := backtrack_converges ahead Slice.behind 0
    hahead.healthy hbehind.healthy hbehind.lastApplied_nonneg (by decide +kernel)
    (by decide +kernel) (by decide +kernel) (by decide +kernel) 4 (by decide +kernel)
  have hnext : ahead.nextIdx 0 = 4 := by decide +kernel
  refine ⟨refusals, other', hrun, by omega, ?_⟩
  have hlog : ahead.log = Slice.leaderLog := by decide +kernel
  rwa [hlog] at htake

end KVStore
