/-
# The `logs` and `state` tables over whole runs of calls

Two abstractions of the storage.

* `LogCall` : the two calls that change the log.  Over any run of them the
  `logs` table is a list: appending adds at the end, deleting from index `i`
  keeps the first `i - 1` entries, and every reader agrees with that list.
* `Sessions` : any number of `SQLiteStorage` objects opened on one database file
  and closed again.  Each opening inserts one more all-zero row into `state`, so
  the rows disagree with each other; what `getCommitIndex` and `getLastApplied`
  read is nevertheless the last value written.
-/
import KVStore.Events

namespace KVStore

/-! ## The log as a list -/

/-- A call that changes the log. -/
inductive LogCall : Type where
  | appendLogEntry (entry : LogEntry)
  | deleteLogEntriesFrom (index : ℤ)
  deriving DecidableEq

namespace LogCall

/-- The storage after a call. -/
def perform (s : SQLiteStorage) : LogCall → SQLiteStorage
  | appendLogEntry entry => Exec.finalState (SQLiteStorage.appendLogEntry entry) s
  | deleteLogEntriesFrom index => Exec.finalState (SQLiteStorage.deleteLogEntriesFrom index) s

/-- What the call does to a list. -/
def onList (l : List LogEntry) : LogCall → List LogEntry
  | appendLogEntry entry => l ++ [entry]
  | deleteLogEntriesFrom index => l.take (max 0 (index - 1)).toNat

/-- The entries of `l` from the 1-based index `i` to the index `j`. -/
def slice (l : List LogEntry) (i j : ℤ) : List LogEntry :=
  (l.drop (i - 1).toNat).take (j - i + 1).toNat

/-- The storage holds the list `l` and every statement succeeds. -/
def Stores (s : SQLiteStorage) (l : List LogEntry) : Prop := s.Healthy ∧ s.log = l

variable {s : SQLiteStorage} {l : List LogEntry}

/-- One call keeps the correspondence. -/
theorem Stores.perform (h : Stores s l) (call : LogCall) :
    Stores (call.perform s) (call.onList l) := by
  obtain ⟨hs, rfl⟩ := h
  cases call with
  | appendLogEntry entry =>
      rw [LogCall.perform, Exec.finalState_ok (SQLiteStorage.run_appendLogEntry hs entry)]
      exact ⟨hs, SQLiteStorage.log_withLog _ _⟩
  | deleteLogEntriesFrom index =>
      rw [LogCall.perform, Exec.finalState_ok (SQLiteStorage.run_deleteLogEntriesFrom hs index)]
      refine ⟨hs, ?_⟩
      rw [SQLiteStorage.log_withLog, onList]
      congr 1
      omega

/-- A run of calls keeps the correspondence. -/
theorem Stores.run (h : Stores s l) (calls : List LogCall) :
    Stores (Run.run LogCall.perform s calls) (Run.run LogCall.onList l calls) := by
  induction calls generalizing s l with
  | nil => exact h
  | cons call calls ih => exact ih (h.perform call)

theorem slice_eq (l : List LogEntry) (i j : ℤ) :
    (l.take j.toNat).drop (i - 1).toNat = slice l (max i 1) (min j l.length) := by
  unfold slice
  rw [show (max i 1 - 1).toNat = (i - 1).toNat by omega, List.drop_take]
  apply List.take_eq_take_iff.mpr
  rw [List.length_drop]
  omega

theorem slice_eq_nil {i j : ℤ} (h : i > j) : slice l (max i 1) (min j l.length) = [] := by
  unfold slice
  rw [show (min j l.length - max i 1 + 1).toNat = 0 by omega, List.take_zero]

theorem entryAt_eq (l : List LogEntry) (i : ℤ) : SQLiteStorage.entryAt l i =
    if 1 ≤ i ∧ i ≤ l.length then l[(i - 1).toNat]? else none := by
  unfold SQLiteStorage.entryAt
  split_ifs with h1 h2
  · rfl
  · exact List.getElem?_eq_none (by omega)
  · omega
  · rfl

/-- **The SQL log refines a list.** -/
theorem sqlLog_refines_list (s : SQLiteStorage) (hs : s.Healthy) (hempty : s.log = [])
    (calls : List LogCall) :
    let t := Run.run LogCall.perform s calls
    let l := Run.run LogCall.onList [] calls
    (t.db.logs.rows.map LogRow.entry = l ∧
      t.db.logs.rows.map LogRow.index = (List.range l.length).map fun i : ℕ => 1 + (i : ℤ)) ∧
    (∀ e, ∃ t', (SQLiteStorage.appendLogEntry e).run t = .ok (l.length + 1 : ℤ) t') ∧
    SQLiteStorage.getLastLogIndex.run t = .ok (l.length : ℤ) t ∧
    (∀ i, (SQLiteStorage.getLogEntry i).run t =
      .ok (if 1 ≤ i ∧ i ≤ l.length then l[(i - 1).toNat]? else none) t) ∧
    (∀ i j, (SQLiteStorage.getLogEntries i j).run t
      = .ok (slice l (max i 1) (min j l.length)) t) ∧
    (∀ i j, i > j → (SQLiteStorage.getLogEntries i j).run t = .ok [] t) ∧
    SQLiteStorage.getLastLogTerm.run t = .ok ((l.getLast?.map LogEntry.term).getD 0) t := by
  intro t l
  obtain ⟨ht, hl⟩ : Stores t l := Stores.run ⟨hs, hempty⟩ calls
  have hrange : ∀ i j, (SQLiteStorage.getLogEntries i j).run t
      = .ok (slice l (max i 1) (min j l.length)) t := by
    intro i j
    rw [SQLiteStorage.run_getLogEntries ht, hl, slice_eq]
  refine ⟨⟨hl, ?_⟩, fun e => ?_, ?_, fun i => ?_, hrange, fun i j hij => ?_, ?_⟩
  · rw [LogTable.rows_eq, map_index_number]
    exact congrArg (fun l : List LogEntry => (List.range l.length).map _) hl
  · exact ⟨_, by rw [SQLiteStorage.run_appendLogEntry ht, hl]⟩
  · rw [SQLiteStorage.run_getLastLogIndex ht, hl]
  · rw [SQLiteStorage.run_getLogEntry ht, hl, entryAt_eq]
  · rw [hrange, slice_eq_nil hij]
  · rw [SQLiteStorage.run_getLastLogTerm ht, hl]

/-- Three entries, a deletion past the end, one in the middle, one more entry. -/
def mixed : List LogCall :=
  [appendLogEntry ⟨1, "a", "1"⟩, appendLogEntry ⟨1, "b", "1"⟩, appendLogEntry ⟨2, "c", "1"⟩,
    deleteLogEntriesFrom 9, deleteLogEntriesFrom 2, appendLogEntry ⟨3, "d", "1"⟩]

theorem sqlLog_refines_list_mixed :
    let t := Run.run LogCall.perform (SQLiteStorage.create none) mixed
    t.db.logs.rows.map LogRow.entry = [⟨1, "a", "1"⟩, ⟨3, "d", "1"⟩] ∧
      t.db.logs.rows.map LogRow.index = [1, 2] ∧
      SQLiteStorage.getLastLogIndex.run t = .ok 2 t :=
  have h := sqlLog_refines_list (SQLiteStorage.create none) rfl rfl mixed
  ⟨h.1.1, h.1.2, h.2.2.1⟩

end LogCall

/-! ## Opening and closing one database -/

/-- The database file, if it exists, and for each `SQLiteStorage` object created
on it whether its connection is still open. -/
structure Sessions where
  file : Option Database
  connected : List Bool

/-- What a program does with storages on one file; objects are numbered in the
order of their creation. -/
inductive SessionCall : Type where
  | opens
  | closes (object : ℕ)
  | setCommitIndex (object : ℕ) (commitIndex : ℤ)
  | setLastApplied (object : ℕ) (lastApplied : ℤ)
  deriving DecidableEq

namespace Sessions

/-- No file, no storage. -/
def initial : Sessions := ⟨none, []⟩

/-- An object as its methods see it.  On a closed connection a statement throws
an `SQLException`. -/
def object (s : Sessions) (i : ℕ) : Option SQLiteStorage :=
  match s.file, s.connected[i]? with
  | some db, some true => some ⟨db, []⟩
  | some db, some false => some ⟨db, [.fails]⟩
  | _, _ => none

/-- Call a method of an object; there is no call on an object that was not
created. -/
def call {α : Type} (s : Sessions) (i : ℕ) (m : EStateM JavaException SQLiteStorage α) :
    Sessions :=
  match s.object i with
  | some storage => { s with file := some (Exec.finalState m storage).db }
  | none => s

def step (s : Sessions) : SessionCall → Sessions
  | .opens => ⟨some (SQLiteStorage.create s.file).db, s.connected ++ [true]⟩
  | .closes i => { s with connected := s.connected.set i false }
  | .setCommitIndex i c => s.call i (SQLiteStorage.setCommitIndex c)
  | .setLastApplied i a => s.call i (SQLiteStorage.setLastApplied a)

/-- The value of a successful call of `setCommitIndex`. -/
def commitSet (s : Sessions) : SessionCall → Option ℤ
  | .setCommitIndex i c => if s.connected[i]? = some true then some c else none
  | _ => none

/-- The value of a successful call of `setLastApplied`. -/
def appliedSet (s : Sessions) : SessionCall → Option ℤ
  | .setLastApplied i a => if s.connected[i]? = some true then some a else none
  | _ => none

/-- The most recent value that `f` reports of the calls of a run, `x` when there
is none. -/
def mostRecent (f : Sessions → SessionCall → Option ℤ) (s : Sessions) (x : ℤ) :
    List SessionCall → ℤ
  | [] => x
  | c :: cs => mostRecent f (s.step c) ((f s c).getD x) cs

/-- What a read of the file sees. -/
def commitIndex (s : Sessions) : ℤ := (s.file.map fun db => db.state.first.commitIndex).getD 0
def lastApplied (s : Sessions) : ℤ := (s.file.map fun db => db.state.first.lastApplied).getD 0

/-- Objects exist only on a file. -/
def WellFormed (s : Sessions) : Prop := s.file = none → s.connected = []

variable {s : Sessions}

theorem object_of_connected (h : s.WellFormed) {i : ℕ} (hi : s.connected[i]? = some true) :
    ∃ db, s.file = some db ∧ s.object i = some ⟨db, []⟩ := by
  unfold object
  cases hf : s.file with
  | none => simp [h hf] at hi
  | some db => exact ⟨db, rfl, by rw [hi]⟩

theorem call_of_not_connected {i : ℕ} (hi : s.connected[i]? ≠ some true) (f : Database → Database) :
    s.call i (SQLiteStorage.printStackTrace () (SQLiteStorage.update f)) = s := by
  unfold call object
  obtain ⟨file, connected⟩ := s
  cases file with
  | none => rfl
  | some db =>
      cases hc : connected[i]? with
      | none => rfl
      | some b =>
          cases b with
          | true => exact absurd hc hi
          | false => rfl

theorem call_of_connected (h : s.WellFormed) {i : ℕ} (hi : s.connected[i]? = some true)
    (f : Database → Database) :
    s.call i (SQLiteStorage.printStackTrace () (SQLiteStorage.update f))
      = { s with file := s.file.map f } := by
  obtain ⟨db, hf, hobj⟩ := object_of_connected h hi
  unfold call
  rw [hobj, hf]
  rfl

theorem WellFormed.step (h : s.WellFormed) (c : SessionCall) : (s.step c).WellFormed := by
  have hcall : ∀ i (f : Database → Database),
      (s.call i (SQLiteStorage.printStackTrace () (SQLiteStorage.update f))).WellFormed := by
    intro i f
    by_cases hi : s.connected[i]? = some true
    · rw [call_of_connected h hi]
      intro hnone
      exact h (Option.map_eq_none_iff.mp hnone)
    · rw [call_of_not_connected hi]
      exact h
  cases c with
  | opens => exact fun hnone => nomatch hnone
  | closes i =>
      intro hnone
      show s.connected.set i false = []
      rw [h hnone]
      rfl
  | setCommitIndex i x => exact hcall i _
  | setLastApplied i x => exact hcall i _

/-- Opening inserts its row last, so reads see what they saw before. -/
theorem reads_opens (s : Sessions) : (s.step .opens).commitIndex = s.commitIndex ∧
    (s.step .opens).lastApplied = s.lastApplied := by
  obtain ⟨file, connected⟩ := s
  cases file with
  | none => exact ⟨rfl, rfl⟩
  | some db =>
      have hfirst := RaftNode.first_append db.state StateRow.initial
      exact ⟨congrArg StateRow.commitIndex hfirst, congrArg StateRow.lastApplied hfirst⟩

/-- **What one call does to the two fields.** -/
theorem reads_step (h : s.WellFormed) (c : SessionCall) :
    (s.step c).commitIndex = (s.commitSet c).getD s.commitIndex ∧
      (s.step c).lastApplied = (s.appliedSet c).getD s.lastApplied := by
  cases c with
  | opens => exact reads_opens s
  | closes i => exact ⟨rfl, rfl⟩
  | setCommitIndex i x =>
      -- an object whose connection is closed prints and writes nothing
      by_cases hi : s.connected[i]? = some true
      · obtain ⟨db, hf, -⟩ := object_of_connected h hi
        have hcall := call_of_connected h hi fun db =>
          { db with state := db.state.updateAll fun r => { r with commitIndex := x } }
        rw [step, SQLiteStorage.setCommitIndex, hcall, commitSet, if_pos hi]
        simp [commitIndex, lastApplied, appliedSet, hf]
      · rw [step, SQLiteStorage.setCommitIndex, call_of_not_connected hi, commitSet, if_neg hi]
        exact ⟨rfl, rfl⟩
  | setLastApplied i x =>
      by_cases hi : s.connected[i]? = some true
      · obtain ⟨db, hf, -⟩ := object_of_connected h hi
        have hcall := call_of_connected h hi fun db =>
          { db with state := db.state.updateAll fun r => { r with lastApplied := x } }
        rw [step, SQLiteStorage.setLastApplied, hcall, appliedSet, if_pos hi]
        simp [commitIndex, lastApplied, commitSet, hf]
      · rw [step, SQLiteStorage.setLastApplied, call_of_not_connected hi, appliedSet, if_neg hi]
        exact ⟨rfl, rfl⟩

/-- What one call does, over a run. -/
theorem reads_run (h : s.WellFormed) (calls : List SessionCall) :
    (Run.run step s calls).WellFormed ∧
      (Run.run step s calls).commitIndex = mostRecent commitSet s s.commitIndex calls ∧
      (Run.run step s calls).lastApplied = mostRecent appliedSet s s.lastApplied calls := by
  induction calls generalizing s with
  | nil => exact ⟨h, rfl, rfl⟩
  | cons c calls ih =>
      obtain ⟨hw, hc, ha⟩ := ih (h.step c)
      rw [Run.run_cons, mostRecent, mostRecent, ← (reads_step h c).1, ← (reads_step h c).2]
      exact ⟨hw, hc, ha⟩

/-- **`commitIndex` and `lastApplied` survive reopening.** -/
theorem reads_most_recent_set (calls : List SessionCall) :
    let s := Run.run step initial calls
    (∀ i, s.connected[i]? = some true → ∃ storage, s.object i = some storage ∧
      SQLiteStorage.getCommitIndex.run storage
        = .ok (mostRecent commitSet initial 0 calls) storage ∧
      SQLiteStorage.getLastApplied.run storage
        = .ok (mostRecent appliedSet initial 0 calls) storage) ∧
    (∀ i x, (s.step (.setCommitIndex i x)).lastApplied = s.lastApplied) ∧
    (∀ i x, (s.step (.setLastApplied i x)).commitIndex = s.commitIndex) := by
  intro s
  obtain ⟨hw, hc, ha⟩ := reads_run (s := initial) (fun _ => rfl) calls
  refine ⟨fun i hi => ?_, fun i x => (reads_step hw _).2, fun i x => (reads_step hw _).1⟩
  obtain ⟨db, hf, hobj⟩ := object_of_connected hw hi
  have hcommit : mostRecent commitSet initial 0 calls = db.state.first.commitIndex := by
    rw [← show initial.commitIndex = 0 from rfl, ← hc, commitIndex, hf]
    rfl
  have happlied : mostRecent appliedSet initial 0 calls = db.state.first.lastApplied := by
    rw [← show initial.lastApplied = 0 from rfl, ← ha, lastApplied, hf]
    rfl
  refine ⟨_, hobj, ?_, ?_⟩
  · rw [hcommit]
    exact SQLiteStorage.run_getCommitIndex rfl
  · rw [happlied]
    exact SQLiteStorage.run_getLastApplied rfl

-- two openings, so that the rows of the table disagree, and a write through a closed storage
example : mostRecent commitSet initial 0
    [.opens, .setCommitIndex 0 4, .opens, .closes 0, .setCommitIndex 0 9, .setLastApplied 1 3] = 4 := by
  decide +kernel

end Sessions

end KVStore
