/-
# Building and tearing down a client object (`kvclientimpl.cpp`)

The constructor of `KvstoreRPCClient` counts the hosts of its string in
`g_num_servers`, allocates two arrays of that length and fills one slot of each
for every host.  The destructor goes through the slots below `g_num_servers`,
which is one variable for all objects of the process: by then another constructor
may have set it.

`g_num_servers` is declared outside of this file; it is printed as an unsigned
`int`, so a count is stored modulo `2 ^ 32`.  The indices `node_id` and `i` stay
below it and do not wrap.

While no string has `2 ^ 32` hosts, a destructor visits the slots its own constructor
filled, and releases them all, exactly when the object constructed last was given as
many hosts (`teardownMatches_iff`).
-/
import KVStore.Exec
import KVStore.Run
import Mathlib.Data.List.Basic
import Mathlib.Data.List.Count
import Mathlib.Algebra.Group.Nat.Defs

namespace KVStore

namespace RpcClient

/-! ## Splitting the host string -/

/-- The characters of a string. -/
abbrev Text : Type := List Char

/-- `getline(ss, token, ';')`: the token, and what is left in the stream; `none`
where the stream is at its end. -/
def getline : Text → Option (Text × Text)
  | [] => none
  | ss => some (ss.takeWhile (· ≠ ';'), (ss.dropWhile (· ≠ ';')).tail)

/-- The loop over `getline`, for at most the given number of rounds. -/
def readHosts : ℕ → Text → List Text
  | 0, _ => []
  | rounds + 1, ss =>
      match getline ss with
      | none => []
      | some (token, rest) => token :: readHosts rounds rest

/-- Every round takes at least one character. -/
def hostAddrs (hosts : Text) : List Text := readHosts hosts.length hosts

/-- Each `getline` takes at least one character. -/
theorem length_getline {ss token rest : Text} (h : getline ss = some (token, rest)) :
    rest.length < ss.length := by
  cases ss with
  | nil => cases h
  | cons c cs =>
      obtain ⟨-, rfl⟩ := Prod.mk.inj (Option.some.inj h)
      have hdrop : ((c :: cs).dropWhile (· ≠ ';')).length ≤ (c :: cs).length :=
        (List.dropWhile_suffix _).length_le
      rw [List.length_tail, List.length_cons] at *
      omega

/-- More rounds than characters make no difference. -/
theorem readHosts_of_le {rounds : ℕ} {ss : Text} (h : ss.length ≤ rounds) :
    readHosts rounds ss = hostAddrs ss := by
  unfold hostAddrs
  induction rounds using Nat.strongRecOn generalizing ss with
  | ind rounds ih =>
      cases ss with
      | nil => cases rounds <;> rfl
      | cons c cs =>
          cases rounds with
          | zero => simp at h
          | succ rounds =>
              rw [List.length_cons, readHosts, readHosts]
              cases hget : getline (c :: cs) with
              | none => rfl
              | some p =>
                  have hrest := length_getline hget
                  rw [List.length_cons] at h hrest
                  dsimp only
                  rw [ih rounds (by omega) (by omega), ih cs.length (by omega) (by omega)]

/-- The loop of the source. -/
theorem hostAddrs_eq (ss : Text) :
    hostAddrs ss = match getline ss with
      | none => []
      | some (token, rest) => token :: hostAddrs rest := by
  cases ss with
  | nil => rfl
  | cons c cs =>
      rw [hostAddrs, List.length_cons, readHosts]
      cases hget : getline (c :: cs) with
      | none => rfl
      | some p =>
          have hrest := length_getline hget
          rw [List.length_cons] at hrest
          exact congrArg _ (readHosts_of_le (by omega))

/-- An empty host before a semicolon. -/
theorem hostAddrs_semicolon (ss : Text) : hostAddrs (';' :: ss) = [] :: hostAddrs ss :=
  hostAddrs_eq _

/-- A character before another one is put in front of the first host. -/
theorem hostAddrs_cons {c : Char} (hc : c ≠ ';') (d : Char) (ss : Text) :
    hostAddrs (c :: d :: ss) = (hostAddrs (d :: ss)).modifyHead (List.cons c) := by
  have hget : getline (c :: d :: ss)
      = (getline (d :: ss)).map fun p => (c :: p.1, p.2) := by
    simp [getline, hc]
  rw [hostAddrs_eq, hget, hostAddrs_eq (d :: ss)]
  rfl

/-- **How many hosts a string has**: one for every semicolon, and one more where it
does not end with one. -/
theorem length_hostAddrs (ss : Text) :
    (hostAddrs ss).length = ss.count ';' + if ss.getLast?.all (· = ';') then 0 else 1 := by
  induction ss with
  | nil => rfl
  | cons c ss ih =>
      by_cases hc : c = ';'
      · subst hc
        rw [hostAddrs_semicolon, List.length_cons, ih, List.count_cons_self]
        cases ss with
        | nil => rfl
        | cons d ss =>
            rw [List.getLast?_cons_cons]
            omega
      · rw [List.count_cons_of_ne hc]
        cases ss with
        | nil =>
            rw [hostAddrs_eq]
            simp [getline, hc, hostAddrs, readHosts]
        | cons d ss => rw [hostAddrs_cons hc, List.length_modifyHead, ih, List.getLast?_cons_cons]

/-! ## The object and its slots -/

/-- A slot of an array of pointers. -/
inductive Slot (α : Type) : Type where
  | unset
  /-- It points to an object. -/
  | held (a : α)
  /-- The object it pointed to was deleted. -/
  | released
  deriving DecidableEq, Repr

/-- Undefined behaviour. -/
inductive Fault : Type where
  | outOfBounds (index : ℕ)
  /-- A pointer that points to no object. -/
  | wildPointer (index : ℕ)
  deriving DecidableEq, Repr

/-- A stub is the address of its channel, a thread the node it polls.  `visited` are
the indices the running function has used. -/
structure KvstoreRPCClient where
  servers : List (Slot Text)
  threads : List (Slot ℕ)
  visited : List ℕ
  deriving DecidableEq, Repr

abbrev Method (α : Type) : Type := EStateM Fault KvstoreRPCClient α

def visit (i : ℕ) : Method Unit :=
  modify fun c => { c with visited := c.visited ++ [i] }

/-- `xs[i] = a` -/
def store {α : Type} (xs : List (Slot α)) (i : ℕ) (a : Slot α) : Method (List (Slot α)) :=
  if i < xs.length then return xs.set i a else throw (.outOfBounds i)

/-- `*xs[i]` -/
def load {α : Type} (xs : List (Slot α)) (i : ℕ) : Method α :=
  match xs[i]? with
  | some (.held a) => return a
  | some _ => throw (.wildPointer i)
  | none => throw (.outOfBounds i)

namespace KvstoreRPCClient

def url (host : Text) : Text := host ++ ":50051".toList

/-- The loop of the constructor from `node_id` on. -/
def fill : ℕ → List Text → Method Unit
  | _, [] => return ()
  | nodeId, host :: hosts => do
      visit nodeId
      let servers ← store (← get).servers nodeId (.held (url host))
      modify fun c => { c with servers := servers }
      let threads ← store (← get).threads nodeId (.held nodeId)
      modify fun c => { c with threads := threads }
      fill (nodeId + 1) hosts

/-- The arrays as they are allocated. -/
def allocated (gNumServers : ℕ) : KvstoreRPCClient :=
  ⟨List.replicate gNumServers .unset, List.replicate gNumServers .unset, []⟩

/-- What the constructor assigns to `g_num_servers`. -/
def numServers (hosts : Text) : ℕ := (hostAddrs hosts).length % 2 ^ 32

/-- The object before its constructor runs. -/
def raw : KvstoreRPCClient := ⟨[], [], []⟩

/-- `KvstoreRPCClient::KvstoreRPCClient` -/
def create (hosts : Text) : Method Unit := do
  set (allocated (numServers hosts))
  fill 0 (hostAddrs hosts)

/-- The loop of the destructor from `i` on, with the given number of rounds to go. -/
def release : ℕ → ℕ → Method Unit
  | _, 0 => return ()
  | i, rounds + 1 => do
      visit i
      let _ ← load (← get).servers i
      let _ ← load (← get).threads i
      let threads ← store (← get).threads i .released
      modify fun c => { c with threads := threads }
      let servers ← store (← get).servers i .released
      modify fun c => { c with servers := servers }
      release (i + 1) rounds

/-- `KvstoreRPCClient::~KvstoreRPCClient` -/
def destroy (gNumServers : ℕ) : Method Unit := do
  modify fun c => { c with visited := [] }
  release 0 gNumServers

end KvstoreRPCClient

/-! ## What the two loops do -/

namespace KvstoreRPCClient

/-- A store within the array. -/
theorem run_store {α : Type} (xs ys : List (Slot α)) (x a : Slot α) {i : ℕ} (h : xs.length = i)
    (c : KvstoreRPCClient) :
    (store (xs ++ x :: ys) i a).run c = .ok (xs ++ a :: ys) c := by
  unfold store
  rw [if_pos (by rw [List.length_append, List.length_cons]; omega), ← h,
    List.set_append_right _ _ le_rfl, Nat.sub_self]
  rfl

/-- A store past its end. -/
theorem run_store_error {α : Type} {xs : List (Slot α)} {i : ℕ} {a : Slot α} (h : xs.length ≤ i)
    (c : KvstoreRPCClient) : (store xs i a).run c = .error (.outOfBounds i) c := by
  unfold store
  rw [if_neg (by omega)]
  rfl

/-- A load of a slot that holds something. -/
theorem run_load {α : Type} (xs ys : List (Slot α)) (a : α) {i : ℕ} (h : xs.length = i)
    (c : KvstoreRPCClient) : (load (xs ++ .held a :: ys) i).run c = .ok a c := by
  unfold load
  rw [← h, List.getElem?_append_right le_rfl, Nat.sub_self]
  rfl

/-- A load past the end. -/
theorem run_load_error {α : Type} {xs : List (Slot α)} {i : ℕ} (h : xs.length ≤ i)
    (c : KvstoreRPCClient) : (load xs i).run c = .error (.outOfBounds i) c := by
  unfold load
  rw [List.getElem?_eq_none h]
  rfl

/-- The object of a constructor with the given hosts that has reached `pre.length`,
with `k` slots to go. -/
def filled (pre : List Text) (k : ℕ) : KvstoreRPCClient :=
  ⟨pre.map (fun host => .held (url host)) ++ List.replicate k .unset,
    (List.range pre.length).map .held ++ List.replicate k .unset, List.range pre.length⟩

/-- One host of the loop: its stub and its thread. -/
theorem run_fill_cons (pre : List Text) (host : Text) (hosts : List Text) (k : ℕ) :
    (fill pre.length (host :: hosts)).run (filled pre (k + 1))
      = (fill (pre ++ [host]).length hosts).run (filled (pre ++ [host]) k) := by
  have hservers := run_store (pre.map fun host => .held (url host)) (List.replicate k .unset)
    .unset (.held (url host)) (List.length_map _)
  have hthreads := run_store ((List.range pre.length).map .held) (List.replicate k .unset)
    .unset (.held pre.length) ((List.length_map _).trans List.length_range)
  have hfilled : filled (pre ++ [host]) k =
      ⟨pre.map (fun host => .held (url host)) ++ .held (url host) :: List.replicate k .unset,
        (List.range pre.length).map .held ++ .held pre.length :: List.replicate k .unset,
        List.range pre.length ++ [pre.length]⟩ := by
    simp [filled, List.range_succ]
  rw [hfilled, List.length_append, fill]
  exact (Exec.run_bind_ok (hservers _)).trans (Exec.run_bind_ok (hthreads _))

/-- Where there is a slot for every host, the constructor fills them all. -/
theorem run_fill (pre hosts : List Text) :
    (fill pre.length hosts).run (filled pre hosts.length) = .ok () (filled (pre ++ hosts) 0) := by
  induction hosts generalizing pre with
  | nil =>
      rw [List.append_nil]
      rfl
  | cons host hosts ih =>
      rw [List.length_cons, run_fill_cons, ih, List.append_assoc]
      rfl

/-- Where there are fewer slots than hosts, it writes behind the array. -/
theorem run_fill_error (pre hosts : List Text) {k : ℕ} (h : k < hosts.length) :
    ∃ s', (fill pre.length hosts).run (filled pre k)
      = .error (.outOfBounds (pre.length + k)) s' := by
  induction hosts generalizing pre k with
  | nil => simp at h
  | cons host hosts ih =>
      cases k with
      | zero =>
          have hend : (filled pre 0).servers.length ≤ pre.length := by simp [filled]
          rw [fill]
          exact ⟨_, (Exec.run_bind_ok rfl).trans ((Exec.run_bind_ok rfl).trans
            (Exec.run_bind_error (run_store_error hend _)))⟩
      | succ k =>
          have hk : k < hosts.length := by
            rw [List.length_cons] at h
            omega
          obtain ⟨s', hrun⟩ := ih (pre ++ [host]) hk
          refine ⟨s', ?_⟩
          rw [run_fill_cons, hrun, List.length_append, List.length_singleton, Nat.add_right_comm,
            Nat.add_assoc]

/-- The object of a destructor that has reached `i`, with the stubs `us` and the
threads `ts` still there. -/
def freed (i : ℕ) (us : List Text) (ts : List ℕ) : KvstoreRPCClient :=
  ⟨List.replicate i .released ++ us.map .held, List.replicate i .released ++ ts.map .held,
    List.range i⟩

/-- One round of the destructor: stub and thread of slot `i` are given up. -/
theorem run_release_succ (i : ℕ) (u : Text) (us : List Text) (t : ℕ) (ts : List ℕ)
    (rounds : ℕ) :
    (release i (rounds + 1)).run (freed i (u :: us) (t :: ts))
      = (release (i + 1) rounds).run (freed (i + 1) us ts) := by
  have hservers := run_load (List.replicate i .released) (us.map .held) u List.length_replicate
  have hthreads := run_load (List.replicate i .released) (ts.map .held) t List.length_replicate
  have hthread := run_store (List.replicate i .released) (ts.map .held) (.held t) .released
    List.length_replicate
  have hserver := run_store (List.replicate i .released) (us.map .held) (.held u) .released
    List.length_replicate
  have hfreed : freed (i + 1) us ts =
      ⟨List.replicate i .released ++ .released :: us.map .held,
        List.replicate i .released ++ .released :: ts.map .held, List.range i ++ [i]⟩ := by
    simp [freed, List.range_succ, List.replicate_succ']
  rw [hfreed, release]
  exact (Exec.run_bind_ok (hservers _)).trans ((Exec.run_bind_ok (hthreads _)).trans
    ((Exec.run_bind_ok (hthread _)).trans (Exec.run_bind_ok (hserver _))))

/-- **A loop of the destructor that ends within the array** releases one slot a
round, and no other. -/
theorem run_release {i rounds : ℕ} {us : List Text} {ts : List ℕ} (hlen : us.length = ts.length)
    (h : rounds ≤ us.length) :
    (release i rounds).run (freed i us ts)
      = .ok () (freed (i + rounds) (us.drop rounds) (ts.drop rounds)) := by
  induction rounds generalizing i us ts with
  | zero => rfl
  | succ rounds ih =>
      cases us with
      | nil => simp at h
      | cons u us =>
          cases ts with
          | nil => cases hlen
          | cons t ts =>
              have h' : rounds ≤ us.length := Nat.le_of_succ_le_succ h
              rw [run_release_succ, ih (Nat.succ.inj hlen) h', Nat.add_right_comm, Nat.add_assoc,
                List.drop_succ_cons, List.drop_succ_cons]

/-- **One that does not** reads behind the array. -/
theorem run_release_error {i rounds : ℕ} {us : List Text} {ts : List ℕ}
    (hlen : us.length = ts.length) (h : us.length < rounds) :
    ∃ s', (release i rounds).run (freed i us ts) = .error (.outOfBounds (i + us.length)) s' := by
  induction us generalizing i rounds ts with
  | nil =>
      obtain ⟨rounds, rfl⟩ := Nat.exists_eq_add_one_of_ne_zero h.ne'
      have hend : (freed i [] ts).servers.length ≤ i := by simp [freed]
      rw [release]
      exact ⟨_, (Exec.run_bind_ok rfl).trans ((Exec.run_bind_ok rfl).trans
        (Exec.run_bind_error (run_load_error hend _)))⟩
  | cons u us ih =>
      obtain ⟨rounds, rfl⟩ := Nat.exists_eq_add_one_of_ne_zero (Nat.ne_zero_of_lt h)
      cases ts with
      | nil => cases hlen
      | cons t ts =>
          obtain ⟨s', hrun⟩ := ih (i := i + 1) (Nat.succ.inj hlen) (Nat.lt_of_succ_lt_succ h)
          refine ⟨s', ?_⟩
          rw [run_release_succ, hrun, List.length_cons, Nat.add_right_comm, Nat.add_assoc]

/-! ## Setup and teardown -/

/-- The constructor stays within the arrays. -/
def SetsUp (hosts : Text) : Prop := ∃ s', (create hosts).run raw = .ok () s'

/-- The destructor visits the slots the constructor has visited, and leaves none of
them unreleased. -/
def TearsDown (gNumServers : ℕ) (c : KvstoreRPCClient) : Prop :=
  ∃ s', (destroy gNumServers).run c = .ok () s' ∧ s'.visited = c.visited ∧
    (∀ slot ∈ s'.servers, slot = .released) ∧ ∀ slot ∈ s'.threads, slot = .released

/-- The object as it is constructed. -/
def built (hosts : Text) : KvstoreRPCClient := filled (hostAddrs hosts) 0

/-- A construction with fewer than `2 ^ 32` hosts. -/
theorem run_create {hosts : Text} (h : (hostAddrs hosts).length < 2 ^ 32) (c : KvstoreRPCClient) :
    (create hosts).run c = .ok () (built hosts) := by
  unfold create numServers
  rw [Nat.mod_eq_of_lt h]
  exact run_fill [] (hostAddrs hosts)

/-- When a construction stays within its arrays. -/
theorem setsUp_iff (hosts : Text) : SetsUp hosts ↔ (hostAddrs hosts).length < 2 ^ 32 := by
  constructor
  · rintro ⟨s', hrun⟩
    by_contra hmany
    have hfew : numServers hosts < (hostAddrs hosts).length :=
      (Nat.mod_lt _ (by decide)).trans_le (not_lt.mp hmany)
    obtain ⟨t, herror⟩ := run_fill_error [] (hostAddrs hosts) hfew
    cases hrun.symm.trans herror
  · intro h
    exact ⟨_, run_create h raw⟩

/-- A destructor right after its constructor. -/
theorem run_destroy_built (gNumServers : ℕ) (hosts : Text) :
    (destroy gNumServers).run (built hosts) = (release 0 gNumServers).run
      (freed 0 ((hostAddrs hosts).map url) (List.range (hostAddrs hosts).length)) := by
  have hfresh : { built hosts with visited := [] }
      = freed 0 ((hostAddrs hosts).map url) (List.range (hostAddrs hosts).length) := by
    simp [built, filled, freed]
  rw [← hfresh]
  rfl

/-- **A destructor does its work exactly when `g_num_servers` is the number of its
own hosts.** -/
theorem tearsDown_iff (gNumServers : ℕ) (hosts : Text) :
    TearsDown gNumServers (built hosts) ↔ gNumServers = (hostAddrs hosts).length := by
  have hlen : ((hostAddrs hosts).map url).length
      = (List.range (hostAddrs hosts).length).length := by
    rw [List.length_map, List.length_range]
  unfold TearsDown
  rw [run_destroy_built]
  constructor
  · rintro ⟨s', hrun, hvisited, -⟩
    by_cases hle : gNumServers ≤ ((hostAddrs hosts).map url).length
    · rw [run_release hlen hle] at hrun
      cases hrun
      -- the loop counts the indices it visits
      have hcount := congrArg List.length hvisited
      simpa [freed, built, filled] using hcount
    · obtain ⟨t, herror⟩ := run_release_error (i := 0) hlen (not_le.mp hle)
      cases hrun.symm.trans herror
  · rintro rfl
    have hus : ((hostAddrs hosts).map url).drop (hostAddrs hosts).length = [] :=
      List.drop_eq_nil_of_le (List.length_map _).le
    have hts : (List.range (hostAddrs hosts).length).drop (hostAddrs hosts).length = [] :=
      List.drop_eq_nil_of_le List.length_range.le
    have hrun := run_release (i := 0) hlen (List.length_map _).ge
    rw [hus, hts] at hrun
    exact ⟨_, hrun, by simp [freed, built, filled]⟩

end KvstoreRPCClient

open KvstoreRPCClient

/-! ## Runs of constructions and destructions -/

/-- A client object of the process. -/
structure Object where
  hosts : Text
  client : KvstoreRPCClient
  live : Bool
  deriving DecidableEq, Repr

/-- The object after its destructor has run while `g_num_servers` is `gNumServers`. -/
def Object.destroyed (o : Object) (gNumServers : ℕ) : Object :=
  ⟨o.hosts, Exec.finalState (KvstoreRPCClient.destroy gNumServers) o.client, false⟩

/-- `objects` are in the order of their construction. -/
structure Process where
  gNumServers : ℕ
  objects : List Object
  deriving DecidableEq, Repr

/-- A construction that succeeds, or a destruction.  (One that throws makes no object, but
may already have set `g_num_servers`.) -/
inductive Act : Type where
  | construct (hosts : Text)
  /-- The object constructed as the `k`-th, if it is live. -/
  | destroy (k : ℕ)
  deriving DecidableEq, Repr

namespace Process

def start : Process := ⟨0, []⟩

/-- The `k`-th object, if it is live. -/
def liveObject (s : Process) (k : ℕ) : Option Object := s.objects[k]?.filter Object.live

/-- The host string of the object constructed last. -/
def lastHosts (s : Process) : Option Text := (s.objects.map Object.hosts).getLast?

def step (s : Process) : Act → Process
  | .construct hosts =>
      ⟨numServers hosts, s.objects ++ [⟨hosts, Exec.finalState (create hosts) raw, true⟩]⟩
  | .destroy k =>
      match s.liveObject k with
      | some o => { s with objects := s.objects.set k (o.destroyed s.gNumServers) }
      | none => s

def after (as : List Act) : Process := Run.run step start as

/-- What the property asks of an act: a constructor stays within its arrays, and a
destructor visits and releases what its constructor has visited. -/
def Matches (s : Process) : Act → Prop
  | .construct hosts => SetsUp hosts
  | .destroy k => ∀ o, s.liveObject k = some o → TearsDown s.gNumServers o.client

/-- No object has `2 ^ 32` hosts, and one is destroyed only while the object
constructed last has as many hosts as it has. -/
def SameCount (s : Process) : Act → Prop
  | .construct hosts => (hostAddrs hosts).length < 2 ^ 32
  | .destroy k => ∀ o, s.liveObject k = some o → ∀ hosts, s.lastHosts = some hosts →
      (hostAddrs hosts).length = (hostAddrs o.hosts).length

/-- Every teardown of the run matches its setup. -/
def TeardownMatches (as : List Act) : Prop := ∀ p a, p ++ [a] <+: as → (after p).Matches a

/-- `g_num_servers` is the count of the object constructed last, and a live object is
as its constructor left it. -/
structure Inv (s : Process) : Prop where
  count_eq : ∀ hosts, s.lastHosts = some hosts → s.gNumServers = (hostAddrs hosts).length
  built_eq : ∀ o ∈ s.objects, o.live = true → o.client = built o.hosts

variable {s : Process}

/-- No object yet. -/
theorem inv_start : Inv start := by
  refine ⟨?_, ?_⟩
  · intro hosts hlast
    cases hlast
  · intro o ho
    cases ho

/-- A live object is among those constructed. -/
theorem getElem?_of_liveObject {k : ℕ} {o : Object} (h : s.liveObject k = some o) :
    s.objects[k]? = some o ∧ o.live = true :=
  Option.filter_eq_some_iff.mp h

/-- There is nothing to destroy twice. -/
theorem step_destroy_of_none {k : ℕ} (h : s.liveObject k = none) : s.step (.destroy k) = s := by
  simp [step, h]

/-- A destruction releases as many slots as `g_num_servers` says. -/
theorem step_destroy_of_some {k : ℕ} {o : Object} (h : s.liveObject k = some o) :
    s.step (.destroy k) =
      { s with objects := s.objects.set k (o.destroyed s.gNumServers) } := by
  simp [step, h]

/-- The hosts constructed last. -/
theorem lastHosts_construct (hosts : Text) :
    (s.step (.construct hosts)).lastHosts = some hosts := by
  unfold lastHosts step
  rw [List.map_append]
  exact List.getLast?_concat

/-- A destruction does not change which object was constructed last. -/
theorem lastHosts_destroy (k : ℕ) : (s.step (.destroy k)).lastHosts = s.lastHosts := by
  cases hlive : s.liveObject k with
  | none => rw [step_destroy_of_none hlive]
  | some o =>
      obtain ⟨hget, -⟩ := getElem?_of_liveObject hlive
      obtain ⟨hk, rfl⟩ := List.getElem?_eq_some_iff.mp hget
      have hhosts : (s.objects.set k (s.objects[k].destroyed s.gNumServers)).map Object.hosts
          = s.objects.map Object.hosts := by
        rw [List.map_set]
        have hk' : k < (s.objects.map Object.hosts).length := by rwa [List.length_map]
        have hsame := List.set_getElem_self hk'
        rwa [List.getElem_map] at hsame
      rw [step_destroy_of_some hlive]
      exact congrArg List.getLast? hhosts

/-- A destruction leaves `g_num_servers` alone. -/
theorem gNumServers_destroy (k : ℕ) : (s.step (.destroy k)).gNumServers = s.gNumServers := by
  cases hlive : s.liveObject k with
  | none => rw [step_destroy_of_none hlive]
  | some o => rw [step_destroy_of_some hlive]

/-- Every act that meets the condition keeps the invariant. -/
theorem Inv.step (h : Inv s) {a : Act} (ha : s.SameCount a) : Inv (s.step a) := by
  cases a with
  | construct hosts =>
      refine ⟨?_, ?_⟩
      · intro last hlast
        rw [lastHosts_construct] at hlast
        obtain rfl : hosts = last := Option.some.inj hlast
        exact Nat.mod_eq_of_lt ha
      · intro o ho hlive
        rcases List.mem_append.mp ho with ho | ho
        · exact h.built_eq o ho hlive
        · obtain rfl := List.mem_singleton.mp ho
          exact Exec.finalState_ok (run_create ha raw)
  | destroy k =>
      refine ⟨?_, ?_⟩
      · intro last hlast
        rw [lastHosts_destroy] at hlast
        rw [gNumServers_destroy]
        exact h.count_eq last hlast
      · cases hk : s.liveObject k with
        | none =>
            rw [step_destroy_of_none hk]
            exact h.built_eq
        | some o =>
            rw [step_destroy_of_some hk]
            intro o' ho' hlive
            rcases List.mem_or_eq_of_mem_set ho' with hmem | rfl
            · exact h.built_eq o' hmem hlive
            · cases hlive

/-- While the invariant holds, the acts that match are those with the same count. -/
theorem Inv.matches_iff (h : Inv s) (a : Act) : s.Matches a ↔ s.SameCount a := by
  cases a with
  | construct hosts => exact setsUp_iff hosts
  | destroy k =>
      apply forall_congr'
      intro o
      apply imp_congr_right
      intro hlive
      obtain ⟨hget, ho⟩ := getElem?_of_liveObject hlive
      have hmem := List.mem_of_getElem? hget
      rw [h.built_eq o hmem ho, tearsDown_iff]
      have hne : s.objects.map Object.hosts ≠ [] :=
        List.ne_nil_of_mem (List.mem_map_of_mem hmem)
      have hlast : s.lastHosts = some ((s.objects.map Object.hosts).getLast hne) :=
        List.getLast?_eq_some_getLast hne
      rw [h.count_eq _ hlast, hlast]
      constructor
      · rintro hcount hosts hhosts
        obtain rfl := Option.some.inj hhosts
        exact hcount
      · intro hcount
        exact hcount _ rfl

/-- **An assignment to `kv_client`** constructs the new object before it destroys the
old one, which is torn down exactly when both have as many hosts. -/
theorem Inv.assign_iff (h : Inv s) {k : ℕ} {o : Object} (hk : s.liveObject k = some o)
    {hosts : Text} (hnew : (hostAddrs hosts).length < 2 ^ 32) :
    (s.step (.construct hosts)).Matches (.destroy k) ↔
      (hostAddrs hosts).length = (hostAddrs o.hosts).length := by
  have hkept : (s.step (.construct hosts)).liveObject k = some o := by
    obtain ⟨hget, hlive⟩ := getElem?_of_liveObject hk
    apply Option.filter_eq_some_iff.mpr
    refine ⟨?_, hlive⟩
    obtain ⟨hlt, -⟩ := List.getElem?_eq_some_iff.mp hget
    exact (List.getElem?_append_left hlt).trans hget
  have hinv : Inv (s.step (.construct hosts)) := h.step hnew
  rw [hinv.matches_iff, SameCount, hkept, lastHosts_construct]
  constructor
  · intro hcount
    exact hcount o rfl hosts rfl
  · intro hcount o' ho' hosts' hhosts'
    obtain rfl := Option.some.inj ho'
    obtain rfl := Option.some.inj hhosts'
    exact hcount

/-- **Teardown matches setup in every step of a run exactly when** no string has
`2 ^ 32` hosts and every object is destroyed while the one constructed last has as
many. -/
theorem teardownMatches_iff (as : List Act) :
    TeardownMatches as ↔ Run.Along step SameCount start as := by
  unfold TeardownMatches after
  rw [← Run.along_iff]
  apply Run.along_congr (P := Inv) _ _ inv_start
  · intro s a hs ha
    exact hs.step ha
  · intro s a hs
    exact hs.matches_iff a

/-- The destructor of an object with one host reads behind its arrays after one with
two was constructed; that of an object with two leaves a slot after one with one. -/
theorem not_teardownMatches_overlapping :
    ¬ TeardownMatches [.construct ['a'], .construct ['a', ';', 'b'], .destroy 0] ∧
    ¬ TeardownMatches [.construct ['a', ';', 'b'], .construct ['a'], .destroy 0] := by
  refine ⟨?_, ?_⟩
  · intro h
    obtain ⟨s', hrun, -⟩ := h [_, _] _ List.prefix_rfl _ rfl
    cases hrun
  · intro h
    obtain ⟨s', hrun, hvisited, -⟩ := h [_, _] _ List.prefix_rfl _ rfl
    cases hrun
    exact absurd hvisited (by decide)

end Process

end RpcClient

end KVStore
