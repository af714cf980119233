/-
Initial states and the assumptions a run is made under.
-/
import ReplicatedStore.Frontend

namespace ReplicatedStore

open Lib

/-! ## States without a call in progress -/

/-- The thread has not been started, or its call is over. -/
def Over (l : Monitor.Local Outside Inside) : Prop :=
  l = .out .idle ∨ ∃ o, l = .out (.finished o)

instance : DecidablePred Over := fun l =>
  match l with
  | .out .idle => isTrue (.inl rfl)
  | .out (.finished o) => isTrue (.inr ⟨o, rfl⟩)
  | .inn _ => isFalse (by simp [Over])
  | .out (.synchronized _) | .out (.getSize _) | .out (.getKeys _ _) | .out (.getCheck _ _)
  | .out (.getLookup _ _) | .out (.printLookup _) | .out (.remote _ _ _)
  | .out (.addContains _) | .out (.addFindFirst _ _) | .out (.beatNext _)
  | .out (.beatAlive _ _ _) => isFalse (by simp [Over])

/-- No call is in progress. -/
def Quiet (s : System) : Prop := s.lock = none ∧ ∀ c, Over (s.locals c)

theorem Quiet.exclusive {s : System} (h : Quiet s) : Monitor.Exclusive s := by
  intro c
  constructor
  · intro hlock
    rw [h.1] at hlock
    cases hlock
  · rintro ⟨i, hi⟩
    rcases h.2 c with hc | ⟨o, hc⟩ <;> rw [hc] at hi <;> cases hi

theorem Quiet.not_inn {s : System} (h : Quiet s) {c : CallId} {i : Inside} :
    s.locals c ≠ .inn i := h.exclusive.not_inn h.1

/-- The system before its first call: the given membership, and processes that have
just been started. -/
def System.fresh (servers : Finmap ServerRPC) : System where
  lock := none
  shared :=
    { servers := servers, process := fun _ => .init, crashed := fun _ => false,
      outstanding := [] }
  locals _ := .out .idle

theorem System.fresh_quiet (servers : Finmap ServerRPC) : Quiet (System.fresh servers) :=
  ⟨rfl, fun _ => .inl rfl⟩

/-- An empty membership and empty servers, before the first call. -/
structure Unused (s : System) : Prop where
  quiet : Quiet s
  no_server : s.shared.servers = ∅
  no_data : ∀ id, (s.shared.process id).data = ∅

theorem System.fresh_unused : Unused (System.fresh ∅) :=
  ⟨System.fresh_quiet _, rfl, fun _ => rfl⟩

/-- The same system when the call `c` has just been made. -/
def System.calling (servers : Finmap ServerRPC) (c : CallId) (op : Op) : System :=
  { System.fresh servers with locals := Function.update (fun _ => .out .idle) c (.out op.start) }

theorem System.calling_exclusive (servers : Finmap ServerRPC) (c : CallId) (op : Op) :
    Monitor.Exclusive (System.calling servers c op) := by
  intro c'
  refine ⟨nofun, ?_⟩
  rintro ⟨i, hi⟩
  by_cases hc : c' = c
  · subst hc
    simp [System.calling] at hi
  · simp [System.calling, hc] at hi

/-- The same system when the call has taken `serversLock`. -/
def System.holding (servers : Finmap ServerRPC) (c : CallId) (op : Op) (i : Inside) : System :=
  { System.calling servers c op with
    lock := some c, locals := Function.update (System.calling servers c op).locals c (.inn i) }

theorem System.holding_exclusive (servers : Finmap ServerRPC) (c : CallId) (op : Op)
    (i : Inside) : Monitor.Exclusive (System.holding servers c op i) := by
  intro c'
  by_cases hc : c' = c
  · subst hc
    simp [System.holding]
  · simp [System.holding, System.calling, hc, Ne.symm hc]

@[simp] theorem System.holding_locals (servers : Finmap ServerRPC) (c : CallId) (op : Op)
    (i : Inside) : (System.holding servers c op i).locals c = .inn i :=
  Function.update_self ..

/-- A step inside the lock that changes nothing shared. -/
theorem System.holding_step (servers : Finmap ServerRPC) (c : CallId) (op : Op) {i j : Inside}
    {a : Act} (h : i.step c (System.calling servers c op).shared a =
      some ((System.calling servers c op).shared, .inl j)) :
    System.step (System.holding servers c op i) (.run c a) =
      some (System.holding servers c op j) := by
  simp only [System.step, Monitor.step, System.holding_locals, frontend]
  simp only [System.holding, h, Option.map_some, Function.update_idem]

/-- The memberships of the concrete runs. -/
def oneServer : Finmap ServerRPC := Finmap.singleton 1 ⟨0, by decide⟩

def twoServers : Finmap ServerRPC := oneServer.insert 2 ⟨0, by decide⟩

/-- What is left to check of `Quiet` when the threads from `n` on are idle. -/
def QuietBelow (n : Nat) (s : System) : Prop := s.lock = none ∧ ∀ c < n, Over (s.locals c)

instance (n : Nat) (s : System) : Decidable (QuietBelow n s) := by
  unfold QuietBelow
  infer_instance

theorem QuietBelow.quiet {s : System} {n : Nat} (h : QuietBelow n s)
    (habove : ∀ c, n ≤ c → s.locals c = .out .idle) : Quiet s := by
  refine ⟨h.1, fun c => ?_⟩
  by_cases hc : c < n
  · exact h.2 c hc
  · exact .inl (habove c (Nat.not_lt.mp hc))

/-- Threads that take no step of a run stay as they are. -/
theorem SystemRun.idle_above {ok : System → Label → Prop} {s₀ s : System} {tr : Trace} {n : Nat}
    (h : SystemRun ok s₀ tr s) (hok : ∀ s l, ok s l → ∀ c, l.thread = some c → c < n)
    (h₀ : ∀ c, n ≤ c → s₀.locals c = .out .idle) (c : CallId) (hc : n ≤ c) :
    s.locals c = .out .idle := by
  refine h.invariant (I := fun _ s => s.locals c = .out .idle) (h₀ c hc) ?_
  intro tr s l s' _ hl hs ih
  have hne : l.thread ≠ some c := fun e => absurd (hok s l hl c e) (Nat.not_lt.mpr hc)
  exact ((Monitor.Step.of_step frontend hs).locals_of_ne hne).trans ih

/-! ## Failures -/

/-- An RPC attempt throws. -/
def Act.faulty : Act → Bool
  | .throw | .linger | .send .throw => true
  | _ => false

/-- No attempt throws, no server crashes, and nothing is left in the network. -/
def Faultless : Label → Prop
  | .run _ a => a.faulty = false
  | .enter _ => True
  | .env _ => False

instance : DecidablePred Faultless := fun l => by
  cases l <;> unfold Faultless <;> infer_instance

/-- Attempts may throw and servers may crash, but a method never runs after its
attempt has thrown. -/
def NoneLate : Label → Prop
  | .run _ a => a ≠ .linger
  | .enter _ => True
  | .env e => ∃ id, e = .crash id

instance : DecidablePred NoneLate := fun l =>
  match l with
  | .run _ a => inferInstanceAs (Decidable (a ≠ .linger))
  | .enter _ => isTrue trivial
  | .env (.crash id) => isTrue ⟨id, rfl⟩
  | .env (.deliver _) => isFalse fun ⟨_, h⟩ => nomatch h

/-! ## Observations on concrete runs -/

/-- How the call `c` has ended. -/
def System.outcome (s : System) (c : CallId) : Option Outcome :=
  match s.locals c with
  | .out (.finished o) => some o
  | _ => none

theorem System.outcome_eq {s : System} {c : CallId} {o : Outcome} (h : s.outcome c = some o) :
    s.locals c = .out (.finished o) := by
  unfold System.outcome at h
  split at h
  · rename_i hl
    obtain rfl := Option.some.inj h
    exact hl
  · cases h

/-- The exception that the critical section of the thread `c` is about to end by. -/
def System.raises (s : System) (c : CallId) : Option Exn :=
  match s.locals c with
  | .inn (.leave (.finish (.threw e))) => some e
  | _ => none

theorem System.raises_eq {s : System} {c : CallId} {e : Exn} (h : s.raises c = some e) :
    s.locals c = .inn (.leave (.finish (.threw e))) := by
  unfold System.raises at h
  split at h
  · rename_i hl
    obtain rfl := Option.some.inj h
    exact hl
  · cases h

/-- The answer that the critical section of the thread `c` is about to end with. -/
def System.answers (s : System) (c : CallId) : Option Reply :=
  match s.locals c with
  | .inn (.leave (.finish (.returned y))) => some y
  | _ => none

theorem System.answers_eq {s : System} {c : CallId} {y : Reply} (h : s.answers c = some y) :
    s.locals c = .inn (.leave (.finish (.returned y))) := by
  unfold System.answers at h
  split at h
  · rename_i hl
    obtain rfl := Option.some.inj h
    exact hl
  · cases h

/-- The write that the thread `c` has just sent, and the server it is for. -/
def System.sends (s : System) (c : CallId) : Option (Key × Val × ServerId) :=
  match s.locals c with
  | .inn (.write k x (.body _ id ⟨0, .sent⟩)) => some (k, x, id)
  | _ => none

theorem System.sends_eq {s : System} {c : CallId} {k : Key} {x : Val} {id : ServerId}
    (h : s.sends c = some (k, x, id)) :
    ∃ todo, s.locals c = .inn (.write k x (.body todo id (.first .sent))) := by
  unfold System.sends at h
  split at h
  · rename_i hl
    simp only [Option.some.injEq, Prod.mk.injEq] at h
    obtain ⟨rfl, rfl, rfl⟩ := h
    exact ⟨_, hl⟩
  · cases h

/-- The put that the thread `c` is about to take `serversLock` for. -/
def System.awaits (s : System) (c : CallId) : Option (Key × Val) :=
  match s.locals c with
  | .out (.synchronized (.withLock (.put k x))) => some (k, x)
  | _ => none

theorem System.awaits_eq {s : System} {c : CallId} {k : Key} {x : Val}
    (h : s.awaits c = some (k, x)) : s.locals c = .out (Op.put k x).start := by
  unfold System.awaits at h
  split at h
  · rename_i hl
    obtain ⟨rfl, rfl⟩ := Prod.mk.inj (Option.some.inj h)
    exact hl
  · cases h

/-! ## Labels of calls that meet no failure -/

/-- A loop that sends a method to the servers `ids`; the method takes the steps `exec`. -/
def loopOn (c : CallId) (exec : List Label) (ids : List ServerId) : List Label :=
  .run c .step :: (ids.flatMap fun id => .run c (.pick id) :: exec ++ [.run c .reply]) ++
    [.run c .step]

/-- A put that reaches every server of `ids`. -/
def putOn (c : CallId) (k : Key) (x : Val) (ids : List ServerId) : List Label :=
  [.run c (.call (.put k x)), .enter c] ++ loopOn c [.run c .exec] ids ++
    loopOn c [.run c .exec] ids ++ loopOn c [.run c .exec, .run c .exec] ids ++ [.run c .step]

/-- A server joins an empty membership. -/
def joinFirst (c : CallId) (id : ServerId) : List Label :=
  [.run c (.call (.addServer id)), .run c .step, .run c .step, .enter c, .run c .step,
    .run c .step]

/-- A server joins the servers `ids`, with `sender` sending it the keys `ks`. -/
def joinFrom (c : CallId) (id sender : ServerId) (ks : List Key) (ids : List ServerId) :
    List Label :=
  [.run c (.call (.addServer id)), .run c .step, .run c (.pick sender), .enter c] ++
    loopOn c [.run c .exec] ids ++ [.run c .step, .run c (.send .step)] ++
    (ks.flatMap fun k => [.run c (.send (.visit k)), .run c (.send .exec),
      .run c (.send .reply)]) ++
    [.run c (.send .step), .run c .reply] ++ loopOn c [.run c .exec, .run c .exec] ids ++
    [.run c .step, .run c .step]

def shutDown (c : CallId) (id : ServerId) : List Label :=
  [.run c (.call (.shutdownServer id)), .enter c, .run c .step, .run c .exec, .run c .reply,
    .run c .step, .run c .step]

end ReplicatedStore
