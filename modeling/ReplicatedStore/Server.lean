/-
The server process: `ServerRPCImpl` and the retry loop of its callers.

A server method is a sequence of atomic steps on the process.  `put`, `lock`,
`alive` and `shutdownServer` take one; `unlock` takes two, the assignment of
`isLocked` and the `notifyAll`; `get` and `printKVPairs` loop on `isLocked` before
they read.
-/
import Mathlib.Data.Finmap
import Mathlib.Data.Finset.Sort

namespace ReplicatedStore

/-- The Java `int`s that name keys, values and servers. -/
abbrev Key := Int32
abbrev Val := Int32
abbrev ServerId := Int32

/-- A thread of the frontend, which runs one call (or the heartbeat). -/
abbrev CallId := Nat

instance instLinearOrderInt32 : LinearOrder Int32 where
  le_refl := Int32.le_refl
  le_trans _ _ _ := Int32.le_trans
  le_antisymm _ _ := Int32.le_antisymm
  le_total := Int32.le_total
  lt_iff_le_not_ge _ _ := by simp only [Int32.lt_iff_toInt_lt, Int32.le_iff_toInt_le]; omega
  toDecidableLE := inferInstance

/-- `ServerRPCImpl.data`. -/
abbrev Data := Finmap fun _ : Key => Val

/-! ## Answers -/

/-- The strings the calls return. -/
inductive Reply
  | success (key : Key) (value : Val)
  | pair (key : Key) (value : Val)
  | errKey
  | errNoExist
  | errNoServers
  | added
  | alreadyExists (serverId : ServerId)
  | notAccepting (serverId : ServerId) (message : String)
  | stopped
  | pairs (entries : List (Key × Val))
  | serverList (ids : List ServerId)
  deriving DecidableEq

def Reply.text : Reply → String
  | .success k v => s!"Success {k}={v}"
  | .pair k v => s!"{k}:{v}"
  | .errKey => "ERR_KEY"
  | .errNoExist => "ERR_NOEXIST"
  | .errNoServers => "ERR_NOSERVERS"
  | .added => "Success"
  | .alreadyExists id => s!"The server already exists: {id}"
  | .notAccepting id message => s!"The port is not accepting messages: {id}: " ++ message
  | .stopped => "Success"
  | .pairs entries => String.join (entries.map fun e => s!"{e.1}:{e.2}\n")
  | .serverList ids => " ".intercalate (ids.map toString)

/-- The replies of `put`, and of a `get` that has read a server. -/
def Reply.ofStore : Reply → Bool
  | .success _ _ | .pair _ _ | .errKey => true
  | _ => false

/-- The exceptions a call can end with. -/
inductive Exn
  | runtime
  | nullPointer
  | arithmetic
  | indexOutOfBounds
  deriving DecidableEq

inductive Outcome
  | returned (r : Reply)
  | threw (e : Exn)
  deriving DecidableEq

/-! ## The process -/

/-- The state of a server process.  `waitSet` is the wait set of `canWriteLock`. -/
structure ServerRPCImpl where
  data : Data
  isLocked : Bool
  waitSet : Finset CallId

namespace ServerRPCImpl

def init : ServerRPCImpl := { data := ∅, isLocked := false, waitSet := ∅ }

def put (p : ServerRPCImpl) (key : Key) (value : Val) : ServerRPCImpl :=
  { p with data := p.data.insert key value }

def lock (p : ServerRPCImpl) : ServerRPCImpl := { p with isLocked := true }

/-- The first step of `unlock`. -/
def unlock (p : ServerRPCImpl) : ServerRPCImpl := { p with isLocked := false }

/-- The second step of `unlock`: every waiting reader leaves the wait set. -/
def notifyAll (p : ServerRPCImpl) : ServerRPCImpl := { p with waitSet := ∅ }

def wait (p : ServerRPCImpl) (c : CallId) : ServerRPCImpl :=
  { p with waitSet := insert c p.waitSet }

/-- A reader leaves the wait set without a `notifyAll`, as `Object.wait` permits. -/
def wakeUp (p : ServerRPCImpl) (c : CallId) : ServerRPCImpl :=
  { p with waitSet := p.waitSet.erase c }

@[simp] theorem put_isLocked (p : ServerRPCImpl) (k : Key) (v : Val) :
    (p.put k v).isLocked = p.isLocked := rfl
@[simp] theorem put_data (p : ServerRPCImpl) (k : Key) (v : Val) :
    (p.put k v).data = p.data.insert k v := rfl
@[simp] theorem put_waitSet (p : ServerRPCImpl) (k : Key) (v : Val) :
    (p.put k v).waitSet = p.waitSet := rfl
@[simp] theorem lock_isLocked (p : ServerRPCImpl) : p.lock.isLocked = true := rfl
@[simp] theorem lock_data (p : ServerRPCImpl) : p.lock.data = p.data := rfl
@[simp] theorem lock_waitSet (p : ServerRPCImpl) : p.lock.waitSet = p.waitSet := rfl
@[simp] theorem unlock_isLocked (p : ServerRPCImpl) : p.unlock.isLocked = false := rfl
@[simp] theorem unlock_data (p : ServerRPCImpl) : p.unlock.data = p.data := rfl
@[simp] theorem unlock_waitSet (p : ServerRPCImpl) : p.unlock.waitSet = p.waitSet := rfl
@[simp] theorem notifyAll_isLocked (p : ServerRPCImpl) :
    p.notifyAll.isLocked = p.isLocked := rfl
@[simp] theorem notifyAll_data (p : ServerRPCImpl) : p.notifyAll.data = p.data := rfl
@[simp] theorem notifyAll_waitSet (p : ServerRPCImpl) : p.notifyAll.waitSet = ∅ := rfl
@[simp] theorem wait_isLocked (p : ServerRPCImpl) (c : CallId) :
    (p.wait c).isLocked = p.isLocked := rfl
@[simp] theorem wait_data (p : ServerRPCImpl) (c : CallId) : (p.wait c).data = p.data := rfl
@[simp] theorem wakeUp_isLocked (p : ServerRPCImpl) (c : CallId) :
    (p.wakeUp c).isLocked = p.isLocked := rfl
@[simp] theorem wakeUp_data (p : ServerRPCImpl) (c : CallId) :
    (p.wakeUp c).data = p.data := rfl

end ServerRPCImpl

/-! ## Methods the frontend calls under its lock -/

inductive Method
  | put (key : Key) (value : Val)
  | lock
  | unlock
  | alive
  | shutdownServer
  deriving DecidableEq

/-- How far the server has run the requested method. -/
inductive Progress
  | sent
  | notifying
  | executed
  deriving DecidableEq

/-- One atomic step of a method. -/
def Method.step (m : Method) : Progress → ServerRPCImpl → Option (ServerRPCImpl × Progress)
  | .sent, p =>
    match m with
    | .put k v => some (p.put k v, .executed)
    | .lock => some (p.lock, .executed)
    | .unlock => some (p.unlock, .notifying)
    | .alive => some (p, .executed)
    | .shutdownServer => some (p, .executed)
  | .notifying, p => some (p.notifyAll, .executed)
  | .executed, _ => none

/-! ## Readers -/

/-- The two methods that wait for the lock to open. -/
inductive Query
  | get (key : Key)
  | printKVPairs
  deriving DecidableEq

/-- The program points of a reader in the server process.  In `printing todo out`
the iterator has still to visit the keys `todo` that were present when it was
created, and `out` has been appended. -/
inductive Reader
  | test
  | enter
  | waiting
  | passed
  | printing (todo : Finset Key) (out : List (Key × Val))
  | answered (r : Reply)
  deriving DecidableEq

inductive ReaderAct
  | step
  | wakeUp
  | visit (key : Key)
  deriving DecidableEq

/-- What `get` makes of `data.get(key)`. -/
def readKey (key : Key) : Option Val → Reply
  | none => .errKey
  | some value => .pair key value

/-- One atomic step of a reader.  The loop tests `isLocked` outside the monitor it
waits in. -/
def ServerRPCImpl.read (p : ServerRPCImpl) (q : Query) (c : CallId) :
    Reader → ReaderAct → Option (ServerRPCImpl × Reader)
  | .test, .step => some (p, if p.isLocked then .enter else .passed)
  | .enter, .step => some (p.wait c, .waiting)
  | .waiting, .step => if c ∈ p.waitSet then none else some (p, .test)
  | .waiting, .wakeUp => if c ∈ p.waitSet then some (p.wakeUp c, .test) else none
  | .passed, .step =>
    match q with
    | .get k => some (p, .answered (readKey k (p.data.lookup k)))
    | .printKVPairs => some (p, .printing p.data.keys [])
  | .printing todo out, .visit k =>
    match p.data.lookup k with
    | some v =>
      if k ∈ out.map Prod.fst then none else some (p, .printing (todo.erase k) (out ++ [(k, v)]))
    | none => none
  | .printing todo out, .step => if todo = ∅ then some (p, .answered (.pairs out)) else none
  | _, _ => none

/-- A reader changes nothing but the wait set. -/
theorem ServerRPCImpl.read_frame {p p' : ServerRPCImpl} {q : Query} {c : CallId}
    {r r' : Reader} {a : ReaderAct} (h : p.read q c r a = some (p', r')) :
    p'.data = p.data ∧ p'.isLocked = p.isLocked := by
  cases r <;> cases a <;> simp only [ServerRPCImpl.read] at h
  all_goals repeat (split at h)
  all_goals first
    | contradiction
    | (simp only [Option.some.injEq, Prod.mk.injEq] at h
       obtain ⟨rfl, -⟩ := h
       exact ⟨rfl, rfl⟩)

def Reader.prints : Reader → Bool
  | .printing _ _ => true
  | _ => false

/-- What a reader of `get` comes to: it answers with what it reads after the test. -/
theorem ServerRPCImpl.read_get {p p' : ServerRPCImpl} {k : Key} {c : CallId} {r r' : Reader}
    {a : ReaderAct} (h : p.read (.get k) c r a = some (p', r')) (hr : r.prints = false) :
    r'.prints = false ∧ (r' = .passed → p.isLocked = false) ∧
      ∀ y, r' = .answered y → r = .passed ∧ y = readKey k (p.data.lookup k) := by
  cases r with
  | printing todo out => cases hr
  | passed =>
    cases a <;> simp only [ServerRPCImpl.read] at h <;> try contradiction
    obtain ⟨-, rfl⟩ := Prod.mk.inj (Option.some.inj h)
    exact ⟨rfl, nofun, fun y hy => ⟨rfl, (Reader.answered.inj hy).symm⟩⟩
  | test =>
    cases a <;> simp only [ServerRPCImpl.read] at h <;> try contradiction
    obtain ⟨-, rfl⟩ := Prod.mk.inj (Option.some.inj h)
    cases hlock : p.isLocked <;> simp [Reader.prints]
  | enter =>
    cases a <;> simp only [ServerRPCImpl.read] at h <;> try contradiction
    obtain ⟨-, rfl⟩ := Prod.mk.inj (Option.some.inj h)
    exact ⟨rfl, nofun, nofun⟩
  | waiting =>
    cases a <;> simp only [ServerRPCImpl.read] at h <;> try contradiction
    all_goals
      split at h
      all_goals first
        | contradiction
        | (obtain ⟨-, rfl⟩ := Prod.mk.inj (Option.some.inj h)
           exact ⟨rfl, nofun, nofun⟩)
  | answered y => cases a <;> simp [ServerRPCImpl.read] at h

/-- The answer of a reader of `printKVPairs` tells no single value. -/
theorem ServerRPCImpl.read_print {p p' : ServerRPCImpl} {c : CallId} {r r' : Reader}
    {a : ReaderAct} (h : p.read .printKVPairs c r a = some (p', r')) :
    ∀ y, r' = .answered y → y.ofStore = false := by
  rintro y rfl
  cases r <;> cases a <;> simp only [ServerRPCImpl.read] at h
  all_goals repeat (split at h)
  all_goals first
    | contradiction
    | (obtain rfl := Reader.answered.inj (Prod.mk.inj (Option.some.inj h)).2
       rfl)
    | (simp at h)

/-! ## Retries -/

/-- `Retry.RETRIES`. -/
def RETRIES : Nat := 3

/-- The attempt `Retry.run` is making: how many before it have thrown, and how far
this one has come. -/
structure Attempt (π : Type) where
  failures : Nat
  state : π
  deriving DecidableEq

/-- The first attempt. -/
def Attempt.first {π : Type} (start : π) : Attempt π := { failures := 0, state := start }

/-- What follows an attempt that threw: the next one, or none once the last retry
has thrown and `Retry.run` throws itself. -/
def Attempt.retry {π : Type} (a : Attempt π) (start : π) : Option (Attempt π) :=
  if a.failures < RETRIES then some { failures := a.failures + 1, state := start } else none

end ReplicatedStore
