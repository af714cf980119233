/-
The frontend: `FrontendRPCImpl`, `ServerLockUtil`, `ServerSelector` and
`HeartBeat`, as the steps of threads over the servers map and the server
processes.

Each constructor of `Outside` and `Inside` is a program point, and each step makes
one access to `ServersList.servers`, to the monitor `ServersList.serversLock` or to
a server.  `Inside` holds the points of the `synchronized` blocks.  An action
resolves what the program leaves open: the entry an iterator returns next, how far
a server has come with a request, and whether an attempt returns or throws.
-/
import ReplicatedStore.Server
import ReplicatedStore.Lib.Monitor

namespace ReplicatedStore

/-! ## Proxies and shared state -/

/-- `ServerRPCClient.serverPort`, in `int` arithmetic. -/
def serverPort (serverId : ServerId) : Int32 := 9000 + serverId

/-- A proxy made by `ServerRPCClient.create`.  Its identity is the call that made
it, and it exists only if its URL has a port that `java.net.URL` accepts. -/
structure ServerRPC (serverId : ServerId) where
  createdBy : CallId
  port_ok : -1 ≤ serverPort serverId
  deriving DecidableEq

/-- `ServerRPCClient.create`: it builds the proxy and opens no connection. -/
def ServerRPCClient.create (serverId : ServerId) (c : CallId) :
    Except String (ServerRPC serverId) :=
  if h : -1 ≤ serverPort serverId then .ok ⟨c, h⟩
  else .error s!"Invalid port number :{serverPort serverId}"

/-- A request whose attempt has thrown at the frontend and which the network may
still deliver. -/
structure Request where
  serverId : ServerId
  method : Method
  progress : Progress
  caller : CallId

/-- What the threads of the frontend share: `ServersList.servers` and the processes
behind it.  `crashed` tells which of them no longer answer. -/
structure Cluster where
  servers : Finmap ServerRPC
  process : ServerId → ServerRPCImpl
  crashed : ServerId → Bool
  outstanding : List Request

namespace Cluster

def setProcess (cl : Cluster) (id : ServerId) (p : ServerRPCImpl) : Cluster :=
  { cl with process := Function.update cl.process id p }

/-- The server `id` runs the next atomic step of a method. -/
def exec (cl : Cluster) (id : ServerId) (m : Method) (pr : Progress) :
    Option (Cluster × Progress) :=
  if cl.crashed id then none
  else (m.step pr (cl.process id)).map fun r => (cl.setProcess id r.1, r.2)

/-- An attempt throws before or after the method has run, or because the server
has crashed. -/
def mayThrow (cl : Cluster) (id : ServerId) (pr : Progress) : Bool :=
  cl.crashed id || pr != .notifying

@[simp] theorem setProcess_servers (cl : Cluster) (id : ServerId) (p : ServerRPCImpl) :
    (cl.setProcess id p).servers = cl.servers := rfl
@[simp] theorem setProcess_crashed (cl : Cluster) (id : ServerId) (p : ServerRPCImpl) :
    (cl.setProcess id p).crashed = cl.crashed := rfl
@[simp] theorem setProcess_outstanding (cl : Cluster) (id : ServerId) (p : ServerRPCImpl) :
    (cl.setProcess id p).outstanding = cl.outstanding := rfl
@[simp] theorem setProcess_process_self (cl : Cluster) (id : ServerId) (p : ServerRPCImpl) :
    (cl.setProcess id p).process id = p := by simp [setProcess]
theorem setProcess_process_of_ne (cl : Cluster) {id id' : ServerId} (h : id' ≠ id)
    (p : ServerRPCImpl) : (cl.setProcess id p).process id' = cl.process id' := by
  simp [setProcess, h]

end Cluster

/-! ## `ServerSelector.select` -/

/-- `key % servers.size()`. -/
def ServerSelector.index (key : Key) (size : Int32) : Except Exn Int32 :=
  if size = 0 then .error .arithmetic else .ok (key % size)

/-- `ConcurrentHashMap.size` cuts off at `Integer.MAX_VALUE`. -/
def mapSize (servers : Finmap ServerRPC) : Int32 :=
  Int32.ofNat (min servers.keys.card (2 ^ 31 - 1))

/-- `servers.stream().sorted().collect(toList()).get(index)`. -/
def ServerSelector.get (servers : Finmap ServerRPC) (index : Int32) : Except Exn ServerId :=
  if index < 0 then .error .indexOutOfBounds
  else
    match (servers.keys.sort (· ≤ ·))[index.toInt.toNat]? with
    | some id => .ok id
    | none => .error .indexOutOfBounds

/-! ## Program points -/

/-- An entry of the servers map. -/
abbrev Entry := (id : ServerId) × ServerRPC id

/-- The calls whose critical section locks all servers. -/
inductive Work
  | put (key : Key) (value : Val)
  | addServer (id : ServerId) (rpc : ServerRPC id) (sender : ServerId)

/-- A loop over `ServersList.servers` that sends one method to each entry through
`Retry.run`.  `todo` holds the entries the iterator has still to return. -/
inductive Loop
  | start
  | next (todo : Finset ServerId)
  | body (todo : Finset ServerId) (id : ServerId) (a : Attempt Progress)

/-- How a step of a loop continues. -/
inductive Flow
  | again (l : Loop)
  | done
  | raised

/-- The program points of `sendValuesToServer` in the sending server. -/
inductive Send
  | sent
  | next (todo : Finset Key)
  | put (todo : Finset Key) (key : Key) (value : Val) (a : Attempt Progress)
  | returned
  | raised

inductive SendAct
  | step
  | visit (key : Key)
  | exec
  | reply
  | throw
  deriving DecidableEq

/-- An attempt of `addServer` at the transfer: it looks the sender up and calls
it. -/
inductive Transfer
  | lookup
  | remote (p : Send)

/-- What follows the end of a critical section. -/
inductive Exit
  | finish (o : Outcome)
  | resume (next : Option Entry)

/-- Program points that hold `serversLock`. -/
inductive Inside
  | lock (w : Work) (l : Loop)
  | write (key : Key) (value : Val) (l : Loop)
  | transfer (id : ServerId) (rpc : ServerRPC id) (sender : ServerId) (a : Attempt Transfer)
  | unlock (w : Work) (l : Loop)
  | registerFirst (id : ServerId) (rpc : ServerRPC id)
  | register (id : ServerId) (rpc : ServerRPC id)
  | listServer
  | shutdownLookup (id : ServerId)
  | shutdownCall (id : ServerId) (pr : Progress)
  | shutdownRemove (id : ServerId)
  | beatRemove (id : ServerId) (next : Option Entry)
  | leave (e : Exit)

/-- The `synchronized (ServersList.serversLock)` blocks. -/
inductive Block
  | withLock (w : Work)
  | registerFirst (id : ServerId) (rpc : ServerRPC id)
  | listServer
  | shutdownServer (id : ServerId)
  | beatRemove (id : ServerId) (next : Option Entry)

/-- Program points that do not hold it. -/
inductive Outside
  | idle
  | synchronized (b : Block)
  | getSize (key : Key)
  | getKeys (key : Key) (index : Int32)
  | getCheck (key : Key) (id : ServerId)
  | getLookup (key : Key) (id : ServerId)
  | printLookup (id : ServerId)
  | remote (q : Query) (id : ServerId) (r : Reader)
  | addContains (id : ServerId)
  | addFindFirst (id : ServerId) (rpc : ServerRPC id)
  | beatNext (next : Option Entry)
  | beatAlive (e : Entry) (next : Option Entry) (a : Attempt Progress)
  | finished (o : Outcome)

/-- What a thread can be started with. -/
inductive Op
  | put (key : Key) (value : Val)
  | get (key : Key)
  | printKVPairs (id : ServerId)
  | addServer (id : ServerId)
  | listServer
  | shutdownServer (id : ServerId)
  | heartBeat
  deriving DecidableEq

inductive Act
  | call (op : Op)
  | step
  | pick (id : ServerId)
  | exec
  | reply
  | throw
  | linger
  | read (a : ReaderAct)
  | send (a : SendAct)
  deriving DecidableEq

/-- The first program point of a block. -/
def Block.start : Block → Inside
  | .withLock w => .lock w .start
  | .registerFirst id rpc => .registerFirst id rpc
  | .listServer => .listServer
  | .shutdownServer id => .shutdownLookup id
  | .beatRemove id next => .beatRemove id next

/-- The first program point of a call. -/
def Op.start : Op → Outside
  | .put k v => .synchronized (.withLock (.put k v))
  | .get k => .getSize k
  | .printKVPairs id => .printLookup id
  | .addServer id => .addContains id
  | .listServer => .synchronized .listServer
  | .shutdownServer id => .synchronized (.shutdownServer id)
  | .heartBeat => .beatNext none

def Exit.point : Exit → Outside
  | .finish o => .finished o
  | .resume next => .beatNext next

/-! ## Loops over the servers -/

/-- An attempt of the loop has thrown: the next attempt, or, when `Retry.run`
throws, the next entry if the loop catches and its end if not. -/
def Loop.failed (swallow : Bool) (todo : Finset ServerId) (id : ServerId)
    (a : Attempt Progress) : Flow :=
  match a.retry .sent with
  | some a' => .again (.body todo id a')
  | none => if swallow then .again (.next todo) else .raised

/-- One step of a loop that sends `m` to every registered server. -/
def Loop.step (m : Method) (swallow : Bool) (c : CallId) (cl : Cluster) :
    Loop → Act → Option (Cluster × Flow)
  | .start, .step => some (cl, .again (.next cl.servers.keys))
  | .next todo, .pick id =>
    if id ∈ todo then some (cl, .again (.body (todo.erase id) id (.first .sent))) else none
  | .next todo, .step => if todo = ∅ then some (cl, .done) else none
  | .body todo id a, .exec =>
    (cl.exec id m a.state).map fun r => (r.1, .again (.body todo id { a with state := r.2 }))
  | .body todo _ a, .reply =>
    if a.state = .executed then some (cl, .again (.next todo)) else none
  | .body todo id a, .throw =>
    if cl.mayThrow id a.state then some (cl, Loop.failed swallow todo id a) else none
  | .body todo id a, .linger =>
    if a.state = .sent then
      some ({ cl with outstanding := cl.outstanding ++ [⟨id, m, .sent, c⟩] },
        Loop.failed swallow todo id a)
    else none
  | _, _ => none

/-- `ServerLockUtil.lock`: the loop catches what `Retry.run` throws. -/
def ServerLockUtil.lock : CallId → Cluster → Loop → Act → Option (Cluster × Flow) :=
  Loop.step .lock true

/-- `ServerLockUtil.unlock`. -/
def ServerLockUtil.unlock : CallId → Cluster → Loop → Act → Option (Cluster × Flow) :=
  Loop.step .unlock false

/-- The loop of `ServerLockUtil.runWithLock`, for the function that `put` passes. -/
def ServerLockUtil.apply (key : Key) (value : Val) :
    CallId → Cluster → Loop → Act → Option (Cluster × Flow) :=
  Loop.step (.put key value) false

/-! ## State transfer -/

/-- One step of `sendValuesToServer(target)` in the server `sender`. -/
def sendValuesToServer (cl : Cluster) (sender target : ServerId) (c : CallId) :
    Send → SendAct → Option (Cluster × Send)
  | .sent, .step =>
    match ServerRPCClient.create target c with
    | .ok _ => some (cl, .next (cl.process sender).data.keys)
    | .error _ => some (cl, .raised)
  | .next todo, .visit k =>
    if k ∈ todo then
      ((cl.process sender).data.lookup k).map fun v =>
        (cl, .put (todo.erase k) k v (.first .sent))
    else none
  | .next todo, .step => if todo = ∅ then some (cl, .returned) else none
  | .put todo k v a, .exec =>
    (cl.exec target (.put k v) a.state).map fun r => (r.1, .put todo k v { a with state := r.2 })
  | .put todo _ _ a, .reply => if a.state = .executed then some (cl, .next todo) else none
  | .put todo k v a, .throw =>
    if cl.mayThrow target a.state then
      match a.retry .sent with
      | some a' => some (cl, .put todo k v a')
      | none => some (cl, .raised)
    else none
  | _, _ => none

/-- Whether an attempt at the transfer may throw with the sender at this point. -/
def Send.mayThrow : Send → Bool
  | .sent | .returned | .raised => true
  | .next _ | .put _ _ _ _ => false

/-! ## Critical sections -/

/-- What `lock()` is followed by. -/
def Work.body : Work → Inside
  | .put k v => .write k v .start
  | .addServer id rpc sender => .transfer id rpc sender (.first .lookup)

/-- What `unlock()` is followed by. -/
def Work.after : Work → Inside
  | .put k v => .leave (.finish (.returned (.success k v)))
  | .addServer id rpc _ => .register id rpc

/-- The end of a critical section by an exception. -/
def Inside.raise (e : Exn) : Inside := .leave (.finish (.threw e))

/-- The point a loop at `at_` continues at; `after` follows its last iteration. -/
def Flow.point (at_ : Loop → Inside) (after : Inside) : Flow → Inside
  | .again l => at_ l
  | .done => after
  | .raised => .raise .runtime

/-- An attempt at the transfer has thrown. -/
def Transfer.failed (id : ServerId) (rpc : ServerRPC id) (sender : ServerId)
    (a : Attempt Transfer) : Inside :=
  match a.retry .lookup with
  | some a' => .transfer id rpc sender a'
  | none => .raise .runtime

/-- What `listServer` answers for the registered ids. -/
def listServer (ids : Finset ServerId) : Reply :=
  if ids = ∅ then .errNoServers else .serverList (ids.sort (· ≤ ·))

/-- One step of a thread that holds `serversLock`. -/
def Inside.step (c : CallId) (cl : Cluster) : Inside → Act → Option (Cluster × (Inside ⊕ Outside))
  | .lock w l, a =>
    (ServerLockUtil.lock c cl l a).map fun r => (r.1, .inl (r.2.point (.lock w) w.body))
  | .write k v l, a =>
    (ServerLockUtil.apply k v c cl l a).map fun r =>
      (r.1, .inl (r.2.point (.write k v) (.unlock (.put k v) .start)))
  | .unlock w l, a =>
    (ServerLockUtil.unlock c cl l a).map fun r => (r.1, .inl (r.2.point (.unlock w) w.after))
  | .transfer id rpc sender a, act =>
    match a.state, act with
    | .lookup, .step =>
      -- `servers.get` may return null here: the sender was chosen before the lock was taken.
      if sender ∈ cl.servers then
        some (cl, .inl (.transfer id rpc sender { a with state := .remote .sent }))
      else some (cl, .inl (Transfer.failed id rpc sender a))
    | .remote p, .send b =>
      if cl.crashed sender then none
      else (sendValuesToServer cl sender id c p b).map fun r =>
        (r.1, .inl (.transfer id rpc sender { a with state := .remote r.2 }))
    | .remote .returned, .reply =>
      some (cl, .inl (.unlock (.addServer id rpc sender) .start))
    | .remote p, .throw =>
      if cl.crashed sender || p.mayThrow then some (cl, .inl (Transfer.failed id rpc sender a))
      else none
    | _, _ => none
  | .registerFirst id rpc, .step =>
    some ({ cl with servers := cl.servers.insert id rpc },
      .inl (.leave (.finish (.returned .added))))
  | .register id rpc, .step =>
    some ({ cl with servers := cl.servers.insert id rpc },
      .inl (.leave (.finish (.returned .added))))
  | .listServer, .step =>
    some (cl, .inl (.leave (.finish (.returned (ReplicatedStore.listServer cl.servers.keys)))))
  | .shutdownLookup id, .step =>
    if id ∈ cl.servers then some (cl, .inl (.shutdownCall id .sent))
    else some (cl, .inl (.leave (.finish (.returned .errNoExist))))
  | .shutdownCall id pr, .exec =>
    (cl.exec id .shutdownServer pr).map fun r => (r.1, .inl (.shutdownCall id r.2))
  | .shutdownCall id .executed, .reply => some (cl, .inl (.shutdownRemove id))
  | .shutdownCall id pr, .throw =>
    if cl.mayThrow id pr then some (cl, .inl (.raise .runtime)) else none
  | .shutdownRemove id, .step =>
    some ({ cl with servers := cl.servers.erase id },
      .inl (.leave (.finish (.returned .stopped))))
  | .beatRemove id next, .step =>
    some ({ cl with servers := cl.servers.erase id }, .inl (.leave (.resume next)))
  | .leave e, .step => some (cl, .inr e.point)
  | _, _ => none

/-! ## Outside the lock -/

/-- One step of a thread that does not hold `serversLock`. -/
def Outside.step (c : CallId) (cl : Cluster) : Outside → Act → Option (Cluster × Outside)
  | .idle, .call op => some (cl, op.start)
  | .getSize k, .step =>
    match ServerSelector.index k (mapSize cl.servers) with
    | .ok i => some (cl, .getKeys k i)
    | .error e => some (cl, .finished (.threw e))
  | .getKeys k i, .step =>
    match ServerSelector.get cl.servers i with
    | .ok id => some (cl, .getCheck k id)
    | .error e => some (cl, .finished (.threw e))
  | .getCheck k id, .step =>
    if id ∈ cl.servers then some (cl, .getLookup k id)
    else some (cl, .finished (.returned .errNoExist))
  | .getLookup k id, .step =>
    -- The second `servers.get` is not checked for null.
    if id ∈ cl.servers then some (cl, .remote (.get k) id .test)
    else some (cl, .finished (.threw .nullPointer))
  | .printLookup id, .step =>
    if id ∈ cl.servers then some (cl, .remote .printKVPairs id .test)
    else some (cl, .finished (.returned .errNoExist))
  | .remote q id r, .read a =>
    if cl.crashed id then none
    else ((cl.process id).read q c r a).map fun x => (cl.setProcess id x.1, .remote q id x.2)
  | .remote _ _ (.answered r), .reply => some (cl, .finished (.returned r))
  | .remote _ _ _, .throw => some (cl, .finished (.threw .runtime))
  | .addContains id, .step =>
    if id ∈ cl.servers then some (cl, .finished (.returned (.alreadyExists id)))
    else
      match ServerRPCClient.create id c with
      | .ok rpc => some (cl, .addFindFirst id rpc)
      | .error message => some (cl, .finished (.returned (.notAccepting id message)))
  | .addFindFirst id rpc, .step =>
    if cl.servers.keys = ∅ then some (cl, .synchronized (.registerFirst id rpc)) else none
  | .addFindFirst id rpc, .pick sender =>
    if sender ∈ cl.servers then
      some (cl, .synchronized (.withLock (.addServer id rpc sender)))
    else none
  | .beatNext none, .pick id =>
    (cl.servers.lookup id).map fun rpc => (cl, .beatNext (some ⟨id, rpc⟩))
  | .beatNext (some e), .pick id =>
    (cl.servers.lookup id).map fun rpc =>
      (cl, .beatAlive e (some ⟨id, rpc⟩) (.first .sent))
  | .beatNext (some e), .step => some (cl, .beatAlive e none (.first .sent))
  | .beatAlive e next a, .exec =>
    (cl.exec e.1 .alive a.state).map fun r => (r.1, .beatAlive e next { a with state := r.2 })
  | .beatAlive _ next a, .reply =>
    if a.state = .executed then some (cl, .beatNext next) else none
  | .beatAlive e next a, .throw =>
    if cl.mayThrow e.1 a.state then
      match a.retry .sent with
      | some a' => some (cl, .beatAlive e next a')
      | none => some (cl, .synchronized (.beatRemove e.1 next))
    else none
  | _, _ => none

def Outside.entry : Outside → Option Inside
  | .synchronized b => some b.start
  | _ => none

/-! ## The environment -/

inductive Event
  | crash (id : ServerId)
  | deliver (n : Nat)
  deriving DecidableEq

/-- The requests left in the network after the server has brought the `n`th of them
to `pr`. -/
def delivered (rest : List Request) (n : Nat) (r : Request) (pr : Progress) : List Request :=
  if pr = .executed then rest.eraseIdx n else rest.set n { r with progress := pr }

/-- A server crashes, or a server runs a step of a request left in the network. -/
def Cluster.env (cl : Cluster) : Event → Option Cluster
  | .crash id => some { cl with crashed := Function.update cl.crashed id true }
  | .deliver n =>
    match cl.outstanding[n]? with
    | some r =>
      (cl.exec r.serverId r.method r.progress).map fun x =>
        { x.1 with outstanding := delivered cl.outstanding n r x.2 }
    | none => none

/-! ## The system -/

open Lib

abbrev System := Monitor.State CallId Cluster Outside Inside

abbrev Label := Monitor.Label CallId Act Event

abbrev Trace := List (System × Label)

def frontend : Monitor.Program CallId Cluster Outside Inside Act Event where
  outside c w a cl := w.step c cl a
  entry := Outside.entry
  inside c i a cl := i.step c cl a
  env e cl := cl.env e

def System.step : System → Label → Option System := Monitor.step frontend

/-- A run whose steps all satisfy `ok`. -/
abbrev SystemRun (ok : System → Label → Prop) (s₀ : System) (tr : Trace) (s : System) : Prop :=
  Run System.step ok s₀ tr s

end ReplicatedStore
