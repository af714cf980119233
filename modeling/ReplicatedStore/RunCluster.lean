/-
The workload driver: `loadDataset`, `runWorkload` and `testKVS` of `run_cluster.py`.

A worker is a thread of the pool; each step of it evaluates the program up to its next
choice or its next call of a client.  What a client answers, what `random` chooses and
whether a call raises is in the action.  Divisions are exact.
-/
import Mathlib.Data.Rat.Floor
import ReplicatedStore.Server
import ReplicatedStore.Lib.Decimal
import ReplicatedStore.Lib.Run

namespace ReplicatedStore
namespace RunCluster

open Lib

/-! ## Python's numbers, lists and texts -/

/-- `int(x)` of a quotient: it cuts off towards zero. -/
def int (x : ℚ) : ℤ := x.num.tdiv x.den

/-- `range(start, stop)`. -/
def range (start stop : ℤ) : List ℤ :=
  (List.range (stop - start).toNat).map fun i : ℕ => start + i

/-- `xs[idx]`, which counts a negative index from the end. -/
def item {α : Type} (xs : List α) (idx : ℤ) : Option α :=
  if 0 ≤ idx then xs[idx.toNat]?
  else if -(xs.length : ℤ) ≤ idx then xs[(xs.length + idx).toNat]? else none

/-- `text.split(sep)`. -/
def split (text : String) (sep : Char) : List (List Char) := text.toList.splitOn sep

/-- The text that stands for a pair. -/
def pairText (key value : ℤ) : String := s!"{key}:{value}"

/-! ## The arguments -/

/-- The arguments of `testKVS`. -/
structure Args where
  numKeys : ℤ
  numThreads : ℕ
  numRequests : ℤ
  putRatio : ℤ
  testConsistency : ℤ
  crashServer : ℤ
  addServer : ℤ
  removeServer : ℤ

/-- The lists that `testKVS` shuffles. -/
structure DataSet where
  keys : List ℤ
  loadVals : List ℤ
  runVals : List ℤ

/-- What one worker is given. -/
structure Worker where
  threadId : ℕ
  data : DataSet
  args : Args

namespace Worker

/-- `int(num_requests / num_threads)`, the `num_requests` of `runWorkload`. -/
def numRequests (w : Worker) : ℤ := int (w.args.numRequests / w.args.numThreads)

def startIdx (w : Worker) : ℤ := int (w.data.keys.length / w.args.numThreads * w.threadId)

def endIdx (w : Worker) : ℤ :=
  w.startIdx + int (w.data.keys.length / w.args.numThreads)

/-- Whether thread 0 is to change the membership half way. -/
def changesMembership (w : Worker) : Bool :=
  w.args.crashServer = 1 || w.args.addServer = 1 || w.args.removeServer = 1

end Worker

/-- The list `optype` before it is shuffled. -/
def optypes (putRatio : ℤ) : List String :=
  (range 0 100).map fun i => if i % 100 < putRatio then "Put" else "Get"

/-! ## The check of a reply -/

inductive Check
  | passes
  | prints (line : String)
  | raises
  deriving DecidableEq

/-- The test of `runWorkload` on the reply to a get.  It raises if the reply has no two
parts or one of them is not a number: the line that is printed for a wrong key reads the
second part as well. -/
def check (key expected : ℤ) (reply : String) : Check :=
  let result := split reply ':'
  match result[0]?.bind Decimal.parse, result[1]?.bind Decimal.parse with
  | some k, some v =>
    if k ≠ key ∨ v ≠ expected then
      .prints s!"[Error] request = ({key}, {expected}), return = ({k}, {v})"
    else .passes
  | _, _ => .raises

/-! ## Workers -/

/-- A call of a client. -/
inductive Call
  | put (key value : ℤ)
  | get (key : ℤ)
  deriving DecidableEq

/-- How a worker has ended: by `return`, by `return` after it has printed a line, or by an
exception. -/
inductive Ending
  | returned
  | printed (line : String)
  | raised
  deriving DecidableEq

/-- Program points of a worker. -/
inductive Point
  | load (idx : ℤ)
  | loadPut (idx key value : ℤ)
  | request (requestCount : ℤ)
  | change (requestCount idx : ℤ)
  | draw (requestCount idx : ℤ)
  | put (requestCount key newval : ℤ)
  | get (requestCount key newval : ℤ)
  | shuffle
  | outer (optype : List String) (requestCount : ℤ)
  | inner (optype : List String) (requestCount idx : ℤ)
  | runPut (optype : List String) (requestCount idx key value : ℤ)
  | runGet (optype : List String) (requestCount idx key : ℤ)
  | ended (e : Ending)
  deriving DecidableEq

inductive Act
  | step
  | choose (x : ℤ)
  | order (optype : List String)
  | reply (text : String)
  | fails
  deriving DecidableEq

/-- The call that a worker is waiting for. -/
def Point.call : Point → Option Call
  | .loadPut _ k v | .put _ k v | .runPut _ _ _ k v => some (.put k v)
  | .get _ k _ | .runGet _ _ _ k => some (.get k)
  | _ => none

/-- How the worker has ended. -/
def Point.ending : Point → Option Ending
  | .ended e => some e
  | _ => none

/-- What follows a check. -/
def Check.point (next : Point) : Check → Point
  | .passes => next
  | .prints line => .ended (.printed line)
  | .raises => .ended .raised

namespace Worker

/-- The loop of `loadDataset` over the index range. -/
def loadStep (w : Worker) (idx : ℤ) : Point :=
  if idx < w.endIdx then
    match item w.data.keys idx, item w.data.loadVals idx with
    | some k, some v => .loadPut idx k v
    | _, _ => .ended .raised
  else .ended .returned

/-- One pass of the inner loop of `runWorkload` without the consistency test. -/
def innerStep (w : Worker) (optype : List String) (requestCount idx : ℤ) : Point :=
  if idx < w.endIdx then
    if requestCount = w.numRequests then .outer optype requestCount
    else
      match item optype (idx % 100) with
      | some "Put" =>
        match item w.data.keys idx, item w.data.runVals idx with
        | some k, some v => .runPut optype requestCount idx k v
        | _, _ => .ended .raised
      | some "Get" =>
        match item w.data.keys idx with
        | some k => .runGet optype requestCount idx k
        | none => .ended .raised
      | some _ => .ended (.printed "[Error] unknown operation type")
      | none => .ended .raised
  else .outer optype requestCount

/-- One step of a worker. -/
def step (w : Worker) : Point → Act → Option Point
  | .load idx, .step => some (w.loadStep idx)
  | .loadPut idx _ _, .reply _ => some (.load (idx + 1))
  | .request n, .step =>
    if n < w.numRequests then
      -- `random.randint` raises on an empty range.
      if w.startIdx ≤ w.endIdx - 1 then none else some (.ended .raised)
    else some (.ended .returned)
  | .request n, .choose idx =>
    if n < w.numRequests ∧ w.startIdx ≤ idx ∧ idx ≤ w.endIdx - 1 then
      if w.threadId = 0 ∧ n = int (w.numRequests / 2) ∧ w.changesMembership then
        some (.change n idx)
      else some (.draw n idx)
    else none
  | .change n idx, .reply _ => some (.draw n idx)
  | .change _ _, .fails => some (.ended .raised)
  | .draw n idx, .choose newval =>
    if 0 ≤ newval ∧ newval ≤ 1000000 then
      match item w.data.keys idx with
      | some k => some (.put n k newval)
      | none => some (.ended .raised)
    else none
  | .put n k v, .reply _ => some (.get n k v)
  | .get n k v, .reply text => some ((check k v text).point (.request (n + 1)))
  | .shuffle, .order optype =>
    if optype.Perm (optypes w.args.putRatio) then some (.outer optype 0) else none
  | .outer optype n, .step =>
    if n < w.numRequests then some (.inner optype n w.startIdx) else some (.ended .returned)
  | .inner optype n idx, .step => some (w.innerStep optype n idx)
  | .runPut optype n idx _ _, .reply _ => some (.inner optype (n + 1) (idx + 1))
  | .runGet optype n idx k, .reply text =>
    match item w.data.loadVals idx with
    | some v => some ((check k v text).point (.inner optype (n + 1) (idx + 1)))
    | none => some (.ended .raised)
  | p, .fails => if p.call.isSome then some (.ended .raised) else none
  | _, _ => none

/-- The first point of `loadDataset`. -/
def loadDataset (w : Worker) : Point := .load w.startIdx

/-- The first point of `runWorkload`. -/
def runWorkload (w : Worker) : Point :=
  if w.args.testConsistency = 1 then .request 0 else .shuffle

end Worker

/-! ## `testKVS` -/

inductive Main
  | listServer
  | addClients
  | shuffle
  | loading
  | running
  | ended (e : Ending)
  deriving DecidableEq

/-- The thread of `testKVS` and the workers it has submitted. -/
structure Driver where
  main : Main
  data : DataSet
  points : ℕ → Option Point

inductive Label
  | step
  | reply (text : String)
  | fails
  | shuffle (d : DataSet)
  | work (threadId : ℕ) (a : Act)

namespace Driver

def init : Driver where
  main := .listServer
  data := { keys := [], loadVals := [], runVals := [] }
  points _ := none

def worker (s : Driver) (args : Args) (t : ℕ) : Worker :=
  { threadId := t, data := s.data, args := args }

/-- All tasks that were submitted to the pool have ended. -/
def Idle (s : Driver) (args : Args) : Prop :=
  ∀ t ∈ List.range args.numThreads, ((s.points t).bind Point.ending).isSome

instance (s : Driver) (args : Args) : Decidable (s.Idle args) := by
  unfold Idle
  infer_instance

/-- Every thread of the pool is given a task. -/
def submit (s : Driver) (args : Args) (main : Main) (d : DataSet) (task : Worker → Point) :
    Driver where
  main := main
  data := d
  points t := if t < args.numThreads then some (task { s.worker args t with data := d }) else none

/-- One step of `testKVS` or of a worker. -/
def step (args : Args) (s : Driver) : Label → Option Driver
  | .reply text =>
    match s.main with
    | .listServer =>
      if (split text ',').length < 1 then
        some { s with main := .ended (.printed "[Error] Servers do not exist") }
      else some { s with main := .addClients }
    | .addClients => some { s with main := .shuffle }
    | _ => none
  | .fails =>
    match s.main with
    | .listServer | .addClients => some { s with main := .ended .raised }
    | _ => none
  | .shuffle d =>
    if s.main = .shuffle ∧ d.keys.Perm (range 0 args.numKeys) ∧
        d.loadVals.Perm (range 0 args.numKeys) ∧
        d.runVals.Perm (range args.numKeys (args.numKeys * 2)) then
      some (s.submit args .loading d Worker.loadDataset)
    else none
  | .step =>
    if s.Idle args then
      match s.main with
      | .loading => some (s.submit args .running s.data Worker.runWorkload)
      | .running => some { s with main := .ended .returned }
      | _ => none
    else none
  | .work t a =>
    (s.points t).bind fun p => ((s.worker args t).step p a).map fun p' =>
      { s with points := Function.update s.points t (some p') }

end Driver

end RunCluster
end ReplicatedStore
