/-
`testKVS` over the cluster.

The driver assumes a store that answers like a map, and the store is linearizable as long as
nothing fails.  Here the two are put together: the client of a worker hands its call to the
frontend, and what the frontend answers goes back to the worker.  In a run without failures
no worker prints an error, however the calls are interleaved and whatever happens to the
membership.  A get may come upon a server that leaves and be answered with an error word or
an exception; that ends the worker, but it prints no line.
-/
import ReplicatedStore.Answers
import ReplicatedStore.Linearization
import ReplicatedStore.Replies
import ReplicatedStore.Lib.Simulation

namespace ReplicatedStore

open Lib
open Lib.Linearizability (Linearization Responded Precedes)

/-! ## Clients -/

/-- XML-RPC carries an `int` between `MININT` and `MAXINT`; others raise in the client. -/
def Fits (x : ℤ) : Prop := -2 ^ 31 ≤ x ∧ x < 2 ^ 31

instance (x : ℤ) : Decidable (Fits x) := by
  unfold Fits
  infer_instance

/-- What the client of a worker asks of the frontend. -/
def RunCluster.Call.request : RunCluster.Call → Option StoreOp
  | .put k v => if Fits k ∧ Fits v then some (.put (Int32.ofInt k) (Int32.ofInt v)) else none
  | .get k => if Fits k then some (.get (Int32.ofInt k)) else none

/-- What a worker hears of the end of its call: a fault raises in the client. -/
def Outcome.heard : Outcome → RunCluster.Act
  | .returned y => .reply y.text
  | .threw _ => .fails

/-- A reply to a call of a client, or its failure. -/
def RunCluster.Driver.Hears (s : RunCluster.Driver) : RunCluster.Label → Prop
  | .work t (.reply _) | .work t .fails => s.call t ≠ none
  | _ => False

instance (s : RunCluster.Driver) : DecidablePred s.Hears := fun l =>
  match l with
  | .work _ (.reply _) | .work _ .fails => inferInstanceAs (Decidable (_ ≠ _))
  | .work _ .step | .work _ (.choose _) | .work _ (.order _) => isFalse id
  | .step | .reply _ | .fails | .shuffle _ => isFalse id

/-- The driver, the cluster, and the thread of the frontend that serves each worker. -/
structure Testbed where
  driver : RunCluster.Driver
  cluster : System
  thread : ℕ → Option CallId

namespace Testbed

/-- The driver before its first step, over this cluster. -/
def init (cluster : System) : Testbed :=
  { driver := .init, cluster := cluster, thread := fun _ => none }

/-- A step of the driver or of the cluster alone, a call that a client makes or cannot make,
and an answer. -/
inductive Label
  | driver (l : RunCluster.Label)
  | frontend (l : ReplicatedStore.Label)
  | issue (t : ℕ) (c : CallId)
  | refuse (t : ℕ)
  | answer (t : ℕ)

def step (args : RunCluster.Args) (s : Testbed) : Label → Option Testbed
  | .driver l =>
    if s.driver.Hears l then none
    else (s.driver.step args l).map fun d => { s with driver := d }
  | .frontend l => (System.step s.cluster l).map fun x => { s with cluster := x }
  | .issue t c =>
    if s.thread t = none then
      (s.driver.call t).bind fun call => call.request.bind fun o =>
        (System.step s.cluster (.run c (.call o.toOp))).map fun x =>
          { s with cluster := x, thread := Function.update s.thread t (some c) }
    else none
  | .refuse t =>
    if s.thread t = none then
      (s.driver.call t).bind fun call =>
        if call.request = none then
          (s.driver.step args (.work t .fails)).map fun d => { s with driver := d }
        else none
    else none
  | .answer t =>
    (s.thread t).bind fun c => (s.cluster.outcome c).bind fun o =>
      (s.driver.step args (.work t o.heard)).map fun d =>
        { s with driver := d, thread := Function.update s.thread t none }

/-- The step that the driver takes. -/
def driverLabel (s : Testbed) : Label → Option RunCluster.Label
  | .driver l => some l
  | .refuse t => some (.work t .fails)
  | .answer t => ((s.thread t).bind s.cluster.outcome).map fun o => .work t o.heard
  | _ => none

/-- The step that the cluster takes. -/
def clusterLabel (s : Testbed) : Label → Option ReplicatedStore.Label
  | .frontend l => some l
  | .issue t c =>
    ((s.driver.call t).bind RunCluster.Call.request).map fun o => .run c (.call o.toOp)
  | _ => none

def driverTrace : List (Testbed × Label) → List (RunCluster.Driver × RunCluster.Label) :=
  partOf driver driverLabel

def clusterTrace : List (Testbed × Label) → Trace := partOf cluster clusterLabel

/-- A put is called. -/
def CallsPut : ReplicatedStore.Label → Bool
  | .run _ (.call (.put _ _)) => true
  | _ => false

/-- A server is registered, nothing fails in the cluster, and nobody else puts. -/
def Undisturbed (s : Testbed) : Label → Prop
  | .frontend l => s.cluster.shared.servers.keys.Nonempty ∧ Faultless l ∧ CallsPut l = false
  | _ => s.cluster.shared.servers.keys.Nonempty

instance (s : Testbed) : DecidablePred s.Undisturbed := fun l => by
  cases l <;> unfold Undisturbed <;> infer_instance

/-! ## Steps -/

variable {args : RunCluster.Args} {s s' : Testbed} {l : Label}

/-- The steps of the driver over the cluster. -/
inductive Move (args : RunCluster.Args) (s : Testbed) : Label → Testbed → Prop
  | driver {l d} (hl : ¬ s.driver.Hears l) (hs : s.driver.step args l = some d) :
      Move args s (.driver l) { s with driver := d }
  | frontend {l x} (hs : System.step s.cluster l = some x) :
      Move args s (.frontend l) { s with cluster := x }
  | issue {t c call o x} (hfree : s.thread t = none) (hcall : s.driver.call t = some call)
      (ho : call.request = some o) (hs : System.step s.cluster (.run c (.call o.toOp)) = some x) :
      Move args s (.issue t c)
        { s with cluster := x, thread := Function.update s.thread t (some c) }
  | refuse {t call d} (hcall : s.driver.call t = some call) (ho : call.request = none)
      (hs : s.driver.step args (.work t .fails) = some d) :
      Move args s (.refuse t) { s with driver := d }
  | answer {t c o d} (hc : s.thread t = some c) (ho : s.cluster.outcome c = some o)
      (hs : s.driver.step args (.work t o.heard) = some d) :
      Move args s (.answer t)
        { s with driver := d, thread := Function.update s.thread t none }

theorem move_of_step (h : s.step args l = some s') : s.Move args l s' := by
  cases l with
  | driver l =>
    simp only [step] at h
    split at h
    · cases h
    · rename_i hl
      obtain ⟨d, hs, rfl⟩ := Option.map_eq_some_iff.mp h
      exact .driver hl hs
  | frontend l =>
    obtain ⟨x, hs, rfl⟩ := Option.map_eq_some_iff.mp h
    exact .frontend hs
  | issue t c =>
    simp only [step] at h
    split at h
    · rename_i hfree
      obtain ⟨call, hcall, h⟩ := Option.bind_eq_some_iff.mp h
      obtain ⟨o, ho, h⟩ := Option.bind_eq_some_iff.mp h
      obtain ⟨x, hs, rfl⟩ := Option.map_eq_some_iff.mp h
      exact .issue hfree hcall ho hs
    · cases h
  | refuse t =>
    simp only [step] at h
    split at h
    · obtain ⟨call, hcall, h⟩ := Option.bind_eq_some_iff.mp h
      split at h
      · rename_i ho
        obtain ⟨d, hs, rfl⟩ := Option.map_eq_some_iff.mp h
        exact .refuse hcall ho hs
      · cases h
    · cases h
  | answer t =>
    obtain ⟨c, hc, h⟩ := Option.bind_eq_some_iff.mp h
    obtain ⟨o, ho, h⟩ := Option.bind_eq_some_iff.mp h
    obtain ⟨d, hs, rfl⟩ := Option.map_eq_some_iff.mp h
    exact .answer hc ho hs

/-- A run is a run of the driver. -/
theorem driver_run {ok : Testbed → Label → Prop} {s₀ s : Testbed} {tr : List (Testbed × Label)}
    (h : Run (step args) ok s₀ tr s) :
    Run (RunCluster.Driver.step args) (fun _ _ => True) s₀.driver (driverTrace tr) s.driver := by
  refine h.part (fun s l s' b _ hstep hb => ⟨trivial, ?_⟩) fun s l s' _ hstep hb => ?_
  · cases move_of_step hstep with
    | driver _ hs =>
      obtain rfl := Option.some.inj hb
      exact hs
    | refuse _ _ hs =>
      obtain rfl := Option.some.inj hb
      exact hs
    | @answer t c o d hc ho hs =>
      obtain rfl : RunCluster.Label.work t o.heard = b := by simpa [driverLabel, hc, ho] using hb
      exact hs
    | frontend => cases hb
    | issue => cases hb
  · cases move_of_step hstep with
    | driver => cases hb
    | refuse => cases hb
    | answer hc ho => simp [driverLabel, hc, ho] at hb
    | frontend => rfl
    | issue => rfl

/-- And a run of the cluster. -/
theorem cluster_part {ok : Testbed → Label → Prop} {ok' : System → ReplicatedStore.Label → Prop}
    {s₀ s : Testbed} {tr : List (Testbed × Label)} (h : Run (step args) ok s₀ tr s)
    (hok : ∀ s l b, ok s l → s.clusterLabel l = some b → ok' s.cluster b) :
    SystemRun ok' s₀.cluster (clusterTrace tr) s.cluster := by
  refine h.part (fun s l s' b hl hstep hb => ⟨hok s l b hl hb, ?_⟩) fun s l s' _ hstep hb => ?_
  · cases move_of_step hstep with
    | driver => cases hb
    | refuse => cases hb
    | answer => cases hb
    | frontend hs =>
      obtain rfl := Option.some.inj hb
      exact hs
    | @issue t c call o x _ hcall ho hs =>
      obtain rfl : Monitor.Label.run c (.call o.toOp) = b := by
        simpa [clusterLabel, hcall, ho] using hb
      exact hs
  · cases move_of_step hstep with
    | driver => rfl
    | refuse => rfl
    | answer => rfl
    | frontend => cases hb
    | issue _ hcall ho => simp [clusterLabel, hcall, ho] at hb

/-- The step of the cluster that a client takes part in is a call. -/
theorem clusterLabel_issue {t : ℕ} {c : CallId} {b : ReplicatedStore.Label}
    (h : s.clusterLabel (.issue t c) = some b) : ∃ o : StoreOp, b = .run c (.call o.toOp) := by
  obtain ⟨o, -, rfl⟩ := Option.map_eq_some_iff.mp h
  exact ⟨o, rfl⟩

/-- Without failures. -/
theorem cluster_run {s₀ s : Testbed} {tr : List (Testbed × Label)}
    (h : Run (step args) Undisturbed s₀ tr s) :
    SystemRun (fun s l => Faultless l ∧ s.shared.servers.keys.Nonempty) s₀.cluster
      (clusterTrace tr) s.cluster := by
  refine cluster_part h fun s l b hok hb => ?_
  cases l with
  | frontend l =>
    obtain rfl := Option.some.inj hb
    exact ⟨hok.2.1, hok.1⟩
  | issue t c =>
    obtain ⟨o, rfl⟩ := clusterLabel_issue hb
    exact ⟨rfl, hok⟩
  | _ => cases hb

end Testbed

/-! ## Puts without failures -/

/-- The call is about to end, or has ended, by an exception. -/
def Threw : Monitor.Local Outside Inside → Prop
  | .inn (.leave (.finish (.threw _))) | .out (.finished (.threw _)) => True
  | _ => False

theorem Inside.step_not_threw {c : CallId} {k : Key} {x : Val} {cl cl' : Cluster} {i : Inside}
    {a : Act} {r : Inside ⊕ Outside} (h : i.step c cl a = some (cl', r)) (ha : a.faulty = false)
    (hop : i.Belongs (.put k x)) (hi : ¬ Threw (.inn i)) :
    (∀ i', r = .inl i' → ¬ Threw (.inn i')) ∧ ∀ w, r = .inr w → ¬ Threw (.out w) := by
  have hflow : ∀ {m : Method} {sw : Bool} {l : Loop} {f : Flow} {v v' : View} {at_ : Loop → Inside}
      {after : Inside}, Loop.Move m sw c v l a v' f → (∀ l, ¬ Threw (.inn (at_ l))) →
        ¬ Threw (.inn after) → ¬ Threw (.inn (f.point at_ after)) := by
    intro m sw l f v v' at_ after hl hat hafter
    cases f with
    | again l' => exact hat l'
    | done => exact hafter
    | raised =>
      rw [hl.not_raised] at ha
      cases ha
  have hleft : ∀ {j : Inside}, ¬ Threw (.inn j) →
      (∀ i', (.inl j : Inside ⊕ Outside) = .inl i' → ¬ Threw (.inn i')) ∧
        ∀ w, (.inl j : Inside ⊕ Outside) = .inr w → ¬ Threw (.out w) := by
    intro j hj
    refine ⟨fun i' e => ?_, fun w e => by cases e⟩
    obtain rfl := Sum.inl.inj e
    exact hj
  have hm := Inside.Move.of_step h
  generalize cl.view = v at hm
  generalize cl'.view = v' at hm
  cases hm with
  | @lock w _ _ _ _ hl => exact hleft (hflow hl (fun _ => id) (by cases w <;> exact id))
  | write hl => exact hleft (hflow hl (fun _ => id) id)
  | @unlock w _ _ _ _ hl => exact hleft (hflow hl (fun _ => id) (by cases w <;> exact id))
  | @leave e =>
    refine ⟨fun i' hi' => (by cases hi'), fun w hw => ?_⟩
    obtain rfl := Sum.inr.inj hw
    cases e with
    | finish o => cases o <;> first | exact id | exact hi
    | resume next => exact id
  | _ => cases hop

/-- Without failures a put does not throw. -/
theorem put_returns {s₀ s : System} {tr : Trace} {c : CallId} {k : Key} {x : Val}
    (h₀ : s₀.locals c = .out .idle) (h : SystemRun (fun _ l => Faultless l) s₀ tr s)
    (hput : Started c (.put k x) tr) : ¬ Threw (s.locals c) := by
  have hrun : Runs c tr (s.locals c) ∧ (Started c (.put k x) tr → ¬ Threw (s.locals c)) := by
    refine h.invariant (I := fun tr s => Runs c tr (s.locals c) ∧
      (Started c (.put k x) tr → ¬ Threw (s.locals c))) ⟨.inl ⟨h₀, ?_⟩, ?_⟩ ?_
    · rintro op ⟨e, he, -⟩
      cases he
    · rintro ⟨e, he, -⟩
      cases he
    · rintro tr s l s' _ hf hs ⟨hr, ih⟩
      have hstep := Monitor.Step.of_step frontend hs
      refine ⟨hr.step hstep, fun hst => ?_⟩
      have hat : (Op.put k x).At (s.locals c) ∧ ¬ Threw (s.locals c) ∨
          l = .run c (.call (.put k x)) := by
        refine (started_snoc.mp hst).imp_left fun hst => ⟨?_, ih hst⟩
        rcases hr with ⟨-, hno⟩ | ⟨op, hop, hat⟩
        · exact absurd hst (hno _)
        · exact (hop _).mp hst ▸ hat
      rcases hat with ⟨hat, hthrew⟩ | rfl
      · cases hl : s.locals c with
        | out w =>
          rw [hl] at hat hthrew
          rcases hstep.of_out hl with ⟨-, h'⟩ | ⟨a, w', -, ho, -⟩ | ⟨i, -, he, -, -, h'⟩
          · rw [h']
            exact hthrew
          · have ho : Outside.step c s.shared w a = some (s'.shared, w') := ho
            cases w with
            | synchronized b => exact absurd rfl (Outside.not_synchronized ho b)
            | finished o => cases ho
            | remote q id r =>
              cases q with
              | get k' => cases hat.1
              | printKVPairs => cases hat.1
            | idle => exact hat.elim
            | _ => cases hat
          · rw [h']
            obtain ⟨b, rfl, rfl⟩ := Outside.entry_eq_some he
            cases b <;> exact id
        | inn i =>
          rw [hl] at hat hthrew
          rcases hstep.of_inn hl with ⟨-, h'⟩ | ⟨a, i', rfl, hi, h'⟩ | ⟨a, w, rfl, hi, h'⟩
          · rw [h']
            exact hthrew
          · rw [h']
            exact (Inside.step_not_threw hi hf hat hthrew).1 i' rfl
          · rw [h']
            exact (Inside.step_not_threw hi hf hat hthrew).2 w rfl
      · rw [(call_start hstep).2.2]
        exact id
  exact hrun.2 hput

/-! ## Requests -/

theorem RunCluster.Call.request_put {call : RunCluster.Call} {k : Key} {x : Val}
    (h : call.request = some (.put k x)) : call = .put k.toInt x.toInt := by
  cases call with
  | put k' v' =>
    simp only [request] at h
    split at h
    · rename_i hfits
      obtain ⟨⟨hk, hk'⟩, hv, hv'⟩ := hfits
      obtain ⟨rfl, rfl⟩ := StoreOp.put.inj (Option.some.inj h)
      rw [Int32.toInt_ofInt_of_le hk hk', Int32.toInt_ofInt_of_le hv hv']
    · cases h
  | get k' =>
    simp only [request] at h
    split at h <;> cases h

theorem RunCluster.Call.request_get {call : RunCluster.Call} {k : Key}
    (h : call.request = some (.get k)) : call = .get k.toInt := by
  cases call with
  | put k' v' =>
    simp only [request] at h
    split at h <;> cases h
  | get k' =>
    simp only [request] at h
    split at h
    · rename_i hfits
      obtain rfl := StoreOp.get.inj (Option.some.inj h)
      rw [Int32.toInt_ofInt_of_le hfits.1 hfits.2]
    · cases h

theorem StoreOp.toOp_injective : Function.Injective StoreOp.toOp := by
  intro o o' h
  cases o <;> cases o' <;> cases h <;> rfl

/-- The calls in the history have been made. -/
theorem started_of_inv {tr : Trace} {c : CallId} {o : StoreOp}
    (h : .inv c o ∈ history tr) : Started c o.toOp tr := by
  obtain ⟨⟨s, l⟩, he, hev⟩ := List.mem_filterMap.mp h
  refine ⟨_, he, ?_⟩
  unfold System.event at hev
  split at hev
  · rename_i hl
    obtain ⟨rfl, rfl⟩ := Linearizability.Event.inv.inj (Option.some.inj hev)
    exact hl
  · rename_i hl
    obtain ⟨rfl, rfl⟩ := Linearizability.Event.inv.inj (Option.some.inj hev)
    exact hl
  · split at hev
    · split at hev <;> cases hev
    · cases hev
  · cases hev

/-- A thread makes one call. -/
theorem inv_unique {ok : System → ReplicatedStore.Label → Prop} {s₀ s : System} {tr : Trace}
    {c : CallId} {o o' : StoreOp} (h₀ : s₀.locals c = .out .idle) (h : SystemRun ok s₀ tr s)
    (ho : .inv c o ∈ history tr) (ho' : .inv c o' ∈ history tr) : o = o' := by
  rcases Runs.of_run h₀ h with ⟨-, hno⟩ | ⟨op, hop, -⟩
  · exact absurd (started_of_inv ho) (hno _)
  · refine StoreOp.toOp_injective ?_
    exact ((hop _).mp (started_of_inv ho)).trans ((hop _).mp (started_of_inv ho')).symm

/-! ## Calls of the driver -/

namespace RunCluster

theorem mem_range {start stop x : ℤ} (h : x ∈ range start stop) : start ≤ x ∧ x < stop := by
  obtain ⟨i, hi, rfl⟩ := List.mem_map.mp h
  have hlt := List.mem_range.mp hi
  omega

/-- The value of a put of the consistency test is in the range of `random.randint`. -/
def Point.Drawn : Point → Prop
  | .put _ _ v => 0 ≤ v ∧ v ≤ 1000000
  | _ => True

theorem Check.point_drawn {next : Point} (c : Check) (h : next.Drawn) : (c.point next).Drawn := by
  cases c <;> first | exact h | exact trivial

theorem Worker.step_drawn {w : Worker} {p p' : Point} {a : Act} (h : w.step p a = some p') :
    p'.Drawn := by
  have hm := move_of_step h
  cases hm with
  | pick _ _ _ hp => rcases hp with rfl | rfl <;> exact trivial
  | checkGet hp =>
    subst hp
    exact Check.point_drawn _ trivial
  | checkRunGet _ hp =>
    subst hp
    exact Check.point_drawn _ trivial
  | issuePut =>
    simp only [step] at h
    split at h
    · rename_i hv
      exact hv
    · cases h
  | _ => exact trivial

/-- A worker that waits for an answer takes no other step. -/
theorem Worker.step_waiting {w : Worker} {p p' : Point} {a : Act} {c : Call}
    (h : w.step p a = some p') (hc : p.call = some c) : a = .fails ∨ ∃ r, a = .reply r := by
  cases a with
  | fails => exact .inl rfl
  | reply r => exact .inr ⟨r, rfl⟩
  | _ => cases p <;> first | (cases h; done) | cases hc

/-- With an error word, or a failure, a get ends the worker by an exception. -/
theorem Worker.step_error {w : Worker} {p p' : Point} {a : Act} {k : ℤ}
    (h : w.step p a = some p') (hc : p.call = some (.get k))
    (ha : a = .fails ∨ ∃ r, a = .reply r ∧ ErrorWord r) : p' = .ended .raised := by
  rcases ha with rfl | ⟨r, rfl, hr⟩
  · cases p with
    | get n k' v => exact (Option.some.inj h).symm
    | runGet ops n idx k' => exact (Option.some.inj h).symm
    | _ => cases hc
  · cases p with
    | get n k' v =>
      simp only [step, hr.check] at h
      exact (Option.some.inj h).symm
    | runGet ops n idx k' =>
      simp only [step] at h
      split at h
      · simp only [hr.check] at h
        exact (Option.some.inj h).symm
      · exact (Option.some.inj h).symm
    | _ => cases hc

namespace Driver

variable {args : Args} {d d' : Driver} {l : Label}

theorem drawn_step (h : ∀ t p, d.points t = some p → p.Drawn) (hstep : d.step args l = some d') :
    ∀ t p, d'.points t = some p → p.Drawn := by
  intro u q hq
  cases move_of_step hstep with
  | prepare => exact h u q hq
  | load hm hd =>
    obtain ⟨-, rfl⟩ := submit_points hq
    exact trivial
  | run hm hi =>
    obtain ⟨-, rfl⟩ := submit_points hq
    unfold Worker.runWorkload
    split <;> exact trivial
  | finish => exact h u q hq
  | work hp hs =>
    rcases points_work hq with ⟨rfl, rfl⟩ | ⟨-, hq⟩
    · exact Worker.step_drawn hs
    · exact h u q hq

/-- Every call fits into a request if twice the number of keys does. -/
theorem Sound.request (h : d.Sound args) (hdrawn : ∀ t p, d.points t = some p → p.Drawn)
    (hargs : args.numKeys * 2 ≤ 2 ^ 31) {t : ℕ} {call : Call} (hc : d.call t = some call) :
    call.request ≠ none := by
  obtain ⟨p, hp, hcall⟩ := Option.bind_eq_some_iff.mp hc
  have hd := h.shuffled (h.started t p hp)
  have hkey : ∀ {idx k}, (d.worker args t).Owns idx → item d.data.keys idx = some k →
      0 ≤ k ∧ k < args.numKeys := fun ho hk =>
    mem_range (hd.keys.mem_iff.mp (item_mem ho.nonneg hk))
  have hsound := h.worker t p hp
  have hput : ∀ {k v : ℤ}, 0 ≤ k ∧ k < args.numKeys → 0 ≤ v → v < 2 ^ 31 →
      (Call.put k v).request ≠ none := by
    intro k v hk hv hv'
    have hfits : Fits k ∧ Fits v := ⟨⟨by omega, by omega⟩, by omega, by omega⟩
    simp [Call.request, hfits]
  have hget : ∀ {k : ℤ}, 0 ≤ k ∧ k < args.numKeys → (Call.get k).request ≠ none := by
    intro k hk
    have hfits : Fits k := ⟨by omega, by omega⟩
    simp [Call.request, hfits]
  cases p with
  | loadPut idx k v =>
    obtain rfl := Option.some.inj hcall
    obtain ⟨ho, hk, hv⟩ := hsound
    obtain ⟨hv, hv'⟩ := mem_range (hd.loadVals.mem_iff.mp (item_mem ho.nonneg hv))
    exact hput (hkey ho hk) hv (by omega)
  | put n k v =>
    obtain rfl := Option.some.inj hcall
    obtain ⟨idx, ho, hk⟩ := hsound
    obtain ⟨hv, hv'⟩ : 0 ≤ v ∧ v ≤ 1000000 := hdrawn t _ hp
    exact hput (hkey ho hk) hv (by omega)
  | runPut ops n idx k v =>
    obtain rfl := Option.some.inj hcall
    obtain ⟨-, ho, -, hk, hv⟩ := hsound
    obtain ⟨hv, hv'⟩ := mem_range (hd.runVals.mem_iff.mp (item_mem ho.nonneg hv))
    have hkey := hkey ho hk
    exact hput hkey (by omega) (by omega)
  | get n k v =>
    obtain rfl := Option.some.inj hcall
    obtain ⟨idx, ho, hk⟩ := hsound
    exact hget (hkey ho hk)
  | runGet ops n idx k =>
    obtain rfl := Option.some.inj hcall
    obtain ⟨-, ho, -, hk⟩ := hsound
    exact hget (hkey ho hk)
  | _ => cases hcall

/-- A worker waits for its answer, whatever else the driver does. -/
theorem call_stays (h : d.Sound args) (hstep : d.step args l = some d') (hl : ¬ d.Hears l)
    {t : ℕ} {call : Call} (hc : d.call t = some call) : d'.call t = some call := by
  obtain ⟨p, hp, hcall⟩ := Option.bind_eq_some_iff.mp hc
  cases move_of_step hstep with
  | prepare => exact hc
  | load hm hd => rcases h.started t p hp with h | h | h <;> cases hm.symm.trans h
  | run hm hi =>
    obtain ⟨e, he⟩ := hi.ended (h.lt_numThreads t p hp)
    obtain rfl := Option.some.inj (hp.symm.trans he)
    cases hcall
  | finish => exact hc
  | @work u a q q' hq hs =>
    by_cases hut : t = u
    · subst hut
      obtain rfl := Option.some.inj (hp.symm.trans hq)
      have hne : d.call t ≠ none := by simp [hc]
      rcases Worker.step_waiting hs hcall with rfl | ⟨r, rfl⟩
      · exact absurd hne hl
      · exact absurd hne hl
    · exact (congrArg (Option.bind · Point.call) (Function.update_of_ne hut ..)).trans hc

theorem call_of_other {t u : ℕ} {a : Act} (hstep : d.step args (.work t a) = some d')
    (hu : u ≠ t) : d'.call u = d.call u := by
  cases move_of_step hstep with
  | prepare hl => exact absurd rfl (hl t a)
  | work hp hs => exact congrArg (Option.bind · Point.call) (Function.update_of_ne hu ..)

/-- A step at which no worker hears an answer completes no put. -/
theorem completes_of_not_hears (hl : ¬ d.Hears l) : completes (d, l) = none := by
  cases l with
  | work t a =>
    cases a with
    | reply r =>
      have hnone : d.call t = none := not_not.mp hl
      cases hp : d.points t with
      | none => simp [completes, hp]
      | some p =>
        rw [completes_of_work hp]
        have hcall : p.call = none := by simpa [call, hp] using hnone
        simp [Point.completes, hcall]
    | _ =>
      cases hp : d.points t with
      | none => simp [completes, hp]
      | some p => simp [completes, hp, Point.completes]
  | _ => rfl

theorem succeeds_of_not_hears (hl : ¬ d.Hears l) : d.Succeeds l := by
  cases l with
  | work t a =>
    cases a with
    | fails => exact not_not.mp hl
    | _ => exact trivial
  | _ => exact trivial

end Driver

end RunCluster

/-! ## What a worker reads -/

open RunCluster (Driver pairText)

/-- The history `h` of the store serves the driver: the calls under way are in it, a put of a
key precedes every later call of a worker for the key, and the last put that a worker has
seen completed is the last of its key. -/
structure Serving (h : StoreHistory) (L : ℤ → Option ℤ) (d : Driver) (th : ℕ → Option CallId) :
    Prop where
  called : ∀ t c, th t = some c → ∃ call o, d.call t = some call ∧ call.request = some o ∧
    .inv c o ∈ h
  puts : ∀ c k x, .inv c (.put k x) ∈ h → Responded h c ∨ ∃ t, th t = some c
  order : ∀ t c call c' k x, th t = some c → d.call t = some call → .inv c' (.put k x) ∈ h →
    k.toInt = call.key → c' ≠ c → Precedes h c' c
  last : ∀ k v, L k.toInt = some v → ∃ c x, x.toInt = v ∧ .inv c (.put k x) ∈ h ∧
    Responded h c ∧ ∀ c' y, .inv c' (.put k y) ∈ h → c' ≠ c →
      Precedes h c' c ∨ ∃ t, th t = some c'

namespace Serving

variable {h : StoreHistory} {L : ℤ → Option ℤ} {d d' : Driver} {th : ℕ → Option CallId}
  {t : ℕ} {c : CallId} {o : StoreOp} {call : RunCluster.Call}

theorem init : Serving [] (fun _ => none) .init fun _ => none where
  called _ _ h := by cases h
  puts _ _ _ h := by cases h
  order _ _ _ _ _ _ h := by cases h
  last _ _ h := by cases h

/-- Steps of the workers that wait for no answer. -/
theorem driver (hs : Serving h L d th) (hcall : ∀ t c, th t = some c → d'.call t = d.call t) :
    Serving h L d' th where
  called t c ht := by
    rw [hcall t c ht]
    exact hs.called t c ht
  puts := hs.puts
  order t c call c' k x ht hc := by
    rw [hcall t c ht] at hc
    exact hs.order t c call c' k x ht hc
  last := hs.last

/-- Other calls, and answers that have not been heard. -/
theorem append {h' : StoreHistory} (hs : Serving h L d th)
    (hnew : ∀ c k x, .inv c (.put k x) ∉ h') : Serving (h ++ h') L d th := by
  have hold : ∀ {c k x}, .inv c (.put k x) ∈ h ++ h' → .inv c (.put k x) ∈ h := fun hm =>
    (List.mem_append.mp hm).resolve_right (hnew _ _ _)
  have hresp : ∀ {c}, Responded h c → Responded (h ++ h') c := fun ⟨r, hr⟩ =>
    ⟨r, List.mem_append_left _ hr⟩
  refine ⟨fun t c ht => ?_, fun c k x hm => ?_, fun t c call c' k x ht hc hm hk hne => ?_,
    fun k v hv => ?_⟩
  · obtain ⟨call, o, hc, ho, hm⟩ := hs.called t c ht
    exact ⟨call, o, hc, ho, List.mem_append_left _ hm⟩
  · exact (hs.puts c k x (hold hm)).imp_left hresp
  · exact (hs.order t c call c' k x ht hc (hold hm) hk hne).mono
  · obtain ⟨c, x, hx, hm, hr, hall⟩ := hs.last k v hv
    refine ⟨c, x, hx, List.mem_append_left _ hm, hresp hr, fun c' y hm' hne => ?_⟩
    exact (hall c' y (hold hm') hne).imp_left Precedes.mono

/-- A client makes the call of its worker.  No other call for the key is under way. -/
theorem issue (hs : Serving h L d th)
    (hone : ∀ {t u call call'}, d.call t = some call → d.call u = some call' →
      call.key = call'.key → t = u)
    (huniq : ∀ {c o o'}, .inv c o ∈ h → .inv c o' ∈ h → o = o') (hfree : th t = none)
    (hcall : d.call t = some call) (ho : call.request = some o) :
    Serving (h ++ [.inv c o]) L d (Function.update th t (some c)) := by
  have hother : ∀ {u c'}, th u = some c' → Function.update th t (some c) u = some c' := by
    intro u c' hu
    rw [Function.update_of_ne, hu]
    rintro rfl
    cases hfree.symm.trans hu
  have hmine : Function.update th t (some c) t = some c := Function.update_self ..
  have hresp : ∀ {c'}, Responded h c' → Responded (h ++ [.inv c o]) c' := fun ⟨r, hr⟩ =>
    ⟨r, List.mem_append_left _ hr⟩
  have hnew : ∀ {c' k x}, .inv c' (.put k x) ∈ h ++ [.inv c o] →
      .inv c' (.put k x) ∈ h ∨ c' = c ∧ o = .put k x := by
    intro c' k x hm
    refine (List.mem_append.mp hm).imp_right fun hm => ?_
    obtain ⟨rfl, rfl⟩ := Linearizability.Event.inv.inj (List.mem_singleton.mp hm)
    exact ⟨rfl, rfl⟩
  -- the put of a key that a worker waits for is its own
  have hkey : ∀ {u c' k x}, th u = some c' → .inv c' (.put k x) ∈ h → k.toInt = call.key →
      False := by
    intro u c' k x hu hm hk
    obtain ⟨call', o', hc', ho', hm'⟩ := hs.called u c' hu
    obtain rfl := huniq hm hm'
    obtain rfl := RunCluster.Call.request_put ho'
    obtain rfl := hone hcall hc' hk.symm
    cases hfree.symm.trans hu
  refine ⟨fun u c' hu => ?_, fun c' k x hm => ?_, fun u c' call' c'' k x hu hc' hm hk hne => ?_,
    fun k v hv => ?_⟩
  · by_cases hut : u = t
    · subst hut
      obtain rfl := Option.some.inj (hmine.symm.trans hu)
      exact ⟨call, o, hcall, ho, List.mem_append_right _ (List.mem_singleton_self _)⟩
    · rw [Function.update_of_ne hut] at hu
      obtain ⟨call', o', hc', ho', hm'⟩ := hs.called u c' hu
      exact ⟨call', o', hc', ho', List.mem_append_left _ hm'⟩
  · rcases hnew hm with hm | ⟨rfl, -⟩
    · exact (hs.puts c' k x hm).imp hresp fun ⟨u, hu⟩ => ⟨u, hother hu⟩
    · exact .inr ⟨t, hmine⟩
  · by_cases hut : u = t
    · subst hut
      obtain rfl := Option.some.inj (hmine.symm.trans hu)
      obtain rfl := Option.some.inj (hcall.symm.trans hc')
      rcases hnew hm with hm | ⟨rfl, -⟩
      · rcases hs.puts c'' k x hm with hr | ⟨v, hv⟩
        · exact hr.precedes
        · exact (hkey hv hm hk).elim
      · exact absurd rfl hne
    · rw [Function.update_of_ne hut] at hu
      rcases hnew hm with hm | ⟨rfl, rfl⟩
      · exact (hs.order u c' call' c'' k x hu hc' hm hk hne).mono
      · obtain rfl := RunCluster.Call.request_put ho
        exact absurd (hone hc' hcall hk.symm) hut
  · obtain ⟨c', x, hx, hm, hr, hall⟩ := hs.last k v hv
    refine ⟨c', x, hx, List.mem_append_left _ hm, hresp hr, fun c'' y hm' hne => ?_⟩
    rcases hnew hm' with hm' | ⟨rfl, -⟩
    · exact (hall c'' y hm' hne).imp Precedes.mono fun ⟨u, hu⟩ => ⟨u, hother hu⟩
    · exact .inr ⟨t, hmine⟩

/-- A worker hears the answer to its call. -/
theorem hear {L' : ℤ → Option ℤ} (hs : Serving h L d th)
    (huniq : ∀ {c o o'}, .inv c o ∈ h → .inv c o' ∈ h → o = o') (ht : th t = some c)
    (hcalls : ∀ u, u ≠ t → d'.call u = d.call u)
    (hL : (L' = L ∧ ∀ k x, .inv c (.put k x) ∉ h) ∨ ∃ k x, .inv c (.put k x) ∈ h ∧
      Responded h c ∧ L' = RunCluster.store L (some (k.toInt, x.toInt))) :
    Serving h L' d' (Function.update th t none) := by
  have hne : ∀ {u c'}, Function.update th t none u = some c' → u ≠ t ∧ th u = some c' := by
    intro u c' hu
    by_cases hut : u = t
    · subst hut
      cases (Function.update_self ..).symm.trans hu
    · exact ⟨hut, by rwa [Function.update_of_ne hut] at hu⟩
  have hkeep : ∀ {u c'}, th u = some c' → c' ≠ c → ∃ u, Function.update th t none u = some c' := by
    intro u c' hu hc'
    refine ⟨u, ?_⟩
    rw [Function.update_of_ne, hu]
    rintro rfl
    exact hc' (Option.some.inj (hu.symm.trans ht))
  refine ⟨fun u c' hu => ?_, fun c' k x hm => ?_, fun u c' call c'' k x hu hc' hm hk hd => ?_,
    fun k v hv => ?_⟩
  · rw [hcalls u (hne hu).1]
    exact hs.called u c' (hne hu).2
  · by_cases hc' : c' = c
    · subst hc'
      rcases hL with ⟨-, hno⟩ | ⟨-, -, -, hr, -⟩
      · exact absurd hm (hno k x)
      · exact .inl hr
    · exact (hs.puts c' k x hm).imp_right fun ⟨u, hu⟩ => hkeep hu hc'
  · rw [hcalls u (hne hu).1] at hc'
    exact hs.order u c' call c'' k x (hne hu).2 hc' hm hk hd
  · have hold : L k.toInt = some v → (∀ y, .inv c (.put k y) ∉ h) → ∃ c x, x.toInt = v ∧
        .inv c (.put k x) ∈ h ∧ Responded h c ∧ ∀ c' y, .inv c' (.put k y) ∈ h → c' ≠ c →
          Precedes h c' c ∨ ∃ u, Function.update th t none u = some c' := by
      intro hv hno
      obtain ⟨c', x, hx, hm, hr, hall⟩ := hs.last k v hv
      refine ⟨c', x, hx, hm, hr, fun c'' y hm' hd => ?_⟩
      refine (hall c'' y hm' hd).imp_right fun ⟨u, hu⟩ => hkeep hu ?_
      rintro rfl
      exact hno y hm'
    rcases hL with ⟨rfl, hno⟩ | ⟨k', x, hm, hr, rfl⟩
    · exact hold hv (hno k)
    · by_cases hk : k = k'
      · subst hk
        obtain ⟨call, o, hcall, ho, hm'⟩ := hs.called t c ht
        obtain rfl := huniq hm hm'
        obtain rfl := RunCluster.Call.request_put ho
        refine ⟨c, x, ?_, hm, hr, fun c' y hm' hd => .inl ?_⟩
        · have hx : RunCluster.store L (some (k.toInt, x.toInt)) k.toInt = some x.toInt :=
            Function.update_self ..
          exact Option.some.inj (hx.symm.trans hv)
        · exact hs.order t c _ c' k y ht hcall hm' rfl hd
      · refine hold ?_ fun y hm' => hk (StoreOp.put.inj (huniq hm' hm)).1
        exact (Function.update_of_ne (fun e => hk (Int32.toInt.inj e)) _ _).symm.trans hv

/-- The store answers the get of a worker with what the worker has put last. -/
theorem reads {m : Data} {l : List StoreEntry} {z v : ℤ} {y : Reply} (hs : Serving h L d th)
    (hone : ∀ {t u call call'}, d.call t = some call → d.call u = some call' →
      call.key = call'.key → t = u)
    (huniq : ∀ {c o o'}, .inv c o ∈ h → .inv c o' ∈ h → o = o')
    (hl : Linearization StoreOp.apply m h l) (ht : th t = some c)
    (hcall : d.call t = some (.get z)) (hres : .res c y ∈ h) (hL : L z = some v) :
    y.text = pairText z v := by
  obtain ⟨call, o, hcall', ho, hm⟩ := hs.called t c ht
  obtain rfl := Option.some.inj (hcall.symm.trans hcall')
  cases o with
  | put k x => cases RunCluster.Call.request_put ho
  | get k =>
    obtain rfl := RunCluster.Call.get.inj (RunCluster.Call.request_get ho)
    obtain ⟨c₀, x, rfl, hm₀, ⟨r₀, hr₀⟩, hall⟩ := hs.last k v hL
    have hne : c₀ ≠ c := by
      rintro rfl
      cases huniq hm hm₀
    obtain ⟨o, hg⟩ := hl.completed c y hres
    obtain rfl := huniq hm (hl.invoked _ hg)
    obtain ⟨o, hp⟩ := hl.completed c₀ r₀ hr₀
    obtain rfl := huniq hm₀ (hl.invoked _ hp)
    have hkeep : ∀ e ∈ l, e.caller ≠ c₀ → (∀ m : Data, m.lookup k = some x →
        (StoreOp.apply m e.op).1.lookup k = some x) ∨ Precedes h e.caller c₀ := by
      rintro ⟨c', o, r⟩ he hc'
      cases o with
      | get k' => exact .inl fun _ hQ => hQ
      | put k' y =>
        by_cases hk : k = k'
        · subst hk
          rcases hall c' y (hl.invoked _ he) hc' with hprec | ⟨u, hu⟩
          · exact .inr hprec
          · obtain ⟨call, o, hcu, hou, hmu⟩ := hs.called u c' hu
            obtain rfl := huniq (hl.invoked _ he) hmu
            obtain rfl := RunCluster.Call.request_put hou
            obtain rfl := hone hcall hcu rfl
            cases hcall.symm.trans hcu
        · exact .inl fun m hQ => (Finmap.lookup_insert_of_ne m hk).trans hQ
    obtain ⟨m', hread, hans⟩ := hl.sees (Q := fun m => m.lookup k = some x) hp hg hne.symm
      (hs.order t c _ c₀ k x ht hcall hm₀ rfl hne) (fun m => Finmap.lookup_insert m) hkeep
    have hy : y = readKey k (m'.lookup k) := hans.symm
    rw [hy, hread]
    exact RunCluster.text_pair k x

end Serving

/-! ## Runs -/

/-- At the start the empty list linearizes the empty history. -/
theorem Ready.linearized {m : Data} {s : System} (h : Ready m s) : Linearized m [] [] s := by
  refine ⟨Linearizability.linearization_nil, fun _ => ⟨h.store, fun id k hk => ?_⟩,
    fun c i hi => absurd hi h.quiet.not_inn, fun c => ?_⟩
  · by_cases hid : id ∈ s.shared.servers
    · rw [Cluster.view_data, h.store id hid]
      exact hk
    · rw [Cluster.view_data, h.empty id hid]
      exact Finmap.lookup_empty k
  · rcases h.quiet.2 c with hc | ⟨o, hc⟩ <;> rw [hc]
    · exact ⟨by simp [history], fun ⟨r, hr⟩ => by cases hr⟩
    · exact trivial

/-- The map after the last put that the driver has seen completed. -/
def Testbed.seen (tr : List (Testbed × Testbed.Label)) : ℤ → Option ℤ :=
  Driver.lastPut (Testbed.driverTrace tr)

def Testbed.storeHistory (tr : List (Testbed × Testbed.Label)) : StoreHistory :=
  history (Testbed.clusterTrace tr)

/-- What holds of the driver over the cluster. -/
structure Testbed.Served (args : RunCluster.Args) (tr : List (Testbed × Testbed.Label))
    (s : Testbed) : Prop where
  drawn : ∀ t p, s.driver.points t = some p → p.Drawn
  load : s.driver.LoadInv args (Testbed.driverTrace tr)
  map : s.driver.MapInv args (Testbed.driverTrace tr)
  serving : Serving (Testbed.storeHistory tr) (Testbed.seen tr) s.driver s.thread

namespace Testbed

variable {args : RunCluster.Args} {x₀ : System} {s s' : Testbed} {l : Label}
  {tr : List (Testbed × Label)}

/-- What a step of the driver does to the map that it has seen. -/
theorem seen_snoc {dl : RunCluster.Label} (h : s.driverLabel l = some dl) :
    seen (tr ++ [(s, l)]) = RunCluster.store (seen tr) (Driver.completes (s.driver, dl)) := by
  rw [seen, driverTrace, partOf_snoc, h]
  exact Driver.lastPut_snoc _

theorem driverTrace_snoc {dl : RunCluster.Label} (h : s.driverLabel l = some dl) :
    driverTrace (tr ++ [(s, l)]) = driverTrace tr ++ [(s.driver, dl)] := by
  rw [driverTrace, partOf_snoc, h]
  rfl

theorem driverTrace_of_none (h : s.driverLabel l = none) :
    driverTrace (tr ++ [(s, l)]) = driverTrace tr := by
  rw [driverTrace, partOf_snoc, h]
  exact List.append_nil _

theorem storeHistory_snoc {cl : ReplicatedStore.Label} (h : s.clusterLabel l = some cl) :
    storeHistory (tr ++ [(s, l)]) = storeHistory tr ++ (s.cluster.event cl).toList := by
  rw [storeHistory, clusterTrace, partOf_snoc, h]
  exact history_snoc ..

theorem storeHistory_of_none (h : s.clusterLabel l = none) :
    storeHistory (tr ++ [(s, l)]) = storeHistory tr := by
  rw [storeHistory, clusterTrace, partOf_snoc, h]
  exact congrArg history (List.append_nil _)

/-- A step of the frontend that is no call of a put invokes none. -/
theorem event_not_put {x : System} {l : ReplicatedStore.Label}
    (hl : CallsPut l = false) (c : CallId) (k : Key) (v : Val) :
    .inv c (.put k v) ∉ (x.event l).toList := by
  intro hm
  have hev : history [(x, l)] = (x.event l).toList := history_snoc [] x l
  obtain ⟨e, he, hcall⟩ := started_of_inv (hev ▸ hm)
  obtain rfl := List.mem_singleton.mp he
  obtain rfl : l = .run c (.call (.put k v)) := hcall
  cases hl

theorem Served.init : Served args [] (init x₀) :=
  ⟨fun _ _ h => (by cases h), RunCluster.Driver.loadInv_init,
    ⟨fun hm => (by cases hm), fun _ _ _ h => (by cases h)⟩, Serving.init⟩

/-- What is known of a run up to some state. -/
structure Reached (args : RunCluster.Args) (m : Data) (tr : List (Testbed × Label)) (s : Testbed) :
    Prop where
  sound : s.driver.Sound args
  linear : ∃ l, Linearization StoreOp.apply m (storeHistory tr) l
  unique : ∀ {c o o'}, .inv c o ∈ storeHistory tr → .inv c o' ∈ storeHistory tr → o = o'
  answered : ∀ {c o y}, .inv c o ∈ storeHistory tr → s.cluster.outcome c = some y →
    o.toOp.Ends y ∧ ((∃ k x, o = .put k x) → ∀ e, y ≠ .threw e) ∧
      ∀ r, y = .returned r → r.ofStore = true → .res c r ∈ storeHistory tr

theorem Reached.of_run {m : Data} (h₀ : Ready m x₀) (hidle : ∀ c, x₀.locals c = .out .idle)
    (h : Run (step args) Undisturbed (.init x₀) tr s) : Reached args m tr s := by
  have hrun := cluster_run h
  have hlinear : Monitor.Exclusive s.cluster ∧ ∃ l, Linearized m (clusterTrace tr) l s.cluster :=
    hrun.invariant (I := fun tr s => Monitor.Exclusive s ∧ ∃ l, Linearized m tr l s)
      ⟨h₀.quiet.exclusive, [], h₀.linearized⟩ fun tr s lab s' _ hok hs ⟨hx, l, hI⟩ =>
        ⟨(Monitor.Step.of_step frontend hs).exclusive _ hx, hI.step hx hok.1 hok.2 hs⟩
  obtain ⟨-, l, hl⟩ := hlinear
  refine ⟨RunCluster.Driver.sound_of_run (driver_run h), ⟨l, hl.linear⟩,
    fun ho ho' => inv_unique (hidle _) hrun ho ho', fun {c o y} ho hy => ?_⟩
  have hfin := System.outcome_eq hy
  have hstarted := started_of_inv ho
  refine ⟨?_, ?_, fun r hr hstore => ?_⟩
  · rcases Runs.of_run (hidle c) hrun with ⟨-, hno⟩ | ⟨op, hop, hat⟩
    · exact absurd hstarted (hno _)
    · obtain rfl := (hop _).mp hstarted
      rw [hfin] at hat
      exact hat
  · rintro ⟨k, x, rfl⟩ e rfl
    have hthrew := put_returns (hidle c) (hrun.mono fun _ _ hl => hl.1) hstarted
    rw [hfin] at hthrew
    exact hthrew trivial
  · subst hr
    exact answer_recorded (hidle c) hrun hfin hstore

/-- A worker hears the answer to a put. -/
theorem Served.hear_put {m : Data} {t : ℕ} {c : CallId} {k : Key} {x : Val} {y : Outcome}
    {d : Driver} (hI : s.Served args tr) (hr : Reached args m tr s) (hc : s.thread t = some c)
    (hcall : s.driver.call t = some (.put k.toInt x.toInt))
    (hinv : .inv c (.put k x) ∈ storeHistory tr) (hy : s.cluster.outcome c = some y)
    (hs : s.driver.step args (.work t y.heard) = some d) :
    Served args (tr ++ [(s, .answer t)])
      { s with driver := d, thread := Function.update s.thread t none } := by
  obtain ⟨hends, hthrew, hrecorded⟩ := hr.answered hinv hy
  cases y with
  | threw e => exact absurd rfl (hthrew ⟨k, x, rfl⟩ e)
  | returned y =>
    obtain rfl : y = .success k x := hends
    have hl : s.driverLabel (.answer t) =
        some (.work t (.reply (Reply.success k x).text)) := by
      simp [driverLabel, hc, hy, Outcome.heard]
    obtain ⟨p, hp, hpc⟩ := Option.bind_eq_some_iff.mp hcall
    have hcompletes : Driver.completes (s.driver, .work t (.reply (Reply.success k x).text)) =
        some (k.toInt, x.toInt) := by
      rw [Driver.completes_of_work hp, RunCluster.Point.completes, hpc]
      rfl
    refine ⟨Driver.drawn_step hI.drawn hs, ?_, ?_, ?_⟩
    · rw [driverTrace_snoc hl]
      exact Driver.loadInv_step hr.sound hI.load (fun _ => trivial) hs
    · rw [driverTrace_snoc hl]
      refine Driver.mapInv_next hr.sound hI.load hI.map trivial hs ?_
      intro u k' v r e hu _
      obtain ⟨rfl, -⟩ := RunCluster.Label.work.inj e
      cases hcall.symm.trans hu
    · rw [seen_snoc hl, hcompletes, storeHistory_of_none rfl]
      exact hI.serving.hear hr.unique hc (fun u hu => Driver.call_of_other hs hu)
        (.inr ⟨k, x, hinv, ⟨_, hrecorded _ rfl rfl⟩, rfl⟩)

/-- A worker hears the answer to a get: what it has put last, or an error. -/
theorem Served.hear_get {m : Data} {t : ℕ} {c : CallId} {k : Key} {y : Outcome} {d : Driver}
    (hI : s.Served args tr) (hr : Reached args m tr s) (hc : s.thread t = some c)
    (hcall : s.driver.call t = some (.get k.toInt)) (hinv : .inv c (.get k) ∈ storeHistory tr)
    (hy : s.cluster.outcome c = some y) (hs : s.driver.step args (.work t y.heard) = some d) :
    Served args (tr ++ [(s, .answer t)])
      { s with driver := d, thread := Function.update s.thread t none } := by
  obtain ⟨hends, -, hrecorded⟩ := hr.answered hinv hy
  have hl : s.driverLabel (.answer t) = some (.work t y.heard) := by
    simp [driverLabel, hc, hy]
  obtain ⟨p, hp, hpc⟩ := Option.bind_eq_some_iff.mp hcall
  have hcompletes : p.completes y.heard = none := by
    cases y <;> simp [RunCluster.Point.completes, Outcome.heard, hpc, RunCluster.Call.pair]
  have hmain : s.driver.main ≠ .loading := by
    intro hm
    have hloads := hI.load.loads hm t p hp
    cases p <;> first | (cases hpc; done) | cases hloads
  have hserving : Serving (storeHistory (tr ++ [(s, .answer t)])) (seen (tr ++ [(s, .answer t)]))
      d (Function.update s.thread t none) := by
    rw [seen_snoc hl, Driver.completes_of_work hp, hcompletes, storeHistory_of_none rfl]
    refine hI.serving.hear hr.unique hc (fun u hu => Driver.call_of_other hs hu)
      (.inl ⟨rfl, fun k' x hm => ?_⟩)
    cases hr.unique hinv hm
  refine ⟨Driver.drawn_step hI.drawn hs, ?_, ?_, hserving⟩
  · rw [driverTrace_snoc hl]
    exact Driver.loadInv_step hr.sound hI.load (fun hm => absurd hm hmain) hs
  · rw [driverTrace_snoc hl]
    -- what is no pair ends the worker by an exception
    have herror : (y.heard = .fails ∨ ∃ r, y.heard = .reply r ∧ RunCluster.ErrorWord r) →
        d.MapInv args (driverTrace tr ++ [(s.driver, .work t y.heard)]) := by
      intro herr
      cases Driver.move_of_step hs with
      | prepare hl => exact absurd rfl (hl t _)
      | work hp' hs' =>
        obtain rfl := Option.some.inj (hp.symm.trans hp')
        obtain rfl := RunCluster.Worker.step_error hs' hpc herr
        exact hI.map.raises hmain hp hcompletes
    cases y with
    | threw e => exact herror (.inl rfl)
    | returned y =>
      rcases hends with ⟨x, rfl⟩ | rfl | rfl
      · refine Driver.mapInv_next hr.sound hI.load hI.map trivial hs ?_
        intro u k' v r e hu hv
        obtain ⟨rfl, hr'⟩ := RunCluster.Label.work.inj e
        obtain rfl := RunCluster.Act.reply.inj hr'
        obtain ⟨l, hlin⟩ := hr.linear
        obtain rfl := RunCluster.Call.get.inj (Option.some.inj (hcall.symm.trans hu))
        exact hI.serving.reads hr.sound.call_unique hr.unique hlin hc hcall
          (hrecorded _ rfl rfl) hv
      · exact herror (.inr ⟨_, rfl, .inl rfl⟩)
      · exact herror (.inr ⟨_, rfl, .inr rfl⟩)

/-- A step of the cluster, or a call that a client makes. -/
theorem Served.of_cluster {x : System} {th : ℕ → Option CallId} (hI : s.Served args tr)
    (hl : s.driverLabel l = none)
    (hserving : Serving (storeHistory (tr ++ [(s, l)])) (seen tr) s.driver th) :
    Served args (tr ++ [(s, l)]) { driver := s.driver, cluster := x, thread := th } := by
  refine ⟨hI.drawn, ?_, ?_, ?_⟩
  · rw [driverTrace_of_none hl]
    exact hI.load
  · rw [driverTrace_of_none hl]
    exact hI.map
  · rw [seen, driverTrace_of_none hl]
    exact hserving

theorem Served.step {m : Data} (hI : s.Served args tr) (hr : Reached args m tr s)
    (hargs : args.numKeys * 2 ≤ 2 ^ 31) (hok : s.Undisturbed l) (hstep : s.step args l = some s') :
    s'.Served args (tr ++ [(s, l)]) := by
  cases move_of_step hstep with
  | @driver l d hl hs =>
    have hdl : s.driverLabel (.driver l) = some l := rfl
    refine ⟨Driver.drawn_step hI.drawn hs, ?_, ?_, ?_⟩
    · rw [driverTrace_snoc hdl]
      exact Driver.loadInv_step hr.sound hI.load
        (fun _ => Driver.succeeds_of_not_hears hl) hs
    · rw [driverTrace_snoc hdl]
      refine Driver.mapInv_next hr.sound hI.load hI.map (Driver.succeeds_of_not_hears hl) hs ?_
      rintro t k v r rfl hcall -
      exact (hl (show s.driver.call t ≠ none by simp [hcall])).elim
    · rw [seen_snoc hdl, Driver.completes_of_not_hears hl, storeHistory_of_none rfl]
      refine hI.serving.driver fun t c ht => ?_
      obtain ⟨call, -, hcall, -⟩ := hI.serving.called t c ht
      rw [hcall]
      exact Driver.call_stays hr.sound hs hl hcall
  | @frontend l x hs =>
    refine hI.of_cluster rfl ?_
    rw [storeHistory_snoc rfl]
    exact hI.serving.append (event_not_put hok.2.2)
  | @issue t c call o x hfree hcall ho hs =>
    have hl : s.clusterLabel (.issue t c) = some (.run c (.call o.toOp)) := by
      simp [clusterLabel, hcall, ho]
    have hev : s.cluster.event (.run c (.call o.toOp)) = some (.inv c o) := by
      cases o <;> rfl
    refine hI.of_cluster rfl ?_
    rw [storeHistory_snoc hl, hev]
    exact hI.serving.issue hr.sound.call_unique hr.unique hfree hcall ho
  | @refuse t call d hcall ho hs => exact absurd ho (hr.sound.request hI.drawn hargs hcall)
  | @answer t c y d hc hy hs =>
    obtain ⟨call, o, hcall, ho, hinv⟩ := hI.serving.called t c hc
    cases o with
    | put k x =>
      obtain rfl := RunCluster.Call.request_put ho
      exact hI.hear_put hr hc hcall hinv hy hs
    | get k =>
      obtain rfl := RunCluster.Call.request_get ho
      exact hI.hear_get hr hc hcall hinv hy hs

/-- `testKVS` over the frontend and its servers.  In a run without failures in which a server
is always registered, no worker prints an error, in either mode: whatever the order of the
steps, whoever else reads, and whatever servers join and leave. -/
theorem testKVS_prints_no_error {m : Data} (hargs : args.numKeys * 2 ≤ 2 ^ 31) (h₀ : Ready m x₀)
    (hidle : ∀ c, x₀.locals c = .out .idle) (h : Run (step args) Undisturbed (.init x₀) tr s)
    (t : ℕ) (line : String) : s.driver.points t ≠ some (.ended (.printed line)) := by
  have hserved : s.Served args tr := by
    refine h.invariant (I := fun tr s => s.Served args tr) .init ?_
    intro tr s l s' hrun hok hs hI
    exact hI.step (.of_run h₀ hidle hrun) hargs hok hs
  intro hp
  by_cases hm : s.driver.main = .loading
  · exact hserved.load.loads hm t _ hp
  · exact hserved.map.running hm t _ hp line rfl

/-- One thread loads a key and checks one request.  Half way, server 2 joins server 1, which
then leaves. -/
def checkedJoin : RunCluster.Args where
  numKeys := 1
  numThreads := 1
  numRequests := 1
  putRatio := 50
  testConsistency := 1
  crashServer := 0
  addServer := 1
  removeServer := 0

def checkedJoinRun : List Label := List.flatten [
  [.driver (.reply "1"), .driver (.reply ""),
    .driver (.shuffle { keys := [0], loadVals := [0], runVals := [1] }),
    .driver (.work 0 .step), .issue 0 0],
  (putOn 0 0 0 [1]).tail.map .frontend,
  [.answer 0, .driver (.work 0 .step), .driver .step, .driver (.work 0 (.choose 0))],
  (joinFrom 1 2 1 [0] [1] ++ shutDown 4 1).map .frontend,
  [.driver (.work 0 (.reply "Success")), .driver (.work 0 (.choose 7)), .issue 0 2],
  (putOn 2 0 7 [2]).tail.map .frontend,
  [.answer 0, .issue 0 3],
  [.run 3 .step, .run 3 .step, .run 3 .step, .run 3 .step, .run 3 (.read .step),
    .run 3 (.read .step), .run 3 .reply].map .frontend,
  [.answer 0, .driver (.work 0 .step), .driver .step]]

theorem testKVS_prints_no_error_checkedJoin : ∃ tr s,
    Run (step checkedJoin) Undisturbed (.init (System.fresh oneServer)) tr s ∧
      s.driver.main = .ended .returned ∧ s.cluster.outcome 3 = some (.returned (.pair 0 7)) ∧
      s.cluster.outcome 4 = some (.returned .stopped) ∧
      ∀ t line, s.driver.points t ≠ some (.ended (.printed line)) := by
  have hex : ((exec (step checkedJoin) (.init (System.fresh oneServer)) checkedJoinRun).map
      fun s => (s.driver.main, s.cluster.outcome 3, s.cluster.outcome 4)) =
        some (.ended .returned, some (.returned (.pair 0 7)), some (.returned .stopped)) := by
    decide +kernel
  obtain ⟨s, hrun, hs⟩ := Run.exists_of_exec Undisturbed hex (by decide +kernel)
  simp only [Prod.mk.injEq] at hs
  have hready : Ready ∅ (System.fresh oneServer) :=
    ⟨System.fresh_quiet _, fun _ _ => rfl, fun _ _ => rfl⟩
  exact ⟨_, s, hrun, hs.1, hs.2.1, hs.2.2, testKVS_prints_no_error (by decide) hready
    (fun _ => rfl) hrun⟩

end Testbed

end ReplicatedStore
