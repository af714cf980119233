/-
Servers that are added again.

`ServerRPCImpl.shutdownServer` only answers, so a process that was shut down keeps its
data, and `sendValuesToServer` overwrites and adds keys but removes none.  When calls
follow one another, the registered servers agree after each of them as long as every
server that joins others holds no key that they lack.
-/
import ReplicatedStore.Agreement

namespace ReplicatedStore

open Lib

/-! ## The condition -/

/-- The server `id` may join: it is the first one, or registered already, or the
registered servers have every key it holds. -/
def View.MayJoin (v : View) (id : ServerId) : Prop :=
  v.servers.keys = ∅ ∨ id ∈ v.servers ∨
    ∀ r ∈ v.servers.keys, (v.data id).keys ⊆ (v.data r).keys

-- The instance is named, since a search may decide `∀` over all values of `int`.
instance (v : View) (id : ServerId) : Decidable (v.MayJoin id) :=
  have : Decidable (∀ r ∈ v.servers.keys, (v.data id).keys ⊆ (v.data r).keys) :=
    Finset.decidableDforallFinset
  instDecidableOr

theorem Covered.of_keys {d m : Data} (h : d.keys ⊆ m.keys) : Covered d m := by
  intro k hk
  rw [Finmap.lookup_eq_none] at hk ⊢
  exact fun hd => hk (Finmap.mem_keys.mp (h (Finmap.mem_keys.mpr hd)))

/-- Every call of `addServer` is for a server that may join. -/
def JoinsCovered (s : System) : Label → Prop
  | .run _ (.call (.addServer id)) => s.shared.view.MayJoin id
  | _ => True

instance (s : System) : DecidablePred (JoinsCovered s) := fun l => by
  unfold JoinsCovered
  split <;> infer_instance

/-- The calls that change the data or the membership. -/
def Op.updates : Op → Bool
  | .put _ _ | .addServer _ | .shutdownServer _ => true
  | _ => false

/-- Calls of `put`, `addServer` and `shutdownServer`, each made when those before it
are over. -/
def Sequential (s : System) : Label → Prop
  | .run _ (.call op) => Quiet s ∧ op.updates = true
  | _ => True

/-! ## The invariant -/

/-- The server that the call is adding with a transfer. -/
def Inside.adding : Inside → Option ServerId
  | .lock (.addServer id _ _) _ => some id
  | .transfer id _ _ _ => some id
  | .unlock (.addServer id _ _) _ => some id
  | .register id _ => some id
  | _ => none

/-- What is known at the points of a call outside its critical section. -/
def Outside.Joins (m : Data) (v : View) : Outside → Prop
  | .idle | .finished _ => v.Store m
  | .synchronized (.withLock (.put _ _)) => v.Store m
  | .synchronized (.withLock (.addServer id _ _)) => v.Store m ∧ Covered (v.data id) m
  | .synchronized (.registerFirst id _) => v.servers = ∅ ∧ v.data id = m
  | .synchronized (.shutdownServer _) => v.Store m
  | .addContains id => v.Store m ∧ v.MayJoin id
  | .addFindFirst id _ => v.Store m ∧ v.MayJoin id ∧ id ∉ v.servers
  | _ => False

/-- The points that only the heartbeat comes to. -/
def Inside.beats : Inside → Bool
  | .beatRemove _ _ | .leave (.resume _) => true
  | _ => false

/-- What is known inside. -/
structure Inside.Joins (m : Data) (v : View) (i : Inside) : Prop where
  replicates : i.Replicates m v
  covered : ∀ id, i.adding = some id → Covered (v.data id) m
  first : ∀ id rpc, i = .registerFirst id rpc → v.data id = m
  call : i.beats = false

/-- At most one call is in progress, and its point is as expected. -/
def OneCall (s : System) : Prop :=
  ∃ c, (∀ d, d ≠ c → Over (s.locals d)) ∧
    match s.locals c with
    | .out w => s.lock = none ∧ ∃ m, w.Joins m s.shared.view
    | .inn i => ∃ m, i.Joins m s.shared.view

/-! ## Steps -/

theorem Block.joins {m : Data} {v : View} {b : Block}
    (h : (Outside.synchronized b).Joins m v) : b.start.Joins m v := by
  cases b with
  | withLock w =>
    cases w with
    | put k x => exact ⟨h, nofun, nofun, rfl⟩
    | addServer id rpc sender =>
      refine ⟨h.1, fun id' he => ?_, nofun, rfl⟩
      obtain rfl := Option.some.inj he
      exact h.2
  | registerFirst id rpc =>
    refine ⟨fun r hr => ?_, nofun, fun id' rpc' he => ?_, rfl⟩
    · rw [h.1] at hr
      exact absurd hr Finmap.notMem_empty
    · cases he
      exact h.2
  | shutdownServer id => exact ⟨h, nofun, nofun, rfl⟩
  | listServer => exact absurd h id
  | beatRemove id next => exact absurd h (fun h => h)

/-- A step does not come to a point of the heartbeat. -/
theorem Inside.Move.stays_call {c : CallId} {v v' : View} {i i' : Inside} {a : Act}
    (h : Inside.Move c v i a v' (.inl i')) (hi : i.beats = false) : i'.beats = false := by
  generalize hr : (Sum.inl i' : Inside ⊕ Outside) = r at h
  cases h with
  | @lock w l a v' f _ =>
    obtain rfl := Sum.inl.inj hr
    cases f <;> cases w <;> rfl
  | @write k x l a v' f _ =>
    obtain rfl := Sum.inl.inj hr
    cases f <;> rfl
  | @unlock w l a v' f _ =>
    obtain rfl := Sum.inl.inj hr
    cases f <;> cases w <;> rfl
  | @senderGone id rpc sender n _ =>
    obtain rfl := Sum.inl.inj hr
    rcases Transfer.failed_cases id rpc sender ⟨n, .lookup⟩ with ⟨_, e⟩ | ⟨_, e⟩ <;> rw [e] <;> rfl
  | @transferThrow id rpc sender n p _ =>
    obtain rfl := Sum.inl.inj hr
    rcases Transfer.failed_cases id rpc sender ⟨n, .remote p⟩ with ⟨_, e⟩ | ⟨_, e⟩ <;>
      rw [e] <;> rfl
  | beatRemove => cases hi
  | leave => cases hr
  | _ =>
    obtain rfl := Sum.inl.inj hr
    rfl

/-- A transfer puts only keys of the map into the joining server. -/
theorem Inside.Move.covered {c : CallId} {v v' : View} {i i' : Inside} {a : Act} {m : Data}
    (h : Inside.Move c v i a v' (.inl i')) (hi : i.Replicates m v)
    (hc : ∀ id, i.adding = some id → Covered (v.data id) m) :
    ∀ id, i'.adding = some id → Covered (v'.data id) (i.commit m a) := by
  intro id hid
  generalize hr : (Sum.inl i' : Inside ⊕ Outside) = r at h
  cases h with
  | @lock w l a v' f h =>
    obtain rfl := Sum.inl.inj hr
    have hdata : v'.data = v.data := h.data_eq fun k x => by simp
    have hw : (Inside.lock w l).adding = some id ∧ (Inside.lock w l).commit m a = m := by
      cases w with
      | put k x => cases f <;> cases hid
      | addServer id' rpc sender =>
        refine ⟨?_, rfl⟩
        cases f <;> first | exact hid | cases hid
    rw [hdata, hw.2]
    exact hc id hw.1
  | @write k x l a v' f _ =>
    obtain rfl := Sum.inl.inj hr
    cases f <;> cases hid
  | @unlock w l a v' f h =>
    obtain rfl := Sum.inl.inj hr
    have hdata : v'.data = v.data := h.data_eq fun k x => by simp
    have hw : (Inside.unlock w l).adding = some id := by
      cases w <;> cases f <;> first | exact hid | cases hid
    rw [hdata]
    exact hc id hw
  | senderFound _ =>
    obtain rfl := Sum.inl.inj hr
    exact hc id hid
  | @senderGone id' rpc sender n _ =>
    obtain rfl := Sum.inl.inj hr
    rcases Transfer.failed_cases id' rpc sender ⟨n, .lookup⟩ with ⟨_, e⟩ | ⟨_, e⟩ <;>
      rw [e] at hid
    · exact hc id hid
    · cases hid
  | @send id' rpc sender n p p' b v' _ h =>
    obtain rfl := Sum.inl.inj hr
    obtain rfl := Option.some.inj hid
    obtain ⟨hst, hs, _, hp⟩ := hi
    have hm : v.data sender = m := hst sender hs
    have hcov : Covered (v.data id') m := hc id' rfl
    rcases h.data (by rw [hm]; exact hp) with rfl | ⟨k, x, hk, rfl⟩
    · exact hcov
    · rw [View.setData_data_self]
      exact hcov.insert (by rw [← hm]; exact hk)
  | sent =>
    obtain rfl := Sum.inl.inj hr
    exact hc id hid
  | @transferThrow id' rpc sender n p _ =>
    obtain rfl := Sum.inl.inj hr
    rcases Transfer.failed_cases id' rpc sender ⟨n, .remote p⟩ with ⟨_, e⟩ | ⟨_, e⟩ <;>
      rw [e] at hid
    · exact hc id hid
    · cases hid
  | leave => cases hr
  | _ =>
    obtain rfl := Sum.inl.inj hr
    cases hid

theorem Inside.Move.joins {c : CallId} {v v' : View} {i : Inside} {a : Act} {m : Data}
    {r : Inside ⊕ Outside} (h : Inside.Move c v i a v' r) (hi : i.Joins m v)
    (ha : a.faulty = false) :
    (∀ i', r = .inl i' → i'.Joins (i.commit m a) v') ∧ (∀ w, r = .inr w → w.Joins m v') := by
  have hrep := h.replicates hi.replicates ha hi.first fun id rpc e =>
    hi.covered id (by rw [e]; rfl)
  constructor
  · rintro i' rfl
    exact ⟨hrep.1 i' rfl, h.covered hi.replicates hi.covered,
      fun id rpc e => absurd e (h.not_registerFirst id rpc), h.stays_call hi.call⟩
  · rintro w rfl
    have hst := hrep.2 w rfl
    obtain ⟨e, rfl, -, rfl, -⟩ := h.leave_inv
    cases e with
    | finish o => exact hst
    | resume next => cases hi.call

/-- The registered servers agree at the points where a thread takes steps of its own. -/
theorem Outside.Joins.store {w : Outside} {m : Data} {v : View} (h : w.Joins m v)
    (hw : ∀ b, w ≠ .synchronized b) : v.Store m := by
  cases w with
  | synchronized b => exact absurd rfl (hw b)
  | addContains id => exact h.1
  | addFindFirst id rpc => exact h.1
  | idle => exact h
  | finished o => exact h
  | _ => exact absurd h (fun h => h)

/-- The steps of a call outside its critical section. -/
theorem Outside.Move.joins {c : CallId} {v : View} {w w' : Outside} {a : Act} {m : Data}
    (h : Outside.Move c v w a w') (hw : w.Joins m v) (hsync : ∀ b, w ≠ .synchronized b)
    (hcall : ∀ op, a ≠ .call op) : ∃ m', w'.Joins m' v := by
  cases h with
  | call => exact absurd rfl (hcall _)
  | refuses _ => exact ⟨m, hw.1⟩
  | contains hid => exact ⟨m, hw.1, hw.2, hid⟩
  | findsNone hnone => exact ⟨_, eq_empty_of_keys hnone, rfl⟩
  | @finds id rpc sender hsender =>
    obtain ⟨hst, hmay, hid⟩ := hw
    have hkeys : sender ∈ v.servers.keys := Finmap.mem_keys.mpr hsender
    refine ⟨m, hst, ?_⟩
    rcases hmay with hnone | hin | hcov
    · rw [hnone] at hkeys
      cases hkeys
    · exact absurd hin hid
    · rw [← hst sender hsender]
      exact .of_keys (hcov sender hkeys)
  | fails => exact ⟨m, hw.store hsync⟩
  | missing => exact ⟨m, hw.store hsync⟩
  | @beat w _ _ hb _ => cases w <;> first | exact absurd hw (fun h => h) | cases hb
  | _ => exact absurd hw (fun h => h)

/-- A call that is made when no other is in progress. -/
theorem Op.start_joins {op : Op} {m : Data} {v : View} (hst : v.Store m)
    (hop : op.updates = true)
    (hjoin : ∀ id, op = .addServer id → v.MayJoin id) : op.start.Joins m v := by
  cases op with
  | put k x => exact hst
  | addServer id => exact ⟨hst, hjoin id rfl⟩
  | shutdownServer id => exact hst
  | _ => cases hop

/-- A thread that is over only makes a call. -/
theorem Over.calls {s s' : System} {l : Label} {t : CallId} (h : Over (s.locals t))
    (hs : Monitor.Step frontend s l s') (ht : l.thread = some t) :
    ∃ op, l = .run t (.call op) := by
  rcases h with hidle | ⟨o, hfin⟩
  · rcases hs.of_out hidle with ⟨hne, _⟩ | ⟨a, w', rfl, ha, _⟩ | ⟨i, rfl, he, _⟩
    · exact absurd ht hne
    · cases a <;> simp only [frontend, Outside.step] at ha <;> try contradiction
      exact ⟨_, rfl⟩
    · simp [frontend, Outside.entry] at he
  · exact absurd ht (finished_thread hs hfin)

/-- Between two calls the registered servers agree. -/
theorem OneCall.store {s : System} (h : OneCall s) (hover : ∀ c, Over (s.locals c)) :
    ∃ m, s.shared.view.Store m := by
  obtain ⟨c, _, hc⟩ := h
  rcases hover c with hidle | ⟨o, hfin⟩
  · rw [hidle] at hc
    exact hc.2
  · rw [hfin] at hc
    exact hc.2

theorem OneCall.step {s s' : System} {l : Label} (h : OneCall s)
    (hs : Monitor.Step frontend s l s') (hf : Faultless l) (hseq : Sequential s l)
    (hjoin : JoinsCovered s l) : OneCall s' := by
  have hcurrent := h
  obtain ⟨c, hothers, hc⟩ := hcurrent
  have hkeep : ∀ {t : CallId} (y : Monitor.Local Outside Inside),
      (∀ d, d ≠ t → Over (s.locals d)) →
      ∀ d, d ≠ t → Over (Function.update s.locals t y d) := fun y ho =>
    (Function.forall_update_iff s.locals fun d lo => d ≠ _ → Over lo).mpr
      ⟨fun hne => absurd rfl hne, fun d hd _ => ho d hd⟩
  -- a step that is not a call is one of the call in progress
  have hthread : ∀ {t : CallId}, l.thread = some t → (∀ op, l ≠ .run t (.call op)) → t = c := by
    intro t ht hcall
    by_contra hne
    obtain ⟨op, hop⟩ := (hothers t hne).calls hs ht
    exact hcall op hop
  cases hs with
  | @outside t a w w' σ' hl hp =>
    by_cases hcall : ∃ op, a = .call op
    · -- a new call is made, and the other threads are over
      obtain ⟨op, rfl⟩ := hcall
      obtain ⟨⟨hlock, hover⟩, hop⟩ := hseq
      obtain ⟨m, hst⟩ := h.store hover
      refine ⟨t, hkeep _ fun d _ => hover d, ?_⟩
      have hw : σ' = s.shared ∧ w' = op.start := by
        cases w <;> simp only [frontend, Outside.step] at hp <;> try contradiction
        obtain ⟨rfl, rfl⟩ := Prod.mk.inj (Option.some.inj hp)
        exact ⟨rfl, rfl⟩
      obtain ⟨rfl, rfl⟩ := hw
      simp only [Function.update_self]
      refine ⟨hlock, m, Op.start_joins hst hop fun id e => ?_⟩
      subst e
      exact hjoin
    · have hcall' : ∀ op, a ≠ .call op := fun op e => hcall ⟨op, e⟩
      obtain rfl := hthread rfl fun op e => hcall' op (Monitor.Label.run.inj e).2
      rw [hl] at hc
      obtain ⟨hlock, m, hw⟩ := hc
      refine ⟨t, hkeep _ hothers, ?_⟩
      simp only [Function.update_self]
      refine ⟨hlock, ?_⟩
      rw [Outside.step_view hp]
      exact (Outside.Move.of_step hp).joins hw (Outside.not_synchronized hp) hcall'
  | @inside t a i i' σ' hl hp =>
    obtain rfl := hthread rfl fun op e =>
      (Inside.Move.of_step hp).not_call op (Monitor.Label.run.inj e).2
    rw [hl] at hc
    obtain ⟨m, hi⟩ := hc
    refine ⟨t, hkeep _ hothers, ?_⟩
    simp only [Function.update_self]
    exact ⟨_, ((Inside.Move.of_step hp).joins hi hf).1 _ rfl⟩
  | @leave t a i w σ' hl hp =>
    obtain rfl := hthread rfl fun op e =>
      (Inside.Move.of_step hp).not_call op (Monitor.Label.run.inj e).2
    rw [hl] at hc
    obtain ⟨m, hi⟩ := hc
    refine ⟨t, hkeep _ hothers, ?_⟩
    simp only [Function.update_self]
    exact ⟨trivial, m, ((Inside.Move.of_step hp).joins hi hf).2 _ rfl⟩
  | @enter t w i hl he hlock =>
    obtain rfl := hthread rfl fun op e => by cases e
    rw [hl] at hc
    obtain ⟨_, m, hw⟩ := hc
    obtain ⟨b, rfl, rfl⟩ := Outside.entry_eq_some he
    refine ⟨t, hkeep _ hothers, ?_⟩
    simp only [Function.update_self]
    exact ⟨m, Block.joins hw⟩
  | env _ => exact absurd hf (fun h => h)

/-! ## Runs -/

/-- When calls follow one another without failures, and every server that joins others
holds no key that they lack, the registered servers agree after each call. -/
theorem agree_after_each_call {s₀ s : System} {tr : Trace} (h₀ : Unused s₀)
    (h : SystemRun (fun s l => Faultless l ∧ Sequential s l ∧ JoinsCovered s l) s₀ tr s)
    (hq : Quiet s) :
    ∀ id ∈ s.shared.servers, ∀ id' ∈ s.shared.servers,
      (s.shared.process id).data = (s.shared.process id').data := by
  have hone : OneCall s := by
    refine h.invariant (I := fun _ s => OneCall s) ?_ ?_
    · refine ⟨0, fun d _ => h₀.quiet.2 d, ?_⟩
      have hst : s₀.shared.view.Store ∅ := fun id hid => by
        rw [Cluster.view_servers, h₀.no_server] at hid
        exact absurd hid Finmap.notMem_empty
      rcases h₀.quiet.2 0 with hidle | ⟨o, hfin⟩
      · rw [hidle]
        exact ⟨h₀.quiet.1, ∅, hst⟩
      · rw [hfin]
        exact ⟨h₀.quiet.1, ∅, hst⟩
    · intro tr s l s' _ hok hs hI
      exact hI.step (Monitor.Step.of_step frontend hs) hok.1 hok.2.1 hok.2.2
  obtain ⟨m, hst⟩ := hone.store hq.2
  intro id hid id' hid'
  exact (hst id hid).trans (hst id' hid').symm

/-- `Sequential` for a run whose calls are numbered below `n`. -/
def SequentialBelow (n : Nat) (s : System) : Label → Prop
  | .run _ (.call op) => QuietBelow n s ∧ op.updates = true
  | _ => True

instance (n : Nat) (s : System) : DecidablePred (SequentialBelow n s) := fun l =>
  match l with
  | .run _ (.call op) => inferInstanceAs (Decidable (QuietBelow n s ∧ op.updates = true))
  | .run _ .step | .run _ (.pick _) | .run _ .exec | .run _ .reply | .run _ .throw
  | .run _ .linger | .run _ (.read _) | .run _ (.send _) | .enter _ | .env _ => isTrue trivial

theorem SystemRun.sequential {ok : System → Label → Prop} {servers : Finmap ServerRPC}
    {s : System} {tr : Trace} {n : Nat}
    (h : SystemRun (fun s l => ok s l ∧ SequentialBelow n s l ∧ ∀ c ∈ l.thread, c < n)
      (System.fresh servers) tr s) :
    SystemRun (fun s l => ok s l ∧ Sequential s l) (System.fresh servers) tr s := by
  refine (h.strengthen (I := fun s => ∀ c, n ≤ c → s.locals c = .out .idle) ?_).mono ?_
  · intro tr s hrun
    exact SystemRun.idle_above hrun (fun s l hok c hc => hok.2.2 c hc) fun _ _ => rfl
  · rintro s l ⟨⟨hok, hseq, _⟩, habove⟩
    refine ⟨hok, ?_⟩
    cases l with
    | run c a =>
      cases a with
      | call op => exact ⟨hseq.1.quiet habove, hseq.2⟩
      | _ => trivial
    | _ => trivial

/-- Server 1 leaves and joins again, with no key that server 2 lacks. -/
def joinAgain : List Label :=
  joinFirst 0 1 ++ putOn 1 5 7 [1] ++ joinFrom 2 2 1 [5] [1] ++ shutDown 3 1 ++
    joinFrom 4 1 2 [5] [2]

theorem agree_after_each_call_joinAgain :
    ∃ tr s, SystemRun (fun s l => Faultless l ∧ Sequential s l ∧ JoinsCovered s l)
        (System.fresh ∅) tr s ∧ (s.shared.process 1).data.lookup 5 = some 7 ∧
      (s.shared.process 1).data = (s.shared.process 2).data := by
  have hex : ((exec System.step (System.fresh ∅) joinAgain).map fun s =>
      decide (QuietBelow 5 s ∧ 1 ∈ s.shared.servers ∧ 2 ∈ s.shared.servers ∧
        (s.shared.process 1).data.lookup 5 = some 7)) = some true := by
    decide +kernel
  obtain ⟨s, hrun, hs⟩ := Run.exists_of_exec (fun s l => (Faultless l ∧ JoinsCovered s l) ∧
    SequentialBelow 5 s l ∧ ∀ c ∈ l.thread, c < 5) hex (by decide +kernel)
  obtain ⟨hbelow, h1, h2, hx⟩ := of_decide_eq_true hs
  have hidle := SystemRun.idle_above (n := 5) hrun (fun s l hok c hc => hok.2.2 c hc) fun _ _ => rfl
  have hrun' : SystemRun (fun s l => Faultless l ∧ Sequential s l ∧ JoinsCovered s l)
      (System.fresh ∅) _ s :=
    (SystemRun.sequential hrun).mono fun s l h => ⟨h.1.1, h.2, h.1.2⟩
  have hq : Quiet s := hbelow.quiet hidle
  exact ⟨_, s, hrun', hx, agree_after_each_call System.fresh_unused hrun' hq 1 h1 2 h2⟩

/-- Server 1 leaves with a key and joins again from server 2, which never had it. -/
def joinStale : List Label :=
  joinFirst 0 1 ++ putOn 1 5 7 [1] ++ shutDown 2 1 ++ joinFirst 3 2 ++ joinFrom 4 1 2 [] [2]

/-- After `joinStale` server 1 holds the key and server 2 does not. -/
theorem joinStale_disagree :
    ¬ ∀ (s₀ s : System) (tr : Trace), Unused s₀ →
      SystemRun (fun s l => Faultless l ∧ Sequential s l) s₀ tr s → Quiet s →
      ∀ id ∈ s.shared.servers, ∀ id' ∈ s.shared.servers,
        (s.shared.process id).data = (s.shared.process id').data := by
  intro hclaim
  have hex : ((exec System.step (System.fresh ∅) joinStale).map fun s =>
      decide (QuietBelow 5 s ∧ 1 ∈ s.shared.servers ∧ 2 ∈ s.shared.servers ∧
        (s.shared.process 1).data.lookup 5 = some 7 ∧
        (s.shared.process 2).data.lookup 5 = none)) = some true := by
    decide +kernel
  obtain ⟨s, hrun, hs⟩ := Run.exists_of_exec (fun s l => Faultless l ∧
    SequentialBelow 5 s l ∧ ∀ c ∈ l.thread, c < 5) hex (by decide +kernel)
  obtain ⟨hbelow, h1, h2, hx, hy⟩ := of_decide_eq_true hs
  have hidle := SystemRun.idle_above (n := 5) hrun (fun s l hok c hc => hok.2.2 c hc) fun _ _ => rfl
  have hq : Quiet s := hbelow.quiet hidle
  have heq := hclaim _ s _ System.fresh_unused (SystemRun.sequential hrun) hq 1 h1 2 h2
  rw [heq, hy] at hx
  cases hx

end ReplicatedStore
