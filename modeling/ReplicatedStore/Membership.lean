/-
The membership is linearizable, whatever fails.

Every access to `ServersList.servers` that decides an answer of `addServer`, `shutdownServer`
or `listServer` is one step, and so is every removal by the heartbeat, so the operations
take effect at steps of their own.  An `addServer` tests `containsKey` outside `serversLock`
and inserts its entry much later, without a second test, so it is two operations: a test,
and an insertion that answers `Success` also when another call has registered the id in
between.  Failures end calls without an answer, and such a call may have taken effect or
not.
-/
import ReplicatedStore.AddServer
import ReplicatedStore.Answers
import ReplicatedStore.Lib.Linearizability

namespace ReplicatedStore

open Lib
open Lib.Linearizability (Linearization Linearizable Stage Staged replay)

/-! ## The set of servers -/

/-- What is done to the set of registered servers.  `check` is the test of `addServer`, and
`remove` the removal of an entry by the heartbeat. -/
inductive MemberOp
  | add (id : ServerId)
  | check (id : ServerId)
  | list
  | shutdown (id : ServerId)
  | remove (id : ServerId)

/-- One set that answers.  The heartbeat gets no answer. -/
def MemberOp.apply (ids : Finset ServerId) : MemberOp → Finset ServerId × Option Reply
  | .add id => (insert id ids, some .added)
  | .check id => (ids, if id ∈ ids then some (.alreadyExists id) else none)
  | .list => (ids, some (listServer ids))
  | .shutdown id =>
    if id ∈ ids then (ids.erase id, some .stopped) else (ids, some .errNoExist)
  | .remove id => (ids.erase id, none)

/-- Who does it: a call by its main operation, an `addServer` by its test, or the heartbeat
by the `n`th step of the run. -/
inductive Party
  | call (c : CallId)
  | check (c : CallId)
  | beat (n : Nat)
  deriving DecidableEq

abbrev MemberHistory := Linearizability.History Party MemberOp (Option Reply)

abbrev MemberEntry := Linearizability.Entry Party MemberOp (Option Reply)

/-- The answers that tell something about the membership. -/
def Reply.ofMembership : Reply → Bool
  | .added | .alreadyExists _ | .stopped | .errNoExist | .errNoServers | .serverList _ => true
  | _ => false

/-- What the call of an operation invokes. -/
def Op.invokes (c : CallId) : Op → MemberHistory
  | .addServer id => [.inv (.call c) (.add id), .inv (.check c) (.check id)]
  | .listServer => [.inv (.call c) .list]
  | .shutdownServer id => [.inv (.call c) (.shutdown id)]
  | _ => []

/-- What the `n`th step of a run adds to the history. -/
def System.memberEvents (s : System) (n : Nat) : Label → MemberHistory
  | .run c (.call op) => op.invokes c
  | .run c .step =>
    match s.locals c with
    | .out (.addContains id) =>
      [.res (.check c) (if id ∈ s.shared.servers then some (.alreadyExists id) else none)]
    | .inn (.leave (.finish (.returned y))) =>
      if y.ofMembership then [.res (.call c) (some y)] else []
    | .inn (.beatRemove id _) => [.inv (.beat n) (.remove id), .res (.beat n) none]
    | _ => []
  | _ => []

def memberHistory (tr : Trace) : MemberHistory :=
  tr.zipIdx.flatMap fun e => e.1.1.memberEvents e.2 e.1.2

theorem memberHistory_snoc (tr : Trace) (s : System) (l : Label) :
    memberHistory (tr ++ [(s, l)]) = memberHistory tr ++ s.memberEvents tr.length l := by
  simp [memberHistory, List.zipIdx_append]

/-! ## How far the operations have come -/

abbrev MemberStage := Stage MemberOp (Option Reply)

/-- What a block does to the set of servers. -/
def Block.stage : Block → MemberStage
  | .withLock (.addServer id _ _) => .pending (.add id)
  | .registerFirst id _ => .pending (.add id)
  | .listServer => .pending .list
  | .shutdownServer id => .pending (.shutdown id)
  | _ => .past

/-- The main operation of a call, at its program point. -/
def callStage : Monitor.Local Outside Inside → MemberStage
  | .out .idle => .fresh
  | .out (.synchronized b) => b.stage
  | .out (.addContains id) | .out (.addFindFirst id _) => .pending (.add id)
  | .inn (.lock (.addServer id _ _) _) | .inn (.transfer id _ _ _)
  | .inn (.unlock (.addServer id _ _) _) | .inn (.registerFirst id _) | .inn (.register id _) =>
    .pending (.add id)
  | .inn .listServer => .pending .list
  | .inn (.shutdownLookup id) | .inn (.shutdownCall id _) | .inn (.shutdownRemove id) =>
    .pending (.shutdown id)
  | .inn (.leave (.finish (.returned y))) => if y.ofMembership then .done (some y) else .past
  | _ => .past

/-- The test of an `addServer`. -/
def checkStage : Monitor.Local Outside Inside → MemberStage
  | .out .idle => .fresh
  | .out (.addContains id) => .pending (.check id)
  | _ => .past

/-- After `n` steps of a run. -/
def stages (locals : CallId → Monitor.Local Outside Inside) (n : Nat) : Party → MemberStage
  | .call c => callStage (locals c)
  | .check c => checkStage (locals c)
  | .beat k => if k < n then .past else .fresh

theorem Block.stage_start (b : Block) : callStage (.inn b.start) = b.stage := by
  cases b with
  | withLock w => cases w <;> rfl
  | _ => rfl

variable {c : CallId} {n : Nat} {locals : CallId → Monitor.Local Outside Inside}
  {x : Monitor.Local Outside Inside}

/-- The `n`th step, by `c`, has brought the operations to `st`, or `c` has given up. -/
theorem stages_update {st : Party → MemberStage} (hcall : callStage x = st (.call c) ∨
      callStage x = .past) (hcheck : checkStage x = st (.check c) ∨ checkStage x = .past)
    (hothers : ∀ p, p ≠ .call c → p ≠ .check c → p ≠ .beat n → st p = stages locals n p)
    (p : Party) : stages (Function.update locals c x) (n + 1) p = st p ∨
      stages (Function.update locals c x) (n + 1) p = .past := by
  cases p with
  | call d =>
    by_cases hd : d = c
    · subst hd
      simpa [stages] using hcall
    · rw [hothers (.call d) (by simpa using hd) nofun nofun]
      simp [stages, hd]
  | check d =>
    by_cases hd : d = c
    · subst hd
      simpa [stages] using hcheck
    · rw [hothers (.check d) nofun (by simpa using hd) nofun]
      simp [stages, hd]
  | beat k =>
    by_cases hk : k = n
    · exact .inr (by simp [stages, hk])
    · rw [hothers (.beat k) nofun nofun (by simpa using hk)]
      have hlt : k < n + 1 ↔ k < n := by omega
      exact .inl (by simp [stages, hlt])

/-! ## Single steps -/

section
variable {s : System} {a : Act}

theorem memberEvents_out {w : Outside} (hl : s.locals c = .out w) (ha : ∀ op, a ≠ .call op)
    (hw : ∀ id, w ≠ .addContains id) : s.memberEvents n (.run c a) = [] := by
  cases a with
  | call op => exact absurd rfl (ha op)
  | step =>
    cases w with
    | addContains id => exact absurd rfl (hw id)
    | _ => simp [System.memberEvents, hl]
  | _ => rfl

theorem memberEvents_inn {i : Inside} (hl : s.locals c = .inn i) (ha : ∀ op, a ≠ .call op)
    (hleave : ∀ y, i = .leave (.finish (.returned y)) → y.ofMembership = false)
    (hbeat : ∀ id next, i ≠ .beatRemove id next) : s.memberEvents n (.run c a) = [] := by
  cases a with
  | call op => exact absurd rfl (ha op)
  | step =>
    cases i with
    | beatRemove id next => exact absurd rfl (hbeat id next)
    | leave e =>
      cases e with
      | finish o =>
        cases o with
        | returned y => simp [System.memberEvents, hl, hleave y rfl]
        | threw e => simp [System.memberEvents, hl]
      | resume next => simp [System.memberEvents, hl]
    | _ => simp [System.memberEvents, hl]
  | _ => rfl

end

/-- Outside the lock a call that has been started gives up or goes on. -/
theorem Outside.Move.stages {v : View} {w w' : Outside} {a : Act} (h : Outside.Move c v w a w')
    (ha : ∀ op, a ≠ .call op) :
    (callStage (.out w') = callStage (.out w) ∨ callStage (.out w') = .past) ∧
      (checkStage (.out w') = checkStage (.out w) ∨ checkStage (.out w') = .past) := by
  cases h with
  | call => exact absurd rfl (ha _)
  | beat _ hw' => cases w' <;> first | exact ⟨.inr rfl, .inr rfl⟩ | cases hw'
  | contains _ => exact ⟨.inl rfl, .inr rfl⟩
  | findsNone _ => exact ⟨.inl rfl, .inl rfl⟩
  | finds _ => exact ⟨.inl rfl, .inl rfl⟩
  | _ => exact ⟨.inr rfl, .inr rfl⟩

/-- The section of a shutdown has found its server. -/
def Inside.Found (v : View) : Inside → Prop
  | .shutdownCall id _ | .shutdownRemove id => id ∈ v.servers
  | _ => True

theorem Inside.Found.mono {v v' : View} {i : Inside} (h : i.Found v)
    (hs : v'.servers = v.servers) : i.Found v' := by
  cases i with
  | shutdownCall id pr =>
    show id ∈ v'.servers
    rw [hs]
    exact h
  | shutdownRemove id =>
    show id ∈ v'.servers
    rw [hs]
    exact h
  | _ => exact trivial

/-- What a step of a section does to the set of servers: nothing, or its operation takes
effect, or the heartbeat removes an entry. -/
inductive Inside.Effect (ids ids' : Finset ServerId) (i i' : Inside) (a : Act) : Prop
  | none (hids : ids' = ids) (hbeat : ∀ id next, i ≠ .beatRemove id next)
      (hstage : callStage (.inn i') = callStage (.inn i) ∨ callStage (.inn i') = .past)
  | takes {o : MemberOp} {r : Option Reply} (hids : o.apply ids = (ids', r))
      (hbeat : ∀ id next, i ≠ .beatRemove id next) (ho : callStage (.inn i) = .pending o)
      (hr : callStage (.inn i') = .done r)
  | removes {id : ServerId} {next : Option Entry} (hids : ids' = ids.erase id)
      (ha : a = .step) (hi : i = .beatRemove id next) (hstage : callStage (.inn i') = .past)

/-- A loop goes on, or its end is the start of what follows, or it raises. -/
theorem Flow.stage {at_ : Loop → Inside} {after : Inside} {st : MemberStage}
    (hat : ∀ l, callStage (.inn (at_ l)) = st) (hafter : callStage (.inn after) = st ∨
      callStage (.inn after) = .past) (f : Flow) :
    callStage (.inn (f.point at_ after)) = st ∨ callStage (.inn (f.point at_ after)) = .past := by
  cases f with
  | again l => exact .inl (hat l)
  | done => exact hafter
  | raised => exact .inr rfl

theorem Transfer.failed_stage (id : ServerId) (rpc : ServerRPC id) (sender : ServerId)
    (att : Attempt Transfer) :
    callStage (.inn (Transfer.failed id rpc sender att)) = .pending (.add id) ∨
      callStage (.inn (Transfer.failed id rpc sender att)) = .past := by
  rcases Transfer.failed_cases id rpc sender att with ⟨-, e⟩ | ⟨-, e⟩ <;> rw [e]
  · exact .inl rfl
  · exact .inr rfl

theorem Inside.step_effect {cl cl' : Cluster} {i i' : Inside} {a : Act}
    (h : i.step c cl a = some (cl', .inl i')) (hfound : i.Found cl.view) :
    Inside.Effect cl.servers.keys cl'.servers.keys i i' a ∧ i'.Found cl'.view := by
  rcases eq_or_ne i .listServer with rfl | hlist
  · cases a <;> simp only [Inside.step] at h <;> try contradiction
    obtain ⟨rfl, hi'⟩ := Prod.mk.inj (Option.some.inj h)
    obtain rfl := Sum.inl.inj hi'
    refine ⟨.takes (o := .list) rfl (by simp) rfl ?_, trivial⟩
    show callStage (.inn (.leave (.finish (.returned (ReplicatedStore.listServer _))))) = _
    rw [callStage, if_pos]
    unfold ReplicatedStore.listServer
    split <;> rfl
  · have hm := Inside.Move.of_step h
    show Inside.Effect cl.view.servers.keys cl'.view.servers.keys i i' a ∧ _
    generalize cl.view = v at hm hfound
    generalize cl'.view = v' at hm
    generalize hr : (Sum.inl i' : Inside ⊕ Outside) = r at hm
    cases hm with
    | @lock w l a v' f hlo =>
      obtain rfl := Sum.inl.inj hr
      refine ⟨.none (by rw [hlo.servers]) (by simp) ?_, by cases f <;> cases w <;> exact trivial⟩
      exact f.stage (fun _ => by cases w <;> rfl) (by cases w <;> exact .inl rfl)
    | @write k x l a v' f hlo =>
      obtain rfl := Sum.inl.inj hr
      refine ⟨.none (by rw [hlo.servers]) (by simp) ?_, by cases f <;> exact trivial⟩
      have hat : ∀ l, callStage (.inn (.write k x l)) = .past := fun _ => rfl
      exact f.stage hat (.inl rfl)
    | @unlock w l a v' f hlo =>
      obtain rfl := Sum.inl.inj hr
      refine ⟨.none (by rw [hlo.servers]) (by simp) ?_, by cases f <;> cases w <;> exact trivial⟩
      exact f.stage (fun _ => by cases w <;> rfl) (by cases w <;> exact .inl rfl)
    | @senderGone id rpc sender n _ =>
      obtain rfl := Sum.inl.inj hr
      refine ⟨.none rfl (by simp) (Transfer.failed_stage id rpc sender _), ?_⟩
      rcases Transfer.failed_cases id rpc sender ⟨n, .lookup⟩ with ⟨-, e⟩ | ⟨-, e⟩ <;> rw [e] <;>
        exact trivial
    | @transferThrow id rpc sender n p _ =>
      obtain rfl := Sum.inl.inj hr
      refine ⟨.none rfl (by simp) (Transfer.failed_stage id rpc sender _), ?_⟩
      rcases Transfer.failed_cases id rpc sender ⟨n, .remote p⟩ with ⟨-, e⟩ | ⟨-, e⟩ <;>
        rw [e] <;> exact trivial
    | send _ hp =>
      obtain rfl := Sum.inl.inj hr
      exact ⟨.none (by rw [hp.servers]) (by simp) (.inl rfl), trivial⟩
    | @registerFirst id rpc =>
      obtain rfl := Sum.inl.inj hr
      refine ⟨.takes (o := .add id) ?_ (by simp) rfl rfl, trivial⟩
      rw [keys_insert]
      rfl
    | @register id rpc =>
      obtain rfl := Sum.inl.inj hr
      refine ⟨.takes (o := .add id) ?_ (by simp) rfl rfl, trivial⟩
      rw [keys_insert]
      rfl
    | listServer => exact absurd rfl hlist
    | shutdownFound hid =>
      obtain rfl := Sum.inl.inj hr
      exact ⟨.none rfl (by simp) (.inl rfl), hid⟩
    | @shutdownMissing id hid =>
      obtain rfl := Sum.inl.inj hr
      refine ⟨.takes (o := .shutdown id) ?_ (by simp) rfl rfl, trivial⟩
      exact if_neg fun hk => hid (Finmap.mem_keys.mp hk)
    | shutdownExec =>
      obtain rfl := Sum.inl.inj hr
      exact ⟨.none rfl (by simp) (.inl rfl), hfound⟩
    | shutdownReply =>
      obtain rfl := Sum.inl.inj hr
      exact ⟨.none rfl (by simp) (.inl rfl), hfound⟩
    | @shutdownRemove id =>
      obtain rfl := Sum.inl.inj hr
      refine ⟨.takes (o := .shutdown id) ?_ (by simp) rfl rfl, trivial⟩
      rw [MemberOp.apply, if_pos (Finmap.mem_keys.mpr hfound), Finmap.keys_erase]
    | @beatRemove id next =>
      obtain rfl := Sum.inl.inj hr
      exact ⟨.removes (Finmap.keys_erase id v.servers) rfl rfl rfl, trivial⟩
    | leave => cases hr
    | _ =>
      obtain rfl := Sum.inl.inj hr
      first
        | exact ⟨.none rfl (by simp) (.inl rfl), trivial⟩
        | exact ⟨.none rfl (by simp) (.inr rfl), trivial⟩

/-! ## Steps of the system -/

/-- The effects so far linearize the history, they lead to the set of registered servers,
and every operation in progress has come as far as its call. -/
structure Membership (ids : Finset ServerId) (tr : Trace) (l : List MemberEntry) (s : System) :
    Prop where
  staged : Staged MemberOp.apply ids (memberHistory tr) l (stages s.locals tr.length)
  servers : replay MemberOp.apply ids l = s.shared.servers.keys
  found : ∀ c i, s.locals c = .inn i → i.Found s.shared.view

variable {ids : Finset ServerId} {tr : Trace} {l : List MemberEntry} {s s' : System}

/-- After a step of `c`. -/
theorem Membership.of_staged {lab : Label} {st : Party → MemberStage}
    (hm : Membership ids tr l s) (hx : Monitor.Exclusive s)
    (hs : Monitor.Step frontend s lab s') (hc : lab.thread = some c) {l' : List MemberEntry}
    (hst : Staged MemberOp.apply ids (memberHistory tr ++ s.memberEvents tr.length lab) l' st)
    (hcall : callStage (s'.locals c) = st (.call c) ∨ callStage (s'.locals c) = .past)
    (hcheck : checkStage (s'.locals c) = st (.check c) ∨ checkStage (s'.locals c) = .past)
    (hothers : ∀ p, p ≠ .call c → p ≠ .check c → p ≠ .beat tr.length →
      st p = stages s.locals tr.length p)
    (hservers : replay MemberOp.apply ids l' = s'.shared.servers.keys)
    (hfound : ∀ i, s'.locals c = .inn i → i.Found s'.shared.view) :
    Membership ids (tr ++ [(s, lab)]) l' s' := by
  have hlocals : s'.locals = Function.update s.locals c (s'.locals c) := by
    funext d
    by_cases hd : d = c
    · rw [hd, Function.update_self]
    · have hne : lab.thread ≠ some d := by
        rw [hc]
        exact fun e => hd (Option.some.inj e).symm
      rw [Function.update_of_ne hd, hs.locals_of_ne hne]
  refine ⟨?_, hservers, fun d i hi => ?_⟩
  · rw [memberHistory_snoc, List.length_append, List.length_singleton, hlocals]
    exact hst.mono (stages_update hcall hcheck hothers)
  · by_cases hd : d = c
    · rw [hd] at hi
      exact hfound i hi
    · -- only the thread inside changes the servers
      have hne : lab.thread ≠ some d := by
        rw [hc]
        exact fun e => hd (Option.some.inj e).symm
      have hi₀ : s.locals d = .inn i := (hs.locals_of_ne hne).symm.trans hi
      rcases view_of_others hx hi₀ hs hne with hview | ⟨e, rfl, -⟩
      · rw [hview]
        exact hm.found d i hi₀
      · cases hc

/-- A step that is not in the history and changes no server. -/
theorem Membership.silent {lab : Label} (hm : Membership ids tr l s) (hx : Monitor.Exclusive s)
    (hs : Monitor.Step frontend s lab s') (hc : lab.thread = some c)
    (hnone : s.memberEvents tr.length lab = [])
    (hcall : callStage (s'.locals c) = callStage (s.locals c) ∨ callStage (s'.locals c) = .past)
    (hcheck : checkStage (s'.locals c) = checkStage (s.locals c) ∨
      checkStage (s'.locals c) = .past)
    (hservers : s'.shared.servers.keys = s.shared.servers.keys)
    (hfound : ∀ i, s'.locals c = .inn i → i.Found s'.shared.view) :
    Membership ids (tr ++ [(s, lab)]) l s' := by
  refine hm.of_staged hx hs hc ?_ hcall hcheck (fun _ _ _ _ => rfl)
    (hm.servers.trans hservers.symm) hfound
  rw [hnone, List.append_nil]
  exact hm.staged

/-- The call of an operation. -/
theorem Membership.call {op : Op} (hm : Membership ids tr l s) (hx : Monitor.Exclusive s)
    (hs : Monitor.Step frontend s (.run c (.call op)) s') :
    Membership ids (tr ++ [(s, .run c (.call op))]) l s' := by
  obtain ⟨hidle, hshared, hstart⟩ := call_start hs
  have hservers : replay MemberOp.apply ids l = s'.shared.servers.keys := by
    rw [hshared]
    exact hm.servers
  have hnot : ∀ i, s'.locals c = .inn i → i.Found s'.shared.view := by
    intro i hi
    cases hstart.symm.trans hi
  have hcall : stages s.locals tr.length (.call c) = .fresh := by simp [stages, hidle, callStage]
  have hcheck : stages s.locals tr.length (.check c) = .fresh := by
    simp [stages, hidle, checkStage]
  cases op with
  | addServer id =>
    have hne : Party.check c ≠ .call c := by simp
    have h₁ := hm.staged.invoke hcall (.add id)
    have h₂ := h₁.invoke ((Function.update_of_ne hne ..).trans hcheck) (.check id)
    rw [List.append_assoc] at h₂
    refine hm.of_staged hx hs rfl h₂ (.inl ?_) (.inl ?_) (fun p hp hp' _ => ?_) hservers hnot
    · rw [hstart, Function.update_of_ne hne.symm, Function.update_self]
      rfl
    · rw [hstart, Function.update_self]
      rfl
    · rw [Function.update_of_ne hp', Function.update_of_ne hp]
  | listServer =>
    refine hm.of_staged hx hs rfl (hm.staged.invoke hcall .list) (.inl ?_) (.inr ?_)
      (fun p hp _ _ => Function.update_of_ne hp ..) hservers hnot
    · rw [hstart, Function.update_self]
      rfl
    · rw [hstart]
      rfl
  | shutdownServer id =>
    refine hm.of_staged hx hs rfl (hm.staged.invoke hcall (.shutdown id)) (.inl ?_) (.inr ?_)
      (fun p hp _ _ => Function.update_of_ne hp ..) hservers hnot
    · rw [hstart, Function.update_self]
      rfl
    · rw [hstart]
      rfl
  | _ =>
    exact hm.silent hx hs rfl rfl (.inr (by rw [hstart]; rfl)) (.inr (by rw [hstart]; rfl))
      (by rw [hshared]) hnot

/-- The test of an `addServer`. -/
theorem Membership.tests {id : ServerId} {w : Outside} {a : Act} (hm : Membership ids tr l s)
    (hx : Monitor.Exclusive s) (hs : Monitor.Step frontend s (.run c a) s')
    (hl : s.locals c = .out (.addContains id))
    (ho : (Outside.addContains id).step c s.shared a = some (s'.shared, w))
    (hl' : s'.locals c = .out w) : ∃ l', Membership ids (tr ++ [(s, .run c a)]) l' s' := by
  have hnot : ∀ op, a ≠ .call op := by
    rintro op rfl
    cases ho
  have hstage := ((Outside.Move.of_step ho).stages hnot).1
  obtain ⟨rfl, hshared, hw⟩ := addContains_step ho
  have hcheck : stages s.locals tr.length (.check c) = .pending (.check id) := by
    simp [stages, hl, checkStage]
  have happly : MemberOp.apply (replay MemberOp.apply ids l) (.check id) =
      (s.shared.servers.keys,
        if id ∈ s.shared.servers then some (.alreadyExists id) else none) := by
    rw [hm.servers]
    simp only [MemberOp.apply, Finmap.mem_keys]
  have h₁ := hm.staged.effect hcheck (congrArg Prod.snd happly)
  have h₂ := h₁.respond (Function.update_self ..)
  have hevents : s.memberEvents tr.length (.run c .step) = [.res (.check c)
      (if id ∈ s.shared.servers then some (.alreadyExists id) else none)] := by
    simp [System.memberEvents, hl]
  rw [← hevents] at h₂
  have hcall : Party.call c ≠ .check c := by simp
  refine ⟨_, hm.of_staged hx hs rfl h₂ ?_ (.inr ?_) (fun p _ hp _ => ?_) ?_ fun i hi => ?_⟩
  · rw [Function.update_of_ne hcall, Function.update_of_ne hcall, hl']
    simpa [stages, hl] using hstage
  · rw [hl']
    rcases hw with ⟨-, rfl⟩ | ⟨-, ⟨_, rfl⟩ | ⟨-, message, rfl⟩⟩ <;> rfl
  · rw [Function.update_of_ne hp, Function.update_of_ne hp]
  · rw [Linearizability.replay_append, hshared]
    exact congrArg Prod.fst happly
  · cases hl'.symm.trans hi

theorem Membership.outside {w w' : Outside} {a : Act}
    (hm : Membership ids tr l s) (hx : Monitor.Exclusive s)
    (hs : Monitor.Step frontend s (.run c a) s') (hl : s.locals c = .out w)
    (ho : w.step c s.shared a = some (s'.shared, w')) (hl' : s'.locals c = .out w') :
    ∃ l', Membership ids (tr ++ [(s, .run c a)]) l' s' := by
  by_cases hcall : ∃ op, a = .call op
  · obtain ⟨op, rfl⟩ := hcall
    exact ⟨l, hm.call hx hs⟩
  · have hnot : ∀ op, a ≠ .call op := fun op e => hcall ⟨op, e⟩
    by_cases htest : ∃ id, w = .addContains id
    · obtain ⟨id, rfl⟩ := htest
      exact hm.tests hx hs hl ho hl'
    · have hnone := memberEvents_out (n := tr.length) hl hnot fun id e => htest ⟨id, e⟩
      obtain ⟨hstage, hcheck⟩ := (Outside.Move.of_step ho).stages hnot
      rw [← hl, ← hl'] at hstage hcheck
      have hview : s'.shared.view.servers = s.shared.view.servers := by rw [Outside.step_view ho]
      refine ⟨l, hm.silent hx hs rfl hnone hstage hcheck (congrArg Finmap.keys hview) ?_⟩
      intro i hi
      cases hl'.symm.trans hi

theorem Membership.inside {i i' : Inside} {a : Act} (hm : Membership ids tr l s)
    (hx : Monitor.Exclusive s) (hs : Monitor.Step frontend s (.run c a) s')
    (hl : s.locals c = .inn i) (hi : i.step c s.shared a = some (s'.shared, .inl i'))
    (hl' : s'.locals c = .inn i') : ∃ l', Membership ids (tr ++ [(s, .run c a)]) l' s' := by
  have hmove := Inside.Move.of_step hi
  obtain ⟨heffect, hfound'⟩ := Inside.step_effect hi (hm.found c i hl)
  have hfound : ∀ j, s'.locals c = .inn j → j.Found s'.shared.view := by
    intro j hj
    obtain rfl := Monitor.Local.inn.inj (hl'.symm.trans hj)
    exact hfound'
  have hcheck : checkStage (s'.locals c) = .past := by
    rw [hl']
    rfl
  have hnone : (∀ id next, i ≠ .beatRemove id next) → s.memberEvents tr.length (.run c a) = [] :=
    memberEvents_inn hl hmove.not_call fun y e => absurd e (hmove.not_leave _)
  cases heffect with
  | none hids hbeat hstage =>
    rw [← hl, ← hl'] at hstage
    exact ⟨l, hm.silent hx hs rfl (hnone hbeat) hstage (.inr hcheck) hids hfound⟩
  | @takes o r hids hbeat ho hr =>
    have hpending : stages s.locals tr.length (.call c) = .pending o := by simp [stages, hl, ho]
    have hst := hm.staged.effect hpending (r := r) (by rw [hm.servers, hids])
    refine ⟨_, hm.of_staged hx hs rfl (by rwa [hnone hbeat, List.append_nil]) (.inl ?_)
      (.inr hcheck) (fun p hp _ _ => Function.update_of_ne hp ..) ?_ hfound⟩
    · rw [hl', hr, Function.update_self]
    · rw [Linearizability.replay_append, hm.servers]
      exact congrArg Prod.fst hids
  | @removes id next hids ha hbeat hstage =>
    subst ha hbeat
    have hfresh : stages s.locals tr.length (.beat tr.length) = .fresh := by simp [stages]
    have h₁ := hm.staged.invoke hfresh (.remove id)
    have h₂ := h₁.effect (r := none) (Function.update_self ..) rfl
    have h₃ := h₂.respond (Function.update_self ..)
    have hevents : s.memberEvents tr.length (.run c .step) =
        [.inv (.beat tr.length) (.remove id)] ++ [.res (.beat tr.length) none] := by
      simp [System.memberEvents, hl]
    rw [List.append_assoc] at h₃
    rw [← hevents] at h₃
    refine ⟨_, hm.of_staged hx hs rfl h₃ (.inr ?_) (.inr hcheck) (fun p _ _ hp => ?_) ?_ hfound⟩
    · rw [hl', hstage]
    · rw [Function.update_of_ne hp, Function.update_of_ne hp, Function.update_of_ne hp]
    · rw [Linearizability.replay_append, hm.servers, hids]
      rfl

/-- The end of a section, which gives the answer. -/
theorem Membership.leave {i : Inside} {w : Outside} {a : Act} (hm : Membership ids tr l s)
    (hx : Monitor.Exclusive s) (hs : Monitor.Step frontend s (.run c a) s')
    (hl : s.locals c = .inn i) (hi : i.step c s.shared a = some (s'.shared, .inr w))
    (hl' : s'.locals c = .out w) : Membership ids (tr ++ [(s, .run c a)]) l s' := by
  obtain ⟨e, rfl, rfl, rfl, hview⟩ := (Inside.Move.of_step hi).leave_inv
  have hservers : s'.shared.servers.keys = s.shared.servers.keys :=
    congrArg (fun v : View => v.servers.keys) hview
  have hfound : ∀ j, s'.locals c = .inn j → j.Found s'.shared.view := by
    intro j hj
    cases hl'.symm.trans hj
  have hover : callStage (s'.locals c) = .past ∧ checkStage (s'.locals c) = .past := by
    rw [hl']
    cases e <;> exact ⟨rfl, rfl⟩
  by_cases hans : ∃ y, e = .finish (.returned y) ∧ y.ofMembership = true
  · obtain ⟨y, rfl, hy⟩ := hans
    have hdone : stages s.locals tr.length (.call c) = .done (some y) := by
      simp [stages, hl, callStage, hy]
    have hevents : s.memberEvents tr.length (.run c .step) = [.res (.call c) (some y)] := by
      simp [System.memberEvents, hl, hy]
    have hst := hm.staged.respond hdone
    rw [← hevents] at hst
    exact hm.of_staged hx hs rfl hst (.inr hover.1) (.inr hover.2)
      (fun p hp _ _ => Function.update_of_ne hp ..) (hm.servers.trans hservers.symm) hfound
  · have hnone : s.memberEvents tr.length (.run c .step) = [] := by
      refine memberEvents_inn hl nofun (fun y he => ?_) nofun
      by_contra hy
      exact hans ⟨y, Inside.leave.inj he, by simpa using hy⟩
    exact hm.silent hx hs rfl hnone (.inr hover.1) (.inr hover.2) hservers hfound

theorem Membership.enter {b : Block} (hm : Membership ids tr l s) (hx : Monitor.Exclusive s)
    (hs : Monitor.Step frontend s (.enter c) s') (hl : s.locals c = .out (.synchronized b))
    (hshared : s'.shared = s.shared) (hl' : s'.locals c = .inn b.start) :
    Membership ids (tr ++ [(s, .enter c)]) l s' := by
  refine hm.silent hx hs rfl rfl (.inl ?_) (.inl ?_) (by rw [hshared]) fun i hi => ?_
  · rw [hl, hl', b.stage_start]
    rfl
  · rw [hl, hl']
    rfl
  · obtain rfl := Monitor.Local.inn.inj (hl'.symm.trans hi)
    cases b <;> exact trivial

theorem Membership.env {e : Event} (hm : Membership ids tr l s)
    (hs : Monitor.Step frontend s (.env e) s') (he : Event.Move s.shared.view e s'.shared.view) :
    Membership ids (tr ++ [(s, .env e)]) l s' := by
  have hlocals : s'.locals = s.locals := funext fun c => hs.locals_of_ne nofun
  have hservers := he.servers
  refine ⟨?_, hm.servers.trans (congrArg Finmap.keys hservers).symm, fun c i hi => ?_⟩
  · have hnone : s.memberEvents tr.length (.env e) = [] := rfl
    rw [memberHistory_snoc, hnone, List.append_nil, List.length_append, List.length_singleton,
      hlocals]
    refine hm.staged.mono fun p => ?_
    cases p with
    | beat k =>
      by_cases hk : k < tr.length + 1
      · exact .inr (by simp [stages, hk])
      · exact .inl (by simp [stages, hk, show ¬ k < tr.length by omega])
    | _ => exact .inl rfl
  · rw [hlocals] at hi
    exact (hm.found c i hi).mono hservers

/-- The step lemma. -/
theorem Membership.step {lab : Label} (hm : Membership ids tr l s) (hx : Monitor.Exclusive s)
    (hs : Monitor.Step frontend s lab s') : ∃ l', Membership ids (tr ++ [(s, lab)]) l' s' := by
  have hstep := hs
  cases hs with
  | outside hl ho => exact hm.outside hx hstep hl ho (Function.update_self ..)
  | inside hl hi => exact hm.inside hx hstep hl hi (Function.update_self ..)
  | leave hl hi => exact ⟨l, hm.leave hx hstep hl hi (Function.update_self ..)⟩
  | enter hl he _ =>
    obtain ⟨b, rfl, rfl⟩ := Outside.entry_eq_some he
    exact ⟨l, hm.enter hx hstep hl rfl (Function.update_self ..)⟩
  | env he => exact ⟨l, hm.env hstep (Event.Move.of_step he)⟩

/-! ## Answers -/

/-- An operation on the membership. -/
def Op.ofMembership : Op → Bool
  | .addServer _ | .listServer | .shutdownServer _ => true
  | _ => false

theorem Op.Ends.ofMembership {op : Op} {y : Reply} (h : op.Ends (.returned y))
    (hop : op.ofMembership = true) :
    y.ofMembership = true ∨ ∃ id message, y = .notAccepting id message := by
  cases op with
  | addServer id =>
    rcases h with rfl | rfl | ⟨-, message, rfl⟩
    · exact .inl rfl
    · exact .inl rfl
    · exact .inr ⟨id, message, rfl⟩
  | listServer => rcases h with ⟨_, -, rfl⟩ | rfl <;> exact .inl rfl
  | shutdownServer id => rcases h with rfl | rfl <;> exact .inl rfl
  | _ => cases hop

/-- The answer `y` of the call `c` is in the history. -/
def Recorded (c : CallId) (y : Reply) (h : MemberHistory) : Prop :=
  .res (.call c) (some y) ∈ h ∨ .res (.check c) (some y) ∈ h

/-- The step with which a call returns. -/
theorem answers_step {op : Op} {y : Reply} {lab : Label} (hs : Monitor.Step frontend s lab s')
    (hc : lab.thread = some c) (hat : op.At (s.locals c)) (hop : op.ofMembership = true)
    (hy : s'.locals c = .out (.finished (.returned y))) :
    (∃ id message, y = .notAccepting id message) ∨ Recorded c y (s.memberEvents n lab) := by
  cases hl : s.locals c with
  | out w =>
    rw [hl] at hat
    rcases hs.of_out hl with ⟨hne, -⟩ | ⟨a, w', rfl, ho, h'⟩ | ⟨i, -, -, -, -, h'⟩
    · exact absurd hc hne
    · obtain rfl := Monitor.Local.out.inj (h'.symm.trans hy)
      have ho : w.step c s.shared a = some (s'.shared, .finished (.returned y)) := ho
      cases w with
      | addContains id =>
        obtain ⟨rfl, -, ⟨hid, e⟩ | ⟨-, ⟨_, e⟩ | ⟨-, message, e⟩⟩⟩ := addContains_step ho
        · obtain rfl := Outcome.returned.inj (Outside.finished.inj e)
          exact .inr (.inr (by simp [System.memberEvents, hl, hid]))
        · cases e
        · exact .inl ⟨id, message, Outcome.returned.inj (Outside.finished.inj e)⟩
      | addFindFirst id rpc =>
        obtain ⟨-, e | ⟨sender, e⟩⟩ := addFindFirst_step ho <;> cases e
      | idle => exact absurd hat id
      | synchronized b => exact absurd rfl (Outside.not_synchronized ho b)
      | finished o => exact absurd hc (finished_thread hs hl)
      | remote q id r =>
        cases q with
        | get k =>
          obtain rfl : op = .get k := hat.1
          cases hop
        | printKVPairs =>
          obtain rfl : op = .printKVPairs id := hat.1
          cases hop
      | _ =>
        obtain rfl := hat
        cases hop
    · cases h'.symm.trans hy
  | inn i =>
    rw [hl] at hat
    rcases hs.of_inn hl with ⟨hne, -⟩ | ⟨a, i', -, -, h'⟩ | ⟨a, w, rfl, hi, h'⟩
    · exact absurd hc hne
    · cases h'.symm.trans hy
    · obtain ⟨e, rfl, rfl, rfl, -⟩ := (Inside.Move.of_step hi).leave_inv
      obtain rfl : e = .finish (.returned y) := by
        have he := Monitor.Local.out.inj (h'.symm.trans hy)
        cases e with
        | finish o => exact congrArg _ (Outside.finished.inj he)
        | resume next => cases he
      rcases Op.Ends.ofMembership hat hop with hy | hno
      · exact .inr (.inl (by simp [System.memberEvents, hl, hy]))
      · exact .inl hno

/-- A call that is over is not made again. -/
theorem Started.idle {ok : System → Label → Prop} {s₀ : System} {op : Op} (hop : Started c op tr)
    (h₀ : Quiet s₀) (h : SystemRun ok s₀ tr s) : s₀.locals c = .out .idle := by
  rcases h₀.2 c with hidle | ⟨o, hfin⟩
  · exact hidle
  · have hnever : s.locals c = .out (.finished o) ∧ ¬ Started c op tr := by
      refine h.invariant (I := fun tr s => s.locals c = .out (.finished o) ∧ ¬ Started c op tr)
        ⟨hfin, by simp [Started]⟩ ?_
      rintro tr s lab s' - - hs ⟨hl, hno⟩
      have hstep := Monitor.Step.of_step frontend hs
      refine ⟨finished_stays hstep hl, fun hstarted => ?_⟩
      rcases started_snoc.mp hstarted with hstarted | rfl
      · exact hno hstarted
      · exact finished_thread hstep hl rfl
    exact absurd hop hnever.2

/-- Every answer of the three operations is in the history, but for the message that the
port of the id is not accepted. -/
theorem member_answer_recorded {ok : System → Label → Prop} {s₀ : System} {op : Op} {y : Reply}
    (h₀ : s₀.locals c = .out .idle) (h : SystemRun ok s₀ tr s) (hop : Started c op tr)
    (hmem : op.ofMembership = true) (hy : s.locals c = .out (.finished (.returned y))) :
    (∃ id message, y = .notAccepting id message) ∨ Recorded c y (memberHistory tr) := by
  refine h.invariant (I := fun tr s => Started c op tr →
    s.locals c = .out (.finished (.returned y)) →
      (∃ id message, y = .notAccepting id message) ∨ Recorded c y (memberHistory tr))
    (fun _ hy => ?_) ?_ hop hy
  · cases h₀.symm.trans hy
  · intro tr s lab s' hrun _ hs ih hop hy
    have hstep := Monitor.Step.of_step frontend hs
    rw [memberHistory_snoc]
    by_cases hc : lab.thread = some c
    · have hstarted : Started c op tr := by
        rcases started_snoc.mp hop with hop | rfl
        · exact hop
        · have hstart := Monitor.Local.out.inj ((call_start hstep).2.2.symm.trans hy)
          cases op <;> cases hstart
      rcases Runs.of_run h₀ hrun with ⟨-, hno⟩ | ⟨op', hop', hat⟩
      · exact absurd hstarted (hno op)
      · obtain rfl := (hop' op).mp hstarted
        rcases answers_step (n := tr.length) hstep hc hat hmem hy with hno | hrec | hrec
        · exact .inl hno
        · exact .inr (.inl (List.mem_append_right _ hrec))
        · exact .inr (.inr (List.mem_append_right _ hrec))
    · have hop' : Started c op tr := by
        rcases started_snoc.mp hop with hop | rfl
        · exact hop
        · exact absurd rfl hc
      rcases ih hop' ((hstep.locals_of_ne hc).symm.trans hy) with hno | hrec | hrec
      · exact .inl hno
      · exact .inr (.inl (List.mem_append_left _ hrec))
      · exact .inr (.inr (List.mem_append_left _ hrec))

/-! ## Runs -/

/-- At the start no operation is in progress. -/
theorem stages_quiet {s₀ : System} (h₀ : Quiet s₀) (p : Party) :
    (stages s₀.locals 0 p).At [] ([] : List MemberEntry) p := by
  have hfresh : (Stage.fresh : MemberStage).At [] ([] : List MemberEntry) p :=
    ⟨fun o ho => absurd ho List.not_mem_nil, fun ⟨r, hr⟩ => absurd hr List.not_mem_nil⟩
  cases p with
  | call c => rcases h₀.2 c with hc | ⟨o, hc⟩ <;> simp only [stages, hc, callStage] <;>
      first | exact hfresh | exact trivial
  | check c => rcases h₀.2 c with hc | ⟨o, hc⟩ <;> simp only [stages, hc, checkStage] <;>
      first | exact hfresh | exact trivial
  | beat k => exact hfresh

/-- In every run, with every pattern of failures, the history of `addServer`, `listServer`
and `shutdownServer` and of the removals by the heartbeat is linearizable for one set, and
the operations that have taken effect lead from the servers registered at the start to those
registered at the end.  The history holds every answer of the three operations, but for the
message that the port of the id is not accepted. -/
theorem membership_linearizable {ok : System → Label → Prop} {s₀ s : System} {tr : Trace}
    (h₀ : Quiet s₀) (h : SystemRun ok s₀ tr s) :
    (∃ l, Linearization MemberOp.apply s₀.shared.servers.keys (memberHistory tr) l ∧
      replay MemberOp.apply s₀.shared.servers.keys l = s.shared.servers.keys) ∧
    ∀ c op y, Started c op tr → op.ofMembership = true →
      s.locals c = .out (.finished (.returned y)) →
      (∃ id message, y = .notAccepting id message) ∨ Recorded c y (memberHistory tr) := by
  have hrun : Monitor.Exclusive s ∧ ∃ l, Membership s₀.shared.servers.keys tr l s := by
    refine h.invariant (I := fun tr s => Monitor.Exclusive s ∧
      ∃ l, Membership s₀.shared.servers.keys tr l s) ⟨h₀.exclusive, [], ⟨?_, fun p => ?_⟩, rfl,
        fun c i hi => absurd hi h₀.not_inn⟩ ?_
    · exact Linearizability.linearization_nil
    · exact stages_quiet h₀ p
    · rintro tr s lab s' _ - hs ⟨hx, l, hm⟩
      have hstep := Monitor.Step.of_step frontend hs
      exact ⟨hstep.exclusive _ hx, hm.step hx hstep⟩
  obtain ⟨-, l, hm⟩ := hrun
  exact ⟨⟨l, hm.staged.linear, hm.servers⟩, fun c op y hop hmem hy =>
    member_answer_recorded (hop.idle h₀ h) h hop hmem hy⟩

/-- Two calls add server 1 at the same time, and both return `Success`; the server crashes,
the heartbeat removes it, and a shutdown does not find it. -/
def addedTwice : List Label :=
  [.run 0 (.call (.addServer 1)), .run 1 (.call (.addServer 1)), .run 0 .step, .run 1 .step,
    .run 0 .step, .run 1 .step, .enter 0, .run 0 .step, .run 0 .step, .enter 1, .run 1 .step,
    .run 1 .step, .run 2 (.call (.addServer 1)), .run 2 .step, .env (.crash 1),
    .run 9 (.call .heartBeat), .run 9 (.pick 1), .run 9 .step, .run 9 .throw, .run 9 .throw,
    .run 9 .throw, .run 9 .throw, .enter 9, .run 9 .step, .run 9 .step,
    .run 3 (.call (.shutdownServer 1)), .enter 3, .run 3 .step, .run 3 .step]

theorem membership_linearizable_addedTwice :
    ∃ tr s, SystemRun (fun _ _ => True) (System.fresh ∅) tr s ∧
      s.outcome 0 = some (.returned .added) ∧ s.outcome 1 = some (.returned .added) ∧
      s.outcome 2 = some (.returned (.alreadyExists 1)) ∧
      s.outcome 3 = some (.returned .errNoExist) ∧
      ∃ l, Linearization MemberOp.apply ∅ (memberHistory tr) l ∧
        replay MemberOp.apply ∅ l = s.shared.servers.keys := by
  have hex : ((exec System.step (System.fresh ∅) addedTwice).map fun s =>
      (s.outcome 0, s.outcome 1, s.outcome 2, s.outcome 3)) =
      some (some (.returned .added), some (.returned .added),
        some (.returned (.alreadyExists 1)), some (.returned .errNoExist)) := by decide +kernel
  obtain ⟨s, hrun, hs⟩ := Run.exists_of_exec (fun _ _ => True) hex fun _ _ => trivial
  simp only [Prod.mk.injEq] at hs
  exact ⟨_, s, hrun, hs.1, hs.2.1, hs.2.2.1, hs.2.2.2,
    (membership_linearizable (System.fresh_quiet _) hrun).1⟩

end ReplicatedStore
