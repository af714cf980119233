/-
A server process of the cluster, seen on its own.

The model of a single process knows one call of the frontend at a time and any number of
readers.  What a process sees of a run of the cluster is a run of that model, as long as no
request is left in the network: the calls are serialized by `serversLock`, a call that the
server never gets to see is no call, and what the heartbeat asks changes nothing.  An
invariant of the process alone then holds of each server in the whole system.
-/
import ReplicatedStore.WakeUp
import ReplicatedStore.Loops
import ReplicatedStore.Runs
import ReplicatedStore.Lib.Simulation

namespace ReplicatedStore

open Lib

/-! ## Requests of a section -/

/-- The request that the section has made, and how far its server has come with it. -/
def Inside.request : Inside → Option (ServerId × Method × Progress)
  | .lock _ (.body _ id a) => some (id, .lock, a.state)
  | .write k x (.body _ id a) => some (id, .put k x, a.state)
  | .unlock _ (.body _ id a) => some (id, .unlock, a.state)
  | .transfer id _ _ ⟨_, .remote (.put _ k x a)⟩ => some (id, .put k x, a.state)
  | .shutdownCall id pr => some (id, .shutdownServer, pr)
  | _ => none

/-- The server of the request takes a step. -/
def Act.execs : Act → Bool
  | .exec | .send .exec => true
  | _ => false

/-- The server `id` is between the assignment of an `unlock` and its `notifyAll`. -/
def Inside.Unlocking (id : ServerId) (i : Inside) : Prop :=
  i.request = some (id, .unlock, .notifying)

instance (id : ServerId) (i : Inside) : Decidable (i.Unlocking id) := by
  unfold Inside.Unlocking
  infer_instance

/-- The call that the process sees while a section is at this point. -/
def Inside.caller (id : ServerId) (i : Inside) : Option (Method × Progress) :=
  if i.Unlocking id then some (.unlock, .notifying) else none

/-- Only an `unlock` takes more than one step. -/
def Inside.Sane (i : Inside) : Prop :=
  ∀ id m, i.request = some (id, m, .notifying) → m = .unlock

/-- What a step of a section does to the processes: nothing, or one of them runs a step of
the request. -/
inductive Inside.Asks (cl cl' : Cluster) (i : Inside) (a : Act) (r : Inside ⊕ Outside) : Prop
  | none (hp : cl'.process = cl.process) (ha : i.request.isSome → a.execs = false)
      (hgone : ∀ id, i.Unlocking id → cl.crashed id = true)
      (hr : ∀ i', r = .inl i' → ∀ id m, i'.request ≠ some (id, m, .notifying))
  | runs {id : ServerId} {m : Method} {pr pr' : Progress} {p : ServerRPCImpl} {i' : Inside}
      (hi : i.request = some (id, m, pr)) (ha : a.execs = true) (hc : cl.crashed id = false)
      (hm : m.step pr (cl.process id) = some (p, pr')) (hp : cl' = cl.setProcess id p)
      (hr : r = .inl i') (hi' : i'.request = some (id, m, pr'))

/-- The spec of a server step, in terms of the process. -/
theorem Cluster.exec_eq {cl cl' : Cluster} {id : ServerId} {m : Method} {pr pr' : Progress}
    (h : cl.exec id m pr = some (cl', pr')) : cl.crashed id = false ∧
      ∃ p, m.step pr (cl.process id) = some (p, pr') ∧ cl' = cl.setProcess id p := by
  unfold Cluster.exec at h
  split at h
  · cases h
  · rename_i hc
    obtain ⟨⟨p, pr''⟩, hm, heq⟩ := Option.map_eq_some_iff.mp h
    obtain ⟨rfl, rfl⟩ := Prod.mk.inj heq
    exact ⟨by simpa using hc, p, hm, rfl⟩

/-- The loop has not reached the middle of a request. -/
def Flow.Whole : Flow → Prop
  | .again (.body _ _ a) => a.state ≠ .notifying
  | _ => True

theorem Loop.failed_whole (sw : Bool) (todo : Finset ServerId) (id : ServerId)
    (a : Attempt Progress) : (Loop.failed sw todo id a).Whole := by
  rcases Loop.failed_cases sw todo id a with ⟨-, e⟩ | ⟨-, -, e⟩ | ⟨-, -, e⟩ <;> rw [e]
  · exact nofun
  · exact trivial
  · exact trivial

/-- A step of a loop runs a step of its request, or leaves the processes as they are; in
the middle of a request it does the latter only if the server has crashed. -/
theorem Loop.step_asks {m : Method} {sw : Bool} {c : CallId} {cl cl' : Cluster} {l : Loop}
    {act : Act} {f : Flow} (h : Loop.step m sw c cl l act = some (cl', f)) :
    (cl'.process = cl.process ∧ f.Whole ∧ ∀ todo id a, l = .body todo id a →
        act.execs = false ∧ (a.state = .notifying → cl.crashed id = true)) ∨
      ∃ todo id a p pr, l = .body todo id a ∧ act.execs = true ∧ cl.crashed id = false ∧
        m.step a.state (cl.process id) = some (p, pr) ∧ cl' = cl.setProcess id p ∧
        f = .again (.body todo id { a with state := pr }) := by
  cases l with
  | start =>
    cases act <;> simp only [Loop.step] at h <;> try contradiction
    obtain ⟨rfl, rfl⟩ := Prod.mk.inj (Option.some.inj h)
    exact .inl ⟨rfl, trivial, by simp⟩
  | next todo =>
    cases act <;> simp only [Loop.step] at h <;> try contradiction
    all_goals
      split at h <;> try contradiction
      obtain ⟨rfl, rfl⟩ := Prod.mk.inj (Option.some.inj h)
    · exact .inl ⟨rfl, trivial, by simp⟩
    · exact .inl ⟨rfl, (fun e => by cases e), by simp⟩
  | body todo id a =>
    cases act <;> simp only [Loop.step] at h <;> try contradiction
    · obtain ⟨⟨cl'', pr⟩, hx, heq⟩ := Option.map_eq_some_iff.mp h
      obtain ⟨rfl, rfl⟩ := Prod.mk.inj heq
      obtain ⟨hc, p, hm, hcl⟩ := Cluster.exec_eq hx
      exact .inr ⟨todo, id, a, p, pr, rfl, rfl, hc, hm, hcl, rfl⟩
    · split at h <;> try contradiction
      rename_i hex
      obtain ⟨rfl, rfl⟩ := Prod.mk.inj (Option.some.inj h)
      refine .inl ⟨rfl, trivial, fun todo' id' a' e => ⟨rfl, fun hn => ?_⟩⟩
      obtain ⟨-, -, rfl⟩ := Loop.body.inj e
      rw [hex] at hn
      cases hn
    · split at h <;> try contradiction
      rename_i hmay
      obtain ⟨rfl, rfl⟩ := Prod.mk.inj (Option.some.inj h)
      refine .inl ⟨rfl, Loop.failed_whole .., fun todo' id' a' e => ⟨rfl, fun hn => ?_⟩⟩
      obtain ⟨-, rfl, rfl⟩ := Loop.body.inj e
      simpa [Cluster.mayThrow, hn] using hmay
    · split at h <;> try contradiction
      rename_i hsent
      obtain ⟨rfl, rfl⟩ := Prod.mk.inj (Option.some.inj h)
      refine .inl ⟨rfl, Loop.failed_whole .., fun todo' id' a' e => ⟨rfl, fun hn => ?_⟩⟩
      obtain ⟨-, -, rfl⟩ := Loop.body.inj e
      rw [hsent] at hn
      cases hn

/-- The point that a loop at `at_` comes to is not in the middle of a request. -/
theorem Flow.Whole.point {at_ : Loop → Inside} {after : Inside} {f : Flow} (h : f.Whole)
    {m : Method} (hbody : ∀ todo id a, (at_ (.body todo id a)).request = some (id, m, a.state))
    (hat : ∀ l, (∀ todo id a, l ≠ .body todo id a) → (at_ l).request = none)
    (hafter : after.request = none) (id : ServerId) (m' : Method) :
    (f.point at_ after).request ≠ some (id, m', .notifying) := by
  cases f with
  | again l =>
    cases l with
    | body todo id' a =>
      show (at_ (.body todo id' a)).request ≠ _
      rw [hbody]
      intro e
      obtain ⟨-, -, hn⟩ : id' = id ∧ m = m' ∧ a.state = .notifying := by simpa using e
      exact h hn
    | start =>
      show (at_ .start).request ≠ _
      rw [hat .start nofun]
      exact nofun
    | next todo =>
      show (at_ (.next todo)).request ≠ _
      rw [hat (.next todo) nofun]
      exact nofun
  | done =>
    show after.request ≠ _
    rw [hafter]
    exact nofun
  | raised => exact nofun

/-- So does the transfer. -/
theorem sendValuesToServer_asks {c : CallId} {cl cl' : Cluster} {sender target : ServerId}
    {p p' : Send} {b : SendAct} (h : sendValuesToServer cl sender target c p b = some (cl', p')) :
    (cl' = cl ∧ (∀ todo k x a, p = .put todo k x a → b ≠ .exec) ∧
        ∀ todo k x a, p' = .put todo k x a → a.state = .sent) ∨
      ∃ todo k x a q pr, p = .put todo k x a ∧ b = .exec ∧ cl.crashed target = false ∧
        (Method.put k x).step a.state (cl.process target) = some (q, pr) ∧
        cl' = cl.setProcess target q ∧ p' = .put todo k x { a with state := pr } := by
  cases p with
  | sent =>
    cases b <;> simp only [sendValuesToServer] at h <;> try contradiction
    split at h
    all_goals
      obtain ⟨rfl, rfl⟩ := Prod.mk.inj (Option.some.inj h)
      exact .inl ⟨rfl, by simp, fun _ _ _ _ e => by cases e⟩
  | next todo =>
    cases b <;> simp only [sendValuesToServer] at h <;> try contradiction
    all_goals split at h <;> try contradiction
    · obtain ⟨rfl, rfl⟩ := Prod.mk.inj (Option.some.inj h)
      exact .inl ⟨rfl, by simp, fun _ _ _ _ e => by cases e⟩
    · obtain ⟨x, -, heq⟩ := Option.map_eq_some_iff.mp h
      obtain ⟨rfl, rfl⟩ := Prod.mk.inj heq
      exact .inl ⟨rfl, by simp, fun _ _ _ _ e => by cases e; rfl⟩
  | put todo k x a =>
    cases b <;> simp only [sendValuesToServer] at h <;> try contradiction
    · obtain ⟨⟨cl'', pr⟩, hx, heq⟩ := Option.map_eq_some_iff.mp h
      obtain ⟨rfl, rfl⟩ := Prod.mk.inj heq
      obtain ⟨hc, q, hm, hcl⟩ := Cluster.exec_eq hx
      exact .inr ⟨todo, k, x, a, q, pr, rfl, rfl, hc, hm, hcl, rfl⟩
    · split at h <;> try contradiction
      obtain ⟨rfl, rfl⟩ := Prod.mk.inj (Option.some.inj h)
      exact .inl ⟨rfl, by simp, fun _ _ _ _ e => by cases e⟩
    · split at h <;> try contradiction
      by_cases hf : a.failures < RETRIES
      · simp only [Attempt.retry, hf, if_true, Option.some.injEq, Prod.mk.injEq] at h
        obtain ⟨rfl, rfl⟩ := h
        exact .inl ⟨rfl, by simp, fun _ _ _ _ e => by cases e; rfl⟩
      · simp only [Attempt.retry, hf, if_false, Option.some.injEq, Prod.mk.injEq] at h
        obtain ⟨rfl, rfl⟩ := h
        exact .inl ⟨rfl, by simp, fun _ _ _ _ e => by cases e⟩
  | returned => cases b <;> simp [sendValuesToServer] at h
  | raised => cases b <;> simp [sendValuesToServer] at h

theorem Transfer.failed_request (id : ServerId) (rpc : ServerRPC id) (sender : ServerId)
    (a : Attempt Transfer) : (Transfer.failed id rpc sender a).request = none := by
  rcases Transfer.failed_cases id rpc sender a with ⟨-, e⟩ | ⟨-, e⟩ <;> rw [e] <;> rfl

/-- The spec of a step of a section, in terms of the processes. -/
theorem Inside.step_asks {c : CallId} {cl cl' : Cluster} {i : Inside} {a : Act}
    {r : Inside ⊕ Outside} (h : i.step c cl a = some (cl', r)) : Inside.Asks cl cl' i a r := by
  have hplain : cl'.process = cl.process → (i.request.isSome → a.execs = false) →
      (∀ id, ¬ i.Unlocking id) → (∀ j, r = .inl j → j.request = none) →
        Inside.Asks cl cl' i a r := by
    intro hp ha hi hj
    refine .none hp ha (fun id hid => absurd hid (hi id)) fun i' e id m => ?_
    rw [hj i' e]
    exact nofun
  cases i with
  | lock w l =>
    obtain ⟨⟨cl'', f⟩, hl, heq⟩ := Option.map_eq_some_iff.mp h
    obtain ⟨rfl, rfl⟩ := Prod.mk.inj heq
    rcases Loop.step_asks hl with ⟨hp, hf, hbody⟩ |
      ⟨todo, id, att, p, pr, rfl, ha, hc, hm, hcl, rfl⟩
    · refine .none hp (fun hreq => ?_) (fun id hid => ?_) fun i' e id m => ?_
      · cases l with
        | body todo id att => exact (hbody todo id att rfl).1
        | _ => cases hreq
      · cases l <;> simp [Inside.Unlocking, Inside.request] at hid
      · obtain rfl := Sum.inl.inj e
        exact hf.point (m := .lock) (fun _ _ _ => rfl) (fun l hl => by cases l <;> first
          | rfl | exact absurd rfl (hl _ _ _)) (by cases w <;> rfl) id m
    · exact .runs rfl ha hc hm hcl rfl rfl
  | write k x l =>
    obtain ⟨⟨cl'', f⟩, hl, heq⟩ := Option.map_eq_some_iff.mp h
    obtain ⟨rfl, rfl⟩ := Prod.mk.inj heq
    rcases Loop.step_asks hl with ⟨hp, hf, hbody⟩ |
      ⟨todo, id, att, p, pr, rfl, ha, hc, hm, hcl, rfl⟩
    · refine .none hp (fun hreq => ?_) (fun id hid => ?_) fun i' e id m => ?_
      · cases l with
        | body todo id att => exact (hbody todo id att rfl).1
        | _ => cases hreq
      · cases l <;> simp [Inside.Unlocking, Inside.request] at hid
      · obtain rfl := Sum.inl.inj e
        exact hf.point (m := .put k x) (fun _ _ _ => rfl) (fun l hl => by cases l <;> first
          | rfl | exact absurd rfl (hl _ _ _)) rfl id m
    · exact .runs rfl ha hc hm hcl rfl rfl
  | unlock w l =>
    obtain ⟨⟨cl'', f⟩, hl, heq⟩ := Option.map_eq_some_iff.mp h
    obtain ⟨rfl, rfl⟩ := Prod.mk.inj heq
    rcases Loop.step_asks hl with ⟨hp, hf, hbody⟩ |
      ⟨todo, id, att, p, pr, rfl, ha, hc, hm, hcl, rfl⟩
    · refine .none hp (fun hreq => ?_) (fun id hid => ?_) fun i' e id m => ?_
      · cases l with
        | body todo id att => exact (hbody todo id att rfl).1
        | _ => cases hreq
      · cases l with
        | body todo id' att =>
          obtain ⟨rfl, hn⟩ : id' = id ∧ att.state = .notifying := by
            simpa [Inside.Unlocking, Inside.request] using hid
          exact (hbody todo id' att rfl).2 hn
        | _ => simp [Inside.Unlocking, Inside.request] at hid
      · obtain rfl := Sum.inl.inj e
        exact hf.point (m := .unlock) (fun _ _ _ => rfl) (fun l hl => by cases l <;> first
          | rfl | exact absurd rfl (hl _ _ _)) (by cases w <;> rfl) id m
    · exact .runs rfl ha hc hm hcl rfl rfl
  | shutdownCall id pr =>
    have hnot : ∀ id', ¬ (Inside.shutdownCall id pr).Unlocking id' := fun id' e => by
      simp [Inside.Unlocking, Inside.request] at e
    cases a with
    | exec =>
      obtain ⟨⟨cl'', pr'⟩, hx, heq⟩ := Option.map_eq_some_iff.mp h
      obtain ⟨rfl, rfl⟩ := Prod.mk.inj heq
      obtain ⟨hc, p, hm, hcl⟩ := Cluster.exec_eq hx
      exact .runs rfl rfl hc hm hcl rfl rfl
    | reply =>
      cases pr <;> simp only [Inside.step] at h <;> try contradiction
      obtain ⟨rfl, rfl⟩ := Prod.mk.inj (Option.some.inj h)
      exact hplain rfl (fun _ => rfl) hnot fun j e => by cases e; rfl
    | throw =>
      simp only [Inside.step] at h
      split at h <;> try contradiction
      obtain ⟨rfl, rfl⟩ := Prod.mk.inj (Option.some.inj h)
      exact hplain rfl (fun _ => rfl) hnot fun j e => by cases e; rfl
    | call op => cases pr <;> simp [Inside.step] at h
    | step => cases pr <;> simp [Inside.step] at h
    | pick id => cases pr <;> simp [Inside.step] at h
    | linger => cases pr <;> simp [Inside.step] at h
    | read b => cases pr <;> simp [Inside.step] at h
    | send b => cases pr <;> simp [Inside.step] at h
  | transfer id rpc sender att =>
    obtain ⟨n, t⟩ := att
    have hnot : ∀ id', ¬ (Inside.transfer id rpc sender ⟨n, t⟩).Unlocking id' := fun id' e => by
      cases t with
      | lookup => cases e
      | remote p => cases p <;> simp [Inside.Unlocking, Inside.request] at e
    cases t with
    | lookup =>
      cases a <;> simp only [Inside.step] at h <;> try contradiction
      split at h
      · obtain ⟨rfl, rfl⟩ := Prod.mk.inj (Option.some.inj h)
        exact hplain rfl (fun _ => rfl) hnot fun j e => by cases e; rfl
      · obtain ⟨rfl, rfl⟩ := Prod.mk.inj (Option.some.inj h)
        exact hplain rfl (fun _ => rfl) hnot fun j e => Sum.inl.inj e ▸ Transfer.failed_request ..
    | remote p =>
      cases a with
      | send b =>
        simp only [Inside.step] at h
        split at h <;> try contradiction
        obtain ⟨⟨cl'', p'⟩, hs, heq⟩ := Option.map_eq_some_iff.mp h
        obtain ⟨rfl, rfl⟩ := Prod.mk.inj heq
        rcases sendValuesToServer_asks hs with ⟨rfl, hno, hsent⟩ |
          ⟨todo, k, x, att, q, pr, rfl, rfl, hc, hm, hcl, rfl⟩
        · refine .none rfl (fun hreq => ?_) (fun id' hid => absurd hid (hnot id'))
            fun i' e id' m => ?_
          · cases p with
            | put todo k x att => cases b <;> first | rfl | exact absurd rfl (hno _ _ _ _ rfl)
            | _ => cases hreq
          obtain rfl := Sum.inl.inj e
          cases p' with
          | put todo k x att =>
            have hs := hsent todo k x att rfl
            simp [Inside.request, hs]
          | _ => simp [Inside.request]
        · exact .runs rfl rfl hc hm hcl rfl rfl
      | reply =>
        cases p <;> simp only [Inside.step] at h <;> try contradiction
        obtain ⟨rfl, rfl⟩ := Prod.mk.inj (Option.some.inj h)
        exact hplain rfl (fun _ => rfl) hnot fun j e => by cases e; rfl
      | throw =>
        simp only [Inside.step] at h
        split at h <;> try contradiction
        obtain ⟨rfl, rfl⟩ := Prod.mk.inj (Option.some.inj h)
        exact hplain rfl (fun _ => rfl) hnot fun j e => Sum.inl.inj e ▸ Transfer.failed_request ..
      | call op => simp [Inside.step] at h
      | step => simp [Inside.step] at h
      | pick id => simp [Inside.step] at h
      | exec => simp [Inside.step] at h
      | linger => simp [Inside.step] at h
      | read b => simp [Inside.step] at h
  | shutdownLookup id =>
    cases a <;> simp only [Inside.step] at h <;> try contradiction
    split at h
    all_goals
      obtain ⟨rfl, rfl⟩ := Prod.mk.inj (Option.some.inj h)
    · refine .none rfl (by simp [Inside.request]) (fun id e => by cases e) fun i' e id m => ?_
      obtain rfl := Sum.inl.inj e
      simp [Inside.request]
    · refine hplain rfl (by simp [Inside.request]) (fun id e => by cases e) fun j e => ?_
      cases e
      rfl
  | _ =>
    cases a <;> simp only [Inside.step] at h <;> try contradiction
    obtain ⟨rfl, rfl⟩ := Prod.mk.inj (Option.some.inj h)
    refine hplain rfl (by simp [Inside.request]) (fun id e => by cases e) fun j e => ?_
    cases e <;> rfl

/-! ## Readers -/

/-- The points of a call that may still become a reader. -/
def Outside.early : Outside → Bool
  | .idle | .getSize _ | .getKeys _ _ | .getCheck _ _ | .getLookup _ _ | .printLookup _ => true
  | _ => false

/-- The heartbeat is not in the middle of a request: `alive` takes one step. -/
def Outside.Sane : Outside → Prop
  | .beatAlive _ _ a => a.state ≠ .notifying
  | _ => True

/-- What the process of the server `id` sees of a step outside the lock. -/
def Outside.sees (id : ServerId) (c : CallId) (cl : Cluster) :
    Outside → Act → List ServerProcess.Label
  | .getLookup k id', .step =>
    if id' = id ∧ id' ∈ cl.servers then [.request c (.get k)] else []
  | .printLookup id', .step =>
    if id' = id ∧ id' ∈ cl.servers then [.request c .printKVPairs] else []
  | .remote _ id' _, .read b => if id' = id then [.read c b] else []
  | _, _ => []

/-- What a step outside the lock does to the processes. -/
inductive Outside.Asks (c : CallId) (cl cl' : Cluster) (w : Outside) (a : Act) (w' : Outside) :
    Prop
  | none (hp : cl'.process = cl.process) (hw : ∀ q id r, w' ≠ .remote q id r)
      (hearly : w'.early = true → w.early = true) (hsees : ∀ id, w.sees id c cl a = [])
  | requests {q : Query} {id : ServerId} (hw : w.early = true) (hp : cl' = cl)
      (hw' : w' = .remote q id .test)
      (hsees : ∀ id', w.sees id' c cl a = if id = id' then [.request c q] else [])
  | reads {q : Query} {id : ServerId} {r r' : Reader} {b : ReaderAct} {p : ServerRPCImpl}
      (hw : w = .remote q id r) (ha : a = .read b) (hc : cl.crashed id = false)
      (hr : (cl.process id).read q c r b = some (p, r')) (hp : cl' = cl.setProcess id p)
      (hw' : w' = .remote q id r')

/-- The spec of a step outside the lock, in terms of the processes. -/
theorem Outside.step_asks {c : CallId} {cl cl' : Cluster} {w w' : Outside} {a : Act}
    (h : w.step c cl a = some (cl', w')) (hw : w.Sane) :
    Outside.Asks c cl cl' w a w' ∧ w'.Sane := by
  have hplain : cl'.process = cl.process → (∀ q id r, w' ≠ .remote q id r) →
      w'.early = false → (∀ id, w.sees id c cl a = []) → Outside.Asks c cl cl' w a w' := by
    intro hp hw' hearly hsees
    refine .none hp hw' (fun he => ?_) hsees
    rw [hearly] at he
    cases he
  cases w with
  | idle =>
    cases a <;> simp only [Outside.step] at h <;> try contradiction
    rename_i op
    obtain ⟨rfl, rfl⟩ := Prod.mk.inj (Option.some.inj h)
    cases op <;> exact ⟨.none rfl (by simp [Op.start]) (fun _ => rfl) fun _ => rfl, trivial⟩
  | remote q id r =>
    cases a with
    | read b =>
      simp only [Outside.step] at h
      split at h <;> try contradiction
      rename_i hc
      obtain ⟨⟨p, r'⟩, hr, heq⟩ := Option.map_eq_some_iff.mp h
      obtain ⟨rfl, rfl⟩ := Prod.mk.inj heq
      exact ⟨.reads rfl rfl (by simpa using hc) hr rfl rfl, trivial⟩
    | reply =>
      cases r <;> simp only [Outside.step] at h <;> try contradiction
      obtain ⟨rfl, rfl⟩ := Prod.mk.inj (Option.some.inj h)
      exact ⟨hplain rfl (by simp) rfl fun _ => rfl, trivial⟩
    | throw =>
      obtain ⟨rfl, rfl⟩ := Prod.mk.inj (Option.some.inj h)
      exact ⟨hplain rfl (by simp) rfl fun _ => rfl, trivial⟩
    | _ => simp [Outside.step] at h
  | getLookup k id =>
    cases a <;> simp only [Outside.step] at h <;> try contradiction
    split at h
    all_goals
      rename_i hmem
      obtain ⟨rfl, rfl⟩ := Prod.mk.inj (Option.some.inj h)
    · exact ⟨.requests rfl rfl rfl fun _ => by simp [Outside.sees, hmem], trivial⟩
    · exact ⟨hplain rfl (by simp) rfl fun _ => by simp [Outside.sees, hmem], trivial⟩
  | printLookup id =>
    cases a <;> simp only [Outside.step] at h <;> try contradiction
    split at h
    all_goals
      rename_i hmem
      obtain ⟨rfl, rfl⟩ := Prod.mk.inj (Option.some.inj h)
    · exact ⟨.requests rfl rfl rfl fun _ => by simp [Outside.sees, hmem], trivial⟩
    · exact ⟨hplain rfl (by simp) rfl fun _ => by simp [Outside.sees, hmem], trivial⟩
  | beatAlive e next att =>
    cases a with
    | exec =>
      obtain ⟨⟨cl'', pr⟩, hx, heq⟩ := Option.map_eq_some_iff.mp h
      obtain ⟨rfl, rfl⟩ := Prod.mk.inj heq
      obtain ⟨-, p, hm, rfl⟩ := Cluster.exec_eq hx
      obtain ⟨rfl, rfl⟩ : cl.process e.1 = p ∧ Progress.executed = pr := by
        cases hs : att.state with
        | sent => simpa [hs, Method.step] using hm
        | notifying => exact absurd hs hw
        | executed => simp [hs, Method.step] at hm
      refine ⟨hplain ?_ (by simp) rfl fun _ => rfl, fun e => by cases e⟩
      show Function.update cl.process e.1 (cl.process e.1) = _
      rw [Function.update_eq_self]
    | reply =>
      simp only [Outside.step] at h
      split at h <;> try contradiction
      obtain ⟨rfl, rfl⟩ := Prod.mk.inj (Option.some.inj h)
      exact ⟨hplain rfl (by simp) rfl fun _ => rfl, trivial⟩
    | throw =>
      simp only [Outside.step] at h
      split at h <;> try contradiction
      by_cases hf : att.failures < RETRIES
      · simp only [Attempt.retry, hf, if_true, Option.some.injEq, Prod.mk.injEq] at h
        obtain ⟨rfl, rfl⟩ := h
        exact ⟨hplain rfl (by simp) rfl fun _ => rfl, fun e => by cases e⟩
      · simp only [Attempt.retry, hf, if_false, Option.some.injEq, Prod.mk.injEq] at h
        obtain ⟨rfl, rfl⟩ := h
        exact ⟨hplain rfl (by simp) rfl fun _ => rfl, trivial⟩
    | _ => simp [Outside.step] at h
  | beatNext next =>
    cases next <;> cases a <;> simp only [Outside.step] at h <;> try contradiction
    · obtain ⟨rpc, -, heq⟩ := Option.map_eq_some_iff.mp h
      obtain ⟨rfl, rfl⟩ := Prod.mk.inj heq
      exact ⟨hplain rfl (by simp) rfl fun _ => rfl, trivial⟩
    · obtain ⟨rfl, rfl⟩ := Prod.mk.inj (Option.some.inj h)
      exact ⟨hplain rfl (by simp) rfl fun _ => rfl, fun e => by cases e⟩
    · obtain ⟨rpc, -, heq⟩ := Option.map_eq_some_iff.mp h
      obtain ⟨rfl, rfl⟩ := Prod.mk.inj heq
      exact ⟨hplain rfl (by simp) rfl fun _ => rfl, fun e => by cases e⟩
  | _ =>
    cases a <;> simp only [Outside.step] at h <;> try contradiction
    all_goals repeat' split at h
    all_goals first
      | contradiction
      | (obtain ⟨rfl, rfl⟩ := Prod.mk.inj (Option.some.inj h)
         exact ⟨.none rfl (by simp) (fun he => by first | rfl | cases he) fun _ => rfl, trivial⟩)

/-! ## The process on its own -/

/-- What the process sees of a step of a request, with the call around it. -/
def Method.calls (m : Method) : Progress → List ServerProcess.Label
  | .sent => if m = .unlock then [.call m, .exec] else [.call m, .exec, .reply]
  | .notifying => [.exec, .reply]
  | .executed => []

/-- And of a step of a section. -/
def Inside.sees (id : ServerId) (i : Inside) (a : Act) : List ServerProcess.Label :=
  match i.request with
  | some (id', m, pr) => if id' = id ∧ a.execs = true then m.calls pr else []
  | none => []

/-- What the process of the server `id` sees of a step of the cluster. -/
def System.sees (id : ServerId) (s : System) : Label → List ServerProcess.Label
  | .run c a =>
    match s.locals c with
    | .out w => w.sees id c s.shared a
    | .inn i => i.sees id a
  | _ => []

/-- A process that nobody is asking. -/
def ServerProcess.of (p : ServerRPCImpl) : ServerProcess :=
  { impl := p, caller := none, readers := fun _ => none }

/-- The process `p` has come as far as the server `id` in the cluster. -/
structure Follows (id : ServerId) (s : System) (p : ServerProcess) : Prop where
  impl : p.impl = s.shared.process id
  held : ∀ c i, s.locals c = .inn i →
    i.Sane ∧ (s.shared.crashed id = false → p.caller = i.caller id)
  free : s.lock = none → s.shared.crashed id = false → p.caller = none
  out : ∀ c w, s.locals c = .out w → w.Sane ∧ (w.early = true → p.readers c = none) ∧
    ∀ q r, w = .remote q id r → p.readers c = some (q, r)

/-- A reader at the server `id` has seen it locked and enters the monitor when it is open
and no `notifyAll` is due. -/
def System.EntersLate (id : ServerId) (s : System) : Label → Prop
  | .run c (.read .step) => (∃ q, s.locals c = .out (.remote q id .enter)) ∧
      (s.shared.process id).isLocked = false ∧ ∀ d i, s.locals d = .inn i → ¬ i.Unlocking id
  | _ => False

variable {id : ServerId} {b : Prop} {p p' : ServerProcess} {s s' : System} {c : CallId}

/-- A label that is no step of a reader is no late entry. -/
theorem ServerProcess.not_entersLate {as : List Label} (h : ∀ c a, Label.read c a ∉ as) :
    ∀ e ∈ traceOf step p as, ¬ e.1.EntersLate e.2 := by
  intro e he hlate
  have hmem := mem_traceOf he
  cases hl : e.2 with
  | read c a => exact h c a (hl ▸ hmem)
  | _ =>
    rw [hl] at hlate
    exact hlate

theorem Method.calls_not_read (m : Method) (pr : Progress) (c : CallId) (a : ReaderAct) :
    .read c a ∉ m.calls pr := by
  cases pr with
  | sent =>
    by_cases hm : m = .unlock <;> simp [Method.calls, hm]
  | _ => simp [Method.calls]

/-- The process makes the step of the cluster, and takes the call or returns from it. -/
theorem Method.exec_calls {m : Method} {pr pr' : Progress} {q : ServerRPCImpl}
    (hm : m.step pr p.impl = some (q, pr')) (hsane : pr = .notifying → m = .unlock)
    (hp : p.caller = if pr = .notifying then some (.unlock, .notifying) else none) :
    exec ServerProcess.step p (m.calls pr) = some { p with
      impl := q, caller := if pr' = .notifying then some (.unlock, .notifying) else none } := by
  cases pr with
  | sent =>
    have hnone : p.caller = none := by simpa using hp
    by_cases hn : m = .unlock
    · subst hn
      obtain rfl : pr' = .notifying := (Prod.mk.inj (Option.some.inj hm)).2.symm
      simp [Method.calls, exec, ServerProcess.step, hnone, hm]
    · obtain rfl : pr' = .executed := by
        cases m with
        | unlock => exact absurd rfl hn
        | _ => exact (Prod.mk.inj (Option.some.inj hm)).2.symm
      simp [Method.calls, exec, ServerProcess.step, hnone, hm, hn]
  | notifying =>
    obtain rfl := hsane rfl
    obtain rfl : pr' = .executed := (Prod.mk.inj (Option.some.inj hm)).2.symm
    have hcall : p.caller = some (.unlock, .notifying) := by simpa using hp
    simp [Method.calls, exec, ServerProcess.step, hcall, hm]
  | executed => cases hm

/-- After a step of `c`: the other threads are where they were. -/
theorem Follows.of_step {lab : Label} (h : Follows id s p) (hx : Monitor.Exclusive s)
    (hs : Monitor.Step frontend s lab s') (hc : lab.thread = some c)
    (himpl : p'.impl = s'.shared.process id) (hcrash : s'.shared.crashed = s.shared.crashed)
    (hcaller : p'.caller = p.caller ∨ ∃ i, s.locals c = .inn i)
    (hreaders : ∀ d ≠ c, p'.readers d = p.readers d)
    (hfree : s'.lock = none → s.shared.crashed id = false → p'.caller = none)
    (hinn : ∀ i, s'.locals c = .inn i →
      i.Sane ∧ (s.shared.crashed id = false → p'.caller = i.caller id))
    (hout : ∀ w, s'.locals c = .out w → w.Sane ∧ (w.early = true → p'.readers c = none) ∧
      ∀ q r, w = .remote q id r → p'.readers c = some (q, r)) : Follows id s' p' := by
  have hother : ∀ d ≠ c, s'.locals d = s.locals d := fun d hd =>
    hs.locals_of_ne fun e => hd (Option.some.inj (hc.symm.trans e)).symm
  refine ⟨himpl, fun d i hd => ?_, fun hlock hc => hfree hlock (hcrash ▸ hc), fun d w hd => ?_⟩
  · rw [hcrash]
    by_cases hdc : d = c
    · subst hdc
      exact hinn i hd
    · have hd₀ := (hother d hdc).symm.trans hd
      rcases hcaller with hsame | ⟨j, hj⟩
      · rw [hsame]
        exact h.held d i hd₀
      · exact absurd (hx.eq_of_inn hd₀ hj) hdc
  · by_cases hdc : d = c
    · subst hdc
      exact hout w hd
    · rw [hreaders d hdc]
      exact h.out d w ((hother d hdc).symm.trans hd)

/-- A reader that enters late in the process does so in the cluster. -/
theorem Follows.entersLate {q : Query} {r : Reader} {a : ReaderAct} (h : Follows id s p)
    (hl : s.locals c = .out (.remote q id r)) (hread : p.readers c = some (q, r))
    (hc : s.shared.crashed id = false) (hlate : p.EntersLate (.read c a)) :
    s.EntersLate id (.run c (.read a)) := by
  cases a with
  | step =>
    cases r with
    | enter =>
      have hopen : ¬ p.Shut := by simpa [ServerProcess.EntersLate, hread] using hlate
      obtain ⟨hlock, hcall⟩ := not_or.mp hopen
      refine ⟨⟨q, hl⟩, ?_, fun d i hi hun => hcall ?_⟩
      · rw [← h.impl]
        simpa using hlock
      · rw [(h.held d i hi).2 hc, Inside.caller, if_pos hun]
    | _ => simp [ServerProcess.EntersLate, hread] at hlate
  | _ => exact hlate

/-- The process `p` can take the steps `as` to a process that follows `s`, and enters late at
none of them. -/
def ServerProcess.Sees (b : Prop) (id : ServerId) (p : ServerProcess)
    (as : List ServerProcess.Label) (s : System) : Prop :=
  ∃ p', exec ServerProcess.step p as = some p' ∧
    (∀ e ∈ traceOf ServerProcess.step p as, b → ¬ e.1.EntersLate e.2) ∧ Follows id s p'

theorem ServerProcess.Sees.nothing {as : List ServerProcess.Label} (has : as = [])
    (h : Follows id s p) : p.Sees b id as s := by
  subst has
  exact ⟨p, rfl, nofun, h⟩

theorem ServerProcess.Sees.one {l : ServerProcess.Label} {as : List ServerProcess.Label}
    (has : as = [l]) (hs : p.step l = some p') (hl : b → ¬ p.EntersLate l)
    (h : Follows id s p') : p.Sees b id as s := by
  subst has
  refine ⟨p', by simp [exec, hs], fun e he => ?_, h⟩
  obtain rfl : e = (p, l) := by simpa [traceOf, hs] using he
  exact hl

/-- A step outside the lock. -/
theorem Follows.outside {w w' : Outside} {a : Act} (h : Follows id s p)
    (hx : Monitor.Exclusive s) (hs : Monitor.Step frontend s (.run c a) s')
    (hl : s.locals c = .out w) (ho : w.step c s.shared a = some (s'.shared, w'))
    (hl' : s'.locals c = .out w') (hlock : s'.lock = s.lock)
    (hlate : b → ¬ s.EntersLate id (.run c a)) : p.Sees b id (s.sees id (.run c a)) s' := by
  obtain ⟨hsane, hearly, hreads⟩ := h.out c w hl
  obtain ⟨hasks, hsane'⟩ := Outside.step_asks ho hsane
  have hcrash : s'.shared.crashed = s.shared.crashed :=
    congrArg View.crashed (Outside.step_view ho)
  have hfree : s'.lock = none → s.shared.crashed id = false → p.caller = none := by
    rw [hlock]
    exact h.free
  have hnot : ∀ i, s'.locals c ≠ .inn i := fun i hi => by cases hl'.symm.trans hi
  have hseen : s.sees id (.run c a) = w.sees id c s.shared a := by simp [System.sees, hl]
  cases hasks with
  | none hp hw hkeep hsees =>
    refine .nothing (hseen.trans (hsees id)) (h.of_step hx hs rfl (by rw [h.impl, hp]) hcrash
      (.inl rfl) (fun _ _ => rfl) hfree (fun i hi => absurd hi (hnot i)) fun w₁ hw₁ => ?_)
    obtain rfl := Monitor.Local.out.inj (hl'.symm.trans hw₁)
    exact ⟨hsane', fun he => hearly (hkeep he), fun q r e => absurd e (hw q id r)⟩
  | @requests q id' hw hp hw' hsees =>
    by_cases hid : id' = id
    · subst hid
      have hstep : p.step (.request c q) =
          some { p with readers := Function.update p.readers c (some (q, .test)) } := by
        simp [ServerProcess.step, hearly hw]
      refine .one (hseen.trans ((hsees id').trans (if_pos rfl))) hstep (fun _ he => he)
        (h.of_step hx hs rfl (by rw [hp]; exact h.impl) hcrash (.inl rfl)
          (fun d hd => Function.update_of_ne hd ..) hfree (fun i hi => absurd hi (hnot i))
          fun w₁ hw₁ => ?_)
      obtain rfl := Monitor.Local.out.inj (hl'.symm.trans hw₁)
      refine ⟨hsane', fun he => ?_, fun q₁ r₁ e => ?_⟩
      · rw [hw'] at he
        cases he
      · obtain ⟨rfl, -, rfl⟩ := Outside.remote.inj (hw'.symm.trans e)
        exact Function.update_self ..
    · refine .nothing (hseen.trans ((hsees id).trans (if_neg hid))) (h.of_step hx hs rfl
        (by rw [hp]; exact h.impl) hcrash (.inl rfl) (fun _ _ => rfl) hfree
        (fun i hi => absurd hi (hnot i)) fun w₁ hw₁ => ?_)
      obtain rfl := Monitor.Local.out.inj (hl'.symm.trans hw₁)
      refine ⟨hsane', fun he => ?_, fun q₁ r₁ e => ?_⟩
      · rw [hw'] at he
        cases he
      · exact absurd (Outside.remote.inj (hw'.symm.trans e)).2.1 hid
  | @reads q id' r r' act x hw ha hc hr hp hw' =>
    have hwin : ∀ w₁, s'.locals c = .out w₁ → w₁ = .remote q id' r' := fun w₁ hw₁ =>
      (Monitor.Local.out.inj (hl'.symm.trans hw₁)).symm.trans hw'
    have hsees : w.sees id c s.shared a = if id' = id then [.read c act] else [] := by
      rw [hw, ha, Outside.sees]
    by_cases hid : id' = id
    · subst hid
      have hread := hreads q r hw
      have hstep : p.step (.read c act) = some { p with
          impl := x, readers := Function.update p.readers c (some (q, r')) } := by
        simp [ServerProcess.step, hread, h.impl, hr]
      have hok : b → ¬ p.EntersLate (.read c act) := by
        intro hb hent
        refine hlate hb ?_
        rw [ha]
        exact h.entersLate (hl.trans (congrArg _ hw)) hread hc hent
      refine .one (hseen.trans (hsees.trans (if_pos rfl))) hstep hok (h.of_step hx hs rfl
        (by rw [hp]; simp) hcrash (.inl rfl) (fun d hd => Function.update_of_ne hd ..) hfree
        (fun i hi => absurd hi (hnot i)) fun w₁ hw₁ => ?_)
      obtain rfl := hwin w₁ hw₁
      refine ⟨trivial, (fun he => by cases he), fun q₁ r₁ e => ?_⟩
      obtain ⟨rfl, -, rfl⟩ := Outside.remote.inj e
      exact Function.update_self ..
    · refine .nothing (hseen.trans (hsees.trans (if_neg hid))) (h.of_step hx hs rfl ?_ hcrash
        (.inl rfl) (fun _ _ => rfl) hfree (fun i hi => absurd hi (hnot i)) fun w₁ hw₁ => ?_)
      · rw [hp, Cluster.setProcess_process_of_ne _ (Ne.symm hid)]
        exact h.impl
      · obtain rfl := hwin w₁ hw₁
        refine ⟨trivial, (fun he => by cases he), fun q₁ r₁ e => ?_⟩
        exact absurd (Outside.remote.inj e).2.1 hid

theorem Inside.caller_eq_none {i : Inside} (h : ¬ i.Unlocking id) : i.caller id = none :=
  if_neg h

/-- A point outside the lock that a section or a call has come to. -/
theorem Exit.point_sane (e : Exit) : e.point.Sane ∧ e.point.early = false ∧
    ∀ q id r, e.point ≠ .remote q id r := by
  cases e <;> exact ⟨trivial, rfl, nofun⟩

/-- A step of a section. -/
theorem Follows.inside {i : Inside} {r : Inside ⊕ Outside} {a : Act} (h : Follows id s p)
    (hx : Monitor.Exclusive s) (hs : Monitor.Step frontend s (.run c a) s')
    (hl : s.locals c = .inn i) (hi : i.step c s.shared a = some (s'.shared, r))
    (hinn : ∀ i', r = .inl i' → s'.locals c = .inn i' ∧ s'.lock = s.lock)
    (hout : ∀ w, r = .inr w → s'.locals c = .out w) :
    p.Sees b id (s.sees id (.run c a)) s' := by
  have hmove := Inside.Move.of_step hi
  have hcrash : s'.shared.crashed = s.shared.crashed := hmove.crashed
  have hheld : s.lock = some c := (hx c).mpr ⟨i, hl⟩
  obtain ⟨hsane, hcall⟩ := h.held c i hl
  have hleave : ∀ w, r = .inr w → w.Sane ∧ w.early = false ∧ ∀ q id r, w ≠ .remote q id r := by
    rintro w rfl
    obtain ⟨e, -, -, rfl, -⟩ := hmove.leave_inv
    exact e.point_sane
  have hseen : s.sees id (.run c a) = i.sees id a := by simp [System.sees, hl]
  cases Inside.step_asks hi with
  | none hp ha hgone hr =>
    -- the process has answered, or has crashed
    have hnone : s.shared.crashed id = false → p.caller = none := fun hc => by
      rw [hcall hc, Inside.caller_eq_none fun hun => ?_]
      rw [hgone id hun] at hc
      cases hc
    have hsees : i.sees id a = [] := by
      cases hreq : i.request with
      | none => simp [Inside.sees, hreq]
      | some x => simp [Inside.sees, hreq, ha (by simp [hreq])]
    refine .nothing (hseen.trans hsees) (h.of_step hx hs rfl (by rw [hp]; exact h.impl) hcrash
      (.inl rfl) (fun _ _ => rfl) (fun _ => hnone) (fun j hj => ?_) fun w hw => ?_)
    · cases r with
      | inl i' =>
        obtain rfl := Monitor.Local.inn.inj ((hinn i' rfl).1.symm.trans hj)
        refine ⟨fun id' m e => absurd e (hr i' rfl id' m), fun hc => ?_⟩
        rw [hnone hc, Inside.caller_eq_none (hr i' rfl id .unlock)]
      | inr w => cases (hout w rfl).symm.trans hj
    · cases r with
      | inl i' => cases (hinn i' rfl).1.symm.trans hw
      | inr w' =>
        obtain rfl := Monitor.Local.out.inj ((hout w' rfl).symm.trans hw)
        obtain ⟨hws, hwe, hwr⟩ := hleave w' rfl
        refine ⟨hws, fun he => ?_, fun q r e => absurd e (hwr q id r)⟩
        rw [hwe] at he
        cases he
  | @runs id' m pr pr' q i' hreq ha hc hm hp hr hreq' =>
    subst hr
    obtain ⟨hl', hlock⟩ := hinn i' rfl
    have hsane' : i'.Sane := by
      intro id₁ m₁ e
      obtain ⟨-, rfl, rfl⟩ : id' = id₁ ∧ m = m₁ ∧ pr' = .notifying := by
        simpa using hreq'.symm.trans e
      cases pr with
      | sent => cases m <;> simp [Method.step] at hm; rfl
      | notifying => cases (Prod.mk.inj (Option.some.inj hm)).2
      | executed => cases hm
    have hfree : ∀ {p'' : ServerProcess}, s'.lock = none → s.shared.crashed id = false →
        p''.caller = none := fun hnone _ => by
      rw [hlock, hheld] at hnone
      cases hnone
    have hsees : i.sees id a = if id' = id then m.calls pr else [] := by
      simp [Inside.sees, hreq, ha]
    by_cases hid : id' = id
    · subst hid
      have hcaller : ∀ {j : Inside} {pr₁ : Progress}, j.Sane → j.request = some (id', m, pr₁) →
          j.caller id' = if pr₁ = .notifying then some (.unlock, .notifying) else none := by
        intro j pr₁ hj hjr
        by_cases hn : pr₁ = .notifying
        · subst hn
          obtain rfl := hj id' m hjr
          have hun : j.Unlocking id' := hjr
          rw [Inside.caller, if_pos rfl, if_pos hun]
        · rw [if_neg hn, Inside.caller_eq_none]
          intro hun
          obtain ⟨-, h₃⟩ : m = .unlock ∧ pr₁ = .notifying := by simpa using hjr.symm.trans hun
          exact hn h₃
      have hp₀ := (hcall hc).trans (hcaller hsane hreq)
      rw [← h.impl] at hm
      have hex := Method.exec_calls hm (fun hn => hsane id' m (hn ▸ hreq)) hp₀
      rw [hseen, hsees, if_pos rfl]
      refine ⟨_, hex, fun e he _ => ServerProcess.not_entersLate (m.calls_not_read pr) e he,
        h.of_step hx hs rfl (by rw [hp]; simp) hcrash (.inr ⟨i, hl⟩) (fun _ _ => rfl) hfree
        (fun j hj => ?_) fun w hw => ?_⟩
      · obtain rfl := Monitor.Local.inn.inj (hl'.symm.trans hj)
        exact ⟨hsane', fun _ => (hcaller hsane' hreq').symm⟩
      · cases hl'.symm.trans hw
    · have hno : ∀ {j : Inside} {pr₁ : Progress}, j.request = some (id', m, pr₁) →
          j.caller id = none := fun hjr => Inside.caller_eq_none fun hun => by
        have he := hjr.symm.trans hun
        simp only [Option.some.injEq, Prod.mk.injEq] at he
        exact hid he.1
      refine .nothing (hseen.trans (hsees.trans (if_neg hid))) (h.of_step hx hs rfl ?_ hcrash
        (.inl rfl) (fun _ _ => rfl) hfree (fun j hj => ?_) fun w hw => ?_)
      · rw [hp, Cluster.setProcess_process_of_ne _ (Ne.symm hid)]
        exact h.impl
      · obtain rfl := Monitor.Local.inn.inj (hl'.symm.trans hj)
        exact ⟨hsane', fun hc => by rw [hcall hc, hno hreq, hno hreq']⟩
      · cases hl'.symm.trans hw

/-- Each process on its own can take the steps that it sees of the cluster. -/
theorem follows_simulates (id : ServerId) (b : Prop) :
    Simulates System.step (fun s l => NoneLate l ∧ (b → ¬ s.EntersLate id l))
      ServerProcess.step (fun p l => b → ¬ p.EntersLate l) (System.sees id)
      (fun s p => Monitor.Exclusive s ∧ Follows id s p) := by
  rintro s lab s' p ⟨hnone, hlate⟩ hs ⟨hx, h⟩
  have hstep := Monitor.Step.of_step frontend hs
  have hx' := hstep.exclusive _ hx
  suffices hgoal : p.Sees b id (s.sees id lab) s' by
    obtain ⟨p', hex, hall, h'⟩ := hgoal
    exact ⟨p', hex, hall, hx', h'⟩
  have hkeep := hstep
  cases hstep with
  | outside hl ho => exact h.outside hx hkeep hl ho (Function.update_self ..) rfl hlate
  | inside hl hi =>
    refine h.inside hx hkeep hl hi (fun i' e => ?_) nofun
    obtain rfl := Sum.inl.inj e
    exact ⟨Function.update_self .., rfl⟩
  | leave hl hi =>
    refine h.inside hx hkeep hl hi nofun fun w e => ?_
    obtain rfl := Sum.inr.inj e
    exact Function.update_self ..
  | @enter c w i hl he hlock =>
    obtain ⟨bl, rfl, rfl⟩ := Outside.entry_eq_some he
    have hreq : bl.start.request = none := by cases bl <;> rfl
    have hl' : Function.update s.locals c (.inn bl.start) c = .inn bl.start :=
      Function.update_self ..
    refine .nothing rfl (h.of_step hx hkeep rfl h.impl rfl (.inl rfl) (fun _ _ => rfl) nofun
      (fun j hj => ?_) fun w hw => ?_)
    · obtain rfl := Monitor.Local.inn.inj (hl'.symm.trans hj)
      refine ⟨fun id' m e => ?_, fun hc => ?_⟩
      · cases hreq.symm.trans e
      · rw [h.free hlock hc, Inside.caller_eq_none]
        exact fun hun => by cases hreq.symm.trans hun
    · cases hl'.symm.trans hw
  | env he =>
    obtain ⟨id', rfl⟩ := hnone
    obtain rfl := Option.some.inj he
    have halive : ∀ {x}, Function.update s.shared.crashed id' true id = false →
        (s.shared.crashed id = false → x) → x := by
      intro x hc hx
      by_cases hid : id = id'
      · rw [hid, Function.update_self] at hc
        cases hc
      · exact hx (by rwa [Function.update_of_ne hid] at hc)
    exact .nothing rfl ⟨h.impl, fun c i hi => ⟨(h.held c i hi).1, fun hc =>
      halive hc (h.held c i hi).2⟩, fun hlock hc => halive hc (h.free hlock), h.out⟩

theorem Follows.of_quiet {s₀ : System} (h₀ : ∀ c, Over (s₀.locals c)) (id : ServerId) :
    Follows id s₀ (.of (s₀.shared.process id)) := by
  refine ⟨rfl, fun c i hi => ?_, fun _ _ => rfl, fun c w hw => ?_⟩
  · rcases h₀ c with hc | ⟨o, hc⟩ <;> cases hc.symm.trans hi
  · rcases h₀ c with hc | ⟨o, hc⟩ <;>
      obtain rfl := Monitor.Local.out.inj (hc.symm.trans hw)
    · exact ⟨trivial, fun _ => rfl, nofun⟩
    · exact ⟨trivial, fun _ => rfl, nofun⟩

/-- Each server of the cluster runs as a process on its own would: in every run in which no
request is left in the network, whatever else fails, the steps that its process sees are a
run of the process alone, and that run ends with the same data, lock bit and wait set and
with each reader of the server where it is in the cluster. -/
theorem process_refines {s₀ : System} {tr : Trace} (h₀ : Quiet s₀)
    (h : SystemRun (fun _ l => NoneLate l) s₀ tr s) (id : ServerId) :
    ∃ p, exec ServerProcess.step (.of (s₀.shared.process id))
        (tr.flatMap fun e => e.1.sees id e.2) = some p ∧
      p.impl = s.shared.process id ∧
      ∀ c q r, s.locals c = .out (.remote q id r) → p.readers c = some (q, r) := by
  obtain ⟨p, hex, -, -, hp⟩ := (follows_simulates id False).run
    (h.mono fun _ _ hl => ⟨hl, False.elim⟩) ⟨h₀.exclusive, Follows.of_quiet h₀.2 id⟩
  exact ⟨p, hex, hp.impl, fun c q r hc => (hp.out c _ hc).2.2 q r rfl⟩

/-- A get sees the lock of a put taken and waits.  The server executes the put, but the
first attempt throws; the `unlock` wakes the reader, and the get returns the value. -/
def getWaitsForPut : List Label :=
  [.run 1 (.call (.get 4)), .run 1 .step, .run 1 .step, .run 1 .step, .run 1 .step,
    .run 0 (.call (.put 4 7)), .enter 0] ++ loopOn 0 [.run 0 .exec] [1] ++
    [.run 1 (.read .step), .run 1 (.read .step)] ++
    loopOn 0 [.run 0 .exec, .run 0 .throw, .run 0 .exec] [1] ++
    loopOn 0 [.run 0 .exec, .run 0 .exec] [1] ++
    [.run 0 .step, .run 1 (.read .step), .run 1 (.read .step), .run 1 (.read .step), .run 1 .reply]

theorem process_refines_getWaitsForPut :
    ∃ tr s, SystemRun (fun _ l => NoneLate l) (System.fresh oneServer) tr s ∧
      s.outcome 1 = some (.returned (.pair 4 7)) ∧
      (tr.flatMap fun e => e.1.sees 1 e.2) =
        [.request 1 (.get 4), .call .lock, .exec, .reply, .read 1 .step, .read 1 .step,
          .call (.put 4 7), .exec, .reply, .call (.put 4 7), .exec, .reply,
          .call .unlock, .exec, .exec, .reply, .read 1 .step, .read 1 .step, .read 1 .step] ∧
      ∃ p, exec ServerProcess.step (.of .init) (tr.flatMap fun e => e.1.sees 1 e.2) = some p ∧
        p.impl = s.shared.process 1 ∧
        ∀ c q r, s.locals c = .out (.remote q 1 r) → p.readers c = some (q, r) := by
  have hex : ((exec System.step (System.fresh oneServer) getWaitsForPut).map fun s =>
      s.outcome 1) = some (some (.returned (.pair 4 7))) := by decide +kernel
  obtain ⟨s, hrun, hs⟩ := Run.exists_of_exec (fun _ l => NoneLate l) hex (by decide +kernel)
  exact ⟨_, s, hrun, hs, by decide +kernel, process_refines (System.fresh_quiet _) hrun 1⟩

/-- A reader sleeps at the server, if it is alive, only while it is locked or an `unlock` is
about to notify it. -/
def System.Awake (id : ServerId) (s : System) : Prop :=
  s.shared.crashed id = false → (s.shared.process id).waitSet.Nonempty →
    (s.shared.process id).isLocked = true ∨ ∃ c i, s.locals c = .inn i ∧ i.Unlocking id

theorem Follows.awake (h : Follows id s p) (hx : Monitor.Exclusive s) (hp : p.Awake) :
    s.Awake id := by
  intro halive hsleep
  rw [← h.impl] at hsleep ⊢
  rcases hp hsleep with hlock | hcall
  · exact .inl hlock
  · cases hlock : s.lock with
    | none =>
      rw [h.free hlock halive] at hcall
      cases hcall
    | some c =>
      obtain ⟨i, hi⟩ := (hx c).mp hlock
      refine .inr ⟨c, i, hi, ?_⟩
      rw [(h.held c i hi).2 halive, Inside.caller] at hcall
      by_contra hun
      rw [if_neg hun] at hcall
      cases hcall

theorem awake_of_run {s₀ : System} {tr : Trace} (h₀ : Quiet s₀)
    (hnone : (s₀.shared.process id).waitSet = ∅)
    (h : SystemRun (fun s l => NoneLate l ∧ ¬ s.EntersLate id l) s₀ tr s) : s.Awake id := by
  have hstart : (ServerProcess.of (s₀.shared.process id)).Awake := by
    intro hne
    have hempty : (ServerProcess.of (s₀.shared.process id)).impl.waitSet = ∅ := hnone
    rw [hempty] at hne
    exact absurd hne Finset.not_nonempty_empty
  obtain ⟨p, ⟨hx, hp⟩, hawake⟩ := (follows_simulates id True).transfer
    (h.mono fun _ _ hl => ⟨hl.1, fun _ => hl.2⟩) ⟨h₀.exclusive, Follows.of_quiet h₀.2 id⟩
    hstart fun t l t' hok hs ht => (ServerProcess.step_awake_iff hs ht).mpr (hok trivial)
  exact hp.awake hx hawake

/-- A reader that enters late sleeps at an open server. -/
theorem System.EntersLate.not_awake {l : Label} (h : s.EntersLate id l)
    (hs : System.step s l = some s') : ¬ s'.Awake id := by
  obtain ⟨c, rfl⟩ : ∃ c, l = .run c (.read .step) := by
    cases l with
    | run c a =>
      cases a with
      | read b => cases b <;> first | exact ⟨c, rfl⟩ | exact h.elim
      | _ => exact h.elim
    | _ => exact h.elim
  obtain ⟨⟨q, hl⟩, hopen, hno⟩ := h
  have hstep := Monitor.Step.of_step frontend hs
  have hother : ∀ d ≠ c, s'.locals d = s.locals d := fun d hd =>
    hstep.locals_of_ne fun e => hd (Option.some.inj e).symm
  cases hstep with
  | @outside _ _ w w' cl' hl₁ ho =>
    obtain rfl := Monitor.Local.out.inj (hl.symm.trans hl₁)
    change Outside.step c s.shared (.remote q id .enter) (.read .step) = some (cl', w') at ho
    have hc : s.shared.crashed id = false := by
      by_contra hc
      simp [Outside.step, hc] at ho
    obtain ⟨rfl, -⟩ : s.shared.setProcess id ((s.shared.process id).wait c) = cl' ∧
        Outside.remote q id .waiting = w' := by
      simpa [Outside.step, hc, ServerRPCImpl.read] using ho
    intro hawake
    rcases hawake hc ⟨c, by simp [ServerRPCImpl.wait]⟩ with hlock | ⟨d, i, hd, hun⟩
    · simp [hopen] at hlock
    · by_cases hdc : d = c
      · subst hdc
        cases (Function.update_self (f := s.locals) ..).symm.trans hd
      · exact hno d i ((hother d hdc).symm.trans hd) hun
  | inside hl₁ _ => cases hl.symm.trans hl₁
  | leave hl₁ _ => cases hl.symm.trans hl₁

/-- No reader of a server is ever put to sleep for good by a lost `notifyAll`, whatever
fails, if and only if no reader of the server enters its monitor late; no request may be left
in the network. -/
theorem asleep_iff {s₀ : System} {tr : Trace} (h₀ : Quiet s₀)
    (hnone : (s₀.shared.process id).waitSet = ∅) (h : SystemRun (fun _ l => NoneLate l) s₀ tr s) :
    ((∀ e ∈ tr, e.1.Awake id) ∧ s.Awake id) ↔ ∀ e ∈ tr, ¬ e.1.EntersLate id e.2 := by
  induction h with
  | nil => exact ⟨fun _ => nofun, fun _ => ⟨nofun, awake_of_run h₀ hnone .nil⟩⟩
  | @snoc tr s l s' hrun hl hs ih =>
    simp only [List.mem_append, List.mem_singleton, or_imp, forall_and, forall_eq]
    rw [← ih]
    constructor
    · rintro ⟨⟨htr, hs₁⟩, hs'⟩
      exact ⟨⟨htr, hs₁⟩, fun hlate => hlate.not_awake hs hs'⟩
    · rintro ⟨hprev, hlate⟩
      have hrun' : SystemRun (fun s l => NoneLate l ∧ ¬ s.EntersLate id l) s₀ (tr ++ [(s, l)]) s' :=
        .snoc (hrun.restrict (ih.mp hprev)) ⟨hl, hlate⟩ hs
      exact ⟨hprev, awake_of_run h₀ hnone hrun'⟩

theorem asleep_iff_getWaitsForPut :
    ∃ tr s, SystemRun (fun _ l => NoneLate l) (System.fresh oneServer) tr s ∧
      (∃ e ∈ tr, 1 ∈ (e.1.shared.process 1).waitSet) ∧
      (((∀ e ∈ tr, e.1.Awake 1) ∧ s.Awake 1) ↔ ∀ e ∈ tr, ¬ e.1.EntersLate 1 e.2) := by
  have hex : ((exec System.step (System.fresh oneServer) getWaitsForPut).map fun s =>
      s.outcome 1) = some (some (.returned (.pair 4 7))) := by decide +kernel
  obtain ⟨s, hrun, -⟩ := Run.exists_of_exec (fun _ l => NoneLate l) hex (by decide +kernel)
  exact ⟨_, s, hrun, by decide +kernel, asleep_iff (System.fresh_quiet _) rfl hrun⟩

end ReplicatedStore
