/-
What the steps of the frontend can do.

The invariants speak of the `View` of a cluster: the servers map, and of each
process its data, its lock bit and whether it has crashed.  A step outside the lock
leaves the view alone.  `Loop.Move`, `Send.Move` and `Inside.Move` list, once, what
a step inside it does to the view; the invariants are proved from these lists.
-/
import ReplicatedStore.Frontend

namespace ReplicatedStore

/-- The part of a cluster that waiting readers cannot change. -/
@[ext]
structure View where
  servers : Finmap ServerRPC
  data : ServerId → Data
  isLocked : ServerId → Bool
  crashed : ServerId → Bool
  outstanding : List Request

def Cluster.view (cl : Cluster) : View where
  servers := cl.servers
  data id := (cl.process id).data
  isLocked id := (cl.process id).isLocked
  crashed := cl.crashed
  outstanding := cl.outstanding

namespace Cluster

@[simp] theorem view_servers (cl : Cluster) : cl.view.servers = cl.servers := rfl
@[simp] theorem view_data (cl : Cluster) (id : ServerId) :
    cl.view.data id = (cl.process id).data := rfl
@[simp] theorem view_isLocked (cl : Cluster) (id : ServerId) :
    cl.view.isLocked id = (cl.process id).isLocked := rfl
@[simp] theorem view_crashed (cl : Cluster) : cl.view.crashed = cl.crashed := rfl
@[simp] theorem view_outstanding (cl : Cluster) : cl.view.outstanding = cl.outstanding := rfl

end Cluster

/-! ## Effects of methods -/

namespace View

def setData (v : View) (id : ServerId) (d : Data) : View :=
  { v with data := Function.update v.data id d }

def setLocked (v : View) (id : ServerId) (b : Bool) : View :=
  { v with isLocked := Function.update v.isLocked id b }

@[simp] theorem setData_servers (v : View) (id : ServerId) (d : Data) :
    (v.setData id d).servers = v.servers := rfl
@[simp] theorem setData_isLocked (v : View) (id : ServerId) (d : Data) :
    (v.setData id d).isLocked = v.isLocked := rfl
@[simp] theorem setData_crashed (v : View) (id : ServerId) (d : Data) :
    (v.setData id d).crashed = v.crashed := rfl
@[simp] theorem setData_outstanding (v : View) (id : ServerId) (d : Data) :
    (v.setData id d).outstanding = v.outstanding := rfl
@[simp] theorem setData_data_self (v : View) (id : ServerId) (d : Data) :
    (v.setData id d).data id = d := by simp [setData]
theorem setData_data_of_ne (v : View) {id id' : ServerId} (h : id' ≠ id) (d : Data) :
    (v.setData id d).data id' = v.data id' := by simp [setData, h]

@[simp] theorem setLocked_servers (v : View) (id : ServerId) (b : Bool) :
    (v.setLocked id b).servers = v.servers := rfl
@[simp] theorem setLocked_data (v : View) (id : ServerId) (b : Bool) :
    (v.setLocked id b).data = v.data := rfl
@[simp] theorem setLocked_crashed (v : View) (id : ServerId) (b : Bool) :
    (v.setLocked id b).crashed = v.crashed := rfl
@[simp] theorem setLocked_outstanding (v : View) (id : ServerId) (b : Bool) :
    (v.setLocked id b).outstanding = v.outstanding := rfl
@[simp] theorem setLocked_isLocked_self (v : View) (id : ServerId) (b : Bool) :
    (v.setLocked id b).isLocked id = b := by simp [setLocked]
theorem setLocked_isLocked_of_ne (v : View) {id id' : ServerId} (h : id' ≠ id) (b : Bool) :
    (v.setLocked id b).isLocked id' = v.isLocked id' := by simp [setLocked, h]

@[simp] theorem setData_eq_self (v : View) (id : ServerId) :
    v.setData id (v.data id) = v := by simp [setData]
@[simp] theorem setLocked_eq_self (v : View) (id : ServerId) :
    v.setLocked id (v.isLocked id) = v := by simp [setLocked]
@[simp] theorem setData_setLocked_eq_self (v : View) (id : ServerId) (d : Data) :
    (v.setData id d).setLocked id (v.isLocked id) = v.setData id d :=
  setLocked_eq_self (v.setData id d) id

end View

theorem Cluster.setProcess_view (cl : Cluster) (id : ServerId) (p : ServerRPCImpl) :
    (cl.setProcess id p).view = (cl.view.setData id p.data).setLocked id p.isLocked := by
  ext1
  · rfl
  · funext id'
    by_cases h : id' = id
    · subst h; simp
    · simp [setProcess_process_of_ne cl h, View.setData_data_of_ne _ h]
  · funext id'
    by_cases h : id' = id
    · subst h; simp
    · simp [setProcess_process_of_ne cl h, View.setLocked_isLocked_of_ne _ h]
  · rfl
  · rfl

/-- What a step of a method at the server `id` does to the view. -/
def Method.effect (m : Method) (pr : Progress) (id : ServerId) (v : View) : View :=
  match pr, m with
  | .sent, .put k x => v.setData id ((v.data id).insert k x)
  | .sent, .lock => v.setLocked id true
  | .sent, .unlock => v.setLocked id false
  | _, _ => v

/-- How far the method has come after the step. -/
def Method.following (m : Method) : Progress → Progress
  | .sent => if m = .unlock then .notifying else .executed
  | _ => .executed

@[simp] theorem Method.effect_sent_put (k : Key) (x : Val) (id : ServerId) (v : View) :
    (Method.put k x).effect .sent id v = v.setData id ((v.data id).insert k x) := rfl
@[simp] theorem Method.effect_sent_lock (id : ServerId) (v : View) :
    Method.lock.effect .sent id v = v.setLocked id true := rfl
@[simp] theorem Method.effect_sent_unlock (id : ServerId) (v : View) :
    Method.unlock.effect .sent id v = v.setLocked id false := rfl
@[simp] theorem Method.effect_alive (pr : Progress) (id : ServerId) (v : View) :
    Method.alive.effect pr id v = v := by
  cases pr <;> rfl
@[simp] theorem Method.effect_shutdownServer (pr : Progress) (id : ServerId) (v : View) :
    Method.shutdownServer.effect pr id v = v := by
  cases pr <;> rfl
@[simp] theorem Method.effect_notifying (m : Method) (id : ServerId) (v : View) :
    m.effect .notifying id v = v := by
  cases m <;> rfl
@[simp] theorem Method.effect_executed (m : Method) (id : ServerId) (v : View) :
    m.effect .executed id v = v := by
  cases m <;> rfl

@[simp] theorem Method.effect_servers (m : Method) (pr : Progress) (id : ServerId) (v : View) :
    (m.effect pr id v).servers = v.servers := by
  cases pr <;> cases m <;> rfl
@[simp] theorem Method.effect_crashed (m : Method) (pr : Progress) (id : ServerId) (v : View) :
    (m.effect pr id v).crashed = v.crashed := by
  cases pr <;> cases m <;> rfl
@[simp] theorem Method.effect_outstanding (m : Method) (pr : Progress) (id : ServerId)
    (v : View) : (m.effect pr id v).outstanding = v.outstanding := by
  cases pr <;> cases m <;> rfl

theorem Method.effect_data_of_ne (m : Method) (pr : Progress) {id id' : ServerId} (v : View)
    (h : id' ≠ id) : (m.effect pr id v).data id' = v.data id' := by
  cases pr <;> cases m <;> simp [View.setData_data_of_ne _ h]

theorem Method.effect_isLocked_of_ne (m : Method) (pr : Progress) {id id' : ServerId}
    (v : View) (h : id' ≠ id) : (m.effect pr id v).isLocked id' = v.isLocked id' := by
  cases pr <;> cases m <;> simp [View.setLocked_isLocked_of_ne _ h]

theorem Method.following_ne_sent (m : Method) (pr : Progress) : m.following pr ≠ .sent := by
  cases pr <;> simp only [Method.following] <;> try split
  all_goals simp

/-- The spec of a server step, in terms of the view. -/
theorem Cluster.exec_view {cl cl' : Cluster} {id : ServerId} {m : Method} {pr pr' : Progress}
    (h : cl.exec id m pr = some (cl', pr')) :
    cl.crashed id = false ∧ pr ≠ .executed ∧ pr' = m.following pr ∧
      cl'.view = m.effect pr id cl.view := by
  unfold Cluster.exec at h
  split at h
  · cases h
  · rename_i hc
    obtain ⟨⟨p, pr''⟩, hm, heq⟩ := Option.map_eq_some_iff.mp h
    obtain ⟨rfl, rfl⟩ := Prod.mk.inj heq
    have hdata : (cl.process id).data = cl.view.data id := rfl
    have hlock : (cl.process id).isLocked = cl.view.isLocked id := rfl
    cases pr with
    | sent =>
      cases m <;> simp only [Method.step, Option.some.injEq, Prod.mk.injEq] at hm <;>
        obtain ⟨rfl, rfl⟩ := hm <;>
        simp [Method.following, Cluster.setProcess_view, hc, hdata, hlock,
          -Cluster.view_data, -Cluster.view_isLocked]
    | notifying =>
      simp only [Method.step, Option.some.injEq, Prod.mk.injEq] at hm
      obtain ⟨rfl, rfl⟩ := hm
      simp [Method.following, Cluster.setProcess_view, hc, hdata, hlock,
        -Cluster.view_data, -Cluster.view_isLocked]
    | executed => simp [Method.step] at hm

/-! ## Loops -/

/-- The steps of a loop that sends `m` to every registered server. -/
inductive Loop.Move (m : Method) (swallow : Bool) (c : CallId) (v : View) :
    Loop → Act → View → Flow → Prop
  | start : Move m swallow c v .start .step v (.again (.next v.servers.keys))
  | pick {todo : Finset ServerId} {id : ServerId} (h : id ∈ todo) :
      Move m swallow c v (.next todo) (.pick id) v
        (.again (.body (todo.erase id) id (.first .sent)))
  | done : Move m swallow c v (.next ∅) .step v .done
  | exec {todo : Finset ServerId} {id : ServerId} {a : Attempt Progress}
      (hc : v.crashed id = false) (ha : a.state ≠ .executed) :
      Move m swallow c v (.body todo id a) .exec (m.effect a.state id v)
        (.again (.body todo id { a with state := m.following a.state }))
  | reply {todo : Finset ServerId} {id : ServerId} {a : Attempt Progress}
      (ha : a.state = .executed) :
      Move m swallow c v (.body todo id a) .reply v (.again (.next todo))
  | throw {todo : Finset ServerId} {id : ServerId} {a : Attempt Progress}
      (ha : v.crashed id = true ∨ a.state ≠ .notifying) :
      Move m swallow c v (.body todo id a) .throw v (Loop.failed swallow todo id a)
  | linger {todo : Finset ServerId} {id : ServerId} {a : Attempt Progress}
      (ha : a.state = .sent) :
      Move m swallow c v (.body todo id a) .linger
        { v with outstanding := v.outstanding ++ [⟨id, m, .sent, c⟩] }
        (Loop.failed swallow todo id a)

theorem Loop.Move.of_step {m : Method} {swallow : Bool} {c : CallId} {cl cl' : Cluster}
    {l : Loop} {a : Act} {f : Flow} (h : Loop.step m swallow c cl l a = some (cl', f)) :
    Loop.Move m swallow c cl.view l a cl'.view f := by
  cases l with
  | start =>
    cases a <;> simp only [Loop.step] at h <;> try contradiction
    obtain ⟨rfl, rfl⟩ := Prod.mk.inj (Option.some.inj h)
    exact .start
  | next todo =>
    cases a <;> simp only [Loop.step] at h <;> try contradiction
    · split at h
      · rename_i hempty
        obtain ⟨rfl, rfl⟩ := Prod.mk.inj (Option.some.inj h)
        subst hempty
        exact .done
      · cases h
    · split at h
      · rename_i hid
        obtain ⟨rfl, rfl⟩ := Prod.mk.inj (Option.some.inj h)
        exact .pick hid
      · cases h
  | body todo id att =>
    cases a <;> simp only [Loop.step] at h <;> try contradiction
    · obtain ⟨⟨cl'', pr'⟩, hx, heq⟩ := Option.map_eq_some_iff.mp h
      obtain ⟨rfl, rfl⟩ := Prod.mk.inj heq
      obtain ⟨hc, hpr, rfl, hv⟩ := Cluster.exec_view hx
      rw [hv]
      exact .exec hc hpr
    · split at h
      · rename_i hex
        obtain ⟨rfl, rfl⟩ := Prod.mk.inj (Option.some.inj h)
        exact .reply hex
      · cases h
    · split at h
      · rename_i hmay
        obtain ⟨rfl, rfl⟩ := Prod.mk.inj (Option.some.inj h)
        exact .throw (by simpa [Cluster.mayThrow] using hmay)
      · cases h
    · split at h
      · rename_i hsent
        obtain ⟨rfl, rfl⟩ := Prod.mk.inj (Option.some.inj h)
        exact .linger hsent
      · cases h

/-- An attempt that throws is followed by another, by the next entry, or by the end
of the loop. -/
theorem Loop.failed_cases (swallow : Bool) (todo : Finset ServerId) (id : ServerId)
    (a : Attempt Progress) :
    (a.failures < RETRIES ∧ Loop.failed swallow todo id a =
        .again (.body todo id { failures := a.failures + 1, state := .sent })) ∨
      (RETRIES ≤ a.failures ∧ swallow = true ∧
        Loop.failed swallow todo id a = .again (.next todo)) ∨
      (RETRIES ≤ a.failures ∧ swallow = false ∧ Loop.failed swallow todo id a = .raised) := by
  by_cases h : a.failures < RETRIES
  · exact .inl ⟨h, by simp [Loop.failed, Attempt.retry, h]⟩
  · cases swallow
    · exact .inr (.inr ⟨by omega, rfl, by simp [Loop.failed, Attempt.retry, h]⟩)
    · exact .inr (.inl ⟨by omega, rfl, by simp [Loop.failed, Attempt.retry, h]⟩)

/-! ## The transfer -/

/-- The steps of `sendValuesToServer`. -/
inductive Send.Move (v : View) (sender target : ServerId) : Send → SendAct → View → Send → Prop
  | start (hport : -1 ≤ serverPort target) :
      Move v sender target .sent .step v (.next (v.data sender).keys)
  | badPort (hport : ¬ -1 ≤ serverPort target) : Move v sender target .sent .step v .raised
  | visit {todo : Finset Key} {k : Key} {x : Val} (hk : k ∈ todo)
      (hx : (v.data sender).lookup k = some x) :
      Move v sender target (.next todo) (.visit k) v (.put (todo.erase k) k x (.first .sent))
  | done : Move v sender target (.next ∅) .step v .returned
  | exec {todo : Finset Key} {k : Key} {x : Val} {a : Attempt Progress}
      (hc : v.crashed target = false) (ha : a.state ≠ .executed) :
      Move v sender target (.put todo k x a) .exec ((Method.put k x).effect a.state target v)
        (.put todo k x { a with state := .executed })
  | reply {todo : Finset Key} {k : Key} {x : Val} {a : Attempt Progress}
      (ha : a.state = .executed) : Move v sender target (.put todo k x a) .reply v (.next todo)
  | retry {todo : Finset Key} {k : Key} {x : Val} {a : Attempt Progress}
      (ha : a.failures < RETRIES) :
      Move v sender target (.put todo k x a) .throw v
        (.put todo k x { failures := a.failures + 1, state := .sent })
  | giveUp {todo : Finset Key} {k : Key} {x : Val} {a : Attempt Progress}
      (ha : RETRIES ≤ a.failures) :
      Move v sender target (.put todo k x a) .throw v .raised

theorem Send.Move.of_step {cl cl' : Cluster} {sender target : ServerId} {c : CallId}
    {p p' : Send} {b : SendAct}
    (h : sendValuesToServer cl sender target c p b = some (cl', p')) :
    Send.Move cl.view sender target p b cl'.view p' := by
  cases p with
  | sent =>
    cases b <;> simp only [sendValuesToServer] at h <;> try contradiction
    by_cases hport : -1 ≤ serverPort target
    · simp only [ServerRPCClient.create, dif_pos hport, Option.some.injEq, Prod.mk.injEq] at h
      obtain ⟨rfl, rfl⟩ := h
      exact .start hport
    · simp only [ServerRPCClient.create, dif_neg hport, Option.some.injEq, Prod.mk.injEq] at h
      obtain ⟨rfl, rfl⟩ := h
      exact .badPort hport
  | next todo =>
    cases b <;> simp only [sendValuesToServer] at h <;> try contradiction
    · split at h
      · rename_i hempty
        obtain ⟨rfl, rfl⟩ := Prod.mk.inj (Option.some.inj h)
        subst hempty
        exact .done
      · cases h
    · split at h
      · rename_i hk
        obtain ⟨x, hx, heq⟩ := Option.map_eq_some_iff.mp h
        obtain ⟨rfl, rfl⟩ := Prod.mk.inj heq
        exact .visit hk hx
      · cases h
  | put todo k x a =>
    cases b <;> simp only [sendValuesToServer] at h <;> try contradiction
    · obtain ⟨⟨cl'', pr'⟩, hx, heq⟩ := Option.map_eq_some_iff.mp h
      obtain ⟨rfl, rfl⟩ := Prod.mk.inj heq
      obtain ⟨hc, hpr, rfl, hv⟩ := Cluster.exec_view hx
      rw [hv, show (Method.put k x).following a.state = .executed by
        cases a.state <;> simp [Method.following]]
      exact .exec hc hpr
    · split at h
      · rename_i hex
        obtain ⟨rfl, rfl⟩ := Prod.mk.inj (Option.some.inj h)
        exact .reply hex
      · cases h
    · split at h
      · by_cases hf : a.failures < RETRIES
        · simp only [Attempt.retry, hf, if_true, Option.some.injEq, Prod.mk.injEq] at h
          obtain ⟨rfl, rfl⟩ := h
          exact .retry hf
        · simp only [Attempt.retry, hf, if_false, Option.some.injEq, Prod.mk.injEq] at h
          obtain ⟨rfl, rfl⟩ := h
          exact .giveUp (by omega)
      · cases h
  | returned => cases b <;> simp [sendValuesToServer] at h
  | raised => cases b <;> simp [sendValuesToServer] at h

/-- An attempt at the transfer that throws is followed by another or ends the call. -/
theorem Transfer.failed_cases (id : ServerId) (rpc : ServerRPC id) (sender : ServerId)
    (a : Attempt Transfer) :
    (a.failures < RETRIES ∧ Transfer.failed id rpc sender a =
        .transfer id rpc sender { failures := a.failures + 1, state := .lookup }) ∨
      (RETRIES ≤ a.failures ∧ Transfer.failed id rpc sender a = .raise .runtime) := by
  by_cases h : a.failures < RETRIES
  · exact .inl ⟨h, by simp [Transfer.failed, Attempt.retry, h]⟩
  · exact .inr ⟨by omega, by simp [Transfer.failed, Attempt.retry, h]⟩

/-! ## Critical sections -/

/-- The steps of a thread that holds the lock. -/
inductive Inside.Move (c : CallId) (v : View) :
    Inside → Act → View → Inside ⊕ Outside → Prop
  | lock {w : Work} {l : Loop} {a : Act} {v' : View} {f : Flow}
      (h : Loop.Move .lock true c v l a v' f) :
      Move c v (.lock w l) a v' (.inl (f.point (.lock w) w.body))
  | write {k : Key} {x : Val} {l : Loop} {a : Act} {v' : View} {f : Flow}
      (h : Loop.Move (.put k x) false c v l a v' f) :
      Move c v (.write k x l) a v' (.inl (f.point (.write k x) (.unlock (.put k x) .start)))
  | unlock {w : Work} {l : Loop} {a : Act} {v' : View} {f : Flow}
      (h : Loop.Move .unlock false c v l a v' f) :
      Move c v (.unlock w l) a v' (.inl (f.point (.unlock w) w.after))
  | senderFound {id : ServerId} {rpc : ServerRPC id} {sender : ServerId} {n : Nat}
      (h : sender ∈ v.servers) :
      Move c v (.transfer id rpc sender ⟨n, .lookup⟩) .step v
        (.inl (.transfer id rpc sender ⟨n, .remote .sent⟩))
  | senderGone {id : ServerId} {rpc : ServerRPC id} {sender : ServerId} {n : Nat}
      (h : sender ∉ v.servers) :
      Move c v (.transfer id rpc sender ⟨n, .lookup⟩) .step v
        (.inl (Transfer.failed id rpc sender ⟨n, .lookup⟩))
  | send {id : ServerId} {rpc : ServerRPC id} {sender : ServerId} {n : Nat} {p p' : Send}
      {b : SendAct} {v' : View} (hc : v.crashed sender = false)
      (h : Send.Move v sender id p b v' p') :
      Move c v (.transfer id rpc sender ⟨n, .remote p⟩) (.send b) v'
        (.inl (.transfer id rpc sender ⟨n, .remote p'⟩))
  | sent {id : ServerId} {rpc : ServerRPC id} {sender : ServerId} {n : Nat} :
      Move c v (.transfer id rpc sender ⟨n, .remote .returned⟩) .reply v
        (.inl (.unlock (.addServer id rpc sender) .start))
  | transferThrow {id : ServerId} {rpc : ServerRPC id} {sender : ServerId} {n : Nat} {p : Send}
      (h : v.crashed sender = true ∨ p.mayThrow = true) :
      Move c v (.transfer id rpc sender ⟨n, .remote p⟩) .throw v
        (.inl (Transfer.failed id rpc sender ⟨n, .remote p⟩))
  | registerFirst {id : ServerId} {rpc : ServerRPC id} :
      Move c v (.registerFirst id rpc) .step { v with servers := v.servers.insert id rpc }
        (.inl (.leave (.finish (.returned .added))))
  | register {id : ServerId} {rpc : ServerRPC id} :
      Move c v (.register id rpc) .step { v with servers := v.servers.insert id rpc }
        (.inl (.leave (.finish (.returned .added))))
  | listServer (y : Reply) (hy : y.ofStore = false) :
      Move c v .listServer .step v (.inl (.leave (.finish (.returned y))))
  | shutdownFound {id : ServerId} (h : id ∈ v.servers) :
      Move c v (.shutdownLookup id) .step v (.inl (.shutdownCall id .sent))
  | shutdownMissing {id : ServerId} (h : id ∉ v.servers) :
      Move c v (.shutdownLookup id) .step v (.inl (.leave (.finish (.returned .errNoExist))))
  | shutdownExec {id : ServerId} {pr pr' : Progress} (hc : v.crashed id = false) :
      Move c v (.shutdownCall id pr) .exec v (.inl (.shutdownCall id pr'))
  | shutdownReply {id : ServerId} :
      Move c v (.shutdownCall id .executed) .reply v (.inl (.shutdownRemove id))
  | shutdownThrow {id : ServerId} {pr : Progress} :
      Move c v (.shutdownCall id pr) .throw v (.inl (.raise .runtime))
  | shutdownRemove {id : ServerId} :
      Move c v (.shutdownRemove id) .step { v with servers := v.servers.erase id }
        (.inl (.leave (.finish (.returned .stopped))))
  | beatRemove {id : ServerId} {next : Option Entry} :
      Move c v (.beatRemove id next) .step { v with servers := v.servers.erase id }
        (.inl (.leave (.resume next)))
  | leave {e : Exit} : Move c v (.leave e) .step v (.inr e.point)

theorem listServer_ofStore (ids : Finset ServerId) : (listServer ids).ofStore = false := by
  unfold listServer
  split <;> rfl

theorem Inside.Move.of_step {c : CallId} {cl cl' : Cluster} {i : Inside} {a : Act}
    {r : Inside ⊕ Outside} (h : i.step c cl a = some (cl', r)) :
    Inside.Move c cl.view i a cl'.view r := by
  cases i with
  | lock w l =>
    obtain ⟨⟨cl'', f⟩, hl, heq⟩ := Option.map_eq_some_iff.mp h
    obtain ⟨rfl, rfl⟩ := Prod.mk.inj heq
    exact .lock (Loop.Move.of_step hl)
  | write k x l =>
    obtain ⟨⟨cl'', f⟩, hl, heq⟩ := Option.map_eq_some_iff.mp h
    obtain ⟨rfl, rfl⟩ := Prod.mk.inj heq
    exact .write (Loop.Move.of_step hl)
  | unlock w l =>
    obtain ⟨⟨cl'', f⟩, hl, heq⟩ := Option.map_eq_some_iff.mp h
    obtain ⟨rfl, rfl⟩ := Prod.mk.inj heq
    exact .unlock (Loop.Move.of_step hl)
  | transfer id rpc sender att =>
    obtain ⟨n, t⟩ := att
    cases t with
    | lookup =>
      cases a <;> simp only [Inside.step] at h <;> try contradiction
      split at h
      · rename_i hs
        obtain ⟨rfl, rfl⟩ := Prod.mk.inj (Option.some.inj h)
        exact .senderFound hs
      · rename_i hs
        obtain ⟨rfl, rfl⟩ := Prod.mk.inj (Option.some.inj h)
        exact .senderGone hs
    | remote p =>
      cases a with
      | send b =>
        simp only [Inside.step] at h
        split at h
        · cases h
        · rename_i hc
          obtain ⟨⟨cl'', p'⟩, hs, heq⟩ := Option.map_eq_some_iff.mp h
          obtain ⟨rfl, rfl⟩ := Prod.mk.inj heq
          exact .send (by simpa using hc) (Send.Move.of_step hs)
      | reply =>
        cases p <;> simp only [Inside.step] at h <;> try contradiction
        obtain ⟨rfl, rfl⟩ := Prod.mk.inj (Option.some.inj h)
        exact .sent
      | throw =>
        simp only [Inside.step] at h
        split at h
        · rename_i hmay
          obtain ⟨rfl, rfl⟩ := Prod.mk.inj (Option.some.inj h)
          exact .transferThrow (by simpa using hmay)
        · cases h
      | call op => simp [Inside.step] at h
      | step => simp [Inside.step] at h
      | pick id => simp [Inside.step] at h
      | exec => simp [Inside.step] at h
      | linger => simp [Inside.step] at h
      | read b => simp [Inside.step] at h
  | registerFirst id rpc =>
    cases a <;> simp only [Inside.step] at h <;> try contradiction
    obtain ⟨rfl, rfl⟩ := Prod.mk.inj (Option.some.inj h)
    exact .registerFirst
  | register id rpc =>
    cases a <;> simp only [Inside.step] at h <;> try contradiction
    obtain ⟨rfl, rfl⟩ := Prod.mk.inj (Option.some.inj h)
    exact .register
  | listServer =>
    cases a <;> simp only [Inside.step] at h <;> try contradiction
    obtain ⟨rfl, rfl⟩ := Prod.mk.inj (Option.some.inj h)
    exact .listServer _ (listServer_ofStore _)
  | shutdownLookup id =>
    cases a <;> simp only [Inside.step] at h <;> try contradiction
    split at h
    · rename_i hid
      obtain ⟨rfl, rfl⟩ := Prod.mk.inj (Option.some.inj h)
      exact .shutdownFound hid
    · rename_i hid
      obtain ⟨rfl, rfl⟩ := Prod.mk.inj (Option.some.inj h)
      exact .shutdownMissing hid
  | shutdownCall id pr =>
    cases a with
    | exec =>
      obtain ⟨⟨cl'', pr'⟩, hx, heq⟩ := Option.map_eq_some_iff.mp h
      obtain ⟨rfl, rfl⟩ := Prod.mk.inj heq
      obtain ⟨hc, _, _, hv⟩ := Cluster.exec_view hx
      rw [hv, Method.effect_shutdownServer]
      exact .shutdownExec hc
    | reply =>
      cases pr <;> simp only [Inside.step] at h <;> try contradiction
      obtain ⟨rfl, rfl⟩ := Prod.mk.inj (Option.some.inj h)
      exact .shutdownReply
    | throw =>
      simp only [Inside.step] at h
      split at h
      · obtain ⟨rfl, rfl⟩ := Prod.mk.inj (Option.some.inj h)
        exact .shutdownThrow
      · cases h
    | call op => cases pr <;> simp [Inside.step] at h
    | step => cases pr <;> simp [Inside.step] at h
    | pick id => cases pr <;> simp [Inside.step] at h
    | linger => cases pr <;> simp [Inside.step] at h
    | read b => cases pr <;> simp [Inside.step] at h
    | send b => cases pr <;> simp [Inside.step] at h
  | shutdownRemove id =>
    cases a <;> simp only [Inside.step] at h <;> try contradiction
    obtain ⟨rfl, rfl⟩ := Prod.mk.inj (Option.some.inj h)
    exact .shutdownRemove
  | beatRemove id next =>
    cases a <;> simp only [Inside.step] at h <;> try contradiction
    obtain ⟨rfl, rfl⟩ := Prod.mk.inj (Option.some.inj h)
    exact .beatRemove
  | leave e =>
    cases a <;> simp only [Inside.step] at h <;> try contradiction
    obtain ⟨rfl, rfl⟩ := Prod.mk.inj (Option.some.inj h)
    exact .leave

/-- A registration without transfer is the first step of its section. -/
theorem Inside.Move.not_registerFirst {c : CallId} {v v' : View} {i i' : Inside} {a : Act}
    (h : Inside.Move c v i a v' (.inl i')) (id : ServerId) (rpc : ServerRPC id) :
    i' ≠ .registerFirst id rpc := by
  rintro rfl
  generalize hr : (Sum.inl (Inside.registerFirst id rpc) : Inside ⊕ Outside) = r at h
  cases h with
  | @lock w l a v' f _ => cases f <;> cases w <;> cases hr
  | @write k x l a v' f _ => cases f <;> cases hr
  | @unlock w l a v' f _ => cases f <;> cases w <;> cases hr
  | @senderGone id rpc sender n _ =>
    rcases Transfer.failed_cases id rpc sender ⟨n, .lookup⟩ with ⟨_, e⟩ | ⟨_, e⟩ <;>
      rw [e] at hr <;> cases hr
  | @transferThrow id rpc sender n p _ =>
    rcases Transfer.failed_cases id rpc sender ⟨n, .remote p⟩ with ⟨_, e⟩ | ⟨_, e⟩ <;>
      rw [e] at hr <;> cases hr
  | _ => cases hr

/-- A critical section ends at one point. -/
theorem Inside.Move.leave_inv {c : CallId} {v v' : View} {i : Inside} {a : Act} {w : Outside}
    (h : Inside.Move c v i a v' (.inr w)) :
    ∃ e, i = .leave e ∧ a = .step ∧ w = e.point ∧ v' = v := by
  generalize hr : (Sum.inr w : Inside ⊕ Outside) = r at h
  cases h with
  | @leave e =>
    obtain rfl := Sum.inr.inj hr
    exact ⟨e, rfl, rfl, rfl, rfl⟩
  | _ => cases hr

/-- A section ends at `leave`. -/
theorem Inside.Move.not_leave {c : CallId} {v v' : View} {i i' : Inside} {a : Act}
    (h : Inside.Move c v i a v' (.inl i')) (e : Exit) : i ≠ .leave e := by
  rintro rfl
  generalize hr : (Sum.inl i' : Inside ⊕ Outside) = r at h
  cases h
  cases hr

/-- The two points that remove an entry from the servers map. -/
theorem Inside.Move.removes {c : CallId} {v v' : View} {i : Inside} {a : Act}
    {r : Inside ⊕ Outside} (h : Inside.Move c v i a v' r) {id : ServerId}
    (hid : id ∈ v.servers) (hn : id ∉ v'.servers) :
    a = .step ∧ (i = .shutdownRemove id ∨ ∃ next, i = .beatRemove id next) := by
  have hloop : ∀ {m sw l f}, Loop.Move m sw c v l a v' f → id ∈ v'.servers := fun h => by
    cases h <;> simpa using hid
  have herase : ∀ {id'}, id ∉ v.servers.erase id' → id = id' := fun {id'} hn => by
    by_contra hne
    exact hn (Finmap.mem_erase.mpr ⟨hne, hid⟩)
  cases h with
  | lock h => exact absurd (hloop h) hn
  | write h => exact absurd (hloop h) hn
  | unlock h => exact absurd (hloop h) hn
  | send _ h => cases h <;> exact absurd (by simpa using hid) hn
  | registerFirst => exact absurd (Finmap.mem_insert.mpr (.inr hid)) hn
  | register => exact absurd (Finmap.mem_insert.mpr (.inr hid)) hn
  | shutdownRemove =>
    obtain rfl := herase hn
    exact ⟨rfl, .inl rfl⟩
  | beatRemove =>
    obtain rfl := herase hn
    exact ⟨rfl, .inr ⟨_, rfl⟩⟩
  | _ => exact absurd hid hn

/-- A block is entered from the point that waits for it. -/
theorem Outside.entry_eq_some {w : Outside} {i : Inside} (h : w.entry = some i) :
    ∃ b, w = .synchronized b ∧ i = b.start := by
  cases w <;> simp only [Outside.entry, Option.some.injEq] at h <;> try contradiction
  exact ⟨_, rfl, h.symm⟩

/-! ## The environment -/

/-- A crash, or a step of a request that was left in the network. -/
inductive Event.Move (v : View) : Event → View → Prop
  | crash {id : ServerId} :
      Move v (.crash id) { v with crashed := Function.update v.crashed id true }
  | deliver {n : Nat} {r : Request} (hr : v.outstanding[n]? = some r)
      (hc : v.crashed r.serverId = false) (hp : r.progress ≠ .executed) :
      Move v (.deliver n)
        { r.method.effect r.progress r.serverId v with
          outstanding := delivered v.outstanding n r (r.method.following r.progress) }

/-- What happens to a request left in the network. -/
theorem mem_delivered {rest : List Request} {n : Nat} {r r' : Request} {pr : Progress}
    (hr : rest[n]? = some r) (h : r' ∈ delivered rest n r pr) :
    ∃ r'' ∈ rest, r''.serverId = r'.serverId ∧ r''.method = r'.method ∧
      r''.caller = r'.caller := by
  unfold delivered at h
  split at h
  · exact ⟨r', List.mem_of_mem_eraseIdx h, rfl, rfl, rfl⟩
  · rcases List.mem_or_eq_of_mem_set h with h | rfl
    · exact ⟨r', h, rfl, rfl, rfl⟩
    · exact ⟨r, List.mem_of_getElem? hr, rfl, rfl, rfl⟩

theorem Event.Move.of_step {cl cl' : Cluster} {e : Event} (h : cl.env e = some cl') :
    Event.Move cl.view e cl'.view := by
  cases e with
  | crash id =>
    obtain rfl := Option.some.inj h
    exact .crash
  | deliver n =>
    simp only [Cluster.env] at h
    split at h
    · rename_i r hr
      obtain ⟨⟨cl'', pr⟩, hx, rfl⟩ := Option.map_eq_some_iff.mp h
      obtain ⟨hc, hp, rfl, hv⟩ := Cluster.exec_view hx
      have hview : ∀ rest, ({ cl'' with outstanding := rest } : Cluster).view =
          { cl''.view with outstanding := rest } := fun _ => rfl
      rw [hview, hv]
      exact .deliver hr hc hp
    · cases h

theorem Event.Move.servers {v v' : View} {e : Event} (h : Event.Move v e v') :
    v'.servers = v.servers := by
  cases h <;> simp

/-! ## Steps outside the lock -/

/-- A thread outside the lock leaves the view alone. -/
theorem Outside.step_view {c : CallId} {cl cl' : Cluster} {w w' : Outside} {a : Act}
    (h : w.step c cl a = some (cl', w')) : cl'.view = cl.view := by
  cases w with
  | remote q id r =>
    cases a with
    | read b =>
      simp only [Outside.step] at h
      split at h
      · cases h
      · obtain ⟨⟨p, r'⟩, hr, heq⟩ := Option.map_eq_some_iff.mp h
        obtain ⟨rfl, rfl⟩ := Prod.mk.inj heq
        obtain ⟨hd, hl⟩ := ServerRPCImpl.read_frame hr
        rw [Cluster.setProcess_view, hd, hl]
        simp [View.setData, View.setLocked, Cluster.view]
    | reply =>
      cases r <;> simp only [Outside.step] at h <;> try contradiction
      obtain ⟨rfl, rfl⟩ := Prod.mk.inj (Option.some.inj h)
      rfl
    | throw =>
      obtain ⟨rfl, rfl⟩ := Prod.mk.inj (Option.some.inj h)
      rfl
    | call op => simp [Outside.step] at h
    | step => simp [Outside.step] at h
    | pick id => simp [Outside.step] at h
    | exec => simp [Outside.step] at h
    | linger => simp [Outside.step] at h
    | send b => simp [Outside.step] at h
  | beatAlive e next att =>
    cases a with
    | exec =>
      obtain ⟨⟨cl'', pr'⟩, hx, heq⟩ := Option.map_eq_some_iff.mp h
      obtain ⟨rfl, rfl⟩ := Prod.mk.inj heq
      obtain ⟨_, _, _, hv⟩ := Cluster.exec_view hx
      rw [hv, Method.effect_alive]
    | reply =>
      simp only [Outside.step] at h
      split at h
      · obtain ⟨rfl, rfl⟩ := Prod.mk.inj (Option.some.inj h)
        rfl
      · cases h
    | throw =>
      simp only [Outside.step] at h
      repeat' split at h
      all_goals first
        | contradiction
        | (obtain ⟨rfl, rfl⟩ := Prod.mk.inj (Option.some.inj h); rfl)
    | call op => simp [Outside.step] at h
    | step => simp [Outside.step] at h
    | pick id => simp [Outside.step] at h
    | linger => simp [Outside.step] at h
    | read b => simp [Outside.step] at h
    | send b => simp [Outside.step] at h
  | beatNext next =>
    cases next <;> cases a <;> simp only [Outside.step] at h <;> try contradiction
    all_goals first
      | (obtain ⟨rpc, _, heq⟩ := Option.map_eq_some_iff.mp h
         obtain ⟨rfl, rfl⟩ := Prod.mk.inj heq
         rfl)
      | (obtain ⟨rfl, rfl⟩ := Prod.mk.inj (Option.some.inj h); rfl)
  | _ =>
    cases a <;> simp only [Outside.step] at h <;> try contradiction
    all_goals repeat' split at h
    all_goals first
      | contradiction
      | (obtain ⟨rfl, rfl⟩ := Prod.mk.inj (Option.some.inj h); rfl)

/-- The points of the heartbeat. -/
def Outside.beats : Outside → Bool
  | .beatNext _ | .beatAlive _ _ _ => true
  | _ => false

/-- The steps of a thread that does not hold the lock.  A reader takes its step on a
process `p` with the data and the lock bit of the view. -/
inductive Outside.Move (c : CallId) (v : View) : Outside → Act → Outside → Prop
  | call {op : Op} : Move c v .idle (.call op) op.start
  | size {k : Key} {i : Int32} : Move c v (.getSize k) .step (.getKeys k i)
  | keys {k : Key} {i : Int32} {id : ServerId} : Move c v (.getKeys k i) .step (.getCheck k id)
  | check {k : Key} {id : ServerId} (h : id ∈ v.servers) :
      Move c v (.getCheck k id) .step (.getLookup k id)
  | lookup {k : Key} {id : ServerId} (h : id ∈ v.servers) :
      Move c v (.getLookup k id) .step (.remote (.get k) id .test)
  | print {id : ServerId} (h : id ∈ v.servers) :
      Move c v (.printLookup id) .step (.remote .printKVPairs id .test)
  | read {q : Query} {id : ServerId} {r r' : Reader} {b : ReaderAct} {p p' : ServerRPCImpl}
      (hd : p.data = v.data id) (hl : p.isLocked = v.isLocked id)
      (h : p.read q c r b = some (p', r')) : Move c v (.remote q id r) (.read b) (.remote q id r')
  | reply {q : Query} {id : ServerId} {y : Reply} :
      Move c v (.remote q id (.answered y)) .reply (.finished (.returned y))
  | fails {w : Outside} {a : Act} {e : Exn} : Move c v w a (.finished (.threw e))
  | missing {w : Outside} : Move c v w .step (.finished (.returned .errNoExist))
  | refuses {id : ServerId} {y : Reply}
      (hy : y = .alreadyExists id ∨ ∃ message, y = .notAccepting id message) :
      Move c v (.addContains id) .step (.finished (.returned y))
  | contains {id : ServerId} {rpc : ServerRPC id} (h : id ∉ v.servers) :
      Move c v (.addContains id) .step (.addFindFirst id rpc)
  | findsNone {id : ServerId} {rpc : ServerRPC id} (h : v.servers.keys = ∅) :
      Move c v (.addFindFirst id rpc) .step (.synchronized (.registerFirst id rpc))
  | finds {id : ServerId} {rpc : ServerRPC id} {sender : ServerId} (h : sender ∈ v.servers) :
      Move c v (.addFindFirst id rpc) (.pick sender)
        (.synchronized (.withLock (.addServer id rpc sender)))
  | beat {w w' : Outside} {a : Act} (hw : w.beats = true) (hw' : w'.beats = true) :
      Move c v w a w'
  | beatGivesUp {e : Entry} {next : Option Entry} {att : Attempt Progress} :
      Move c v (.beatAlive e next att) .throw (.synchronized (.beatRemove e.1 next))

theorem Outside.Move.of_step {c : CallId} {cl cl' : Cluster} {w w' : Outside} {a : Act}
    (h : w.step c cl a = some (cl', w')) : Outside.Move c cl.view w a w' := by
  cases w with
  | idle =>
    cases a <;> simp only [Outside.step] at h <;> try contradiction
    obtain ⟨-, rfl⟩ := Prod.mk.inj (Option.some.inj h)
    exact .call
  | synchronized b => cases a <;> simp [Outside.step] at h
  | getSize k =>
    cases a <;> simp only [Outside.step] at h <;> try contradiction
    split at h
    all_goals obtain ⟨-, rfl⟩ := Prod.mk.inj (Option.some.inj h)
    · exact .size
    · exact .fails
  | getKeys k i =>
    cases a <;> simp only [Outside.step] at h <;> try contradiction
    split at h
    all_goals obtain ⟨-, rfl⟩ := Prod.mk.inj (Option.some.inj h)
    · exact .keys
    · exact .fails
  | getCheck k id =>
    cases a <;> simp only [Outside.step] at h <;> try contradiction
    split at h
    all_goals obtain ⟨-, rfl⟩ := Prod.mk.inj (Option.some.inj h)
    · exact .check ‹_›
    · exact .missing
  | getLookup k id =>
    cases a <;> simp only [Outside.step] at h <;> try contradiction
    split at h
    all_goals obtain ⟨-, rfl⟩ := Prod.mk.inj (Option.some.inj h)
    · exact .lookup ‹_›
    · exact .fails
  | printLookup id =>
    cases a <;> simp only [Outside.step] at h <;> try contradiction
    split at h
    all_goals obtain ⟨-, rfl⟩ := Prod.mk.inj (Option.some.inj h)
    · exact .print ‹_›
    · exact .missing
  | remote q id r =>
    cases a with
    | read b =>
      simp only [Outside.step] at h
      split at h
      · cases h
      · obtain ⟨⟨p, r'⟩, hr, heq⟩ := Option.map_eq_some_iff.mp h
        obtain ⟨-, rfl⟩ := Prod.mk.inj heq
        exact .read rfl rfl hr
    | reply =>
      cases r <;> simp only [Outside.step] at h <;> try contradiction
      obtain ⟨-, rfl⟩ := Prod.mk.inj (Option.some.inj h)
      exact .reply
    | throw =>
      obtain ⟨-, rfl⟩ := Prod.mk.inj (Option.some.inj h)
      exact .fails
    | call op => simp [Outside.step] at h
    | step => simp [Outside.step] at h
    | pick id => simp [Outside.step] at h
    | exec => simp [Outside.step] at h
    | linger => simp [Outside.step] at h
    | send b => simp [Outside.step] at h
  | addContains id =>
    cases a <;> simp only [Outside.step] at h <;> try contradiction
    split at h
    · obtain ⟨-, rfl⟩ := Prod.mk.inj (Option.some.inj h)
      exact .refuses (.inl rfl)
    · split at h
      all_goals obtain ⟨-, rfl⟩ := Prod.mk.inj (Option.some.inj h)
      · exact .contains ‹_›
      · exact .refuses (.inr ⟨_, rfl⟩)
  | addFindFirst id rpc =>
    cases a <;> simp only [Outside.step] at h <;> try contradiction
    all_goals split at h <;> try contradiction
    all_goals obtain ⟨-, rfl⟩ := Prod.mk.inj (Option.some.inj h)
    · exact .findsNone ‹_›
    · exact .finds ‹_›
  | beatNext next =>
    cases next <;> cases a <;> simp only [Outside.step] at h <;> try contradiction
    all_goals first
      | (obtain ⟨rpc, _, heq⟩ := Option.map_eq_some_iff.mp h
         obtain ⟨-, rfl⟩ := Prod.mk.inj heq
         exact .beat rfl rfl)
      | (obtain ⟨-, rfl⟩ := Prod.mk.inj (Option.some.inj h); exact .beat rfl rfl)
  | beatAlive e next att =>
    cases a with
    | exec =>
      obtain ⟨⟨cl'', pr'⟩, hx, heq⟩ := Option.map_eq_some_iff.mp h
      obtain ⟨-, rfl⟩ := Prod.mk.inj heq
      exact .beat rfl rfl
    | reply =>
      simp only [Outside.step] at h
      split at h
      · obtain ⟨-, rfl⟩ := Prod.mk.inj (Option.some.inj h)
        exact .beat rfl rfl
      · cases h
    | throw =>
      simp only [Outside.step] at h
      repeat' split at h
      · obtain ⟨-, rfl⟩ := Prod.mk.inj (Option.some.inj h)
        exact .beat rfl rfl
      · obtain ⟨-, rfl⟩ := Prod.mk.inj (Option.some.inj h)
        exact .beatGivesUp
      · cases h
    | call op => simp [Outside.step] at h
    | step => simp [Outside.step] at h
    | pick id => simp [Outside.step] at h
    | linger => simp [Outside.step] at h
    | read b => simp [Outside.step] at h
    | send b => simp [Outside.step] at h
  | finished o => cases a <;> simp [Outside.step] at h

/-- A thread that waits for `serversLock` takes no step outside. -/
theorem Outside.not_synchronized {c : CallId} {cl cl' : Cluster} {w w' : Outside} {a : Act}
    (h : w.step c cl a = some (cl', w')) (b : Block) : w ≠ .synchronized b := by
  rintro rfl
  cases a <;> simp [Outside.step] at h

/-- While a thread holds `serversLock` only the environment changes the view. -/
theorem view_of_others {s s' : System} {l : Label} {p : CallId} {i : Inside}
    (hx : Lib.Monitor.Exclusive s) (hl : s.locals p = .inn i)
    (hs : Lib.Monitor.Step frontend s l s') (hne : l.thread ≠ some p) :
    s'.shared.view = s.shared.view ∨
      ∃ e, l = .env e ∧ Event.Move s.shared.view e s'.shared.view := by
  cases hs with
  | outside _ ho => exact .inl (Outside.step_view ho)
  | inside hl' _ => exact absurd (congrArg some (hx.eq_of_inn hl' hl)) hne
  | leave hl' _ => exact absurd (congrArg some (hx.eq_of_inn hl' hl)) hne
  | enter _ _ _ => exact .inl rfl
  | env he => exact .inr ⟨_, rfl, Event.Move.of_step he⟩

/-! ## Calls -/

theorem Inside.Move.not_call {c : CallId} {v v' : View} {i : Inside} {a : Act}
    {r : Inside ⊕ Outside} (h : Inside.Move c v i a v' r) (op : Op) : a ≠ .call op := by
  rintro rfl
  cases h with
  | lock h => cases h
  | write h => cases h
  | unlock h => cases h

/-- A call is made by a thread that has not been started. -/
theorem call_start {s s' : System} {c : CallId} {op : Op}
    (h : Lib.Monitor.Step frontend s (.run c (.call op)) s') :
    s.locals c = .out .idle ∧ s'.shared = s.shared ∧ s'.locals c = .out op.start := by
  cases hl : s.locals c with
  | inn i =>
    rcases h.of_inn hl with ⟨hne, _⟩ | ⟨a, i', hlab, hi, _⟩ | ⟨a, w, hlab, hi, _⟩
    · exact absurd rfl hne
    · obtain rfl := (Lib.Monitor.Label.run.inj hlab).2
      exact absurd rfl ((Inside.Move.of_step hi).not_call op)
    · obtain rfl := (Lib.Monitor.Label.run.inj hlab).2
      exact absurd rfl ((Inside.Move.of_step hi).not_call op)
  | out w =>
    rcases h.of_out hl with ⟨hne, _⟩ | ⟨a, w', hlab, ho, h'⟩ | ⟨i, hlab, _⟩
    · exact absurd rfl hne
    · obtain rfl := (Lib.Monitor.Label.run.inj hlab).2
      cases w <;> simp only [frontend, Outside.step] at ho <;> try contradiction
      obtain ⟨hshared, rfl⟩ := Prod.mk.inj (Option.some.inj ho)
      exact ⟨rfl, hshared.symm, h'⟩
    · cases hlab

/-- A call that is over takes no step. -/
theorem finished_thread {s s' : System} {l : Label} {p : CallId} {o : Outcome}
    (hs : Lib.Monitor.Step frontend s l s') (hl : s.locals p = .out (.finished o)) :
    l.thread ≠ some p := by
  rcases hs.of_out hl with ⟨hne, _⟩ | ⟨a, w', _, ho, _⟩ | ⟨i, _, he, _⟩
  · exact hne
  · cases a <;> simp [frontend, Outside.step] at ho
  · simp [frontend, Outside.entry] at he

theorem finished_stays {s s' : System} {l : Label} {p : CallId} {o : Outcome}
    (hs : Lib.Monitor.Step frontend s l s') (hl : s.locals p = .out (.finished o)) :
    s'.locals p = .out (.finished o) :=
  (hs.locals_of_ne (finished_thread hs hl)).trans hl

/-- A call that leaves its critical section with an outcome ends with it. -/
theorem decided_stays {s s' : System} {l : Label} {c : CallId} {o : Outcome}
    (hs : Lib.Monitor.Step frontend s l s')
    (h : s.locals c = .inn (.leave (.finish o)) ∨ s.locals c = .out (.finished o)) :
    s'.locals c = .inn (.leave (.finish o)) ∨ s'.locals c = .out (.finished o) := by
  rcases h with hl | hl
  · rcases hs.of_inn hl with ⟨_, h'⟩ | ⟨a, i', _, hi, h'⟩ | ⟨a, w, _, hi, h'⟩
    · exact .inl h'
    · exact absurd rfl ((Inside.Move.of_step hi).not_leave (.finish o))
    · obtain ⟨e, he, _, rfl, _⟩ := (Inside.Move.of_step hi).leave_inv
      obtain rfl := Inside.leave.inj he
      exact .inr h'
  · exact .inr (finished_stays hs hl)

/-- A put enters its critical section at the first point of its lock phase. -/
theorem put_enters {s s' : System} {c : CallId} {k : Key} {x : Val}
    (hs : Lib.Monitor.Step frontend s (.enter c) s')
    (hl : s.locals c = .out (Op.put k x).start) :
    s'.shared = s.shared ∧ s'.locals c = .inn (.lock (.put k x) .start) := by
  rcases hs.of_out hl with ⟨hne, _⟩ | ⟨a, w', hlab, _⟩ | ⟨i, _, he, _, hsh, hi⟩
  · exact absurd rfl hne
  · cases hlab
  · obtain rfl := Option.some.inj he
    exact ⟨hsh, hi⟩

end ReplicatedStore
