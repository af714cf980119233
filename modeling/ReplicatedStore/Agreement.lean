/-
The replicated map.

The abstract store is one map.  `Inside.Replicates m` relates it to the registered
servers at each point of a critical section: outside the write phase every one of
them holds `m`, and in the write phase of `put(k, x)`, whose put is already in `m`,
every one holds `m` up to the binding of `k`.  A step without failures keeps the
relation, and moves `m` only when a put has locked the servers.

A server joins without failures and yet with another map in two cases.  A call that
found no sender registers its server without a transfer, though others may have been
registered and written to since.  And a transfer does not remove the keys that a
rejoining server has kept and the sender lacks.
-/
import ReplicatedStore.Loops
import ReplicatedStore.Runs

namespace ReplicatedStore

open Lib

/-- Every registered server holds `m`. -/
def View.Store (v : View) (m : Data) : Prop := ∀ id ∈ v.servers, v.data id = m

/-- The map `d` has every binding of `m`. -/
def Contains (d m : Data) : Prop := ∀ k x, m.lookup k = some x → d.lookup k = some x

/-- The map `d` has no key that `m` lacks. -/
def Covered (d m : Data) : Prop := ∀ k, m.lookup k = none → d.lookup k = none

theorem Contains.eq_of_covered {d m : Data} (h : Contains d m) (hc : Covered d m) : d = m := by
  refine Finmap.ext_lookup fun k => ?_
  cases hm : m.lookup k with
  | none => exact hc k hm
  | some x => exact h k x hm

theorem Covered.insert {d m : Data} (h : Covered d m) {k : Key} {x : Val}
    (hk : m.lookup k = some x) : Covered (d.insert k x) m := by
  intro k' hk'
  have hne : k' ≠ k := by
    rintro rfl
    rw [hk] at hk'
    cases hk'
  simpa [hne] using h k' hk'

theorem Covered.mono_insert {d m : Data} (h : Covered d m) (k : Key) (x : Val) :
    Covered d (m.insert k x) := by
  intro k' hk'
  by_cases hne : k' = k
  · subst hne; simp at hk'
  · exact h k' (by simpa [hne] using hk')

/-- The abstract map after a step: a put takes effect when its lock phase ends. -/
def Inside.commit (m : Data) : Inside → Act → Data
  | .lock (.put k x) (.next _), .step => m.insert k x
  | _, _ => m

/-- How the registered servers stand to the abstract map. -/
def Inside.Replicates (m : Data) (v : View) : Inside → Prop
  | .write k x l => l.Within v ∧ (∀ id ∈ v.servers, (v.data id).insert k x = m) ∧
      l.Swept (fun id v => v.data id = m) v
  | .transfer id _ sender a => v.Store m ∧
      match a.state with
      | .lookup => True
      | .remote p => sender ∈ v.servers ∧ p ≠ .raised ∧ p.Copied m (v.data id)
  | .unlock (.addServer id _ sender) _ =>
      v.Store m ∧ sender ∈ v.servers ∧ Contains (v.data id) m
  | .register id _ => v.Store m ∧ (∃ sender, sender ∈ v.servers) ∧ Contains (v.data id) m
  | _ => v.Store m

theorem Block.replicates {m : Data} {v : View} (b : Block) (h : v.Store m) :
    b.start.Replicates m v := by
  cases b <;> exact h

variable {m : Data} {c : CallId} {v v' : View}

theorem View.Store.of_eq (h : v.Store m) (hs : v'.servers = v.servers)
    (hd : v'.data = v.data) : v'.Store m := by
  intro id hid
  rw [hd]
  exact h id (hs ▸ hid)

/-- A put does not take effect before the end of its lock phase. -/
theorem Loop.Move.commit_again {me : Method} {sw : Bool} {l l' : Loop} {a : Act} {w : Work}
    (h : Loop.Move me sw c v l a v' (.again l')) : (Inside.lock w l).commit m a = m := by
  generalize hf : Flow.again l' = f at h
  cases h with
  | done => cases hf
  | _ => cases w <;> rfl

/-- Without failures no loop gives up. -/
theorem Loop.Move.not_raised {me : Method} {sw : Bool} {l : Loop} {a : Act}
    (h : Loop.Move me sw c v l a v' .raised) : a.faulty = true := by
  obtain ⟨_, _, _, _, _, _, ⟨rfl, _⟩ | ⟨rfl, _⟩⟩ := h.raised_inv <;> rfl

/-- The write phase of `put(k, x)`. -/
theorem Loop.Move.writes {k : Key} {x : Val} {sw : Bool} {l : Loop} {a : Act} {f : Flow}
    (h : Loop.Move (.put k x) sw c v l a v' f) (hw : l.Within v)
    (hd : ∀ id ∈ v.servers, (v.data id).insert k x = m) :
    ∀ id ∈ v'.servers, (v'.data id).insert k x = m := by
  intro id hid
  rw [h.servers] at hid
  cases h with
  | @exec todo id' att _ _ =>
    by_cases he : id = id'
    · subst he
      cases hst : att.state <;> simp [hd id hid]
      simp [← hd id hid]
    · rw [Method.effect_data_of_ne _ _ _ he]
      exact hd id hid
  | _ => exact hd id hid

/-- A server that holds the new map keeps it. -/
theorem Loop.Move.keeps_written {k : Key} {x : Val} {sw : Bool} {l : Loop} {a : Act} {f : Flow}
    (h : Loop.Move (.put k x) sw c v l a v' f) (hw : l.Within v)
    (hd : ∀ id ∈ v.servers, (v.data id).insert k x = m) {id : ServerId}
    (hid : v.data id = m) : v'.data id = m := by
  cases h with
  | @exec todo id' att _ _ =>
    by_cases he : id = id'
    · subst he
      have hm : m.insert k x = m := by
        conv_lhs => rw [← hid]
        exact hd id hw.mem_servers
      cases att.state with
      | sent => rw [Method.effect_sent_put, View.setData_data_self, hid, hm]
      | notifying => exact hid
      | executed => exact hid
    · rw [Method.effect_data_of_ne _ _ _ he]
      exact hid
  | _ => exact hid

theorem Send.Move.store {sender target : ServerId} {p p' : Send} {b : SendAct}
    (h : Send.Move v sender target p b v' p') (hs : sender ∈ v.servers) (hst : v.Store m)
    (hp : p.Copied m (v.data target)) : v'.Store m := by
  intro id hid
  rw [h.servers] at hid
  have hm : v.data sender = m := hst sender hs
  rcases h.data (hm ▸ hp) with rfl | ⟨k, x, hk, rfl⟩
  · exact hst id hid
  · by_cases he : id = target
    · subst he
      have hid' : v.data id = m := hst id hid
      rw [View.setData_data_self, hid', Lib.insert_of_lookup (by rw [← hm]; exact hk)]
    · rw [View.setData_data_of_ne _ he]
      exact hst id hid

/-- A step without failures keeps the relation to the abstract map.  Registering asks
that the joining server holds the abstract map. -/
theorem Inside.Move.replicates {i : Inside} {a : Act} {r : Inside ⊕ Outside}
    (h : Inside.Move c v i a v' r) (hi : i.Replicates m v) (ha : a.faulty = false)
    (hfirst : ∀ id rpc, i = .registerFirst id rpc → v.data id = m)
    (hreg : ∀ id rpc, i = .register id rpc → Covered (v.data id) m) :
    (∀ i', r = .inl i' → i'.Replicates (i.commit m a) v') ∧
      (∀ w, r = .inr w → v'.Store m) := by
  cases h with
  | @lock w l a v' f h =>
    refine ⟨fun i' e => ?_, by simp⟩
    obtain rfl := Sum.inl.inj e
    have hst : v'.Store m :=
      View.Store.of_eq hi h.servers (h.data_eq fun k x => by simp)
    cases f with
    | again l' =>
      rw [h.commit_again]
      exact hst
    | done =>
      obtain ⟨rfl, rfl⟩ := h.done_inv
      cases w with
      | put k x =>
        cases h
        refine ⟨Loop.start_within _, fun id hid => ?_, Loop.start_swept _ _⟩
        rw [hst id hid]
        rfl
      | addServer id rpc sender => exact ⟨hst, trivial⟩
    | raised => rw [h.not_raised] at ha; cases ha
  | @write k x l a v' f h =>
    refine ⟨fun i' e => ?_, by simp⟩
    obtain rfl := Sum.inl.inj e
    have hd := h.writes hi.1 hi.2.1
    cases f with
    | again l' =>
      refine ⟨h.within hi.1, hd, h.swept (fun id => h.keeps_written hi.1 hi.2.1) ?_ (by simp)
        hi.2.2⟩
      rintro todo id att rfl hsent _ rfl
      show ((Method.put k x).effect .sent id v).data id = m
      simpa using hi.2.1 id hi.1.mem_servers
    | done =>
      obtain ⟨rfl, rfl⟩ := h.done_inv
      exact Loop.swept_done hi.2.2
    | raised => rw [h.not_raised] at ha; cases ha
  | @unlock w l a v' f h =>
    refine ⟨fun i' e => ?_, by simp⟩
    obtain rfl := Sum.inl.inj e
    have hdata := h.data_eq fun k x => by simp
    cases w with
    | put k x =>
      have hst : v'.Store m := View.Store.of_eq hi h.servers hdata
      cases f with
      | again l' => exact hst
      | done => exact hst
      | raised => rw [h.not_raised] at ha; cases ha
    | addServer id rpc sender =>
      have hst : v'.Store m := View.Store.of_eq hi.1 h.servers hdata
      have hs : sender ∈ v'.servers := h.servers ▸ hi.2.1
      have hco : Contains (v'.data id) m := hdata ▸ hi.2.2
      cases f with
      | again l' => exact ⟨hst, hs, hco⟩
      | done => exact ⟨hst, ⟨sender, hs⟩, hco⟩
      | raised => rw [h.not_raised] at ha; cases ha
  | senderFound hs =>
    refine ⟨fun i' e => ?_, by simp⟩
    obtain rfl := Sum.inl.inj e
    exact ⟨hi.1, hs, by simp, trivial⟩
  | @senderGone id rpc sender n _ =>
    refine ⟨fun i' e => ?_, by simp⟩
    obtain rfl := Sum.inl.inj e
    rcases Transfer.failed_cases id rpc sender ⟨n, .lookup⟩ with ⟨_, e⟩ | ⟨_, e⟩ <;> rw [e]
    · exact ⟨hi.1, trivial⟩
    · exact hi.1
  | @send id rpc sender n p p' b v' hc h =>
    refine ⟨fun i' e => ?_, by simp⟩
    obtain rfl := Sum.inl.inj e
    obtain ⟨hst, hs, hne, hp⟩ := hi
    have hm : v.data sender = m := hst sender hs
    have hst' := h.store hs hst hp
    have hm' : v'.data sender = m := hst' sender (h.servers ▸ hs)
    have hcop := h.copied (by rw [hm]; exact hp)
    rw [hm'] at hcop
    refine ⟨hst', h.servers ▸ hs, ?_, hcop⟩
    rintro rfl
    cases h with
    | badPort hport => exact hport rpc.port_ok
    | giveUp _ => cases ha
  | sent =>
    refine ⟨fun i' e => ?_, by simp⟩
    obtain rfl := Sum.inl.inj e
    exact ⟨hi.1, hi.2.1, hi.2.2.2⟩
  | transferThrow _ => cases ha
  | @registerFirst id rpc =>
    refine ⟨fun i' e => ?_, by simp⟩
    obtain rfl := Sum.inl.inj e
    intro x hx
    rcases Finmap.mem_insert.mp hx with rfl | hx
    · exact hfirst x rpc rfl
    · exact hi x hx
  | @register id rpc =>
    refine ⟨fun i' e => ?_, by simp⟩
    obtain rfl := Sum.inl.inj e
    intro x hx
    rcases Finmap.mem_insert.mp hx with rfl | hx
    · exact hi.2.2.eq_of_covered (hreg x rpc rfl)
    · exact hi.1 x hx
  | shutdownRemove =>
    refine ⟨fun i' e => ?_, by simp⟩
    obtain rfl := Sum.inl.inj e
    exact fun x hx => hi x (Finmap.mem_erase.mp hx).2
  | beatRemove =>
    refine ⟨fun i' e => ?_, by simp⟩
    obtain rfl := Sum.inl.inj e
    exact fun x hx => hi x (Finmap.mem_erase.mp hx).2
  | leave => exact ⟨by simp, fun w _ => hi⟩
  | _ => exact ⟨fun i' e => by obtain rfl := Sum.inl.inj e; exact hi, by simp⟩

end ReplicatedStore
