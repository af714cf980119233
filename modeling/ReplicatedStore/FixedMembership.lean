/-
The store is linearizable whatever fails, as long as the membership stays as it is.

All gets of a key then go to one server, its home.  A put takes effect when its home is
written for the first time, and a get when its home is read; nothing else has to hold.
Attempts may throw before or after the method has run, servers may crash, puts may stop
half way, and the other servers may hold anything.  A put that throws has taken effect or
not.  This needs that nothing is executed late.
-/
import ReplicatedStore.Durability
import ReplicatedStore.Linearization

namespace ReplicatedStore

open Lib
open Lib.Linearizability (Linearizable Stage Staged replay)

/-! ## Homes -/

/-- `ServerSelector.select` selects `id` for the key. -/
def Home (servers : Finmap ServerRPC) (k : Key) (id : ServerId) : Prop :=
  ∃ i, ServerSelector.index k (mapSize servers) = .ok i ∧ ServerSelector.get servers i = .ok id

theorem ServerSelector.get_mem {servers : Finmap ServerRPC} {i : Int32} {id : ServerId}
    (h : ServerSelector.get servers i = .ok id) : id ∈ servers := by
  unfold ServerSelector.get at h
  split at h
  · cases h
  · split at h
    · rename_i hid
      obtain rfl := Except.ok.inj h
      exact Finmap.mem_keys.mp ((Finset.mem_sort _).mp (List.mem_of_getElem? hid))
    · cases h

theorem Home.mem {servers : Finmap ServerRPC} {k : Key} {id : ServerId} (h : Home servers k id) :
    id ∈ servers := by
  obtain ⟨i, -, hid⟩ := h
  exact ServerSelector.get_mem hid

theorem Home.unique {servers : Finmap ServerRPC} {k : Key} {id id' : ServerId}
    (h : Home servers k id) (h' : Home servers k id') : id = id' := by
  obtain ⟨i, hi, hid⟩ := h
  obtain ⟨i', hi', hid'⟩ := h'
  obtain rfl := Except.ok.inj (hi.symm.trans hi')
  exact Except.ok.inj (hid.symm.trans hid')

/-- A registered server for every key: its home, if it has one. -/
structure Routes (servers : Finmap ServerRPC) (route : Key → ServerId) : Prop where
  mem : ∀ k, route k ∈ servers
  home : ∀ k id, Home servers k id → id = route k

open Classical in
theorem exists_routes {servers : Finmap ServerRPC} (hne : servers.keys.Nonempty) :
    ∃ route, Routes servers route := by
  obtain ⟨any, hany⟩ := hne
  refine ⟨fun k => if h : ∃ id, Home servers k id then h.choose else any, fun k => ?_,
    fun k id hid => ?_⟩
  · by_cases h : ∃ id, Home servers k id
    · simp only [h, dite_true]
      exact h.choose_spec.mem
    · simp only [h, dite_false]
      exact Finmap.mem_keys.mp hany
  · have h : ∃ id, Home servers k id := ⟨id, hid⟩
    simp only [h, dite_true]
    exact hid.unique h.choose_spec

/-! ## The write at one server -/

variable {c : CallId} {v v' : View} {k : Key} {x : Val}

/-- What a step of the write loop does: it writes one server. -/
theorem Loop.Move.written {l : Loop} {a : Act} {f : Flow}
    (h : Loop.Move (.put k x) false c v l a v' f) :
    v'.data = v.data ∨ ∃ todo id att, l = .body todo id att ∧ a = .exec ∧ att.state = .sent ∧
      v' = v.setData id ((v.data id).insert k x) := by
  cases h with
  | @exec todo id att _ _ =>
    cases hs : att.state with
    | sent => exact .inr ⟨todo, id, att, rfl, rfl, hs, rfl⟩
    | _ => exact .inl rfl
  | _ => exact .inl rfl

theorem Loop.before_failed {todo : Finset ServerId} {id id' : ServerId} {att : Attempt Progress}
    (hb : (Loop.body todo id' att).Before id) : Loop.failed false todo id' att ≠ .done ∧
      ∀ l', Loop.failed false todo id' att = .again l' → l'.Before id := by
  rcases Loop.failed_cases false todo id' att with ⟨-, hf⟩ | ⟨-, hsw, -⟩ | ⟨-, -, hf⟩
  · rw [hf]
    refine ⟨by simp, fun l' e => ?_⟩
    obtain rfl := Flow.again.inj e
    by_cases he : id' = id
    · simp [Before, he]
    · simpa [Before, he] using hb
  · cases hsw
  · simp [hf]

/-- A loop that has still to write `id` writes it with this step, or has still to. -/
theorem Loop.Move.before {l : Loop} {a : Act} {f : Flow} {id : ServerId}
    (h : Loop.Move (.put k x) false c v l a v' f) (hb : l.Before id) (hid : id ∈ v.servers) :
    (∃ todo att, l = .body todo id att ∧ a = .exec ∧ att.state = .sent) ∨
      f ≠ .done ∧ (∀ l', f = .again l' → l'.Before id) ∧
        ∀ todo att, l = .body todo id att → a ≠ .exec := by
  cases h with
  | start =>
    refine .inr ⟨by simp, fun l' e => ?_, fun _ _ e => by cases e⟩
    obtain rfl := Flow.again.inj e
    exact Finmap.mem_keys.mpr hid
  | @pick todo id' hmem =>
    refine .inr ⟨by simp, fun l' e => ?_, fun _ _ e => by cases e⟩
    obtain rfl := Flow.again.inj e
    by_cases he : id' = id
    · simp [Before, he, Attempt.first]
    · simpa [Before, he] using Finset.mem_erase.mpr ⟨Ne.symm he, hb⟩
  | done => exact absurd hb (Finset.notMem_empty id)
  | @exec todo id' att _ _ =>
    by_cases he : id' = id
    · subst he
      exact .inl ⟨todo, att, rfl, rfl, by simpa [Before] using hb⟩
    · refine .inr ⟨by simp, fun l' e => ?_, fun _ _ e => ?_⟩
      · obtain rfl := Flow.again.inj e
        simpa [Before, he] using hb
      · exact absurd (Loop.body.inj e).2.1 he
  | @reply todo id' att hstate =>
    refine .inr ⟨by simp, fun l' e => ?_, fun _ _ _ e => by cases e⟩
    obtain rfl := Flow.again.inj e
    by_cases he : id' = id
    · simp [Before, he, hstate] at hb
    · simpa [Before, he] using hb
  | @throw todo id' att _ =>
    obtain ⟨hdone, hagain⟩ := Loop.before_failed hb
    exact .inr ⟨hdone, hagain, fun _ _ _ e => by cases e⟩
  | @linger todo id' att _ =>
    obtain ⟨hdone, hagain⟩ := Loop.before_failed hb
    exact .inr ⟨hdone, hagain, fun _ _ _ e => by cases e⟩

/-! ## Calls in progress -/

/-- How far a call outside the lock has come.  A server that joins is no home. -/
def Outside.Traced (servers : Finmap ServerRPC) (st : Stage StoreOp Reply) : Outside → Prop
  | .idle => st = .fresh
  | .synchronized (.withLock (.put k x)) => st = .pending (.put k x)
  | .getSize k => st = .pending (.get k)
  | .getKeys k i =>
    st = .pending (.get k) ∧ ServerSelector.index k (mapSize servers) = .ok i
  | .getCheck k id | .getLookup k id => st = .pending (.get k) ∧ Home servers k id
  | .remote (.get k) id r => Home servers k id ∧ r.prints = false ∧
      ((∀ y, r ≠ .answered y) → st = .pending (.get k)) ∧ ∀ y, r = .answered y → st = .done y
  | .remote .printKVPairs _ r => ∀ y, r = .answered y → y.ofStore = false
  | .addFindFirst id _ | .synchronized (.withLock (.addServer id _ _)) => id ∉ servers
  | _ => True

/-- The same inside.  A put that writes has taken effect or not. -/
def Inside.Traced (servers : Finmap ServerRPC) (route : Key → ServerId) (v : View)
    (st : Stage StoreOp Reply) : Inside → Prop
  | .lock (.put k x) _ => st = .pending (.put k x)
  | .write k x l => st = .pending (.put k x) ∧ l.Before (route k) ∨
      st = .done (.success k x) ∧ (v.data (route k)).lookup k = some x
  | .unlock (.put k x) _ => st = .done (.success k x)
  | .leave (.finish (.returned y)) => y.ofStore = true → st = .done y
  | .lock (.addServer id _ _) _ | .transfer id _ _ _ => id ∉ servers
  | _ => True

def Traced (servers : Finmap ServerRPC) (route : Key → ServerId) (v : View)
    (st : Stage StoreOp Reply) : Monitor.Local Outside Inside → Prop
  | .out w => w.Traced servers st
  | .inn i => i.Traced servers route v st

variable {servers : Finmap ServerRPC} {route : Key → ServerId} {st : Stage StoreOp Reply}

/-- Others do not disturb a call outside, and not one inside as long as they leave the data. -/
theorem Inside.Traced.mono {i : Inside} (h : i.Traced servers route v st)
    (hd : v'.data = v.data) : i.Traced servers route v' st := by
  unfold Inside.Traced at h ⊢
  rw [hd]
  exact h

theorem Block.traced {b : Block} (h : (Outside.synchronized b).Traced servers st) :
    b.start.Traced servers route v st := by
  cases b with
  | withLock w => cases w <;> exact h
  | _ => exact trivial

theorem Outside.Move.traced {w w' : Outside} {a : Act} (hm : Outside.Move c v w a w')
    (hw : w.Traced v.servers st) (hcall : ∀ o : StoreOp, a ≠ .call o.toOp)
    (hread : ∀ k id y, w = .remote (.get k) id .passed → w' ≠ .remote (.get k) id (.answered y))
    (hsize : ∀ k, w ≠ .getSize k) (hkeys : ∀ k i, w ≠ .getKeys k i) :
    w'.Traced v.servers st := by
  cases hm with
  | @call op =>
    cases op with
    | put k x => exact absurd rfl (hcall (.put k x))
    | get k => exact absurd rfl (hcall (.get k))
    | _ => exact trivial
  | @size k => exact absurd rfl (hsize k)
  | @keys k i => exact absurd rfl (hkeys k i)
  | check => exact hw
  | lookup => exact ⟨hw.2, rfl, fun _ => hw.1, nofun⟩
  | print => exact nofun
  | @read q id r r' b p p' _ _ hr =>
    cases q with
    | get k =>
      obtain ⟨hhome, hprints, hpending, -⟩ := hw
      obtain ⟨hprints', -, hanswered⟩ := ServerRPCImpl.read_get hr hprints
      refine ⟨hhome, hprints', fun _ => hpending ?_, ?_⟩
      · rintro y rfl
        cases b <;> cases hr
      · rintro y rfl
        obtain ⟨rfl, -⟩ := hanswered y rfl
        exact absurd rfl (hread k id y rfl)
    | printKVPairs => exact ServerRPCImpl.read_print hr
  | contains hid => exact hid
  | finds => exact hw
  | @beat w w' a _ hw' => cases w' <;> first | exact trivial | cases hw'
  | _ => exact trivial

/-- A step outside the lock that is recorded neither as a call nor as an answer, and at which
no get is read. -/
theorem Outside.step_traced {cl cl' : Cluster} {w w' : Outside} {a : Act}
    (h : w.step c cl a = some (cl', w')) (hw : w.Traced cl.servers st)
    (hcall : ∀ o : StoreOp, a ≠ .call o.toOp)
    (hread : ∀ k id y, w = .remote (.get k) id .passed → w' ≠ .remote (.get k) id (.answered y)) :
    w'.Traced cl.servers st := by
  by_cases hsize : ∃ k, w = .getSize k
  · obtain ⟨k, rfl⟩ := hsize
    cases a <;> simp only [Outside.step] at h <;> try contradiction
    split at h
    · rename_i i hi
      obtain ⟨-, rfl⟩ := Prod.mk.inj (Option.some.inj h)
      exact ⟨hw, hi⟩
    · obtain ⟨-, rfl⟩ := Prod.mk.inj (Option.some.inj h)
      exact trivial
  · by_cases hkeys : ∃ k i, w = .getKeys k i
    · obtain ⟨k, i, rfl⟩ := hkeys
      cases a <;> simp only [Outside.step] at h <;> try contradiction
      split at h
      · rename_i id hid
        obtain ⟨-, rfl⟩ := Prod.mk.inj (Option.some.inj h)
        exact ⟨hw.1, i, hw.2, hid⟩
      · obtain ⟨-, rfl⟩ := Prod.mk.inj (Option.some.inj h)
        exact trivial
    · exact (Outside.Move.of_step h).traced hw hcall hread (fun k e => hsize ⟨k, e⟩)
        fun k i e => hkeys ⟨k, i, e⟩

/-- A step of a section that writes nothing at the home of a put that has still to take
effect. -/
theorem Inside.Move.traced {i i' : Inside} {a : Act} (hm : Inside.Move c v i a v' (.inl i'))
    (hr : Routes v.servers route) (hi : i.Traced v.servers route v st)
    (hwrite : ∀ k x todo att, i = .write k x (.body todo (route k) att) → a = .exec →
      att.state = .sent → st = .done (.success k x)) : i'.Traced v.servers route v' st := by
  generalize hres : (Sum.inl i' : Inside ⊕ Outside) = r at hm
  cases hm with
  | @lock w l a v' f hlo =>
    obtain rfl := Sum.inl.inj hres
    cases w with
    | put k x =>
      cases f with
      | again l' => exact hi
      | done => exact .inl ⟨hi, trivial⟩
      | raised => exact trivial
    | addServer id rpc sender => cases f <;> first | exact hi | exact trivial
  | @write k x l a v' f hlo =>
    obtain rfl := Sum.inl.inj hres
    -- a put that has taken effect may write its home again, with the same value
    have hkeep : (v.data (route k)).lookup k = some x → (v'.data (route k)).lookup k = some x := by
      intro hx
      rcases hlo.written with hd | ⟨todo, id, att, -, -, -, rfl⟩
      · rwa [hd]
      · by_cases he : route k = id
        · rw [← he, View.setData_data_self]
          exact Finmap.lookup_insert _
        · rwa [View.setData_data_of_ne _ he]
    rcases hi with ⟨hst, hb⟩ | ⟨hst, hx⟩
    · rcases hlo.before hb (hr.mem k) with ⟨todo, att, rfl, rfl, hs⟩ | ⟨hdone, hagain, -⟩
      · cases hst.symm.trans (hwrite k x todo att rfl rfl hs)
      · cases f with
        | again l' => exact .inl ⟨hst, hagain l' rfl⟩
        | done => exact absurd rfl hdone
        | raised => exact trivial
    · cases f with
      | again l' => exact .inr ⟨hst, hkeep hx⟩
      | done => exact hst
      | raised => exact trivial
  | @unlock w l a v' f hlo =>
    obtain rfl := Sum.inl.inj hres
    cases w with
    | put k x =>
      cases f with
      | again l' => exact hi
      | done => exact fun _ => hi
      | raised => exact trivial
    | addServer id rpc sender => cases f <;> exact trivial
  | senderFound =>
    obtain rfl := Sum.inl.inj hres
    exact hi
  | @senderGone id rpc sender n _ =>
    obtain rfl := Sum.inl.inj hres
    rcases Transfer.failed_cases id rpc sender ⟨n, .lookup⟩ with ⟨_, e⟩ | ⟨_, e⟩ <;> rw [e]
    · exact hi
    · exact trivial
  | send =>
    obtain rfl := Sum.inl.inj hres
    exact hi
  | @transferThrow id rpc sender n p _ =>
    obtain rfl := Sum.inl.inj hres
    rcases Transfer.failed_cases id rpc sender ⟨n, .remote p⟩ with ⟨_, e⟩ | ⟨_, e⟩ <;> rw [e]
    · exact hi
    · exact trivial
  | listServer y hy =>
    obtain rfl := Sum.inl.inj hres
    intro hstore
    rw [hy] at hstore
    cases hstore
  | leave => cases hres
  | _ =>
    obtain rfl := Sum.inl.inj hres
    first
      | exact trivial
      | exact nofun

/-- What a step of a section does to the homes: nothing, or a put writes one. -/
theorem Inside.Move.homes {i : Inside} {a : Act} {r : Inside ⊕ Outside}
    (hm : Inside.Move c v i a v' r) (hi : i.Traced v.servers route v st) :
    (∀ id ∈ v.servers, v'.data id = v.data id) ∨
      ∃ k x todo id att, i = .write k x (.body todo id att) ∧ a = .exec ∧ att.state = .sent ∧
        v' = v.setData id ((v.data id).insert k x) := by
  cases hm with
  | lock hlo => exact .inl fun id _ => by rw [hlo.data_eq fun k x => by simp]
  | @write k x l a v' f hlo =>
    rcases hlo.written with hd | ⟨todo, id, att, rfl, rfl, hs, hv⟩
    · exact .inl fun id _ => by rw [hd]
    · exact .inr ⟨k, x, todo, id, att, rfl, rfl, hs, hv⟩
  | unlock hlo => exact .inl fun id _ => by rw [hlo.data_eq fun k x => by simp]
  | @send id' rpc sender n p p' b v' _ hs =>
    refine .inl fun id hid => ?_
    have hne : id ≠ id' := by
      rintro rfl
      exact hi hid
    cases hs with
    | exec => exact Method.effect_data_of_ne _ _ _ hne
    | _ => rfl
  | _ => exact .inl fun _ _ => rfl

/-- What a call returns of the store is what it has come to. -/
theorem Outside.Move.done_of_returned {w : Outside} {a : Act} {y : Reply}
    (hm : Outside.Move c v w a (.finished (.returned y))) (hw : w.Traced servers st)
    (hy : y.ofStore = true) : st = .done y := by
  generalize hw' : Outside.finished (.returned y) = w' at hm
  cases hm with
  | @call op => cases op <;> cases hw'
  | @reply q id y' =>
    obtain rfl := Outcome.returned.inj (Outside.finished.inj hw')
    cases q with
    | get k => exact hw.2.2.2 y rfl
    | printKVPairs =>
      have hno : y.ofStore = false := hw y rfl
      rw [hno] at hy
      cases hy
  | missing =>
    obtain rfl := Outcome.returned.inj (Outside.finished.inj hw')
    cases hy
  | refuses hor =>
    obtain rfl := Outcome.returned.inj (Outside.finished.inj hw')
    rcases hor with rfl | ⟨message, rfl⟩ <;> cases hy
  | @beat w w' a _ hb =>
    subst hw'
    cases hb
  | _ => cases hw'

/-! ## Steps of the system -/

/-- The effects so far linearize the history, every call has come as far as its point, and
every home holds the value of its keys. -/
structure Homed (servers : Finmap ServerRPC) (route : Key → ServerId) (m : Data) (tr : Trace)
    (l : List StoreEntry) (st : CallId → Stage StoreOp Reply) (s : System) : Prop where
  staged : Staged StoreOp.apply m (history tr) l st
  traced : ∀ c, Traced servers route s.shared.view (st c) (s.locals c)
  homes : ∀ k id, Home servers k id →
    (replay StoreOp.apply m l).lookup k = (s.shared.view.data id).lookup k

variable {m : Data} {tr : Trace} {l l' : List StoreEntry} {sts st' : CallId → Stage StoreOp Reply}
  {s s' : System}

theorem history_of_silent {lab : Label} (h : s.event lab = none) :
    history (tr ++ [(s, lab)]) = history tr := by
  rw [history_snoc, h]
  exact List.append_nil _

/-- After a step of `c`. -/
theorem Homed.of_staged {lab : Label} (hI : Homed servers route m tr l sts s)
    (hx : Monitor.Exclusive s) (hs : Monitor.Step frontend s lab s') (hc : lab.thread = some c)
    (hst : Staged StoreOp.apply m (history (tr ++ [(s, lab)])) l' st')
    (hothers : ∀ d, d ≠ c → st' d = sts d)
    (hself : Traced servers route s'.shared.view (st' c) (s'.locals c))
    (hhomes : ∀ k id, Home servers k id →
      (replay StoreOp.apply m l').lookup k = (s'.shared.view.data id).lookup k) :
    Homed servers route m (tr ++ [(s, lab)]) l' st' s' := by
  refine ⟨hst, fun d => ?_, hhomes⟩
  by_cases hd : d = c
  · rw [hd]
    exact hself
  · have hne : lab.thread ≠ some d := by
      rw [hc]
      exact fun e => hd (Option.some.inj e).symm
    have htraced := hI.traced d
    rw [hothers d hd, hs.locals_of_ne hne]
    cases hl : s.locals d with
    | out w =>
      rw [hl] at htraced
      exact htraced
    | inn i =>
      rw [hl] at htraced
      rcases view_of_others hx hl hs hne with hv | ⟨e, rfl, -⟩
      · exact Inside.Traced.mono htraced (by rw [hv])
      · cases hc

/-- A step that is not recorded and at which no operation takes effect. -/
theorem Homed.silent {lab : Label} (hI : Homed servers route m tr l sts s)
    (hx : Monitor.Exclusive s) (hs : Monitor.Step frontend s lab s') (hc : lab.thread = some c)
    (hnone : s.event lab = none) (hself : Traced servers route s'.shared.view (sts c) (s'.locals c))
    (hhomes : ∀ k id, Home servers k id →
      (s'.shared.view.data id).lookup k = (s.shared.view.data id).lookup k) :
    Homed servers route m (tr ++ [(s, lab)]) l sts s' := by
  have hst := hI.staged
  rw [← history_of_silent hnone] at hst
  refine hI.of_staged hx hs hc hst (fun _ _ => rfl) hself fun k id hid => ?_
  rw [hhomes k id hid]
  exact hI.homes k id hid

/-- The response of an operation that has taken effect. -/
theorem Homed.respond {lab : Label} {y : Reply} (hI : Homed servers route m tr l sts s)
    (hx : Monitor.Exclusive s) (hs : Monitor.Step frontend s lab s') (hc : lab.thread = some c)
    (hdone : sts c = .done y) (hres : s.event lab = some (.res c y))
    (hl' : s'.locals c = .out (.finished (.returned y))) (hview : s'.shared.view = s.shared.view) :
    Homed servers route m (tr ++ [(s, lab)]) l (Function.update sts c .past) s' := by
  have hst := hI.staged.respond hdone
  rw [← Option.toList_some, ← hres, ← history_snoc] at hst
  refine hI.of_staged hx hs hc hst (fun d hd => Function.update_of_ne hd ..) ?_ ?_
  · rw [hl']
    exact trivial
  · rw [hview]
    exact hI.homes

theorem Homed.outside {w w' : Outside} {a : Act} (hI : Homed servers route m tr l sts s)
    (hx : Monitor.Exclusive s) (hservers : s.shared.servers = servers)
    (hstep : System.step s (.run c a) = some s') (hl : s.locals c = .out w)
    (ho : w.step c s.shared a = some (s'.shared, w')) (hl' : s'.locals c = .out w') :
    ∃ l' st', Homed servers route m (tr ++ [(s, .run c a)]) l' st' s' := by
  have hs := Monitor.Step.of_step frontend hstep
  have hview : s'.shared.view = s.shared.view := Outside.step_view ho
  have hself := hI.traced c
  rw [hl] at hself
  by_cases hcall : ∃ o : StoreOp, a = .call o.toOp
  · -- the call is recorded
    obtain ⟨o, rfl⟩ := hcall
    obtain ⟨hidle, -, hstart⟩ := call_start hs
    obtain rfl := Monitor.Local.out.inj (hl.symm.trans hidle)
    have hev : s.event (.run c (.call o.toOp)) = some (.inv c o) := by cases o <;> rfl
    have hst := hI.staged.invoke hself o
    rw [← Option.toList_some, ← hev, ← history_snoc] at hst
    refine ⟨l, _, hI.of_staged hx hs rfl hst (fun d hd => Function.update_of_ne hd ..) ?_ ?_⟩
    · rw [hstart, Function.update_self]
      cases o <;> rfl
    · rw [hview]
      exact hI.homes
  · have hnot : ∀ o : StoreOp, a ≠ .call o.toOp := fun o e => hcall ⟨o, e⟩
    by_cases hans : ∃ y, w' = .finished (.returned y) ∧ y.ofStore = true
    · -- an answer is recorded
      obtain ⟨y, rfl, hy⟩ := hans
      have hop : ∀ op, a ≠ .call op := by
        rintro op rfl
        have := Monitor.Local.out.inj (hl'.symm.trans (call_start hs).2.2)
        cases op <;> cases this
      have hdone := (Outside.Move.of_step ho).done_of_returned hself hy
      exact ⟨l, _, hI.respond hx hs rfl hdone (System.event_eq_res hstep hop hl' hy) hl' hview⟩
    · have hnone : s.event (.run c a) = none := by
        refine System.event_eq_none hstep (fun k x => hnot (.put k x)) (fun k => hnot (.get k)) ?_
        intro y hy
        by_contra hstore
        exact hans ⟨y, Monitor.Local.out.inj (hl'.symm.trans hy), by simpa using hstore⟩
      by_cases hread : ∃ k id y, w = .remote (.get k) id .passed ∧
          w' = .remote (.get k) id (.answered y)
      · -- a get reads the home of its key
        obtain ⟨k, id, y, rfl, rfl⟩ := hread
        obtain ⟨hhome, -, hpending, -⟩ := hself
        have hmove := Outside.Move.of_step ho
        generalize hv : s.shared.view = v at hmove
        generalize hw' : Outside.remote (.get k) id (.answered y) = w' at hmove
        cases hmove with
        | @read _ _ _ r' b p p' hd _ hr =>
          obtain ⟨-, -, rfl⟩ := Outside.remote.inj hw'
          obtain ⟨-, -, hanswered⟩ := ServerRPCImpl.read_get hr rfl
          obtain ⟨-, rfl⟩ := hanswered y rfl
          have happly : (StoreOp.apply (replay StoreOp.apply m l) (.get k)).2 =
              readKey k (p.data.lookup k) := by
            rw [StoreOp.apply, hI.homes k id hhome, hv, hd]
          have hst := hI.staged.effect (hpending (by simp)) happly
          rw [← history_of_silent hnone] at hst
          refine ⟨_, _, hI.of_staged hx hs rfl hst (fun d hd => Function.update_of_ne hd ..) ?_ ?_⟩
          · rw [hl', Function.update_self]
            refine ⟨hhome, rfl, fun h => absurd rfl (h _), fun y' hy' => ?_⟩
            rw [Reader.answered.inj hy']
          · rw [hview, Linearizability.replay_append]
            exact hI.homes
        | @beat _ _ _ hb => cases hb
        | _ => cases hw'
      · refine ⟨l, sts, hI.silent hx hs rfl hnone ?_ fun _ _ _ => by rw [hview]⟩
        rw [hl']
        rw [← hservers] at hself ⊢
        exact Outside.step_traced ho hself hnot fun k id y e e' => hread ⟨k, id, y, e, e'⟩

/-- The first write of a put at the home of its key. -/
theorem Homed.effect {a : Act} {i' : Inside} {k : Key} {x : Val}
    (hI : Homed servers route m tr l sts s) (hx : Monitor.Exclusive s)
    (hr : Routes servers route) (hs : Monitor.Step frontend s (.run c a) s')
    (hnone : s.event (.run c a) = none) (hpending : sts c = .pending (.put k x))
    (hv : s'.shared.view = s.shared.view.setData (route k)
      ((s.shared.view.data (route k)).insert k x))
    (hl' : s'.locals c = .inn i')
    (hself : i'.Traced servers route s'.shared.view (.done (.success k x))) :
    ∃ l' st', Homed servers route m (tr ++ [(s, .run c a)]) l' st' s' := by
  have hst := hI.staged.effect (r := .success k x) hpending rfl
  rw [← history_of_silent hnone] at hst
  refine ⟨_, _, hI.of_staged hx hs rfl hst (fun d hd => Function.update_of_ne hd ..) ?_ ?_⟩
  · rw [hl', Function.update_self]
    exact hself
  · intro k' id hid
    have hold := hI.homes k' id hid
    rw [Linearizability.replay_append, hv]
    show ((replay StoreOp.apply m l).insert k x).lookup k' = _
    by_cases hk : k' = k
    · subst hk
      obtain rfl := hr.home k' id hid
      rw [View.setData_data_self, Finmap.lookup_insert, Finmap.lookup_insert]
    · rw [Finmap.lookup_insert_of_ne _ hk, hold]
      by_cases he : id = route k
      · rw [he, View.setData_data_self, Finmap.lookup_insert_of_ne _ hk]
      · rw [View.setData_data_of_ne _ he]

/-- A write that changes no home: of another server, or of the value that is there. -/
theorem home_of_written {d : Key → Option Val} {id : ServerId} (hr : Routes servers route)
    (hd : ∀ k' id', Home servers k' id' → d k' = (v.data id').lookup k')
    (hx : id = route k → (v.data (route k)).lookup k = some x) (k' : Key) (id' : ServerId)
    (hid : Home servers k' id') :
    d k' = ((v.setData id ((v.data id).insert k x)).data id').lookup k' := by
  rw [hd k' id' hid]
  by_cases he : id' = id
  · subst he
    rw [View.setData_data_self]
    by_cases hk : k' = k
    · subst hk
      obtain rfl := hr.home k' id' hid
      rw [Finmap.lookup_insert, hx rfl]
    · rw [Finmap.lookup_insert_of_ne _ hk]
  · rw [View.setData_data_of_ne _ he]

theorem Homed.inside {a : Act} {i i' : Inside} (hI : Homed servers route m tr l sts s)
    (hx : Monitor.Exclusive s) (hr : Routes servers route) (hservers : s.shared.servers = servers)
    (hstep : System.step s (.run c a) = some s') (hl : s.locals c = .inn i)
    (hi : i.step c s.shared a = some (s'.shared, .inl i')) (hl' : s'.locals c = .inn i') :
    ∃ l' st', Homed servers route m (tr ++ [(s, .run c a)]) l' st' s' := by
  have hs := Monitor.Step.of_step frontend hstep
  have hmove := Inside.Move.of_step hi
  have hself := hI.traced c
  rw [hl] at hself
  subst hservers
  have hnone : s.event (.run c a) = none := by
    refine System.event_eq_none hstep (fun k x => hmove.not_call _) (fun k => hmove.not_call _) ?_
    intro y hy
    cases hl'.symm.trans hy
  by_cases hfirst : ∃ k x todo att, i = .write k x (.body todo (route k) att) ∧ a = .exec ∧
      att.state = .sent ∧ sts c = .pending (.put k x)
  · -- the put takes effect
    obtain ⟨k, x, todo, att, rfl, rfl, hsent, hpending⟩ := hfirst
    generalize hv : s'.shared.view = v' at hmove
    generalize hres : (Sum.inl i' : Inside ⊕ Outside) = r at hmove
    cases hmove with
    | write hlo =>
      obtain rfl := Sum.inl.inj hres
      cases hlo with
      | exec =>
        rw [hsent, Method.effect_sent_put] at hv
        refine hI.effect hx hr hs hnone hpending hv hl' (.inr ⟨rfl, ?_⟩)
        rw [hv, View.setData_data_self]
        exact Finmap.lookup_insert _
  · have hdone : ∀ k x todo att, i = .write k x (.body todo (route k) att) → a = .exec →
        att.state = .sent → sts c = .done (.success k x) ∧
          (s.shared.view.data (route k)).lookup k = some x := by
      rintro k x todo att rfl rfl hsent
      rcases hself with ⟨hpending, -⟩ | hdone
      · exact absurd ⟨k, x, todo, att, rfl, rfl, hsent, hpending⟩ hfirst
      · exact hdone
    refine ⟨l, sts, hI.silent hx hs rfl hnone ?_ fun k' id' hid => ?_⟩
    · rw [hl']
      exact hmove.traced hr hself fun k x todo att e e' e'' => (hdone k x todo att e e' e'').1
    · rcases hmove.homes hself with hsame | ⟨k, x, todo, id, att, rfl, rfl, hsent, hv⟩
      · rw [hsame id' hid.mem]
      · rw [hv]
        refine (home_of_written (d := fun k => (replay StoreOp.apply m l).lookup k) hr hI.homes ?_
          k' id' hid).symm.trans (hI.homes k' id' hid)
        rintro rfl
        exact (hdone k x todo att rfl rfl hsent).2

/-- The end of a section. -/
theorem Homed.leave {a : Act} {i : Inside} {w : Outside} (hI : Homed servers route m tr l sts s)
    (hx : Monitor.Exclusive s) (hstep : System.step s (.run c a) = some s')
    (hl : s.locals c = .inn i) (hi : i.step c s.shared a = some (s'.shared, .inr w))
    (hl' : s'.locals c = .out w) :
    ∃ l' st', Homed servers route m (tr ++ [(s, .run c a)]) l' st' s' := by
  have hs := Monitor.Step.of_step frontend hstep
  obtain ⟨e, rfl, rfl, rfl, hview⟩ := (Inside.Move.of_step hi).leave_inv
  have hself := hI.traced c
  rw [hl] at hself
  by_cases hans : ∃ y, e = .finish (.returned y) ∧ y.ofStore = true
  · obtain ⟨y, rfl, hy⟩ := hans
    exact ⟨l, _, hI.respond hx hs rfl (hself hy) (System.event_eq_res hstep nofun hl' hy) hl' hview⟩
  · have hnone : s.event (.run c .step) = none := by
      refine System.event_eq_none hstep nofun nofun fun y hy => ?_
      have he := Monitor.Local.out.inj (hl'.symm.trans hy)
      cases e with
      | finish o =>
        obtain rfl := Outside.finished.inj he
        by_contra hstore
        exact hans ⟨y, rfl, by simpa using hstore⟩
      | resume next => cases he
    refine ⟨l, sts, hI.silent hx hs rfl hnone ?_ fun _ _ _ => by rw [hview]⟩
    rw [hl']
    cases e <;> exact trivial

theorem Homed.env {e : Event} (hI : Homed servers route m tr l sts s)
    (hs : Monitor.Step frontend s (.env e) s') (hdata : s'.shared.view.data = s.shared.view.data) :
    Homed servers route m (tr ++ [(s, .env e)]) l sts s' := by
  have hnone : s.event (.env e) = none := rfl
  have hst := hI.staged
  rw [← history_of_silent hnone] at hst
  refine ⟨hst, fun c => ?_, fun k id hid => ?_⟩
  · have htraced := hI.traced c
    rw [hs.locals_of_ne nofun]
    cases hl : s.locals c with
    | out w =>
      rw [hl] at htraced
      exact htraced
    | inn i =>
      rw [hl] at htraced
      exact Inside.Traced.mono htraced hdata
  · rw [hdata]
    exact hI.homes k id hid

theorem Homed.step {lab : Label} (hI : Homed servers route m tr l sts s)
    (hx : Monitor.Exclusive s) (hr : Routes servers route) (hok : NoneLate lab)
    (hservers : s.shared.servers = servers) (hstep : System.step s lab = some s') :
    ∃ l' st', Homed servers route m (tr ++ [(s, lab)]) l' st' s' := by
  have hs := Monitor.Step.of_step frontend hstep
  have hs' := hs
  cases hs with
  | outside hl ho => exact hI.outside hx hservers hstep hl ho (Function.update_self ..)
  | inside hl hi => exact hI.inside hx hr hservers hstep hl hi (Function.update_self ..)
  | leave hl hi => exact hI.leave hx hstep hl hi (Function.update_self ..)
  | @enter c w i hl he _ =>
    obtain ⟨b, rfl, rfl⟩ := Outside.entry_eq_some he
    have hself := hI.traced c
    rw [hl] at hself
    refine ⟨l, sts, hI.silent hx hs' rfl rfl ?_ fun _ _ _ => rfl⟩
    show Traced servers route s.shared.view (sts c) (Function.update s.locals c (.inn b.start) c)
    rw [Function.update_self]
    exact Block.traced hself
  | env he => exact ⟨l, sts, hI.env hs' (hok.env (Event.Move.of_step he)).2⟩

/-! ## Runs -/

/-- As long as the membership stays as it is and nothing is executed late, the store is
linearizable, whatever crashes and throws, and whatever the replicas hold when the run
begins.  The map starts with what the homes hold. -/
theorem linearizable_of_fixed {s₀ : System} (h₀ : Quiet s₀) (hne : servers.keys.Nonempty)
    (hm : ∀ k id, Home servers k id → m.lookup k = (s₀.shared.process id).data.lookup k)
    (h : SystemRun (fun s l => NoneLate l ∧ s.shared.servers = servers) s₀ tr s) :
    Linearizable StoreOp.apply m (history tr) := by
  obtain ⟨route, hr⟩ := exists_routes hne
  have hinv : Monitor.Exclusive s ∧ ∃ l st, Homed servers route m tr l st s := by
    refine h.invariant (I := fun tr s => Monitor.Exclusive s ∧
      ∃ l st, Homed servers route m tr l st s) ⟨h₀.exclusive, [], fun _ => .fresh, ?_⟩ ?_
    · refine ⟨⟨Linearizability.linearization_nil, fun c => ⟨nofun, nofun⟩⟩, fun c => ?_, hm⟩
      rcases h₀.2 c with hc | ⟨o, hc⟩ <;> rw [hc]
      · exact rfl
      · exact trivial
    · rintro tr s lab s' _ hok hs ⟨hx, l, st, hI⟩
      exact ⟨(Monitor.Step.of_step frontend hs).exclusive _ hx, hI.step hx hr hok.1 hok.2 hs⟩
  obtain ⟨-, l, st, hI⟩ := hinv
  exact ⟨l, hI.staged.linear⟩

/-- A put that never hears that server 1 has been unlocked, and a get that reads its value. -/
def unlockUnanswered : List Label :=
  [.run 0 (.call (.put 4 7)), .enter 0] ++ loopOn 0 [.run 0 .exec] [1] ++
    loopOn 0 [.run 0 .throw, .run 0 .exec] [1] ++
    [.run 0 .step, .run 0 (.pick 1), .run 0 .exec, .run 0 .exec, .run 0 .throw, .run 0 .throw,
      .run 0 .throw, .run 0 .throw, .run 0 .step, .run 1 (.call (.get 4)), .run 1 .step,
      .run 1 .step, .run 1 .step, .run 1 .step, .run 1 (.read .step), .run 1 (.read .step),
      .run 1 .reply]

theorem linearizable_of_fixed_unlockUnanswered :
    ∃ tr s, SystemRun (fun s l => NoneLate l ∧ s.shared.servers = oneServer)
        (System.fresh oneServer) tr s ∧ s.outcome 0 = some (.threw .runtime) ∧
      s.outcome 1 = some (.returned (.pair 4 7)) ∧
      Linearizable StoreOp.apply ∅ (history tr) := by
  have hex : ((exec System.step (System.fresh oneServer) unlockUnanswered).map fun s =>
      (s.outcome 0, s.outcome 1)) =
      some (some (.threw .runtime), some (.returned (.pair 4 7))) := by decide +kernel
  obtain ⟨s, hrun, hs⟩ := Run.exists_of_exec
    (fun s l => NoneLate l ∧ s.shared.servers = oneServer) hex (by decide +kernel)
  obtain ⟨h₀, h₁⟩ := Prod.mk.inj hs
  exact ⟨_, s, hrun, h₀, h₁, linearizable_of_fixed (System.fresh_quiet _)
    ⟨1, Finmap.mem_keys.mpr (by decide)⟩ (fun _ _ _ => rfl) hrun⟩

end ReplicatedStore
