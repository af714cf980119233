/-
What the calls answer, whatever fails.

`Op.Ends` is the table of the results that each method of `FrontendRPCImpl` can have.
The values in a result come from calls of `put`: a value reaches a server in the write
of a put, in one that was left in the network, or in a transfer from another server.
-/
import ReplicatedStore.LateWrites

namespace ReplicatedStore

open Lib

/-! ## The results of each method -/

/-- The results of a call. -/
def Op.Ends : Op → Outcome → Prop
  | .put k x, .returned y => y = .success k x
  | .get k, .returned y => (∃ x, y = .pair k x) ∨ y = .errKey ∨ y = .errNoExist
  | .printKVPairs _, .returned y => (∃ entries, y = .pairs entries) ∨ y = .errNoExist
  | .addServer id, .returned y =>
      y = .added ∨ y = .alreadyExists id ∨
        ¬ -1 ≤ serverPort id ∧ ∃ message, y = .notAccepting id message
  | .listServer, .returned y => (∃ ids, ids ≠ [] ∧ y = .serverList ids) ∨ y = .errNoServers
  | .shutdownServer _, .returned y => y = .stopped ∨ y = .errNoExist
  | .heartBeat, _ => False
  | .get _, .threw e =>
      e = .runtime ∨ e = .nullPointer ∨ e = .arithmetic ∨ e = .indexOutOfBounds
  | .listServer, .threw _ => False
  | _, .threw e => e = .runtime

/-- What a reader of the query may come to. -/
def Reader.Belongs (q : Query) : Reader → Prop
  | .printing _ _ => q = .printKVPairs
  | .answered y =>
    match q with
    | .get k => (∃ x, y = .pair k x) ∨ y = .errKey
    | .printKVPairs => ∃ entries, y = .pairs entries
  | _ => True

def Work.op : Work → Op
  | .put k x => .put k x
  | .addServer id _ _ => .addServer id

/-- The points of a call in its critical section. -/
def Inside.Belongs (op : Op) : Inside → Prop
  | .lock w _ | .unlock w _ => op = w.op
  | .write k x _ => op = .put k x
  | .transfer id _ _ _ | .registerFirst id _ | .register id _ => op = .addServer id
  | .listServer => op = .listServer
  | .shutdownLookup id | .shutdownCall id _ | .shutdownRemove id => op = .shutdownServer id
  | .beatRemove _ _ | .leave (.resume _) => op = .heartBeat
  | .leave (.finish o) => op.Ends o

/-- The points of a call outside it. -/
def Outside.Belongs (op : Op) : Outside → Prop
  | .idle => False
  | .synchronized b => b.start.Belongs op
  | .getSize k | .getKeys k _ | .getCheck k _ | .getLookup k _ => op = .get k
  | .printLookup id => op = .printKVPairs id
  | .remote q id r =>
    (match q with
      | .get k => op = .get k
      | .printKVPairs => op = .printKVPairs id) ∧ r.Belongs q
  | .addContains id | .addFindFirst id _ => op = .addServer id
  | .beatNext _ | .beatAlive _ _ _ => op = .heartBeat
  | .finished o => op.Ends o

def Op.At (op : Op) : Monitor.Local Outside Inside → Prop
  | .out w => w.Belongs op
  | .inn i => i.Belongs op

variable {op : Op} {c : CallId}

theorem Op.start_belongs (op : Op) : op.start.Belongs op := by
  cases op <;> rfl

theorem Work.op_ends_runtime (w : Work) : w.op.Ends (.threw .runtime) := by
  cases w <;> rfl

theorem Work.body_belongs (w : Work) : w.body.Belongs w.op := by
  cases w <;> rfl

theorem Work.after_belongs (w : Work) : w.after.Belongs w.op := by
  cases w <;> rfl

theorem Transfer.failed_belongs (id : ServerId) (rpc : ServerRPC id) (sender : ServerId)
    (a : Attempt Transfer) : (Transfer.failed id rpc sender a).Belongs (.addServer id) := by
  rcases Transfer.failed_cases id rpc sender a with ⟨-, e⟩ | ⟨-, e⟩ <;> rw [e] <;> rfl

/-! ## Steps -/

theorem ServerRPCImpl.read_belongs {p p' : ServerRPCImpl} {q : Query} {r r' : Reader}
    {a : ReaderAct} (h : p.read q c r a = some (p', r')) (hr : r.Belongs q) : r'.Belongs q := by
  cases r with
  | test =>
    cases a <;> simp only [ServerRPCImpl.read] at h <;> try contradiction
    obtain ⟨-, rfl⟩ := Prod.mk.inj (Option.some.inj h)
    split <;> exact trivial
  | enter =>
    cases a <;> simp only [ServerRPCImpl.read] at h <;> try contradiction
    obtain ⟨-, rfl⟩ := Prod.mk.inj (Option.some.inj h)
    exact trivial
  | waiting =>
    cases a <;> simp only [ServerRPCImpl.read] at h <;> try contradiction
    all_goals split at h <;> try contradiction
    all_goals
      obtain ⟨-, rfl⟩ := Prod.mk.inj (Option.some.inj h)
      exact trivial
  | passed =>
    cases a <;> simp only [ServerRPCImpl.read] at h <;> try contradiction
    cases q with
    | get k =>
      obtain ⟨-, rfl⟩ := Prod.mk.inj (Option.some.inj h)
      cases p.data.lookup k with
      | none => exact .inr rfl
      | some x => exact .inl ⟨x, rfl⟩
    | printKVPairs =>
      obtain ⟨-, rfl⟩ := Prod.mk.inj (Option.some.inj h)
      exact rfl
  | printing todo out =>
    obtain rfl : q = .printKVPairs := hr
    cases a <;> simp only [ServerRPCImpl.read] at h <;> try contradiction
    · split at h <;> try contradiction
      obtain ⟨-, rfl⟩ := Prod.mk.inj (Option.some.inj h)
      exact ⟨out, rfl⟩
    · split at h <;> try contradiction
      split at h <;> try contradiction
      obtain ⟨-, rfl⟩ := Prod.mk.inj (Option.some.inj h)
      exact rfl
  | answered y => cases a <;> simp [ServerRPCImpl.read] at h

theorem ServerRPCClient.create_error {id : ServerId} {message : String}
    (h : ServerRPCClient.create id c = .error message) : ¬ -1 ≤ serverPort id := by
  unfold ServerRPCClient.create at h
  split at h
  · cases h
  · assumption

/-- A call goes on with its operation outside the lock. -/
theorem Outside.step_belongs {cl cl' : Cluster} {w w' : Outside} {a : Act}
    (h : w.step c cl a = some (cl', w')) (hw : w.Belongs op) : w'.Belongs op := by
  cases w with
  | idle => exact absurd hw id
  | synchronized b => exact absurd rfl (Outside.not_synchronized h b)
  | getSize k =>
    obtain rfl : op = .get k := hw
    cases a <;> simp only [Outside.step] at h <;> try contradiction
    unfold ServerSelector.index at h
    split at h
    · obtain ⟨-, rfl⟩ := Prod.mk.inj (Option.some.inj h)
      exact rfl
    · rename_i e he
      obtain ⟨-, rfl⟩ := Prod.mk.inj (Option.some.inj h)
      split at he
      · obtain rfl := Except.error.inj he
        exact .inr (.inr (.inl rfl))
      · cases he
  | getKeys k i =>
    obtain rfl : op = .get k := hw
    cases a <;> simp only [Outside.step] at h <;> try contradiction
    unfold ServerSelector.get at h
    split at h
    · obtain ⟨-, rfl⟩ := Prod.mk.inj (Option.some.inj h)
      exact rfl
    · rename_i e he
      obtain ⟨-, rfl⟩ := Prod.mk.inj (Option.some.inj h)
      split at he
      · obtain rfl := Except.error.inj he
        exact .inr (.inr (.inr rfl))
      · split at he
        · cases he
        · obtain rfl := Except.error.inj he
          exact .inr (.inr (.inr rfl))
  | getCheck k id =>
    obtain rfl : op = .get k := hw
    cases a <;> simp only [Outside.step] at h <;> try contradiction
    split at h
    all_goals obtain ⟨-, rfl⟩ := Prod.mk.inj (Option.some.inj h)
    · exact rfl
    · exact .inr (.inr rfl)
  | getLookup k id =>
    obtain rfl : op = .get k := hw
    cases a <;> simp only [Outside.step] at h <;> try contradiction
    split at h
    all_goals obtain ⟨-, rfl⟩ := Prod.mk.inj (Option.some.inj h)
    · exact ⟨rfl, trivial⟩
    · exact .inr (.inl rfl)
  | printLookup id =>
    obtain rfl : op = .printKVPairs id := hw
    cases a <;> simp only [Outside.step] at h <;> try contradiction
    split at h
    all_goals obtain ⟨-, rfl⟩ := Prod.mk.inj (Option.some.inj h)
    · exact ⟨rfl, trivial⟩
    · exact .inr rfl
  | remote q id r =>
    obtain ⟨hop, hr⟩ := hw
    cases a with
    | read b =>
      simp only [Outside.step] at h
      split at h
      · cases h
      · obtain ⟨⟨p, r'⟩, hread, heq⟩ := Option.map_eq_some_iff.mp h
        obtain ⟨-, rfl⟩ := Prod.mk.inj heq
        exact ⟨hop, ServerRPCImpl.read_belongs hread hr⟩
    | reply =>
      cases r <;> simp only [Outside.step] at h <;> try contradiction
      obtain ⟨-, rfl⟩ := Prod.mk.inj (Option.some.inj h)
      cases q with
      | get k =>
        obtain rfl : op = .get k := hop
        rcases hr with ⟨x, rfl⟩ | rfl
        · exact .inl ⟨x, rfl⟩
        · exact .inr (.inl rfl)
      | printKVPairs =>
        obtain rfl : op = .printKVPairs id := hop
        exact .inl hr
    | throw =>
      obtain ⟨-, rfl⟩ := Prod.mk.inj (Option.some.inj h)
      cases q with
      | get k =>
        obtain rfl : op = .get k := hop
        exact .inl rfl
      | printKVPairs =>
        obtain rfl : op = .printKVPairs id := hop
        exact rfl
    | _ => simp [Outside.step] at h
  | addContains id =>
    obtain rfl : op = .addServer id := hw
    cases a <;> simp only [Outside.step] at h <;> try contradiction
    split at h
    · obtain ⟨-, rfl⟩ := Prod.mk.inj (Option.some.inj h)
      exact .inr (.inl rfl)
    · split at h
      · obtain ⟨-, rfl⟩ := Prod.mk.inj (Option.some.inj h)
        exact rfl
      · rename_i message he
        obtain ⟨-, rfl⟩ := Prod.mk.inj (Option.some.inj h)
        exact .inr (.inr ⟨ServerRPCClient.create_error he, message, rfl⟩)
  | addFindFirst id rpc =>
    cases a <;> simp only [Outside.step] at h <;> try contradiction
    all_goals
      split at h <;> try contradiction
      obtain ⟨-, rfl⟩ := Prod.mk.inj (Option.some.inj h)
      exact hw
  | beatNext next =>
    cases next <;> cases a <;> simp only [Outside.step] at h <;> try contradiction
    all_goals first
      | (obtain ⟨rpc, -, heq⟩ := Option.map_eq_some_iff.mp h
         obtain ⟨-, rfl⟩ := Prod.mk.inj heq
         exact hw)
      | (obtain ⟨-, rfl⟩ := Prod.mk.inj (Option.some.inj h); exact hw)
  | beatAlive e next att =>
    cases a <;> simp only [Outside.step] at h <;> try contradiction
    · obtain ⟨r, -, heq⟩ := Option.map_eq_some_iff.mp h
      obtain ⟨-, rfl⟩ := Prod.mk.inj heq
      exact hw
    · split at h <;> try contradiction
      obtain ⟨-, rfl⟩ := Prod.mk.inj (Option.some.inj h)
      exact hw
    · split at h <;> try contradiction
      split at h
      all_goals obtain ⟨-, rfl⟩ := Prod.mk.inj (Option.some.inj h)
      · exact hw
      · exact hw
  | finished o => cases a <;> simp [Outside.step] at h

theorem Flow.belongs (w : Work) (f : Flow) {at_ : Loop → Inside} {after : Inside}
    (hat : ∀ l, (at_ l).Belongs w.op) (hafter : after.Belongs w.op) :
    (f.point at_ after).Belongs w.op := by
  cases f with
  | again l => exact hat l
  | done => exact hafter
  | raised => exact w.op_ends_runtime

theorem listServer_ends (ids : Finset ServerId) :
    Op.listServer.Ends (.returned (listServer ids)) := by
  unfold listServer
  split
  · exact .inr rfl
  · rename_i hne
    refine .inl ⟨_, fun hnil => hne ?_, rfl⟩
    rw [← Finset.sort_toFinset ids (· ≤ ·), hnil, List.toFinset_nil]

/-- What `listServer` answers. -/
theorem Inside.listServer_step {cl cl' : Cluster} {a : Act} {r : Inside ⊕ Outside}
    (h : Inside.listServer.step c cl a = some (cl', r)) :
    cl' = cl ∧ ∃ o, r = .inl (.leave (.finish o)) ∧ Op.listServer.Ends o := by
  cases a <;> simp only [Inside.step] at h <;> try contradiction
  obtain ⟨rfl, rfl⟩ := Prod.mk.inj (Option.some.inj h)
  exact ⟨rfl, _, rfl, listServer_ends _⟩

/-- And inside. -/
theorem Inside.step_belongs {cl cl' : Cluster} {i : Inside} {a : Act} {r : Inside ⊕ Outside}
    (h : i.step c cl a = some (cl', r)) (hi : i.Belongs op) :
    (∀ i', r = .inl i' → i'.Belongs op) ∧ ∀ w, r = .inr w → w.Belongs op := by
  have hinl : ∀ {j : Inside}, r = .inl j → j.Belongs op →
      (∀ i', r = .inl i' → i'.Belongs op) ∧ ∀ w, r = .inr w → w.Belongs op := by
    rintro j rfl hj
    refine ⟨fun i' e => ?_, fun w e => by cases e⟩
    obtain rfl := Sum.inl.inj e
    exact hj
  by_cases hlist : i = .listServer
  · subst hlist
    obtain rfl : op = .listServer := hi
    obtain ⟨-, o, hr, ho⟩ := Inside.listServer_step h
    exact hinl hr ho
  · have hm := Inside.Move.of_step h
    generalize cl.view = v at hm
    generalize cl'.view = v' at hm
    cases hm with
    | @lock w l a v' f _ =>
      obtain rfl : op = w.op := hi
      have hat : ∀ l, (Inside.lock w l).Belongs w.op := fun _ => rfl
      exact hinl rfl (f.belongs w hat w.body_belongs)
    | @write k x l a v' f _ =>
      obtain rfl : op = .put k x := hi
      have hat : ∀ l, (Inside.write k x l).Belongs (Work.put k x).op := fun _ => rfl
      exact hinl rfl (f.belongs (.put k x) hat rfl)
    | @unlock w l a v' f _ =>
      obtain rfl : op = w.op := hi
      have hat : ∀ l, (Inside.unlock w l).Belongs w.op := fun _ => rfl
      exact hinl rfl (f.belongs w hat w.after_belongs)
    | senderGone _ =>
      cases hi
      exact hinl rfl (Transfer.failed_belongs ..)
    | transferThrow _ =>
      cases hi
      exact hinl rfl (Transfer.failed_belongs ..)
    | listServer y hy => exact absurd rfl hlist
    | shutdownMissing _ =>
      cases hi
      exact hinl rfl (.inr rfl)
    | shutdownThrow =>
      cases hi
      exact hinl rfl rfl
    | registerFirst =>
      cases hi
      exact hinl rfl (.inl rfl)
    | register =>
      cases hi
      exact hinl rfl (.inl rfl)
    | shutdownRemove =>
      cases hi
      exact hinl rfl (.inl rfl)
    | @leave e =>
      refine ⟨nofun, fun w hw => ?_⟩
      obtain rfl := Sum.inr.inj hw
      cases e <;> exact hi
    | _ => exact hinl rfl hi

/-! ## Where values come from -/

section
variable {G G' : Key → Val → Prop}

/-- Every binding of the map satisfies `G`. -/
def BoundIn (G : Key → Val → Prop) (d : Data) : Prop := ∀ k x, d.lookup k = some x → G k x

def Method.From (G : Key → Val → Prop) (m : Method) : Prop := ∀ k x, m = .put k x → G k x

/-- Every binding of the replies, of the servers, of the requests in the network and of the
threads satisfies `G`. -/
def Reply.From (G : Key → Val → Prop) : Reply → Prop
  | .success k x | .pair k x => G k x
  | .pairs entries => ∀ e ∈ entries, G e.1 e.2
  | _ => True

def Outcome.From (G : Key → Val → Prop) : Outcome → Prop
  | .returned y => y.From G
  | .threw _ => True

structure View.From (G : Key → Val → Prop) (v : View) : Prop where
  data : ∀ id, BoundIn G (v.data id)
  outstanding : ∀ r ∈ v.outstanding, r.method.From G

def Reader.From (G : Key → Val → Prop) : Reader → Prop
  | .printing _ out => ∀ e ∈ out, G e.1 e.2
  | .answered y => y.From G
  | _ => True

def Send.From (G : Key → Val → Prop) : Send → Prop
  | .put _ k x _ => G k x
  | _ => True

def Work.From (G : Key → Val → Prop) : Work → Prop
  | .put k x => G k x
  | .addServer _ _ _ => True

def Inside.From (G : Key → Val → Prop) : Inside → Prop
  | .lock w _ | .unlock w _ => w.From G
  | .write k x _ => G k x
  | .transfer _ _ _ ⟨_, .remote p⟩ => p.From G
  | .leave (.finish o) => o.From G
  | _ => True

def Outside.From (G : Key → Val → Prop) : Outside → Prop
  | .synchronized b => b.start.From G
  | .remote _ _ r => r.From G
  | .finished o => o.From G
  | _ => True

def PointFrom (G : Key → Val → Prop) : Monitor.Local Outside Inside → Prop
  | .out w => w.From G
  | .inn i => i.From G

theorem BoundIn.insert {d : Data} (h : BoundIn G d) {k : Key} {x : Val} (hx : G k x) :
    BoundIn G (d.insert k x) := by
  intro k' x' hk'
  by_cases hkk : k' = k
  · subst hkk
    obtain rfl : x = x' := by simpa using hk'
    exact hx
  · rw [Finmap.lookup_insert_of_ne _ hkk] at hk'
    exact h k' x' hk'

theorem View.From.setData {v : View} (h : v.From G) {id : ServerId} {d : Data}
    (hd : BoundIn G d) : (v.setData id d).From G := by
  refine ⟨fun id' => ?_, h.outstanding⟩
  by_cases hid : id' = id
  · subst hid
    rw [View.setData_data_self]
    exact hd
  · rw [View.setData_data_of_ne v hid]
    exact h.data id'

theorem Method.From.effect {m : Method} (hm : m.From G) {v : View} (h : v.From G)
    (pr : Progress) (id : ServerId) : (m.effect pr id v).From G := by
  cases m with
  | put k x =>
    cases pr with
    | sent => exact h.setData ((h.data id).insert (hm k x rfl))
    | _ => exact h
  | _ => cases pr <;> exact ⟨h.data, h.outstanding⟩

theorem Loop.Move.from {m : Method} {sw : Bool} {v v' : View} {l : Loop} {a : Act} {f : Flow}
    (h : Loop.Move m sw c v l a v' f) (hm : m.From G) (hv : v.From G) : v'.From G := by
  cases h with
  | exec _ _ => exact hm.effect hv _ _
  | linger _ =>
    refine ⟨hv.data, fun r hr => ?_⟩
    rcases List.mem_append.mp hr with hr | hr
    · exact hv.outstanding r hr
    · rw [List.mem_singleton.mp hr]
      exact hm
  | _ => exact hv

theorem Send.Move.from {v v' : View} {sender target : ServerId} {p p' : Send} {b : SendAct}
    (h : Send.Move v sender target p b v' p') (hv : v.From G) (hp : p.From G) :
    v'.From G ∧ p'.From G := by
  cases h with
  | @visit todo k x _ hx => exact ⟨hv, hv.data sender k x hx⟩
  | @exec todo k x a _ _ =>
    refine ⟨Method.From.effect (fun k' x' e => ?_) hv _ _, hp⟩
    obtain ⟨rfl, rfl⟩ := Method.put.inj e
    exact hp
  | retry _ => exact ⟨hv, hp⟩
  | _ => exact ⟨hv, trivial⟩

theorem ServerRPCImpl.read_from {p p' : ServerRPCImpl} {q : Query} {r r' : Reader}
    {a : ReaderAct} (h : p.read q c r a = some (p', r')) (hp : BoundIn G p.data)
    (hr : r.From G) : r'.From G := by
  cases r with
  | passed =>
    cases a <;> simp only [ServerRPCImpl.read] at h <;> try contradiction
    cases q with
    | get k =>
      obtain ⟨-, rfl⟩ := Prod.mk.inj (Option.some.inj h)
      cases hx : p.data.lookup k with
      | none => exact trivial
      | some x => exact hp k x hx
    | printKVPairs =>
      obtain ⟨-, rfl⟩ := Prod.mk.inj (Option.some.inj h)
      intro e he
      exact absurd he List.not_mem_nil
  | printing todo out =>
    cases a <;> simp only [ServerRPCImpl.read] at h <;> try contradiction
    · split at h <;> try contradiction
      obtain ⟨-, rfl⟩ := Prod.mk.inj (Option.some.inj h)
      exact hr
    · split at h <;> try contradiction
      rename_i x hx
      split at h <;> try contradiction
      obtain ⟨-, rfl⟩ := Prod.mk.inj (Option.some.inj h)
      intro e he
      rcases List.mem_append.mp he with he | he
      · exact hr e he
      · rw [List.mem_singleton.mp he]
        exact hp _ x hx
  | answered y => cases a <;> simp [ServerRPCImpl.read] at h
  | _ =>
    cases a <;> simp only [ServerRPCImpl.read] at h <;> try contradiction
    all_goals repeat (split at h)
    all_goals first
      | contradiction
      | (obtain ⟨-, rfl⟩ := Prod.mk.inj (Option.some.inj h)
         exact trivial)

theorem Outside.Move.from {v : View} {w w' : Outside} {a : Act} (h : Outside.Move c v w a w')
    (hv : v.From G) (hw : w.From G) (hcall : ∀ op, a = .call op → op.start.From G) :
    w'.From G := by
  cases h with
  | @call op => exact hcall op rfl
  | @read q id r r' b p p' hd _ h => exact ServerRPCImpl.read_from h (hd ▸ hv.data id) hw
  | reply => exact hw
  | refuses hy => rcases hy with rfl | ⟨message, rfl⟩ <;> exact trivial
  | @beat w w' a _ hw' => cases w' <;> first | exact trivial | cases hw'
  | _ => exact trivial

theorem Flow.from {at_ : Loop → Inside} {after : Inside} (hat : ∀ l, (at_ l).From G)
    (hafter : after.From G) (f : Flow) : (f.point at_ after).From G := by
  cases f with
  | again l => exact hat l
  | done => exact hafter
  | raised => exact trivial

theorem Work.From.body {w : Work} (h : w.From G) : w.body.From G := by
  cases w <;> exact h

theorem Work.From.after {w : Work} (h : w.From G) : w.after.From G := by
  cases w <;> exact h

theorem Transfer.failed_from (id : ServerId) (rpc : ServerRPC id) (sender : ServerId)
    (a : Attempt Transfer) : (Transfer.failed id rpc sender a).From G := by
  rcases Transfer.failed_cases id rpc sender a with ⟨-, e⟩ | ⟨-, e⟩ <;> rw [e] <;> exact trivial

theorem Exit.point_from {e : Exit} (h : (Inside.leave e).From G) : e.point.From G := by
  cases e <;> exact h

theorem Op.listServer_ends_from {o : Outcome} (h : Op.listServer.Ends o) : o.From G := by
  cases o with
  | returned y => rcases h with ⟨ids, -, rfl⟩ | rfl <;> exact trivial
  | threw e => exact trivial

theorem Inside.Move.from {v v' : View} {i : Inside} {a : Act} {r : Inside ⊕ Outside}
    (h : Inside.Move c v i a v' r) (hlist : i ≠ .listServer) (hv : v.From G) (hi : i.From G) :
    v'.From G ∧ (∀ i', r = .inl i' → i'.From G) ∧ ∀ w, r = .inr w → w.From G := by
  have hinl : ∀ {v' : View} {j : Inside}, v'.From G → j.From G →
      v'.From G ∧ (∀ i', (Sum.inl j : Inside ⊕ Outside) = .inl i' → i'.From G) ∧
        ∀ w, (Sum.inl j : Inside ⊕ Outside) = .inr w → w.From G := by
    intro v' j hv' hj
    refine ⟨hv', fun i' e => ?_, nofun⟩
    obtain rfl := Sum.inl.inj e
    exact hj
  cases h with
  | @lock w l a v' f h =>
    have hat : ∀ l, (Inside.lock w l).From G := fun _ => hi
    exact hinl (h.from nofun hv) (f.from hat (Work.From.body hi))
  | @write k x l a v' f h =>
    have hm : (Method.put k x).From G := fun k' x' e => by
      obtain ⟨rfl, rfl⟩ := Method.put.inj e
      exact hi
    have hat : ∀ l, (Inside.write k x l).From G := fun _ => hi
    have hafter : (Inside.unlock (.put k x) .start).From G := hi
    exact hinl (h.from hm hv) (f.from hat hafter)
  | @unlock w l a v' f h =>
    have hat : ∀ l, (Inside.unlock w l).From G := fun _ => hi
    exact hinl (h.from nofun hv) (f.from hat (Work.From.after hi))
  | senderGone _ => exact hinl hv (Transfer.failed_from ..)
  | transferThrow _ => exact hinl hv (Transfer.failed_from ..)
  | send _ h =>
    obtain ⟨hv', hp'⟩ := h.from hv hi
    exact hinl hv' hp'
  | listServer y hy => exact absurd rfl hlist
  | @leave e =>
    refine ⟨hv, nofun, fun w hw => ?_⟩
    obtain rfl := Sum.inr.inj hw
    exact Exit.point_from hi
  | registerFirst => exact hinl ⟨hv.data, hv.outstanding⟩ trivial
  | register => exact hinl ⟨hv.data, hv.outstanding⟩ trivial
  | shutdownRemove => exact hinl ⟨hv.data, hv.outstanding⟩ trivial
  | beatRemove => exact hinl ⟨hv.data, hv.outstanding⟩ trivial
  | _ => exact hinl hv trivial

theorem Inside.step_from {cl cl' : Cluster} {i : Inside} {a : Act} {r : Inside ⊕ Outside}
    (h : i.step c cl a = some (cl', r)) (hv : cl.view.From G) (hi : i.From G) :
    cl'.view.From G ∧ (∀ i', r = .inl i' → i'.From G) ∧ ∀ w, r = .inr w → w.From G := by
  by_cases hlist : i = .listServer
  · subst hlist
    obtain ⟨rfl, o, rfl, ho⟩ := Inside.listServer_step h
    refine ⟨hv, fun i' e => ?_, nofun⟩
    obtain rfl := Sum.inl.inj e
    exact Op.listServer_ends_from ho
  · exact (Inside.Move.of_step h).from hlist hv hi

theorem Event.Move.from {v v' : View} {e : Event} (h : Event.Move v e v') (hv : v.From G) :
    v'.From G := by
  cases h with
  | crash => exact ⟨hv.data, hv.outstanding⟩
  | @deliver n r hr _ _ =>
    have hm : r.method.From G := hv.outstanding r (List.mem_of_getElem? hr)
    refine ⟨(hm.effect hv _ _).data, fun r' hr' => ?_⟩
    obtain ⟨r'', hmem, -, hme, -⟩ := mem_delivered hr hr'
    rw [← hme]
    exact hv.outstanding r'' hmem

theorem BoundIn.mono {d : Data} (h : BoundIn G d) (hG : ∀ k x, G k x → G' k x) :
    BoundIn G' d := fun k x hx => hG k x (h k x hx)

theorem Reply.From.mono {y : Reply} (h : y.From G) (hG : ∀ k x, G k x → G' k x) : y.From G' := by
  cases y with
  | success k x => exact hG k x h
  | pair k x => exact hG k x h
  | pairs entries => exact fun e he => hG e.1 e.2 (h e he)
  | _ => exact trivial

theorem Outcome.From.mono {o : Outcome} (h : o.From G) (hG : ∀ k x, G k x → G' k x) :
    o.From G' := by
  cases o with
  | returned y => exact Reply.From.mono h hG
  | threw e => exact trivial

theorem Reader.From.mono {r : Reader} (h : r.From G) (hG : ∀ k x, G k x → G' k x) :
    r.From G' := by
  cases r with
  | printing todo out => exact fun e he => hG e.1 e.2 (h e he)
  | answered y => exact Reply.From.mono h hG
  | _ => exact trivial

theorem View.From.mono {v : View} (h : v.From G) (hG : ∀ k x, G k x → G' k x) : v.From G' :=
  ⟨fun id => (h.data id).mono hG, fun r hr k x e => hG k x (h.outstanding r hr k x e)⟩

theorem Inside.From.mono {i : Inside} (h : i.From G) (hG : ∀ k x, G k x → G' k x) :
    i.From G' := by
  have hwork : ∀ {w : Work}, w.From G → w.From G' := by
    intro w hw
    cases w with
    | put k x => exact hG k x hw
    | addServer id rpc sender => exact trivial
  cases i with
  | lock w l => exact hwork h
  | unlock w l => exact hwork h
  | write k x l => exact hG k x h
  | transfer id rpc sender a =>
    obtain ⟨n, t⟩ := a
    cases t with
    | lookup => exact trivial
    | remote p =>
      cases p with
      | put todo k x a => exact hG k x h
      | _ => exact trivial
  | leave e =>
    cases e with
    | finish o => exact Outcome.From.mono h hG
    | resume next => exact trivial
  | _ => exact trivial

theorem PointFrom.mono {l : Monitor.Local Outside Inside} (h : PointFrom G l)
    (hG : ∀ k x, G k x → G' k x) : PointFrom G' l := by
  cases l with
  | inn i => exact Inside.From.mono h hG
  | out w =>
    cases w with
    | synchronized b => exact Inside.From.mono h hG
    | remote q id r => exact Reader.From.mono h hG
    | finished o => exact Outcome.From.mono h hG
    | _ => exact trivial

/-- Every binding in the system satisfies `G`. -/
structure System.From (G : Key → Val → Prop) (s : System) : Prop where
  view : s.shared.view.From G
  points : ∀ c, PointFrom G (s.locals c)

theorem System.From.mono {s : System} (h : s.From G) (hG : ∀ k x, G k x → G' k x) : s.From G' :=
  ⟨h.view.mono hG, fun c => (h.points c).mono hG⟩

/-- The step lemma: new bindings come with the calls of `put`. -/
theorem System.From.step {s s' : System} {l : Label} (h : s.From G)
    (hs : Monitor.Step frontend s l s')
    (hcall : ∀ c k x, l = .run c (.call (.put k x)) → G k x) : s'.From G := by
  have hupdate : ∀ {t x}, PointFrom G x → ∀ c, PointFrom G (Function.update s.locals t x c) :=
    fun hx => (Function.forall_update_iff s.locals fun _ l => PointFrom G l).mpr
      ⟨hx, fun c _ => h.points c⟩
  cases hs with
  | @outside t a w w' σ' hl ho =>
    have hw := h.points t
    rw [hl] at hw
    refine ⟨by rw [Outside.step_view ho]; exact h.view, hupdate ?_⟩
    refine (Outside.Move.of_step ho).from h.view hw ?_
    rintro op rfl
    cases op with
    | put k x => exact hcall t k x rfl
    | _ => exact trivial
  | @inside t a i i' σ' hl hi =>
    have hw := h.points t
    rw [hl] at hw
    obtain ⟨hv', hi', -⟩ := Inside.step_from hi h.view hw
    exact ⟨hv', hupdate (hi' i' rfl)⟩
  | @leave t a i w σ' hl hi =>
    have hw := h.points t
    rw [hl] at hw
    obtain ⟨hv', -, hw'⟩ := Inside.step_from hi h.view hw
    exact ⟨hv', hupdate (hw' w rfl)⟩
  | @enter t w i hl he _ =>
    have hw := h.points t
    rw [hl] at hw
    obtain ⟨b, rfl, rfl⟩ := Outside.entry_eq_some he
    exact ⟨h.view, hupdate hw⟩
  | env he => exact ⟨(Event.Move.of_step he).from h.view, h.points⟩

end

/-! ## Runs -/

/-- The thread `c` was started with `op`. -/
def Started (c : CallId) (op : Op) (tr : Trace) : Prop := ∃ e ∈ tr, e.2 = .run c (.call op)

theorem started_snoc {tr : Trace} {s : System} {l : Label} :
    Started c op (tr ++ [(s, l)]) ↔ Started c op tr ∨ l = .run c (.call op) := by
  simp only [Started, List.mem_append, List.mem_singleton, or_and_right, exists_or, exists_eq_left]

/-- The thread `c` has not been started, or it runs the one operation it was started with. -/
def Runs (c : CallId) (tr : Trace) (l : Monitor.Local Outside Inside) : Prop :=
  (l = .out .idle ∧ ∀ op, ¬ Started c op tr) ∨
    ∃ op, (∀ op', Started c op' tr ↔ op' = op) ∧ op.At l

theorem Runs.goes_on {tr : Trace} {l l' : Monitor.Local Outside Inside} {s : System} {lab : Label}
    (h : Runs c tr l) (hidle : l ≠ .out .idle) (hlab : ∀ op, lab ≠ .run c (.call op))
    (hat : ∀ op : Op, op.At l → op.At l') : Runs c (tr ++ [(s, lab)]) l' := by
  rcases h with ⟨hl, -⟩ | ⟨op, hop, h⟩
  · exact absurd hl hidle
  · refine .inr ⟨op, fun op' => ?_, hat op h⟩
    rw [started_snoc, or_iff_left (hlab op')]
    exact hop op'

theorem Runs.other {tr : Trace} {l : Monitor.Local Outside Inside} {s : System} {lab : Label}
    (h : Runs c tr l) (hlab : lab.thread ≠ some c) : Runs c (tr ++ [(s, lab)]) l := by
  have hcall : ∀ op, lab ≠ .run c (.call op) := by
    rintro op rfl
    exact hlab rfl
  rcases h with ⟨hl, hno⟩ | ⟨op, hop, h⟩
  · refine .inl ⟨hl, fun op hs => ?_⟩
    rcases started_snoc.mp hs with hs | hs
    · exact hno op hs
    · exact hcall op hs
  · refine .inr ⟨op, fun op' => ?_, h⟩
    rw [started_snoc, or_iff_left (hcall op')]
    exact hop op'

theorem Runs.step {tr : Trace} {s s' : System} {l : Label} (h : Runs c tr (s.locals c))
    (hs : Monitor.Step frontend s l s') : Runs c (tr ++ [(s, l)]) (s'.locals c) := by
  cases hl : s.locals c with
  | out w =>
    rw [hl] at h
    rcases hs.of_out hl with ⟨hne, h'⟩ | ⟨a, w', rfl, ho, h'⟩ | ⟨i, rfl, he, -, -, h'⟩
    · rw [h']
      exact h.other hne
    · by_cases hcall : ∃ op, a = .call op
      · obtain ⟨op, rfl⟩ := hcall
        obtain ⟨hidle, -, hstart⟩ := call_start hs
        obtain rfl := Monitor.Local.out.inj (hl.symm.trans hidle)
        rcases h with ⟨-, hno⟩ | ⟨op', -, hat⟩
        · refine .inr ⟨op, fun op' => ?_, by rw [hstart]; exact op.start_belongs⟩
          rw [started_snoc, or_iff_right (hno op')]
          constructor
          · intro e
            exact (Act.call.inj (Monitor.Label.run.inj e).2).symm
          · rintro rfl
            rfl
        · exact absurd hat id
      · rw [h']
        refine h.goes_on (fun e => ?_) (fun op e => hcall ⟨op, (Monitor.Label.run.inj e).2⟩)
          fun op hat => Outside.step_belongs ho hat
        obtain rfl := Monitor.Local.out.inj e
        cases a <;> simp [frontend, Outside.step] at ho
        exact hcall ⟨_, rfl⟩
    · rw [h']
      obtain ⟨b, rfl, rfl⟩ := Outside.entry_eq_some he
      exact h.goes_on (by simp) (by simp) fun op hat => hat
  | inn i =>
    rw [hl] at h
    rcases hs.of_inn hl with ⟨hne, h'⟩ | ⟨a, i', rfl, hi, h'⟩ | ⟨a, w, rfl, hi, h'⟩
    · rw [h']
      exact h.other hne
    · rw [h']
      exact h.goes_on (by simp)
        (fun op e => (Inside.Move.of_step hi).not_call op (Monitor.Label.run.inj e).2)
        fun op hat => (Inside.step_belongs hi hat).1 i' rfl
    · rw [h']
      exact h.goes_on (by simp)
        (fun op e => (Inside.Move.of_step hi).not_call op (Monitor.Label.run.inj e).2)
        fun op hat => (Inside.step_belongs hi hat).2 w rfl

theorem Runs.of_run {ok : System → Label → Prop} {s₀ s : System} {tr : Trace}
    (h₀ : s₀.locals c = .out .idle) (h : SystemRun ok s₀ tr s) : Runs c tr (s.locals c) := by
  refine h.invariant (I := fun tr s => Runs c tr (s.locals c)) (.inl ⟨h₀, ?_⟩) ?_
  · rintro op ⟨e, he, -⟩
    cases he
  · intro tr s l s' _ _ hs ih
    exact ih.step (Monitor.Step.of_step frontend hs)

/-- In every run, with every pattern of failures, a thread that has ended was started with
one operation and has ended as that operation can: a reply belongs to the request of its
own thread, and nothing but the listed exceptions leaves a method of the frontend. -/
theorem ends_as_called {ok : System → Label → Prop} {s₀ s : System} {tr : Trace} {o : Outcome}
    (h₀ : s₀.locals c = .out .idle) (h : SystemRun ok s₀ tr s)
    (hc : s.locals c = .out (.finished o)) :
    ∃ op, (∀ op', Started c op' tr ↔ op' = op) ∧ op.Ends o := by
  have hruns := Runs.of_run h₀ h
  rw [hc] at hruns
  rcases hruns with ⟨hidle, -⟩ | ⟨op, hop, hat⟩
  · cases hidle
  · exact ⟨op, hop, hat⟩

/-- The first attempt of the write of call 0 is left in the network and executed after call 1
has read the value. -/
def getBeforeLate : List Label :=
  [.run 0 (.call (.put 4 7)), .enter 0] ++ loopOn 0 [.run 0 .exec] [1] ++
    [.run 0 .step, .run 0 (.pick 1), .run 0 .linger, .run 0 .exec, .run 0 .reply, .run 0 .step] ++
    loopOn 0 [.run 0 .exec, .run 0 .exec] [1] ++ [.run 0 .step, .run 1 (.call (.get 4)),
      .run 1 .step, .run 1 .step, .run 1 .step, .run 1 .step, .run 1 (.read .step),
      .run 1 (.read .step), .run 1 .reply, .env (.deliver 0)]

theorem getBeforeLate_run :
    ∃ tr s, SystemRun (fun _ _ => True) (System.fresh oneServer) tr s ∧
      s.outcome 1 = some (.returned (.pair 4 7)) := by
  have hex : ((exec System.step (System.fresh oneServer) getBeforeLate).map fun s =>
      s.outcome 1) = some (some (.returned (.pair 4 7))) := by decide +kernel
  obtain ⟨s, hrun, hs⟩ := Run.exists_of_exec (fun _ _ => True) hex fun _ _ => trivial
  exact ⟨_, s, hrun, hs⟩

theorem ends_as_called_getBeforeLate :
    ∃ tr s, SystemRun (fun _ _ => True) (System.fresh oneServer) tr s ∧
      s.outcome 1 = some (.returned (.pair 4 7)) ∧
      ∃ op, (∀ op', Started 1 op' tr ↔ op' = op) ∧ op.Ends (.returned (.pair 4 7)) := by
  obtain ⟨tr, s, hrun, hs⟩ := getBeforeLate_run
  exact ⟨tr, s, hrun, hs, ends_as_called rfl hrun (System.outcome_eq hs)⟩

/-- A pair that was stored or on its way when the run began, or that a put was called
with. -/
def Source (s₀ : System) (tr : Trace) (k : Key) (x : Val) : Prop :=
  (∃ id, (s₀.shared.process id).data.lookup k = some x) ∨
    (∃ r ∈ s₀.shared.outstanding, r.method = .put k x) ∨ ∃ c, Called c k x tr

theorem Source.snoc {s₀ s : System} {tr : Trace} {l : Label} {k : Key} {x : Val}
    (h : Source s₀ tr k x) : Source s₀ (tr ++ [(s, l)]) k x := by
  rcases h with h | h | ⟨c, hc⟩
  · exact .inl h
  · exact .inr (.inl h)
  · exact .inr (.inr ⟨c, called_snoc.mpr (.inl hc)⟩)

theorem Source.of_step {s₀ s s' : System} {tr : Trace} {l : Label}
    (h : s.From (Source s₀ tr)) (hs : Monitor.Step frontend s l s') :
    s'.From (Source s₀ (tr ++ [(s, l)])) := by
  refine (h.mono fun _ _ => .snoc).step hs ?_
  rintro c k x rfl
  exact .inr (.inr ⟨c, called_snoc.mpr (.inr rfl)⟩)

/-- No value comes out of thin air: in every run, with every pattern of failures, late
writes and membership changes, every pair that a server stores or that a call returns was
there when the run began or is the argument of a put that was called before. -/
theorem values_from_puts {ok : System → Label → Prop} {s₀ s : System} {tr : Trace}
    (h₀ : ∀ c, s₀.locals c = .out .idle) (h : SystemRun ok s₀ tr s) :
    (∀ id k x, (s.shared.process id).data.lookup k = some x → Source s₀ tr k x) ∧
      ∀ c o, s.locals c = .out (.finished o) → o.From (Source s₀ tr) := by
  have hstart : s₀.From (Source s₀ []) := by
    refine ⟨⟨fun id k x hx => .inl ⟨id, hx⟩, fun r hr k x hm => .inr (.inl ⟨r, hr, hm⟩)⟩, ?_⟩
    intro c
    rw [h₀ c]
    exact trivial
  have hrun : s.From (Source s₀ tr) :=
    h.invariant (I := fun tr s => s.From (Source s₀ tr)) hstart fun _ _ _ _ _ _ hs ih =>
      Source.of_step ih (Monitor.Step.of_step frontend hs)
  refine ⟨hrun.view.data, fun c o hc => ?_⟩
  have hp := hrun.points c
  rw [hc] at hp
  exact hp

theorem values_from_puts_getBeforeLate :
    ∃ tr s, SystemRun (fun _ _ => True) (System.fresh oneServer) tr s ∧
      s.outcome 1 = some (.returned (.pair 4 7)) ∧ Source (System.fresh oneServer) tr 4 7 := by
  obtain ⟨tr, s, hrun, hs⟩ := getBeforeLate_run
  exact ⟨tr, s, hrun, hs,
    (values_from_puts (fun _ => rfl) hrun).2 1 _ (System.outcome_eq hs)⟩

end ReplicatedStore
