/-
What a put that throws leaves behind.

`runWithLock` stops at the first `Retry.run` that throws and undoes nothing.  If that
happens in the unlock phase every live server has been written.  If it happens in the
write phase, the servers the iterator had already returned have been written, those it
had still to return have not, and the one in between is in either state.
-/
import ReplicatedStore.Loops
import ReplicatedStore.Runs

namespace ReplicatedStore

open Lib

/-- Of the live registered servers, those of `todo` hold `m`, and the others hold `m'`,
except that `f` may hold `m` too. -/
def View.PartWritten (v : View) (m m' : Data) (todo : Finset ServerId)
    (f : Option ServerId) : Prop :=
  ∀ id ∈ v.servers, v.crashed id = false →
    (id ∈ todo → v.data id = m) ∧ (id ∉ todo → v.data id = m' ∨ f = some id ∧ v.data id = m)

/-- The network executes none of the first `n` requests, those of earlier calls. -/
def LateFrom (n : Nat) : Label → Prop
  | .env (.deliver j) => n ≤ j
  | _ => True

instance (n : Nat) : DecidablePred (LateFrom n) := fun l => by
  unfold LateFrom
  split <;> infer_instance

variable {left : List Request} {m : Data} {k : Key} {x : Val}

/-! ## Requests left in the network -/

/-- The network holds the requests `left` of earlier calls, and after them writes of
`put(k, x)` at servers outside `todo`. -/
def Late (left : List Request) (k : Key) (x : Val) (todo : Finset ServerId)
    (rest : List Request) : Prop :=
  ∃ own, rest = left ++ own ∧ ∀ r ∈ own, ∀ k' x', r.method = .put k' x' →
    k' = k ∧ x' = x ∧ r.serverId ∉ todo

theorem Late.mono {todo todo' : Finset ServerId} {rest : List Request}
    (h : Late left k x todo rest) (ht : todo' ⊆ todo) : Late left k x todo' rest := by
  obtain ⟨own, rfl, hown⟩ := h
  refine ⟨own, rfl, fun r hr k' x' hm => ?_⟩
  obtain ⟨hk, hx, hn⟩ := hown r hr k' x' hm
  exact ⟨hk, hx, fun hin => hn (ht hin)⟩

/-- An attempt of the put is left in the network. -/
theorem Late.append {todo : Finset ServerId} {rest : List Request} {r : Request}
    (h : Late left k x todo rest)
    (hr : ∀ k' x', r.method = .put k' x' → k' = k ∧ x' = x ∧ r.serverId ∉ todo) :
    Late left k x todo (rest ++ [r]) := by
  obtain ⟨own, rfl, hown⟩ := h
  refine ⟨own ++ [r], List.append_assoc .., fun r' hr' => ?_⟩
  rcases List.mem_append.mp hr' with hr' | hr'
  · exact hown r' hr'
  · obtain rfl := List.mem_singleton.mp hr'
    exact hr

theorem delivered_append {own : List Request} {n : Nat} {r : Request} {pr : Progress}
    (hn : left.length ≤ n) :
    delivered (left ++ own) n r pr = left ++ delivered own (n - left.length) r pr := by
  unfold delivered
  split
  · exact List.eraseIdx_append_of_length_le hn _
  · exact List.set_append_right _ _ hn

/-- The network executes an attempt of the put. -/
theorem Late.delivered {todo : Finset ServerId} {rest : List Request} {n : Nat} {r : Request}
    {pr : Progress} (h : Late left k x todo rest) (hn : left.length ≤ n)
    (hr : rest[n]? = some r) :
    (∀ k' x', r.method = .put k' x' → k' = k ∧ x' = x ∧ r.serverId ∉ todo) ∧
      Late left k x todo (delivered rest n r pr) := by
  obtain ⟨own, rfl, hown⟩ := h
  rw [List.getElem?_append_right hn] at hr
  refine ⟨hown r (List.mem_of_getElem? hr), _, delivered_append hn, fun r' hr' => ?_⟩
  obtain ⟨r'', hr'', hid, hm, _⟩ := mem_delivered hr hr'
  rw [← hid, ← hm]
  exact hown r'' hr''

/-! ## Progress -/

/-- How far `put(k, x)` has come, and that no attempt of it that may still be executed
is at a server of `todo`. -/
structure PartWay (left : List Request) (m : Data) (k : Key) (x : Val)
    (todo : Finset ServerId) (f : Option ServerId) (v : View) : Prop where
  written : v.PartWritten m (m.insert k x) todo f
  late : Late left k x todo v.outstanding

/-- What may happen during the put: servers crash, and servers outside `todo` execute
it. -/
theorem PartWay.step {todo : Finset ServerId} {f : Option ServerId} {v v' : View}
    (h : PartWay left m k x todo f v) (hs : v'.servers = v.servers)
    (hc : ∀ id, v'.crashed id = false → v.crashed id = false)
    (hd : ∀ id, v'.data id = v.data id ∨ id ∉ todo ∧ v'.data id = (v.data id).insert k x)
    (ho : Late left k x todo v'.outstanding) : PartWay left m k x todo f v' := by
  refine ⟨fun id hid hlive => ?_, ho⟩
  have hold := h.written id (hs ▸ hid) (hc id hlive)
  rcases hd id with he | ⟨hn, he⟩
  · rw [he]
    exact hold
  · refine ⟨fun hin => absurd hin hn, fun _ => .inl ?_⟩
    rw [he]
    rcases hold.2 hn with hnew | ⟨_, hm⟩
    · rw [hnew, Finmap.insert_insert]
    · rw [hm]

/-- The iterator returns the next entry. -/
theorem PartWay.pick {todo : Finset ServerId} {v : View} {id : ServerId}
    (h : PartWay left m k x todo none v) (hid : id ∈ todo) :
    PartWay left m k x (todo.erase id) (some id) v := by
  refine ⟨fun id' hid' hlive => ?_, h.late.mono (Finset.erase_subset id todo)⟩
  have hold := h.written id' hid' hlive
  refine ⟨fun hin => hold.1 (Finset.mem_of_mem_erase hin), fun hn => ?_⟩
  by_cases he : id' = id
  · subst he
    exact .inr ⟨rfl, hold.1 hid⟩
  · have hn' : id' ∉ todo := fun hin => hn (Finset.mem_erase.mpr ⟨he, hin⟩)
    rcases hold.2 hn' with hnew | ⟨hf, _⟩
    · exact .inl hnew
    · cases hf

theorem PartWay.some {todo : Finset ServerId} {f : Option ServerId} {v : View} (id : ServerId)
    (h : PartWay left m k x todo f v) (hf : f = none ∨ f = .some id) :
    PartWay left m k x todo (.some id) v := by
  rcases hf with rfl | rfl
  · refine ⟨fun id' hid' hlive => ?_, h.late⟩
    have hold := h.written id' hid' hlive
    refine ⟨hold.1, fun hn => .inl ?_⟩
    rcases hold.2 hn with hnew | ⟨hf, _⟩
    · exact hnew
    · cases hf
  · exact h

/-- The server the put was working on has executed it. -/
theorem PartWay.executed {todo : Finset ServerId} {id : ServerId} {v : View}
    (h : PartWay left m k x todo (.some id) v) (hn : id ∉ todo) :
    PartWay left m k x todo none (v.setData id ((v.data id).insert k x)) := by
  refine ⟨fun id' hid' hlive => ?_, h.late⟩
  have hold := h.written id' hid' hlive
  by_cases he : id' = id
  · subst he
    refine ⟨fun hin => absurd hin hn, fun _ => .inl ?_⟩
    rw [View.setData_data_self]
    rcases hold.2 hn with hnew | ⟨_, hm⟩
    · rw [hnew, Finmap.insert_insert]
    · rw [hm]
  · rw [View.setData_data_of_ne _ he]
    refine ⟨hold.1, fun hn' => ?_⟩
    rcases hold.2 hn' with hnew | ⟨hf, _⟩
    · exact .inl hnew
    · exact absurd (Option.some.inj hf).symm he

/-- Where the put has given up: in its write phase at the server `f`, with the servers of
`todo` still to come, or in its unlock phase. -/
inductive GaveUp (c : CallId) (k : Key) (x : Val) (tr : Trace) :
    Finset ServerId → Option ServerId → Prop
  | write {todo : Finset ServerId} {f : ServerId} {a : Attempt Progress} {e : System × Label}
      (he : e ∈ tr) (hl : e.1.locals c = .inn (.write k x (.body todo f a)))
      (hr : RETRIES ≤ a.failures) (ht : e.2 = .run c .throw ∨ e.2 = .run c .linger) :
      GaveUp c k x tr todo (some f)
  | unlock {todo : Finset ServerId} {f : ServerId} {a : Attempt Progress} {e : System × Label}
      (he : e ∈ tr) (hl : e.1.locals c = .inn (.unlock (.put k x) (.body todo f a)))
      (hr : RETRIES ≤ a.failures) (ht : e.2 = .run c .throw ∨ e.2 = .run c .linger) :
      GaveUp c k x tr ∅ none

theorem GaveUp.snoc {c : CallId} {tr : Trace} {todo : Finset ServerId} {f : Option ServerId}
    (h : GaveUp c k x tr todo f) (e : System × Label) : GaveUp c k x (tr ++ [e]) todo f := by
  cases h with
  | write he hl hr ht => exact .write (List.mem_append_left _ he) hl hr ht
  | unlock he hl hr ht => exact .unlock (List.mem_append_left _ he) hl hr ht

/-- What is known of the servers at each point of the put. -/
def Inside.Putting (c : CallId) (left : List Request) (m : Data) (k : Key) (x : Val) (tr : Trace)
    (v : View) : Inside → Prop
  | .lock w _ => w = .put k x ∧ PartWay left m k x v.servers.keys none v
  | .write k' x' l => k' = k ∧ x' = x ∧
      match l with
      | .start => PartWay left m k x v.servers.keys none v
      | .next todo => PartWay left m k x todo none v
      | .body todo id a => id ∉ todo ∧
          PartWay left m k x todo (if a.state = .sent then some id else none) v
  | .unlock w _ => w = .put k x ∧ PartWay left m k x ∅ none v
  | .leave (.finish (.threw _)) => ∃ todo f, GaveUp c k x tr todo f ∧ PartWay left m k x todo f v
  | .leave (.finish (.returned _)) => True
  | _ => False

/-! ## Steps -/

/-- A loop that does not write. -/
theorem Loop.Move.partWay {me : Method} {sw : Bool} {c : CallId} {v v' : View} {l : Loop}
    {a : Act} {fl : Flow} {todo : Finset ServerId} {f : Option ServerId}
    (h : Loop.Move me sw c v l a v' fl) (hm : ∀ k x, me ≠ .put k x)
    (hp : PartWay left m k x todo f v) : PartWay left m k x todo f v' := by
  refine hp.step h.servers (fun id hid => h.crashed ▸ hid)
    (fun id => .inl (congrFun (h.data_eq hm) id)) ?_
  cases h with
  | linger _ => exact hp.late.append fun k' x' hput => absurd hput (hm k' x')
  | exec _ _ => simpa using hp.late
  | _ => exact hp.late

theorem Inside.Move.putting {s : System} {c : CallId} {v' : View} {i i' : Inside} {a : Act}
    {tr : Trace} (hl : s.locals c = .inn i) (h : Inside.Move c s.shared.view i a v' (.inl i'))
    (hi : i.Putting c left m k x tr s.shared.view) :
    i'.Putting c left m k x (tr ++ [(s, .run c a)]) v' := by
  generalize hr : (Sum.inl i' : Inside ⊕ Outside) = r at h
  have hlast : (s, .run c a) ∈ tr ++ [(s, .run c a)] :=
    List.mem_append_right _ (List.mem_singleton_self _)
  cases h with
  | @lock w l a v' f h =>
    obtain rfl := Sum.inl.inj hr
    obtain ⟨rfl, hp⟩ := hi
    have hp' := h.partWay (fun k x => by simp) hp
    rw [← h.servers] at hp'
    cases f with
    | again l' => exact ⟨rfl, hp'⟩
    | done => exact ⟨rfl, rfl, hp'⟩
    | raised => cases h.raised_inv.1
  | @unlock w l a v' f h =>
    obtain rfl := Sum.inl.inj hr
    obtain ⟨rfl, hp⟩ := hi
    have hp' := h.partWay (fun k x => by simp) hp
    cases f with
    | again l' => exact ⟨rfl, hp'⟩
    | done => exact trivial
    | raised =>
      obtain ⟨_, todo, id, att, rfl, hret, hact⟩ := h.raised_inv
      refine ⟨∅, none, .unlock hlast hl hret ?_, hp'⟩
      rcases hact with ⟨rfl, _⟩ | ⟨rfl, _⟩
      · exact .inl rfl
      · exact .inr rfl
  | @write k' x' l a v' f h =>
    obtain rfl := Sum.inl.inj hr
    obtain ⟨rfl, rfl, hp⟩ := hi
    cases h with
    | start => exact ⟨rfl, rfl, hp⟩
    | @pick todo id hid =>
      refine ⟨rfl, rfl, Finset.notMem_erase id todo, ?_⟩
      exact PartWay.pick hp hid
    | done => exact ⟨rfl, hp⟩
    | @exec todo id att hc hne =>
      obtain ⟨hn, hp⟩ := hp
      have hnot : (Method.put k' x').following att.state ≠ .sent := Method.following_ne_sent _ _
      refine ⟨rfl, rfl, hn, ?_⟩
      rw [if_neg hnot]
      cases hst : att.state with
      | sent =>
        rw [if_pos hst] at hp
        exact hp.executed hn
      | notifying =>
        rw [if_neg (by simp [hst])] at hp
        exact hp
      | executed => exact absurd hst hne
    | @reply todo id att hex =>
      obtain ⟨hn, hp⟩ := hp
      rw [if_neg (by simp [hex])] at hp
      exact ⟨rfl, rfl, hp⟩
    | @throw todo id att _ =>
      obtain ⟨hn, hp⟩ := hp
      have hsome : PartWay left m k' x' todo (some id) s.shared.view :=
        hp.some id (by split <;> simp)
      rcases Loop.failed_cases false todo id att with ⟨_, e⟩ | ⟨_, hsw, _⟩ | ⟨hret, _, e⟩
      · rw [e]
        exact ⟨rfl, rfl, hn, hsome⟩
      · cases hsw
      · rw [e]
        exact ⟨todo, some id, .write hlast hl hret (.inl rfl), hsome⟩
    | @linger todo id att hsent =>
      obtain ⟨hn, hp⟩ := hp
      have hsome : PartWay left m k' x' todo (some id) s.shared.view :=
        hp.some id (by split <;> simp)
      have hlate : PartWay left m k' x' todo (some id) { s.shared.view with
          outstanding := s.shared.view.outstanding ++ [⟨id, .put k' x', .sent, c⟩] } := by
        refine hsome.step rfl (fun _ h => h) (fun _ => .inl rfl) ?_
        refine hsome.late.append fun k'' x'' hput => ?_
        obtain ⟨rfl, rfl⟩ := Method.put.inj hput
        exact ⟨rfl, rfl, hn⟩
      rcases Loop.failed_cases false todo id att with ⟨_, e⟩ | ⟨_, hsw, _⟩ | ⟨hret, _, e⟩
      · rw [e]
        exact ⟨rfl, rfl, hn, hlate⟩
      · cases hsw
      · rw [e]
        exact ⟨todo, some id, .write hlast hl hret (.inr rfl), hlate⟩
  | leave => cases hr
  | _ => exact absurd hi (by simp [Inside.Putting])

/-- A crash, or a late execution of an attempt of this put. -/
theorem Event.Move.partWay {v v' : View} {e : Event} {todo : Finset ServerId}
    {f : Option ServerId} (h : Event.Move v e v') (hown : LateFrom left.length (.env e))
    (hp : PartWay left m k x todo f v) : PartWay left m k x todo f v' := by
  cases h with
  | @crash id =>
    refine hp.step rfl (fun id' hid' => ?_) (fun _ => .inl rfl) hp.late
    by_cases he : id' = id
    · subst he
      simp at hid'
    · simpa [he] using hid'
  | @deliver n r hr hc hne =>
    obtain ⟨hput, hlate⟩ := hp.late.delivered hown hr
    refine hp.step (by simp) (fun id' hid' => by simpa using hid') (fun id => ?_) hlate
    show (r.method.effect r.progress r.serverId v).data id = v.data id ∨ id ∉ todo ∧
      (r.method.effect r.progress r.serverId v).data id = (v.data id).insert k x
    by_cases he : id = r.serverId
    · cases hm : r.method with
      | put k' x' =>
        obtain ⟨rfl, rfl, hn⟩ := hput k' x' hm
        subst he
        cases r.progress with
        | sent => exact .inr ⟨hn, by simp⟩
        | notifying => exact .inl rfl
        | executed => exact .inl rfl
      | _ => exact .inl (by cases r.progress <;> rfl)
    · exact .inl (Method.effect_data_of_ne _ _ _ he)

theorem Event.Move.putting {v v' : View} {e : Event} {c : CallId} {i : Inside} {tr : Trace}
    (h : Event.Move v e v') (hown : LateFrom left.length (.env e)) (le : System × Label)
    (hi : i.Putting c left m k x tr v) : i.Putting c left m k x (tr ++ [le]) v' := by
  have hs : v'.servers = v.servers := h.servers
  cases i with
  | lock w l =>
    refine ⟨hi.1, ?_⟩
    rw [hs]
    exact h.partWay hown hi.2
  | write k' x' l =>
    obtain ⟨rfl, rfl, hp⟩ := hi
    refine ⟨rfl, rfl, ?_⟩
    cases l with
    | start =>
      show PartWay left m k' x' v'.servers.keys none v'
      rw [hs]
      exact h.partWay hown hp
    | next todo => exact h.partWay hown hp
    | body todo id a => exact ⟨hp.1, h.partWay hown hp.2⟩
  | unlock w l => exact ⟨hi.1, h.partWay hown hi.2⟩
  | leave ex =>
    cases ex with
    | finish o =>
      cases o with
      | returned r => exact trivial
      | threw e =>
        obtain ⟨todo, f, hg, hp⟩ := hi
        exact ⟨todo, f, hg.snoc le, h.partWay hown hp⟩
    | resume next => exact hi
  | _ => exact hi

theorem Inside.Putting.snoc {c : CallId} {v : View} {i : Inside} {tr : Trace}
    (hi : i.Putting c left m k x tr v) (e : System × Label) :
    i.Putting c left m k x (tr ++ [e]) v := by
  cases i with
  | leave ex =>
    cases ex with
    | finish o =>
      cases o with
      | returned r => exact trivial
      | threw _ =>
        obtain ⟨todo, f, hg, hp⟩ := hi
        exact ⟨todo, f, hg.snoc e, hp⟩
    | resume next => exact hi
  | _ => exact hi

/-! ## Runs -/

/-- If all live registered servers hold `m` when `put(k, x)` takes `serversLock`, and the
network executes no attempt of an earlier call in the meantime, a put that throws leaves
them as its progress tells. -/
theorem put_throws {c : CallId} {e : Exn} {s₀ s₁ s₂ s : System} {pre tr : Trace}
    (h₀ : Quiet s₀) (hpre : SystemRun (fun _ _ => True) s₀ pre s₁)
    (hcall : s₁.locals c = .out (Op.put k x).start) (henter : System.step s₁ (.enter c) = some s₂)
    (hm : ∀ id ∈ s₁.shared.servers, s₁.shared.crashed id = false →
      (s₁.shared.process id).data = m)
    (h : SystemRun (fun _ l => LateFrom s₁.shared.outstanding.length l) s₂ tr s)
    (hheld : ∀ e ∈ tr, e.1.lock = some c)
    (hl : s.locals c = .inn (.leave (.finish (.threw e)))) :
    ∃ todo f, GaveUp c k x tr todo f ∧
      s.shared.view.PartWritten m (m.insert k x) todo f := by
  have hexcl₁ : Monitor.Exclusive s₁ := Monitor.Run.exclusive hpre h₀.exclusive
  have hstep := Monitor.Step.of_step frontend henter
  have hexcl₂ : Monitor.Exclusive s₂ := hstep.exclusive _ hexcl₁
  obtain ⟨hshared, hstart⟩ := put_enters hstep hcall
  have hput := Monitor.Run.while_held
    (Q := fun tr i cl => i.Putting c s₁.shared.outstanding m k x tr cl.view) h hexcl₂ hstart ?_
    hheld ?_ ?_ ?_ _ hl
  · obtain ⟨todo, f, hg, hp⟩ := hput
    exact ⟨todo, f, hg, hp.written⟩
  · rw [hshared]
    refine ⟨rfl, fun id hid hlive => ⟨fun _ => hm id hid hlive, fun hn => ?_⟩, [], ?_, nofun⟩
    · exact absurd (Finmap.mem_keys.mpr hid) hn
    · exact (List.append_nil _).symm
  · intro tr s a i i' σ' _ hl hs hi
    exact (Inside.Move.of_step hs).putting hl hi
  · intro tr s u a w w' σ' i _ _ hs _ hi
    rw [Outside.step_view hs]
    exact hi.snoc _
  · intro tr s e σ' i hown hs _ hi
    exact (Event.Move.of_step hs).putting hown _ hi

/-- A put that reaches server 1, and not server 2, in its write phase. -/
def putHalfway : List Label :=
  [.run 0 .step, .run 0 (.pick 1), .run 0 .exec, .run 0 .reply, .run 0 (.pick 2), .run 0 .exec,
    .run 0 .reply, .run 0 .step, .run 0 .step, .run 0 (.pick 1), .run 0 .exec, .run 0 .reply,
    .run 0 (.pick 2), .run 0 .throw, .run 0 .throw, .run 0 .throw, .run 0 .throw]

/-- What `putHalfway` comes to: the put is about to throw, server 1 holds the pair, and
server 2 does not. -/
theorem putHalfway_run :
    ∃ s tr, SystemRun (fun _ l => LateFrom 0 l)
        (System.holding twoServers 0 (.put 5 7) (.lock (.put 5 7) .start)) tr s ∧
      (∀ e ∈ tr, e.1.lock = some 0) ∧ s.locals 0 = .inn (.leave (.finish (.threw .runtime))) ∧
      1 ∈ s.shared.servers ∧ 2 ∈ s.shared.servers ∧ s.shared.crashed 1 = false ∧
      s.shared.crashed 2 = false ∧ (s.shared.process 1).data.lookup 5 = some 7 ∧
      (s.shared.process 2).data.lookup 5 = none := by
  have hex : ((exec System.step (System.holding twoServers 0 (.put 5 7)
      (.lock (.put 5 7) .start)) putHalfway).map fun s =>
      (s.raises 0, decide (1 ∈ s.shared.servers ∧ 2 ∈ s.shared.servers ∧
        s.shared.crashed 1 = false ∧ s.shared.crashed 2 = false ∧
        (s.shared.process 1).data.lookup 5 = some 7 ∧
        (s.shared.process 2).data.lookup 5 = none))) = some (some .runtime, true) := by
    decide +kernel
  obtain ⟨s, hrun, hs⟩ := Run.exists_of_exec (fun _ l => LateFrom 0 l) hex (by decide)
  simp only [Prod.mk.injEq, decide_eq_true_eq] at hs
  obtain ⟨hl, hrest⟩ := hs
  exact ⟨s, _, hrun, by decide +kernel, System.raises_eq hl, hrest⟩

/-- The put of `putHalfway` taking `serversLock` in a fresh system. -/
theorem putHalfway_call :
    SystemRun (fun _ _ => True) (System.fresh twoServers)
        [(System.fresh twoServers, .run 0 (.call (.put 5 7)))]
        (System.calling twoServers 0 (.put 5 7)) ∧
      System.step (System.calling twoServers 0 (.put 5 7)) (.enter 0) =
        some (System.holding twoServers 0 (.put 5 7) (.lock (.put 5 7) .start)) :=
  ⟨.snoc .nil trivial rfl, rfl⟩

theorem put_throws_putHalfway :
    ∃ (s : System) (tr : Trace) (todo : Finset ServerId) (f : Option ServerId),
      GaveUp 0 5 7 tr todo f ∧ s.shared.view.PartWritten ∅ (Finmap.insert 5 7 ∅) todo f ∧
      (s.shared.process 1).data.lookup 5 = some 7 ∧
      (s.shared.process 2).data.lookup 5 = none := by
  obtain ⟨s, tr, hrun, hheld, hl, _, _, _, _, hx1, hx2⟩ := putHalfway_run
  obtain ⟨hpre, henter⟩ := putHalfway_call
  obtain ⟨todo, f, hg, hp⟩ := put_throws (System.fresh_quiet twoServers) hpre rfl henter
    (fun _ _ _ => rfl) hrun hheld hl
  exact ⟨s, tr, todo, f, hg, hp, hx1, hx2⟩

/-- The put of `putHalfway` leaves the pair on one live server and not on the other. -/
theorem putHalfway_splits :
    ¬ ∀ (c : CallId) (k : Key) (x : Val) (m : Data) (e : Exn) (s₀ s₁ s₂ s : System)
      (pre tr : Trace), Quiet s₀ → SystemRun (fun _ _ => True) s₀ pre s₁ →
      s₁.locals c = .out (Op.put k x).start → System.step s₁ (.enter c) = some s₂ →
      (∀ id ∈ s₁.shared.servers, s₁.shared.crashed id = false →
        (s₁.shared.process id).data = m) →
      SystemRun (fun _ l => LateFrom s₁.shared.outstanding.length l) s₂ tr s →
      (∀ e ∈ tr, e.1.lock = some c) →
      s.locals c = .inn (.leave (.finish (.threw e))) →
      (∀ id ∈ s.shared.servers, s.shared.crashed id = false →
        (s.shared.process id).data.lookup k = some x) ∨
      (∀ id ∈ s.shared.servers, s.shared.crashed id = false →
        (s.shared.process id).data.lookup k = m.lookup k) := by
  intro hclaim
  obtain ⟨s, tr, hrun, hheld, hl, h1, h2, hc1, hc2, hx1, hx2⟩ := putHalfway_run
  obtain ⟨hpre, henter⟩ := putHalfway_call
  rcases hclaim 0 5 7 ∅ .runtime _ _ _ s _ tr (System.fresh_quiet twoServers) hpre rfl henter
    (fun _ _ _ => rfl) hrun hheld hl with hnew | hold
  · have h := hnew 2 h2 hc2
    rw [hx2] at h
    cases h
  · have h := hold 1 h1 hc1
    rw [hx1] at h
    cases h

end ReplicatedStore
