/-
Agreement of the registered servers under concurrent membership changes.

Runs start with an empty membership and empty servers, and no server is added again
after it was removed.  The servers then agree whenever `serversLock` is free, as long
as a call that found no sender registers a server that holds what the registered
servers hold.
-/
import ReplicatedStore.Agreement

namespace ReplicatedStore

open Lib

/-- The server a step removes from the membership. -/
def removed (e : System × Label) : Option ServerId :=
  match e.2 with
  | .run c .step =>
    match e.1.locals c with
    | .inn (.shutdownRemove id) => some id
    | .inn (.beatRemove id _) => some id
    | _ => none
  | _ => none

/-- The server a step registers. -/
def registered (e : System × Label) : Option ServerId :=
  match e.2 with
  | .run c .step =>
    match e.1.locals c with
    | .inn (.registerFirst id _) => some id
    | .inn (.register id _) => some id
    | _ => none
  | _ => none

/-- No server is registered after it was removed. -/
def NotAddedAgain (tr : Trace) : Prop :=
  ∀ pre e post id, tr = pre ++ e :: post → registered e = some id →
    ∀ e' ∈ pre, removed e' ≠ some id

theorem NotAddedAgain.of_snoc {tr : Trace} {e : System × Label}
    (h : NotAddedAgain (tr ++ [e])) : NotAddedAgain tr := by
  intro pre e' post id heq
  exact h pre e' (post ++ [e]) id (by rw [heq]; simp)

theorem NotAddedAgain.last {tr : Trace} {e : System × Label} (h : NotAddedAgain (tr ++ [e]))
    (id : ServerId) (he : registered e = some id) : ∀ e' ∈ tr, removed e' ≠ some id :=
  h tr e [] id rfl he

theorem NotAddedAgain.of_none_removed {tr : Trace} (h : ∀ e ∈ tr, removed e = none) :
    NotAddedAgain tr := by
  intro pre e post id heq _ e' he'
  rw [h e' (by rw [heq]; exact List.mem_append_left _ he')]
  simp

/-- A call that found no sender registers a server that holds what the registered
servers hold. -/
def JoinsAlike (s : System) : Label → Prop
  | .run c .step =>
    match s.locals c with
    | .inn (.registerFirst id _) => ∀ sid ∈ s.shared.servers.keys,
        (s.shared.process sid).data = (s.shared.process id).data
    | _ => True
  | _ => True

-- The instance is named, since a search may decide `∀` over all values of `int`.
instance (s : System) : DecidablePred (JoinsAlike s) := fun l => by
  unfold JoinsAlike
  split
  · split
    · exact Finset.decidableDforallFinset
    · exact isTrue trivial
  · exact isTrue trivial

/-- The server a transfer is filling. -/
def Inside.joining : Inside → Option ServerId
  | .transfer id _ _ a =>
    match a.state with
    | .lookup => none
    | .remote _ => some id
  | .unlock (.addServer id _ _) _ => some id
  | .register id _ => some id
  | _ => none

/-- A server that was never registered is empty, except for what a transfer has put
there. -/
def Clean (tr : Trace) (v : View) (m : Data) (joining : Option ServerId) : Prop :=
  ∀ id, id ∉ v.servers → (∀ e ∈ tr, removed e ≠ some id) →
    v.data id = ∅ ∨ joining = some id ∧ Covered (v.data id) m

theorem Clean.snoc {tr : Trace} {v v' : View} {m m' : Data} {j j' : Option ServerId}
    {e : System × Label} (h : Clean tr v m j)
    (hs : ∀ id, id ∉ v'.servers → (∀ e' ∈ tr ++ [e], removed e' ≠ some id) → id ∉ v.servers)
    (hd : ∀ id, id ∉ v'.servers → v.data id = ∅ → v'.data id = ∅ ∨
      j' = some id ∧ Covered (v'.data id) m')
    (hj : ∀ id, id ∉ v'.servers → j = some id → Covered (v.data id) m →
      j' = some id ∧ Covered (v'.data id) m') : Clean (tr ++ [e]) v' m' j' := by
  intro id hid hr
  rcases h id (hs id hid hr) fun e' he' => hr e' (List.mem_append_left _ he') with hempty | ⟨he, hc⟩
  · exact hd id hid hempty
  · exact .inr (hj id hid he hc)

theorem Clean.same {tr : Trace} {v v' : View} {m : Data} {j : Option ServerId}
    (h : Clean tr v m j) (e : System × Label) (m' : Data) (hs : v'.servers = v.servers)
    (hd : ∀ id, id ∉ v.servers → v'.data id = v.data id) (hm : j = none ∨ m' = m) :
    Clean (tr ++ [e]) v' m' j := by
  refine h.snoc (fun id hid _ => hs ▸ hid) (fun id hid hempty => .inl ?_) fun id hid hj hc => ?_
  · rw [hd id (hs ▸ hid)]
    exact hempty
  · rcases hm with rfl | rfl
    · cases hj
    · rw [hd id (hs ▸ hid)]
      exact ⟨hj, hc⟩

/-- A loop leaves the data of unregistered servers alone. -/
theorem Loop.Move.data_outside {me : Method} {sw : Bool} {c : CallId} {v v' : View} {l : Loop}
    {a : Act} {f : Flow} (h : Loop.Move me sw c v l a v' f) (hw : l.Within v) {id : ServerId}
    (hid : id ∉ v.servers) : v'.data id = v.data id := by
  cases h with
  | exec _ _ =>
    exact Method.effect_data_of_ne _ _ _ (ne_of_mem_of_not_mem hw.mem_servers hid).symm
  | _ => rfl

/-- The step lemma of `Clean`. -/
theorem Inside.Move.clean {c : CallId} {v v' : View} {i i' : Inside} {a : Act} {m : Data}
    {tr : Trace} {e : System × Label} (h : Inside.Move c v i a v' (.inl i'))
    (hi : i.Replicates m v) (ha : a.faulty = false) (hc : Clean tr v m i.joining)
    (hrem : ∀ id, id ∈ v.servers → id ∉ v'.servers → removed e = some id) :
    Clean (tr ++ [e]) v' (i.commit m a) i'.joining := by
  have hstay : ∀ id, id ∉ v'.servers → (∀ e' ∈ tr ++ [e], removed e' ≠ some id) → id ∉ v.servers :=
    fun id hid hr hv => hr e (by simp) (hrem id hv hid)
  generalize hr : (Sum.inl i' : Inside ⊕ Outside) = r at h
  cases h with
  | @lock w l a v' f h =>
    obtain rfl := Sum.inl.inj hr
    have hsame := hc.same e ((Inside.lock w l).commit m a) h.servers
      (fun id _ => by rw [h.data_eq fun k x => by simp]) (.inl rfl)
    cases f with
    | again l' => exact hsame
    | done => cases w <;> exact hsame
    | raised => rw [h.not_raised] at ha; cases ha
  | @write k x l a v' f h =>
    obtain rfl := Sum.inl.inj hr
    have hsame := hc.same e m h.servers
      (fun id hid => h.data_outside hi.1 hid) (.inr rfl)
    cases f with
    | again l' => exact hsame
    | done => exact hsame
    | raised => rw [h.not_raised] at ha; cases ha
  | @unlock w l a v' f h =>
    obtain rfl := Sum.inl.inj hr
    have hsame := hc.same e m h.servers
      (fun id _ => by rw [h.data_eq fun k x => by simp]) (.inr rfl)
    cases f with
    | again l' => cases w <;> exact hsame
    | done => cases w <;> exact hsame
    | raised => rw [h.not_raised] at ha; cases ha
  | senderFound _ =>
    obtain rfl := Sum.inl.inj hr
    exact hc.snoc hstay (fun id _ hempty => .inl hempty) (fun id _ hj => by cases hj)
  | @senderGone id rpc sender n _ =>
    obtain rfl := Sum.inl.inj hr
    have hnone : (Transfer.failed id rpc sender ⟨n, .lookup⟩).joining = none := by
      rcases Transfer.failed_cases id rpc sender ⟨n, .lookup⟩ with ⟨_, e⟩ | ⟨_, e⟩ <;>
        rw [e] <;> rfl
    rw [hnone]
    exact hc.same _ _ rfl (fun _ _ => rfl) (.inl rfl)
  | @send target rpc sender n p p' b v' hcr h =>
    obtain rfl := Sum.inl.inj hr
    obtain ⟨hst, hs, hne, hp⟩ := hi
    have hm : v.data sender = m := hst sender hs
    have hdata := h.data (by rw [hm]; exact hp)
    refine hc.snoc hstay (fun id _ hempty => ?_) fun id _ hj hcov => ⟨hj, ?_⟩
    · rcases hdata with rfl | ⟨k, x, hk, rfl⟩
      · exact .inl hempty
      · by_cases hid : id = target
        · subst hid
          refine .inr ⟨rfl, ?_⟩
          rw [View.setData_data_self, hempty]
          exact Covered.insert (fun k _ => Finmap.lookup_empty k) (by rw [← hm]; exact hk)
        · exact .inl (by rw [View.setData_data_of_ne _ hid]; exact hempty)
    · obtain rfl := Option.some.inj hj
      rcases hdata with rfl | ⟨k, x, hk, rfl⟩
      · exact hcov
      · rw [View.setData_data_self]
        exact hcov.insert (by rw [← hm]; exact hk)
  | sent =>
    obtain rfl := Sum.inl.inj hr
    exact hc.same _ _ rfl (fun _ _ => rfl) (.inr rfl)
  | transferThrow _ => cases ha
  | @registerFirst id rpc =>
    obtain rfl := Sum.inl.inj hr
    exact hc.snoc hstay (fun id _ hempty => .inl hempty) (fun id _ hj => by cases hj)
  | @register id rpc =>
    obtain rfl := Sum.inl.inj hr
    refine hc.snoc hstay (fun id _ hempty => .inl hempty) fun x hx hj => ?_
    obtain rfl := Option.some.inj hj
    exact absurd (Finmap.mem_insert.mpr (.inl rfl)) hx
  | shutdownThrow => cases ha
  | leave => cases hr
  | _ =>
    obtain rfl := Sum.inl.inj hr
    exact hc.snoc hstay (fun id _ hempty => .inl hempty) (fun id _ hj => by cases hj)

/-! ## Runs -/

/-- What the entry of a registering step says of the joining server. -/
theorem JoinsAlike.data_eq {s : System} {c : CallId} {id : ServerId} {rpc : ServerRPC id}
    (h : JoinsAlike s (.run c .step)) (hl : s.locals c = .inn (.registerFirst id rpc)) :
    s.shared.view.Store (s.shared.process id).data := by
  simp only [JoinsAlike, hl] at h
  exact fun sid hsid => h sid (Finmap.mem_keys.mpr hsid)

/-- The relation to the abstract map and `Clean` are kept together: what a server
that was never registered holds decides whether it may join. -/
theorem joining_step {s : System} {c : CallId} {i : Inside} {a : Act} {v' : View}
    {r : Inside ⊕ Outside} {tr : Trace} (hl : s.locals c = .inn i)
    (h : Inside.Move c s.shared.view i a v' r) (ha : a.faulty = false)
    (hj : JoinsAlike s (.run c a)) (hna : NotAddedAgain (tr ++ [(s, .run c a)]))
    (hI : ∃ m, i.Replicates m s.shared.view ∧ Clean tr s.shared.view m i.joining) :
    (∀ i', r = .inl i' → ∃ m, i'.Replicates m v' ∧
        Clean (tr ++ [(s, .run c a)]) v' m i'.joining) ∧
      (∀ w, r = .inr w → ∃ m, v'.Store m ∧ Clean (tr ++ [(s, .run c a)]) v' m none) := by
  have hI' : ∃ m, i.Replicates m s.shared.view ∧ Clean tr s.shared.view m i.joining ∧
      ∀ id rpc, i = .registerFirst id rpc → s.shared.view.data id = m := by
    obtain ⟨m, hrep, hcl⟩ := hI
    cases i with
    | registerFirst id rpc =>
      -- The new map of an empty membership is the one the first server brings.
      cases h
      refine ⟨_, hj.data_eq hl, fun x hx hr => ?_, fun id' rpc' e => by cases e; rfl⟩
      rcases hcl x hx hr with hempty | ⟨hnone, _⟩
      · exact .inl hempty
      · cases hnone
    | _ => exact ⟨m, hrep, hcl, by simp⟩
  obtain ⟨m, hrep, hcl, hfirst⟩ := hI'
  have hrem : ∀ id, id ∈ s.shared.view.servers → id ∉ v'.servers →
      removed (s, .run c a) = some id := by
    intro id hid hn
    obtain ⟨rfl, hi⟩ := h.removes hid hn
    rcases hi with rfl | ⟨next, rfl⟩ <;> simp [removed, hl]
  have hreg : ∀ id rpc, i = .register id rpc → Covered (s.shared.view.data id) m := by
    rintro id rpc rfl
    cases h
    have hnot := hna.last id (by simp [registered, hl])
    by_cases hid : id ∈ s.shared.view.servers
    · rw [hrep.1 id hid]
      exact fun k hk => hk
    · rcases hcl id hid hnot with hempty | ⟨_, hcov⟩
      · rw [hempty]
        exact fun k _ => Finmap.lookup_empty k
      · exact hcov
  have hstep := h.replicates hrep ha hfirst hreg
  constructor
  · rintro i' rfl
    exact ⟨_, hstep.1 i' rfl, h.clean hrep ha hcl hrem⟩
  · rintro w rfl
    refine ⟨m, hstep.2 w rfl, ?_⟩
    cases h
    exact hcl.same _ _ rfl (fun _ _ => rfl) (.inr rfl)

theorem joining_resource : Monitor.Resource frontend
    (fun s l => Faultless l ∧ JoinsAlike s l)
    (fun tr cl => NotAddedAgain tr → ∃ m, cl.view.Store m ∧ Clean tr cl.view m none)
    (fun tr _ i cl => NotAddedAgain tr →
      ∃ m, i.Replicates m cl.view ∧ Clean tr cl.view m i.joining) where
  enter {tr s t w i} _ _ he hJ hna := by
    obtain ⟨b, _, rfl⟩ := Outside.entry_eq_some he
    obtain ⟨m, hst, hcl⟩ := hJ hna.of_snoc
    refine ⟨m, b.replicates hst, ?_⟩
    have hsame : Clean _ s.shared.view m none := hcl.same (s, .enter t) m rfl
      (fun _ _ => rfl) (.inl rfl)
    cases b <;> exact hsame
  inside hok hl hs hI hna :=
    (joining_step hl (Inside.Move.of_step hs) hok.1 hok.2 hna (hI hna.of_snoc)).1 _ rfl
  leave hok hl hs hI hna :=
    (joining_step hl (Inside.Move.of_step hs) hok.1 hok.2 hna (hI hna.of_snoc)).2 _ rfl
  outside_free {tr s t a w w' σ'} hok hl hs hJ hna := by
    obtain ⟨m, hst, hcl⟩ := hJ hna.of_snoc
    rw [Outside.step_view hs]
    exact ⟨m, hst, hcl.same _ _ rfl (fun _ _ => rfl) (.inl rfl)⟩
  outside_held {tr s t a w w' σ' u i} hok hl hs _ hI hna := by
    obtain ⟨m, hrep, hcl⟩ := hI hna.of_snoc
    rw [Outside.step_view hs]
    exact ⟨m, hrep, hcl.same _ _ rfl (fun _ _ => rfl) (.inr rfl)⟩
  env_free hok _ _ _ := absurd hok.1 (fun h => h)
  env_held hok _ _ _ _ := absurd hok.1 (fun h => h)

/-- In a run without failures in which no server is added again, the registered
servers hold one map whenever `serversLock` is free, if every call that found no
sender registers a server that holds what the registered servers hold. -/
theorem agree_when_free {s₀ s : System} {tr : Trace} (h₀ : Unused s₀)
    (h : SystemRun (fun s l => Faultless l ∧ JoinsAlike s l) s₀ tr s)
    (hna : NotAddedAgain tr) (hlock : s.lock = none) :
    ∀ id ∈ s.shared.servers, ∀ id' ∈ s.shared.servers,
      (s.shared.process id).data = (s.shared.process id').data := by
  have hres := Monitor.Run.resource h joining_resource h₀.quiet.exclusive
    ⟨fun _ _ => ⟨∅, fun id hid => ?_, fun id _ _ => .inl (h₀.no_data id)⟩,
      fun c i hi => absurd hi h₀.quiet.not_inn⟩
  · obtain ⟨m, hst, _⟩ := hres.free hlock hna
    intro id hid id' hid'
    exact (hst id hid).trans (hst id' hid').symm
  · rw [Cluster.view_servers, h₀.no_server] at hid
    exact absurd hid Finmap.notMem_empty

/-- Server 1 joins an empty membership, and server 2 joins it from server 1 after a
put. -/
def joinAfterPut : List Label :=
  [.run 0 (.call (.addServer 1)), .run 0 .step, .run 0 .step, .enter 0, .run 0 .step,
    .run 0 .step,
    .run 2 (.call (.put 5 7)), .enter 2, .run 2 .step, .run 2 (.pick 1), .run 2 .exec,
    .run 2 .reply, .run 2 .step, .run 2 .step, .run 2 (.pick 1), .run 2 .exec, .run 2 .reply,
    .run 2 .step, .run 2 .step, .run 2 (.pick 1), .run 2 .exec, .run 2 .exec, .run 2 .reply,
    .run 2 .step, .run 2 .step,
    .run 1 (.call (.addServer 2)), .run 1 .step, .run 1 (.pick 1), .enter 1, .run 1 .step,
    .run 1 (.pick 1), .run 1 .exec, .run 1 .reply, .run 1 .step, .run 1 .step,
    .run 1 (.send .step), .run 1 (.send (.visit 5)), .run 1 (.send .exec), .run 1 (.send .reply),
    .run 1 (.send .step), .run 1 .reply, .run 1 .step, .run 1 (.pick 1), .run 1 .exec,
    .run 1 .exec, .run 1 .reply, .run 1 .step, .run 1 .step, .run 1 .step]

theorem agree_when_free_joinAfterPut :
    ∃ tr s, SystemRun (fun s l => Faultless l ∧ JoinsAlike s l) (System.fresh ∅) tr s ∧
      (s.shared.process 1).data.lookup 5 = some 7 ∧
      (s.shared.process 1).data = (s.shared.process 2).data := by
  have hex : ((exec System.step (System.fresh ∅) joinAfterPut).map fun s =>
      (s.lock, decide (1 ∈ s.shared.servers), decide (2 ∈ s.shared.servers),
        (s.shared.process 1).data.lookup 5)) = some (none, true, true, some 7) := by
    decide +kernel
  obtain ⟨s, hrun, hs⟩ := Run.exists_of_exec
    (fun s l => Faultless l ∧ JoinsAlike s l) hex (by decide +kernel)
  simp only [Prod.mk.injEq, decide_eq_true_eq] at hs
  obtain ⟨hlock, h1, h2, hx⟩ := hs
  exact ⟨_, s, hrun, hx, agree_when_free System.fresh_unused hrun
    (NotAddedAgain.of_none_removed (by decide +kernel)) hlock 1 h1 2 h2⟩

/-- Servers 1 and 2 are both added by calls that saw an empty membership, and a put
runs between the two registrations. -/
def joinTwice : List Label :=
  [.run 0 (.call (.addServer 1)), .run 0 .step, .run 0 .step,
    .run 1 (.call (.addServer 2)), .run 1 .step, .run 1 .step,
    .enter 0, .run 0 .step, .run 0 .step,
    .run 2 (.call (.put 5 7)), .enter 2, .run 2 .step, .run 2 (.pick 1), .run 2 .exec,
    .run 2 .reply, .run 2 .step, .run 2 .step, .run 2 (.pick 1), .run 2 .exec, .run 2 .reply,
    .run 2 .step, .run 2 .step, .run 2 (.pick 1), .run 2 .exec, .run 2 .exec, .run 2 .reply,
    .run 2 .step, .run 2 .step,
    .enter 1, .run 1 .step, .run 1 .step]

/-- After `joinTwice` server 1 holds the pair and server 2 does not. -/
theorem joinTwice_disagree :
    ¬ ∀ (s₀ s : System) (tr : Trace), Unused s₀ → SystemRun (fun _ l => Faultless l) s₀ tr s →
      NotAddedAgain tr → s.lock = none →
      ∀ id ∈ s.shared.servers, ∀ id' ∈ s.shared.servers,
        (s.shared.process id).data = (s.shared.process id').data := by
  intro hclaim
  have hex : ((exec System.step (System.fresh ∅) joinTwice).map fun s =>
      (s.lock, decide (1 ∈ s.shared.servers), decide (2 ∈ s.shared.servers),
        (s.shared.process 1).data.lookup 5, (s.shared.process 2).data.lookup 5)) =
        some (none, true, true, some 7, none) := by decide +kernel
  obtain ⟨s, hrun, hs⟩ := Run.exists_of_exec
    (fun _ l => Faultless l) hex (by decide +kernel)
  simp only [Prod.mk.injEq, decide_eq_true_eq] at hs
  obtain ⟨hlock, h1, h2, hx, hy⟩ := hs
  have := hclaim _ s _ System.fresh_unused hrun
    (NotAddedAgain.of_none_removed (by decide +kernel)) hlock 1 h1 2 h2
  rw [this, hy] at hx
  cases hx

end ReplicatedStore
