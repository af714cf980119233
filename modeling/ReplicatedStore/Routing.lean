/-
How `get` finds a server.

`FrontendRPCImpl.get` takes no lock and reads the servers map four times: its size,
its keys, and twice the entry of the server it has selected.  A membership change
between two of these reads can leave the index out of range, turn the check into
`ERR_NOEXIST` after a server was selected, or leave null for the second lookup.
Nothing else can go wrong in the frontend while one server stays registered.
-/
import ReplicatedStore.Runs
import ReplicatedStore.Steps

namespace ReplicatedStore

open Lib

/-! ## `ServerSelector.select` -/

theorem mapSize_toInt (servers : Finmap ServerRPC) :
    (mapSize servers).toInt = min servers.keys.card (2 ^ 31 - 1) := by
  unfold mapSize
  rw [Int32.toInt_ofNat_of_lt (by omega)]

/-- A non-negative key has a non-negative index. -/
theorem ServerSelector.index_ok {k : Key} {servers : Finmap ServerRPC} (hk : 0 ≤ k)
    (hne : servers.keys.Nonempty) :
    ∃ i, ServerSelector.index k (mapSize servers) = .ok i ∧ 0 ≤ i := by
  have hsize := mapSize_toInt servers
  have hcard := hne.card_pos
  have hpos : 0 < (mapSize servers).toInt := by omega
  have hzero : mapSize servers ≠ 0 := by
    intro h
    rw [h] at hpos
    simp at hpos
  refine ⟨k % mapSize servers, if_neg hzero, ?_⟩
  rw [Int32.le_iff_toInt_le] at hk ⊢
  rw [Int32.toInt_mod]
  exact Int.tmod_nonneg _ hk

theorem ServerSelector.get_eq (servers : Finmap ServerRPC) {i : Int32} (hi : 0 ≤ i) :
    (∃ id, ServerSelector.get servers i = .ok id) ↔ i.toInt < servers.keys.card := by
  have hnonneg : 0 ≤ i.toInt := by simpa [Int32.le_iff_toInt_le] using hi
  have hnot : ¬ i < 0 := Int32.not_lt.mpr hi
  have hlen : (servers.keys.sort (· ≤ ·)).length = servers.keys.card := Finset.length_sort _
  unfold ServerSelector.get
  rw [if_neg hnot]
  by_cases hlt : i.toInt < servers.keys.card
  · have hin : i.toInt.toNat < (servers.keys.sort (· ≤ ·)).length := by omega
    rw [List.getElem?_eq_getElem hin]
    simp [hlt]
  · have hout : (servers.keys.sort (· ≤ ·)).length ≤ i.toInt.toNat := by omega
    rw [List.getElem?_eq_none hout]
    simp [hlt]

/-! ## The condition and the property -/

/-- What a `get` finds at its second, third and fourth read of the servers map: the index
is in range, and the server it selected is registered. -/
def Cluster.KeepsTarget (cl : Cluster) : Monitor.Local Outside Inside → Prop
  | .out (.getKeys _ i) => i.toInt < cl.servers.keys.card
  | .out (.getCheck _ id) => id ∈ cl.servers.keys
  | .out (.getLookup _ id) => id ∈ cl.servers.keys
  | _ => True

/-- Every such read of the call `c` finds that. -/
def KeepsTarget (c : CallId) (s : System) : Label → Prop
  | .run c' .step => c' = c → s.shared.KeepsTarget (s.locals c)
  | _ => True

instance (cl : Cluster) : DecidablePred cl.KeepsTarget := fun l =>
  match l with
  | .out (.getKeys _ i) => inferInstanceAs (Decidable (i.toInt < cl.servers.keys.card))
  | .out (.getCheck _ id) => inferInstanceAs (Decidable (id ∈ cl.servers.keys))
  | .out (.getLookup _ id) => inferInstanceAs (Decidable (id ∈ cl.servers.keys))
  | .out .idle | .out (.synchronized _) | .out (.getSize _) | .out (.printLookup _)
  | .out (.remote _ _ _) | .out (.addContains _) | .out (.addFindFirst _ _)
  | .out (.beatNext _) | .out (.beatAlive _ _ _) | .out (.finished _) | .inn _ => isTrue trivial

instance (c : CallId) (s : System) : DecidablePred (KeepsTarget c s) := fun l =>
  match l with
  | .run c' .step => inferInstanceAs (Decidable (c' = c → s.shared.KeepsTarget (s.locals c)))
  | .run _ (.call _) | .run _ (.pick _) | .run _ .exec | .run _ .reply | .run _ .throw
  | .run _ .linger | .run _ (.read _) | .run _ (.send _) | .enter _ | .env _ => isTrue trivial

/-- The call `c` has forwarded its `get` to a server that was registered at some
moment of the run. -/
def Forwarded (c : CallId) (k : Key) (tr : Trace) (s : System) : Prop :=
  ∃ id, (∃ rd, s.locals c = .out (.remote (.get k) id rd)) ∧
    ∃ e ∈ tr, id ∈ e.1.shared.servers

/-- The frontend part of `get(k)` has not failed: if the call is over it has returned
something other than `ERR_NOEXIST`, and it forwards to registered servers only. -/
structure Served (c : CallId) (k : Key) (tr : Trace) (s : System) : Prop where
  outcome : ∀ o, s.locals c = .out (.finished o) →
    ∃ x, o = .returned x ∧ x ≠ .errNoExist ∧ ∃ e ∈ tr, Forwarded c k tr e.1
  target : ∀ q id rd, s.locals c = .out (.remote q id rd) → Forwarded c k tr s

/-! ## Steps -/

/-- The points of a `get(k)` that has not failed. -/
def OnRoute (c : CallId) (k : Key) (tr : Trace) (s : System) : Prop :=
  match s.locals c with
  | .out (.getSize k') => k' = k
  | .out (.getKeys k' i) => k' = k ∧ 0 ≤ i
  | .out (.getCheck k' _) => k' = k
  | .out (.getLookup k' _) => k' = k
  | .out (.remote q id rd) => q = .get k ∧ (∀ x, rd = .answered x → x ≠ .errNoExist) ∧
      ∃ e ∈ tr, id ∈ e.1.shared.servers
  | .out (.finished o) => ∃ x, o = .returned x ∧ x ≠ .errNoExist ∧ ∃ e ∈ tr, Forwarded c k tr e.1
  | _ => False

/-- The `get` has ended without being forwarded: by an exception, or with `ERR_NO_EXIST`. -/
def Failed (c : CallId) (s : System) : Prop :=
  ∃ o, s.locals c = .out (.finished o) ∧ ∀ x, o = .returned x → x = .errNoExist

theorem readKey_ne_errNoExist (k : Key) (o : Option Val) : readKey k o ≠ .errNoExist := by
  cases o <;> simp [readKey]

/-- What a reader of `get(k)` may have come to. -/
theorem ServerRPCImpl.read_answer {p p' : ServerRPCImpl} {k : Key} {c : CallId}
    {r r' : Reader} {a : ReaderAct} (h : p.read (.get k) c r a = some (p', r')) {x : Reply}
    (hx : r' = .answered x) : x = readKey k (p.data.lookup k) ∨ ∃ es, x = .pairs es := by
  subst hx
  cases r <;> cases a <;> simp only [ServerRPCImpl.read] at h
  all_goals repeat (split at h)
  all_goals first
    | contradiction
    | (simp only [Option.some.injEq, Prod.mk.injEq, Reader.answered.injEq, reduceCtorEq,
         and_false] at h
       try exact .inl h.2.symm
       try exact .inr ⟨_, h.2.symm⟩)

theorem Forwarded.mono {c : CallId} {k : Key} {tr : Trace} {s : System} {e : System × Label}
    (h : Forwarded c k tr s) : Forwarded c k (tr ++ [e]) s := by
  obtain ⟨id, hrd, e', he', hid⟩ := h
  exact ⟨id, hrd, e', List.mem_append_left _ he', hid⟩

theorem OnRoute.mono {c : CallId} {k : Key} {tr : Trace} {s s' : System} {e : System × Label}
    (h : OnRoute c k tr s) (hloc : s'.locals c = s.locals c) : OnRoute c k (tr ++ [e]) s' := by
  have hin : ∀ {id : ServerId}, (∃ e ∈ tr, id ∈ e.1.shared.servers) →
      ∃ e' ∈ tr ++ [e], id ∈ e'.1.shared.servers := by
    rintro id ⟨e', he', hid⟩
    exact ⟨e', List.mem_append_left _ he', hid⟩
  have hfw : (∃ e ∈ tr, Forwarded c k tr e.1) →
      ∃ e' ∈ tr ++ [e], Forwarded c k (tr ++ [e]) e'.1 := by
    rintro ⟨e', he', hf⟩
    exact ⟨e', List.mem_append_left _ he', hf.mono⟩
  unfold OnRoute at h ⊢
  rw [hloc]
  cases hl : s.locals c with
  | inn i => simp [hl] at h
  | out w =>
    rw [hl] at h
    cases w with
    | remote q id rd => exact ⟨h.1, h.2.1, hin h.2.2⟩
    | finished o =>
      obtain ⟨x, ho, hx, hf⟩ := h
      exact ⟨x, ho, hx, hfw hf⟩
    | _ => exact h

/-- A step of the `get` itself: it stays on its route, unless the membership it finds
takes it off, and then it has failed. -/
theorem OnRoute.step {c : CallId} {k : Key} {tr : Trace} {s s' : System} {a : Act}
    {w w' : Outside} (h : OnRoute c k tr s) (hk : 0 ≤ k) (hl : s.locals c = .out w)
    (hs : w.step c s.shared a = some (s'.shared, w')) (hl' : s'.locals c = .out w')
    (ha : a.faulty = false) (hne : s.shared.servers.keys.Nonempty) :
    (KeepsTarget c s (.run c a) → OnRoute c k (tr ++ [(s, .run c a)]) s') ∧
      (¬ KeepsTarget c s (.run c a) → Failed c s') := by
  unfold OnRoute at h
  rw [hl] at h
  cases w with
  | getSize k' =>
    obtain rfl : k' = k := h
    cases a <;> simp only [Outside.step] at hs <;> try contradiction
    obtain ⟨i, hi, hpos⟩ := ServerSelector.index_ok hk hne
    rw [hi] at hs
    obtain ⟨-, rfl⟩ := Prod.mk.inj (Option.some.inj hs)
    have hkeeps : KeepsTarget c s (.run c .step) := by
      simp [KeepsTarget, Cluster.KeepsTarget, hl]
    exact ⟨fun _ => by simpa [OnRoute, hl'] using hpos, fun hn => absurd hkeeps hn⟩
  | getKeys k' i =>
    obtain ⟨rfl, hi⟩ := h
    cases a <;> simp only [Outside.step] at hs <;> try contradiction
    have hget := ServerSelector.get_eq s.shared.servers hi
    have hkeeps : KeepsTarget c s (.run c .step) ↔ i.toInt < s.shared.servers.keys.card := by
      simp [KeepsTarget, Cluster.KeepsTarget, hl]
    rw [hkeeps, ← hget]
    split at hs
    · rename_i id hid
      obtain ⟨-, rfl⟩ := Prod.mk.inj (Option.some.inj hs)
      exact ⟨fun _ => by simp [OnRoute, hl'], fun hn => absurd ⟨id, hid⟩ hn⟩
    · rename_i e herr
      obtain ⟨-, rfl⟩ := Prod.mk.inj (Option.some.inj hs)
      constructor
      · rintro ⟨id, hid⟩
        rw [herr] at hid
        cases hid
      · exact fun _ => ⟨_, hl', by simp⟩
  | getCheck k' id =>
    obtain rfl : k' = k := h
    cases a <;> simp only [Outside.step] at hs <;> try contradiction
    have hkeeps : KeepsTarget c s (.run c .step) ↔ id ∈ s.shared.servers := by
      simp [KeepsTarget, Cluster.KeepsTarget, hl, Finmap.mem_keys]
    rw [hkeeps]
    split at hs
    · rename_i hid
      obtain ⟨-, rfl⟩ := Prod.mk.inj (Option.some.inj hs)
      exact ⟨fun _ => by simp [OnRoute, hl'], fun hn => absurd hid hn⟩
    · rename_i hid
      obtain ⟨-, rfl⟩ := Prod.mk.inj (Option.some.inj hs)
      exact ⟨fun hn => absurd hn hid, fun _ => ⟨_, hl', by simp⟩⟩
  | getLookup k' id =>
    obtain rfl : k' = k := h
    cases a <;> simp only [Outside.step] at hs <;> try contradiction
    have hkeeps : KeepsTarget c s (.run c .step) ↔ id ∈ s.shared.servers := by
      simp [KeepsTarget, Cluster.KeepsTarget, hl, Finmap.mem_keys]
    rw [hkeeps]
    split at hs
    · rename_i hid
      obtain ⟨-, rfl⟩ := Prod.mk.inj (Option.some.inj hs)
      refine ⟨fun _ => ?_, fun hn => absurd hid hn⟩
      simp only [OnRoute, hl']
      exact ⟨trivial, by simp, _, List.mem_append_right _ (List.mem_singleton_self _), hid⟩
    · rename_i hid
      obtain ⟨-, rfl⟩ := Prod.mk.inj (Option.some.inj hs)
      exact ⟨fun hn => absurd hn hid, fun _ => ⟨_, hl', by simp⟩⟩
  | remote q id rd =>
    obtain ⟨rfl, hx, e, he, hid⟩ := h
    have hkeeps : KeepsTarget c s (.run c a) := by
      cases a <;> simp [KeepsTarget, Cluster.KeepsTarget, hl]
    refine ⟨fun _ => ?_, fun hn => absurd hkeeps hn⟩
    cases a <;> simp only [Outside.step] at hs <;> try contradiction
    case read b =>
      split at hs
      · cases hs
      · obtain ⟨⟨p, rd'⟩, hr, heq⟩ := Option.map_eq_some_iff.mp hs
        obtain ⟨-, rfl⟩ := Prod.mk.inj heq
        simp only [OnRoute, hl']
        refine ⟨trivial, fun x hrd => ?_, e, List.mem_append_left _ he, hid⟩
        rcases ServerRPCImpl.read_answer hr hrd with rfl | ⟨es, rfl⟩
        · exact readKey_ne_errNoExist _ _
        · simp
    case reply =>
      cases rd <;> simp only at hs <;> try contradiction
      rename_i x
      obtain ⟨-, rfl⟩ := Prod.mk.inj (Option.some.inj hs)
      simp only [OnRoute, hl']
      refine ⟨x, rfl, hx x rfl, (s, _), List.mem_append_right _ (List.mem_singleton_self _), id, ?_⟩
      exact ⟨⟨_, hl⟩, e, List.mem_append_left _ he, hid⟩
  | finished o => cases a <;> simp [Outside.step] at hs
  | _ => exact absurd h (by simp)

/-! ## Runs -/

/-- While one server stays registered, `get(k)` of a non-negative key is served if and
only if the membership never changes in the way of its reads. -/
theorem get_served_iff {c : CallId} {k : Key} {r : ServerId} {s₀ s : System} {tr : Trace}
    (hk : 0 ≤ k) (h₀ : s₀.locals c = .out (Op.get k).start)
    (h : SystemRun (fun s l => Faultless l ∧ r ∈ s.shared.servers) s₀ tr s) :
    Served c k tr s ↔ ∀ e ∈ tr, KeepsTarget c e.1 e.2 := by
  have hinv : (OnRoute c k tr s ∧ ∀ e ∈ tr, KeepsTarget c e.1 e.2) ∨
      (Failed c s ∧ ¬ ∀ e ∈ tr, KeepsTarget c e.1 e.2) := by
    refine h.invariant (I := fun tr s => (OnRoute c k tr s ∧ ∀ e ∈ tr, KeepsTarget c e.1 e.2) ∨
      (Failed c s ∧ ¬ ∀ e ∈ tr, KeepsTarget c e.1 e.2)) ?_ ?_
    · exact .inl ⟨by simp [OnRoute, h₀, Op.start], by simp⟩
    · intro tr s l s' _ hok hs hI
      have hstep := Monitor.Step.of_step frontend hs
      rcases hI with ⟨hroute, hall⟩ | ⟨⟨o, ho, hbad⟩, hn⟩
      · have hkeep : (∀ e ∈ tr ++ [(s, l)], KeepsTarget c e.1 e.2) ↔ KeepsTarget c s l := by
          simp only [List.mem_append, List.mem_singleton, or_imp, forall_and, forall_eq]
          exact ⟨fun h => h.2, fun h => ⟨hall, h⟩⟩
        rw [hkeep]
        cases hl : s.locals c with
        | inn i => simp [OnRoute, hl] at hroute
        | out w =>
          rcases hstep.of_out hl with ⟨hother, hsame⟩ | ⟨a, w', rfl, ha, hl'⟩ | ⟨i, rfl, he, _⟩
          · refine .inl ⟨hroute.mono (hsame.trans hl.symm), ?_⟩
            cases l with
            | run c' a =>
              have hc : c' ≠ c := fun e => hother (by rw [e]; rfl)
              cases a <;> simp [KeepsTarget, hc]
            | _ => trivial
          · have hpair := hroute.step hk hl ha hl' hok.1
              ⟨r, Finmap.mem_keys.mpr hok.2⟩
            by_cases hkt : KeepsTarget c s (.run c a)
            · exact .inl ⟨hpair.1 hkt, hkt⟩
            · exact .inr ⟨hpair.2 hkt, hkt⟩
          · obtain ⟨b, rfl, rfl⟩ := Outside.entry_eq_some he
            simp [OnRoute, hl] at hroute
      · refine .inr ⟨⟨o, ?_, hbad⟩, fun h => hn fun e he => h e (List.mem_append_left _ he)⟩
        exact finished_stays hstep ho
  rcases hinv with ⟨hroute, hall⟩ | ⟨⟨o, ho, hbad⟩, hn⟩
  · refine ⟨fun _ => hall, fun _ => ⟨fun o ho => ?_, fun q id rd hrd => ?_⟩⟩
    · simpa [OnRoute, ho] using hroute
    · simp only [OnRoute, hrd] at hroute
      obtain ⟨rfl, _, hid⟩ := hroute
      exact ⟨id, ⟨rd, hrd⟩, hid⟩
  · refine ⟨fun hserved => ?_, fun hall => absurd hall hn⟩
    obtain ⟨x, rfl, hx, _⟩ := hserved.outcome o ho
    exact absurd (hbad x rfl) hx

/-- Server 2 is shut down while call 0 reads the servers map for key 4. -/
def shutdownBetween : List Label :=
  [.run 0 .step, .run 1 (.call (.shutdownServer 2)), .enter 1, .run 1 .step, .run 1 .exec,
    .run 1 .reply, .run 1 .step, .run 0 .step, .run 0 .step, .run 0 .step,
    .run 0 (.read .step), .run 0 (.read .step), .run 0 .reply]

/-- The index of key 4 is still in range, and the `get` is served by server 1. -/
theorem get_served_iff_even :
    ∃ tr s, SystemRun (fun s l => Faultless l ∧ 1 ∈ s.shared.servers)
        (System.calling twoServers 0 (.get 4)) tr s ∧
      s.locals 0 = .out (.finished (.returned .errKey)) ∧ Served 0 4 tr s := by
  have hex : ((exec System.step (System.calling twoServers 0 (.get 4)) shutdownBetween).map
      fun s => s.outcome 0) = some (some (.returned .errKey)) := by decide +kernel
  obtain ⟨s, hrun, hs⟩ := Run.exists_of_exec
    (fun s l => Faultless l ∧ 1 ∈ s.shared.servers) hex (by decide +kernel)
  exact ⟨_, s, hrun, System.outcome_eq hs,
    (get_served_iff (by decide) rfl hrun).mpr (by decide +kernel)⟩

/-- The index of key 5 is out of range after the same shutdown. -/
theorem get_not_served_odd :
    ¬ ∀ (c : CallId) (k : Key) (r : ServerId) (s₀ s : System) (tr : Trace), 0 ≤ k →
      s₀.locals c = .out (Op.get k).start →
      SystemRun (fun s l => Faultless l ∧ r ∈ s.shared.servers) s₀ tr s → Served c k tr s := by
  intro hclaim
  have hex : ((exec System.step (System.calling twoServers 0 (.get 5))
      (shutdownBetween.take 8)).map fun s => s.outcome 0) =
      some (some (.threw .indexOutOfBounds)) := by decide +kernel
  obtain ⟨s, hrun, hs⟩ := Run.exists_of_exec
    (fun s l => Faultless l ∧ 1 ∈ s.shared.servers) hex (by decide +kernel)
  have hserved := hclaim 0 5 1 _ s _ (by decide) rfl hrun
  obtain ⟨x, hx, _⟩ := hserved.outcome _ (System.outcome_eq hs)
  cases hx

end ReplicatedStore
