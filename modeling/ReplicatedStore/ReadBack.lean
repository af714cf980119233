/-
Reading back what was stored, one call at a time.

A put writes every registered server, whatever the key.  A get routes by the remainder
`key % size`, which for a negative key is negative or zero, and `List.get` throws at a
negative index.
-/
import ReplicatedStore.Durability
import ReplicatedStore.LockBit
import ReplicatedStore.Routing

namespace ReplicatedStore

open Lib

/-! ## `ServerSelector.select` on a fixed membership -/

/-- `ServerSelector.select`, when nothing changes between its two reads of the map. -/
def ServerSelector.select (key : Key) (servers : Finmap ServerRPC) : Except Exn ServerId :=
  (ServerSelector.index key (mapSize servers)).bind (ServerSelector.get servers)

/-- The rank of an id in sorted order: how many registered ids are smaller. -/
def rank (servers : Finmap ServerRPC) (id : ServerId) : Nat :=
  (servers.keys.filter (· < id)).card

/-- `select` returns the server whose rank is the key modulo the number of servers. -/
def SelectsRank (key : Key) (servers : Finmap ServerRPC) : Prop :=
  ∃ id ∈ servers, ServerSelector.select key servers = .ok id ∧
    (rank servers id : Int) = key.toInt % (servers.keys.card : Int)

/-- The keys whose machine remainder by the size of the map is their residue.  The second
case is that of a map with more entries than `size` can tell. -/
def Routable (key : Key) (n : Nat) : Prop :=
  if n < 2 ^ 31 then 0 ≤ key.toInt ∨ (n : Int) ∣ key.toInt
  else 0 ≤ key.toInt ∧ key.toInt < 2 ^ 31 - 1

instance (key : Key) (n : Nat) : Decidable (Routable key n) := by
  unfold Routable
  infer_instance

variable {k : Key} {servers : Finmap ServerRPC}

theorem mapSize_pos (hne : servers.keys.Nonempty) : 0 < (mapSize servers).toInt := by
  have hsize := mapSize_toInt servers
  have hcard := hne.card_pos
  omega

theorem ServerSelector.index_eq (hne : servers.keys.Nonempty) :
    ServerSelector.index k (mapSize servers) = .ok (k % mapSize servers) := by
  refine if_neg fun h => ?_
  have hpos := mapSize_pos hne
  rw [h] at hpos
  exact absurd hpos (by decide)

theorem select_eq (hne : servers.keys.Nonempty) :
    ServerSelector.select k servers = ServerSelector.get servers (k % mapSize servers) := by
  rw [ServerSelector.select, ServerSelector.index_eq hne]
  rfl

/-- The remainder is the residue just for the keys that can be routed. -/
theorem tmod_eq_emod_iff {n : Nat} (hn : 0 < n) :
    k.toInt.tmod (min n (2 ^ 31 - 1) : Nat) = k.toInt % (n : Int) ↔ Routable k n := by
  have hlo := Int32.le_toInt k
  have hhi := Int32.toInt_lt k
  unfold Routable
  split
  · rename_i hsmall
    rw [Nat.min_eq_left (by omega), Int.tmod_eq_emod]
    split
    · rename_i h
      simp [h]
    · rename_i h
      simp only [h, iff_false]
      omega
  · rename_i hbig
    rw [Nat.min_eq_right (by omega), Int.tmod_eq_emod]
    have hcases : k.toInt % (n : Int) = k.toInt ∧ 0 ≤ k.toInt ∨
        k.toInt % (n : Int) = k.toInt + n ∧ k.toInt < 0 := by
      rcases Int.lt_or_le k.toInt 0 with hneg | hnonneg
      · refine .inr ⟨?_, hneg⟩
        rw [← Int.add_emod_right, Int.emod_eq_of_lt (by omega) (by omega)]
      · exact .inl ⟨Int.emod_eq_of_lt hnonneg (by omega), hnonneg⟩
    split <;> omega

theorem ServerSelector.get_ok_iff {i : Int32} {id : ServerId} :
    ServerSelector.get servers i = .ok id ↔
      0 ≤ i.toInt ∧ (servers.keys.sort (· ≤ ·))[i.toInt.toNat]? = some id := by
  have hneg : i < 0 ↔ i.toInt < 0 := by simp [Int32.lt_iff_toInt_lt]
  unfold ServerSelector.get
  split
  · rename_i hi
    simp [Int.not_le.mpr (hneg.mp hi)]
  · rename_i hi
    have hnonneg : 0 ≤ i.toInt := Int.not_lt.mp fun h => hi (hneg.mpr h)
    split
    · rename_i id' hid
      rw [hid]
      simp [hnonneg]
    · rename_i hid
      rw [hid]
      simp

/-- In an increasing list the place of an element is the number of smaller ones. -/
theorem countP_lt_of_getElem? {α : Type*} [Preorder α] [DecidableLT α] {l : List α}
    (h : l.Pairwise (· < ·)) : ∀ {i : ℕ} {a : α}, l[i]? = some a → l.countP (· < a) = i := by
  induction l with
  | nil => intro i a ha; cases ha
  | cons b l ih =>
    obtain ⟨hb, hl⟩ := List.pairwise_cons.mp h
    intro i a ha
    cases i with
    | zero =>
      obtain rfl : b = a := Option.some.inj ha
      rw [List.countP_cons_of_neg (by simp), List.countP_eq_zero]
      intro c hc
      simpa using lt_asymm (hb c hc)
    | succ i =>
      have hba : b < a := hb a (List.mem_of_getElem? ha)
      rw [List.countP_cons_of_pos (by simpa using hba), ih hl ha]

theorem rank_of_sort {id : ServerId} {i : ℕ}
    (h : (servers.keys.sort (· ≤ ·))[i]? = some id) : rank servers id = i := by
  rw [← countP_lt_of_getElem? (Finset.sortedLT_sort servers.keys).pairwise h, rank,
    Finset.card_def, Finset.filter_val, ← Multiset.countP_eq_card_filter,
    ← Finset.sort_eq servers.keys (· ≤ ·), Multiset.coe_countP]

theorem remainder_toInt :
    (k % mapSize servers).toInt = k.toInt.tmod (min servers.keys.card (2 ^ 31 - 1) : Nat) := by
  rw [Int32.toInt_mod, mapSize_toInt]

theorem mem_of_select {id : ServerId} (hne : servers.keys.Nonempty)
    (h : ServerSelector.select k servers = .ok id) : id ∈ servers := by
  rw [select_eq hne, ServerSelector.get_ok_iff] at h
  exact Finmap.mem_keys.mp ((Finset.mem_sort _).mp (List.mem_of_getElem? h.2))

/-- `select` returns the server of the key's rank just for the keys that can be routed. -/
theorem selectsRank_iff (hne : servers.keys.Nonempty) :
    SelectsRank k servers ↔ Routable k servers.keys.card := by
  have hcard : 0 < servers.keys.card := hne.card_pos
  have hlen : (servers.keys.sort (· ≤ ·)).length = servers.keys.card := Finset.length_sort _
  have hres : 0 ≤ k.toInt % (servers.keys.card : Int) := Int.emod_nonneg _ (by omega)
  have hlt : k.toInt % (servers.keys.card : Int) < servers.keys.card :=
    Int.emod_lt_of_pos _ (by omega)
  rw [← tmod_eq_emod_iff hcard, ← remainder_toInt]
  constructor
  · rintro ⟨id, -, hsel, hrank⟩
    rw [select_eq hne, ServerSelector.get_ok_iff] at hsel
    obtain ⟨hnonneg, hsel⟩ := hsel
    have hsame := rank_of_sort hsel
    omega
  · intro heq
    have hin : (k.toInt % (servers.keys.card : Int)).toNat <
        (servers.keys.sort (· ≤ ·)).length := by omega
    obtain ⟨id, hat⟩ : ∃ id,
        (servers.keys.sort (· ≤ ·))[(k.toInt % (servers.keys.card : Int)).toNat]? = some id :=
      ⟨_, List.getElem?_eq_getElem hin⟩
    have hsel : ServerSelector.select k servers = .ok id := by
      rw [select_eq hne, ServerSelector.get_ok_iff, heq]
      exact ⟨hres, hat⟩
    refine ⟨id, mem_of_select hne hsel, hsel, ?_⟩
    rw [rank_of_sort hat, Int.toNat_of_nonneg hres]

/-! ## One call at a time -/

/-- The calls of the clients. -/
def Op.ofStore : Op → Bool
  | .put _ _ | .get _ => true
  | _ => false

/-- The call that is made in this step. -/
def called : Label → Option Op
  | .run _ (.call op) => some op
  | _ => none

/-- Only `put` and `get` are called, each when the calls before it are over, and nothing
fails. -/
def OneAtATime (s : System) (l : Label) : Prop :=
  Faultless l ∧ ∀ op ∈ called l, Quiet s ∧ op.ofStore = true

/-- The points of a `put` or a `get`. -/
def StoreCall : Monitor.Local Outside Inside → Prop
  | .out .idle | .out (.synchronized (.withLock (.put ..))) | .out (.getSize _)
  | .out (.getKeys ..) | .out (.getCheck ..) | .out (.getLookup ..) | .out (.remote (.get _) ..)
  | .out (.finished _) | .inn (.lock (.put ..) _) | .inn (.write ..) | .inn (.unlock (.put ..) _)
  | .inn (.leave (.finish _)) => True
  | _ => False

theorem Over.storeCall {l : Monitor.Local Outside Inside} (h : Over l) : StoreCall l := by
  rcases h with rfl | ⟨o, rfl⟩ <;> exact trivial

theorem Outside.Move.storeCall {c : CallId} {v : View} {w w' : Outside} {a : Act}
    (h : Outside.Move c v w a w') (hw : StoreCall (.out w))
    (ha : ∀ op, a = .call op → op.ofStore = true) : StoreCall (.out w') := by
  cases h with
  | @call op =>
    have hop := ha op rfl
    cases op <;> first | exact trivial | cases hop
  | @read q id r r' b p p' hd hl hr =>
    cases q with
    | get k => exact trivial
    | printKVPairs => exact hw
  | @beat w w' a hb hb' => cases w <;> cases hb <;> exact absurd hw (fun h => h)
  | lookup => exact trivial
  | contains => exact absurd hw (fun h => h)
  | findsNone => exact absurd hw (fun h => h)
  | finds => exact absurd hw (fun h => h)
  | print => exact absurd hw (fun h => h)
  | beatGivesUp => exact absurd hw (fun h => h)
  | _ => exact trivial

/-- A section of a put takes no step that changes the membership. -/
theorem Inside.Move.storeCall {c : CallId} {v v' : View} {i : Inside} {a : Act}
    {r : Inside ⊕ Outside} (h : Inside.Move c v i a v' r) (hi : StoreCall (.inn i)) :
    v'.servers = v.servers ∧ v'.crashed = v.crashed ∧
      (∀ i', r = .inl i' → StoreCall (.inn i')) ∧ ∀ w, r = .inr w → StoreCall (.out w) := by
  cases h with
  | @lock w l a v' f h =>
    cases w with
    | put k x =>
      refine ⟨h.servers, h.crashed, fun i' hr => ?_, nofun⟩
      obtain rfl := Sum.inl.inj hr
      cases f <;> exact trivial
    | addServer id rpc sender => exact absurd hi (fun h => h)
  | @write k x l a v' f h =>
    refine ⟨h.servers, h.crashed, fun i' hr => ?_, nofun⟩
    obtain rfl := Sum.inl.inj hr
    cases f <;> exact trivial
  | @unlock w l a v' f h =>
    cases w with
    | put k x =>
      refine ⟨h.servers, h.crashed, fun i' hr => ?_, nofun⟩
      obtain rfl := Sum.inl.inj hr
      cases f <;> exact trivial
    | addServer id rpc sender => exact absurd hi (fun h => h)
  | @leave e =>
    cases e with
    | finish o =>
      refine ⟨rfl, rfl, nofun, fun w hr => ?_⟩
      obtain rfl := Sum.inr.inj hr
      exact trivial
    | resume next => exact absurd hi (fun h => h)
  | _ => exact absurd hi (fun h => h)

/-- What holds in a run without failures in which only `put` and `get` are called. -/
structure StoreInv (servers : Finmap ServerRPC) (s : System) : Prop where
  calls : ∀ c, StoreCall (s.locals c)
  membership : s.shared.servers = servers
  live : ∀ id ∈ servers, s.shared.crashed id = false

theorem StoreInv.step {s s' : System} {l : Label} (h : StoreInv servers s) (hok : OneAtATime s l)
    (hs : Monitor.Step frontend s l s') : StoreInv servers s' := by
  have hupdate : ∀ {t : CallId} {lo : Monitor.Local Outside Inside}, StoreCall lo →
      ∀ c, StoreCall (Function.update s.locals t lo c) := fun {t lo} hlo c => by
    by_cases hc : c = t
    · subst hc
      rwa [Function.update_self]
    · rw [Function.update_of_ne hc]
      exact h.calls c
  have hview : ∀ {cl : Cluster}, cl.view.servers = s.shared.view.servers →
      cl.view.crashed = s.shared.view.crashed →
      cl.servers = servers ∧ ∀ id ∈ servers, cl.crashed id = false := fun hsv hcr =>
    ⟨hsv.trans h.membership, fun id hid => (congrFun hcr id).trans (h.live id hid)⟩
  cases hs with
  | @outside t a w w' σ' hl ho =>
    have hw := h.calls t
    rw [hl] at hw
    have hv := Outside.step_view ho
    obtain ⟨hsv, hcr⟩ := hview (congrArg View.servers hv) (congrArg View.crashed hv)
    refine ⟨hupdate ((Outside.Move.of_step ho).storeCall hw fun op e => ?_), hsv, hcr⟩
    exact (hok.2 op (e ▸ rfl)).2
  | @inside t a i i' σ' hl hi =>
    have hin := h.calls t
    rw [hl] at hin
    obtain ⟨hsv, hcr, hnext, -⟩ := (Inside.Move.of_step hi).storeCall hin
    obtain ⟨hsv, hcr⟩ := hview hsv hcr
    exact ⟨hupdate (hnext i' rfl), hsv, hcr⟩
  | @leave t a i w σ' hl hi =>
    have hin := h.calls t
    rw [hl] at hin
    obtain ⟨hsv, hcr, -, hnext⟩ := (Inside.Move.of_step hi).storeCall hin
    obtain ⟨hsv, hcr⟩ := hview hsv hcr
    exact ⟨hupdate (hnext w rfl), hsv, hcr⟩
  | @enter t w i hl he hlock =>
    have hw := h.calls t
    obtain ⟨b, rfl, rfl⟩ := Outside.entry_eq_some he
    rw [hl] at hw
    refine ⟨hupdate ?_, h.membership, h.live⟩
    cases b with
    | withLock wk =>
      cases wk with
      | put k x => exact trivial
      | addServer id rpc sender => exact absurd hw (fun h => h)
    | _ => exact absurd hw (fun h => h)
  | env he => exact absurd hok.1 (fun h => h)

theorem StoreInv.not_leavesLocked {s : System} {l : Label} (h : StoreInv servers s)
    (hok : OneAtATime s l) : ¬ LeavesLocked s l := by
  cases l with
  | run c a =>
    have ha : a.faulty = false := hok.1
    have hc := h.calls c
    intro hab
    simp only [LeavesLocked] at hab
    cases hl : s.locals c with
    | out w =>
      rw [hl] at hab
      exact hab
    | inn i =>
      rw [hl] at hab hc
      have hg := hab.1
      cases i with
      | write k x lo =>
        cases lo with
        | body todo id att => rcases hg.2 with rfl | rfl <;> cases ha
        | _ => exact hg
      | unlock w lo =>
        cases lo with
        | body todo id att => rcases hg.2 with rfl | rfl <;> cases ha
        | _ => exact hg
      | transfer id rpc sender att => exact hc
      | _ => exact hg
  | enter c => exact fun h => h
  | env e => exact absurd hok.1 (fun h => h)

theorem Faultless.noneLate {l : Label} (h : Faultless l) : NoneLate l := by
  cases l with
  | run c a =>
    rintro rfl
    cases h
  | enter c => exact trivial
  | env e => exact absurd h (fun h => h)

theorem StoreInv.durable {s : System} {l : Label} (h : StoreInv servers s)
    (hok : OneAtATime s l) : Durable s l := by
  refine ⟨hok.1.noneLate, fun c id rpc hl => ?_⟩
  have hc := h.calls c
  rw [hl] at hc
  exact hc

/-- Every registered server is alive and open and holds the pair. -/
structure View.Answers (servers : Finmap ServerRPC) (k : Key) (x : Val) (v : View) : Prop where
  membership : v.servers = servers
  server : ∀ id ∈ servers,
    v.crashed id = false ∧ v.isLocked id = false ∧ (v.data id).lookup k = some x

/-- After a put has returned, and before any other put of its key, every server answers
with its value when no call is in progress. -/
theorem answers_of_put {p : CallId} {x : Val} {y : Reply} {s₀ t u : System} {pre mid : Trace}
    (h₀ : AllOpen s₀) (hservers : s₀.shared.servers = servers)
    (hlive : ∀ id ∈ servers, s₀.shared.crashed id = false)
    (h : SystemRun OneAtATime s₀ (pre ++ (t, .enter p) :: mid) u)
    (hput : t.locals p = .out (Op.put k x).start)
    (hlater : ∀ e ∈ mid, ∀ q z, e.2 = .enter q → e.1.locals q ≠ .out (Op.put k z).start)
    (hu : Quiet u) (hret : u.locals p = .out (.finished (.returned y))) :
    u.shared.view.Answers servers k x := by
  have hinv : ∀ tr s, SystemRun OneAtATime s₀ tr s → StoreInv servers s := fun tr s hrun =>
    hrun.invariant (I := fun _ s => StoreInv servers s)
      ⟨fun c => (h₀.quiet.2 c).storeCall, hservers, hlive⟩
      fun _ _ _ _ _ hok hs hI => hI.step hok (Monitor.Step.of_step frontend hs)
  have hstrong := h.strengthen hinv
  have hdurable : SystemRun Durable s₀ _ u := hstrong.mono fun s l hok => hok.2.durable hok.1
  have hlocks : SystemRun (fun s l => ¬ LeavesLocked s l) s₀ _ u :=
    hstrong.mono fun s l hok => hok.2.not_leavesLocked hok.1
  have hopen := (Monitor.Run.resource hlocks lockBits_resource h₀.quiet.exclusive
    ⟨fun _ => h₀.isOpen, fun c i hi => absurd hi h₀.quiet.not_inn⟩).free hu.1
  obtain ⟨hexcl, hheld⟩ := current_of_returned h₀.quiet hdurable hput hret
  have hall := current_of_holds hexcl hheld
  have hinvu := hinv _ _ h
  refine ⟨hinvu.membership, fun id hid => ?_⟩
  have hcr : u.shared.view.crashed id = false := hinvu.live id hid
  have hmem : id ∈ u.shared.servers := by rwa [hinvu.membership]
  obtain ⟨z, hz, hrecent⟩ := hall id hmem
  refine ⟨hcr, hopen id hcr, ?_⟩
  rcases hrecent with rfl | ⟨e, he, q, hq, hl⟩
  · exact hz
  · exact absurd hl (hlater e he q z hq)

/-! ## A get alone -/

/-- How a `get(k)` ends if every server answers with `x`. -/
def getOutcome (k : Key) (x : Val) (servers : Finmap ServerRPC) : Outcome :=
  match ServerSelector.select k servers with
  | .ok _ => .returned (.pair k x)
  | .error e => .threw e

theorem getOutcome_of_ok {x : Val} {id : ServerId}
    (h : ServerSelector.select k servers = .ok id) :
    getOutcome k x servers = .returned (.pair k x) := by
  rw [getOutcome, h]

/-- The points of such a `get`, with a bound on the steps that are left. -/
inductive Left (k : Key) (x : Val) (servers : Finmap ServerRPC) : Nat → Outside → Prop
  | size : Left k x servers 7 (.getSize k)
  | keys : Left k x servers 6 (.getKeys k (k % mapSize servers))
  | check {id} (h : ServerSelector.select k servers = .ok id) :
      Left k x servers 5 (.getCheck k id)
  | lookup {id} (h : ServerSelector.select k servers = .ok id) :
      Left k x servers 4 (.getLookup k id)
  | test {id} (h : ServerSelector.select k servers = .ok id) :
      Left k x servers 3 (.remote (.get k) id .test)
  | passed {id} (h : ServerSelector.select k servers = .ok id) :
      Left k x servers 2 (.remote (.get k) id .passed)
  | answered {id} (h : ServerSelector.select k servers = .ok id) :
      Left k x servers 1 (.remote (.get k) id (.answered (.pair k x)))
  | ended : Left k x servers 0 (.finished (getOutcome k x servers))

/-- `a` brings the call closer to its end, and no other act is possible but a fault. -/
theorem Left.next_of {x : Val} {n m : Nat} {w w' : Outside} {c : CallId} {cl cl' : Cluster}
    {a : Act} (ha : a.faulty = false) (hcall : ∀ op, a ≠ .call op)
    (hs : w.step c cl a = some (cl', w')) (h : Left k x servers m w') (hm : m < n)
    (hother : ∀ b, b.faulty = false → b ≠ a → w.step c cl b = none) :
    ∃ a cl' w', a.faulty = false ∧ (∀ op, a ≠ .call op) ∧ w.step c cl a = some (cl', w') ∧
      (∃ m < n, Left k x servers m w') ∧
      ∀ b r, b.faulty = false → w.step c cl b = some r → r.2 = w' := by
  refine ⟨a, cl', w', ha, hcall, hs, ⟨m, hm, h⟩, fun b r hb hr => ?_⟩
  by_cases hba : b = a
  · subst hba
    rw [← Option.some.inj (hs.symm.trans hr)]
  · rw [hother b hb hba] at hr
    cases hr

/-- The only step such a `get` can take brings it closer to its end. -/
theorem Left.next {x : Val} {n : Nat} {w : Outside} {c : CallId} {cl : Cluster}
    (h : Left k x servers n w) (hn : 0 < n) (hne : servers.keys.Nonempty)
    (hv : cl.view.Answers servers k x) :
    ∃ a cl' w', a.faulty = false ∧ (∀ op, a ≠ .call op) ∧ w.step c cl a = some (cl', w') ∧
      (∃ m < n, Left k x servers m w') ∧
      ∀ b r, b.faulty = false → w.step c cl b = some r → r.2 = w' := by
  have hservers : cl.servers = servers := hv.membership
  have hcall : ∀ op, Act.step ≠ .call op := fun op => by simp
  have hread : ∀ op, Act.read .step ≠ .call op := fun op => by simp
  cases h with
  | size =>
    have hs : (Outside.getSize k).step c cl .step =
        some (cl, .getKeys k (k % mapSize servers)) := by
      rw [Outside.step, hservers, ServerSelector.index_eq hne]
    refine Left.next_of rfl hcall hs .keys (by omega) fun b hb hba => ?_
    cases b <;> first | rfl | exact absurd rfl hba
  | keys =>
    have hsel := select_eq (k := k) hne
    cases hget : ServerSelector.get servers (k % mapSize servers) with
    | ok id =>
      have hs : (Outside.getKeys k (k % mapSize servers)).step c cl .step =
          some (cl, .getCheck k id) := by
        rw [Outside.step, hservers, hget]
      refine Left.next_of rfl hcall hs (.check (hsel.trans hget)) (by omega) fun b hb hba => ?_
      cases b <;> first | rfl | exact absurd rfl hba
    | error e =>
      have hs : (Outside.getKeys k (k % mapSize servers)).step c cl .step =
          some (cl, .finished (getOutcome k x servers)) := by
        rw [Outside.step, hservers, hget, getOutcome, hsel, hget]
      refine Left.next_of rfl hcall hs .ended (by omega) fun b hb hba => ?_
      cases b <;> first | rfl | exact absurd rfl hba
  | @check id hsel =>
    have hid : id ∈ cl.servers := hservers ▸ mem_of_select hne hsel
    refine Left.next_of rfl hcall (if_pos hid) (.lookup hsel) (by omega) fun b hb hba => ?_
    cases b <;> first | rfl | exact absurd rfl hba
  | @lookup id hsel =>
    have hid : id ∈ cl.servers := hservers ▸ mem_of_select hne hsel
    refine Left.next_of rfl hcall (if_pos hid) (.test hsel) (by omega) fun b hb hba => ?_
    cases b <;> first | rfl | exact absurd rfl hba
  | @test id hsel =>
    obtain ⟨hcr, hopen, -⟩ := hv.server id (mem_of_select hne hsel)
    have hcr : cl.crashed id = false := hcr
    have hopen : (cl.process id).isLocked = false := hopen
    have hs : (Outside.remote (.get k) id .test).step c cl (.read .step) =
        some (cl.setProcess id (cl.process id), .remote (.get k) id .passed) := by
      simp [Outside.step, ServerRPCImpl.read, hcr, hopen]
    refine Left.next_of rfl hread hs (.passed hsel) (by omega) fun b hb hba => ?_
    cases b with
    | read b => cases b <;> first | exact absurd rfl hba | simp [Outside.step, ServerRPCImpl.read]
    | throw => cases hb
    | _ => rfl
  | @passed id hsel =>
    obtain ⟨hcr, -, hdata⟩ := hv.server id (mem_of_select hne hsel)
    have hcr : cl.crashed id = false := hcr
    have hdata : (cl.process id).data.lookup k = some x := hdata
    have hs : (Outside.remote (.get k) id .passed).step c cl (.read .step) =
        some (cl.setProcess id (cl.process id),
          .remote (.get k) id (.answered (.pair k x))) := by
      simp [Outside.step, ServerRPCImpl.read, hcr, hdata, readKey]
    refine Left.next_of rfl hread hs (.answered hsel) (by omega) fun b hb hba => ?_
    cases b with
    | read b => cases b <;> first | exact absurd rfl hba | simp [Outside.step, ServerRPCImpl.read]
    | throw => cases hb
    | _ => rfl
  | @answered id hsel =>
    have hended : Left k x servers 0 (.finished (.returned (.pair k x))) :=
      getOutcome_of_ok (x := x) hsel ▸ .ended
    refine Left.next_of (a := .reply) rfl (fun op => by simp) rfl hended (by omega)
      fun b hb hba => ?_
    cases b with
    | read b => cases b <;> simp [Outside.step, ServerRPCImpl.read]
    | reply => exact absurd rfl hba
    | throw => cases hb
    | _ => rfl
  | ended => exact absurd hn (lt_irrefl 0)

theorem Left.not_over {x : Val} {n : Nat} {w : Outside} (h : Left k x servers n w) (hn : 0 < n) :
    ¬ Over (.out w) := by
  rintro (hw | ⟨o, hw⟩) <;> obtain rfl := Monitor.Local.out.inj hw <;> cases h
  exact absurd hn (lt_irrefl 0)

theorem Left.entry_eq_none {x : Val} {n : Nat} {w : Outside} (h : Left k x servers n w) :
    w.entry = none := by
  cases h <;> rfl

/-- The call `g` of `get(k)` is the only one in progress, and at one of these points. -/
structure Underway (servers : Finmap ServerRPC) (k : Key) (x : Val) (g : CallId) (n : Nat)
    (s : System) : Prop where
  lock : s.lock = none
  others : ∀ c, c ≠ g → Over (s.locals c)
  answers : s.shared.view.Answers servers k x
  point : ∃ w, s.locals g = .out w ∧ Left k x servers n w

namespace Underway

variable {x : Val} {g : CallId} {n : Nat} {s s' : System} {l : Label}

theorem outside (h : Underway servers k x g n s) {cl : Cluster} {w : Outside} {m : Nat}
    (hv : cl.view = s.shared.view) (hw : Left k x servers m w) :
    Underway servers k x g m
      { s with shared := cl, locals := Function.update s.locals g (.out w) } where
  lock := h.lock
  others c hc := by
    show Over (Function.update s.locals g (.out w) c)
    rw [Function.update_of_ne hc]
    exact h.others c hc
  answers := hv ▸ h.answers
  point := ⟨w, Function.update_self .., hw⟩

theorem exists_step (h : Underway servers k x g n s) (hn : 0 < n) (hne : servers.keys.Nonempty) :
    ∃ l s', OneAtATime s l ∧ System.step s l = some s' ∧ ∃ m < n, Underway servers k x g m s' := by
  obtain ⟨w, hl, hleft⟩ := h.point
  obtain ⟨a, cl', w', ha, hcall, hs, ⟨m, hm, hleft'⟩, -⟩ := hleft.next (c := g) hn hne h.answers
  refine ⟨.run g a, _, ⟨ha, fun op e => ?_⟩, ?_, m, hm, h.outside (Outside.step_view hs) hleft'⟩
  · cases a <;> cases e
    exact absurd rfl (hcall op)
  · simp [System.step, Monitor.step, hl, frontend, hs]

theorem step (h : Underway servers k x g n s) (hn : 0 < n) (hne : servers.keys.Nonempty)
    (hok : OneAtATime s l) (hs : Monitor.Step frontend s l s') :
    ∃ m < n, Underway servers k x g m s' := by
  obtain ⟨w, hl, hleft⟩ := h.point
  have hinn : ∀ t i, s.locals t ≠ .inn i := fun t i hi => by
    by_cases ht : t = g
    · subst ht
      cases hl.symm.trans hi
    · rcases h.others t ht with ho | ⟨o, ho⟩ <;> cases ho.symm.trans hi
  cases hs with
  | @outside t a v v' σ' hl' ho =>
    by_cases ht : t = g
    · subst ht
      obtain rfl := Monitor.Local.out.inj (hl.symm.trans hl')
      obtain ⟨_, _, w', _, _, _, ⟨m, hm, hleft'⟩, hdet⟩ := hleft.next (c := t) hn hne h.answers
      obtain rfl : v' = w' := hdet a _ hok.1 ho
      exact ⟨m, hm, h.outside (Outside.step_view ho) hleft'⟩
    · rcases h.others t ht with hover | ⟨o, hover⟩
      · obtain rfl := Monitor.Local.out.inj (hover.symm.trans hl')
        cases a <;> simp only [frontend, Outside.step] at ho <;> try contradiction
        have hover' := (hok.2 _ rfl).1.2 g
        rw [hl] at hover'
        exact absurd hover' (hleft.not_over hn)
      · obtain rfl := Monitor.Local.out.inj (hover.symm.trans hl')
        cases a <;> simp [frontend, Outside.step] at ho
  | inside hl' _ => exact absurd hl' (hinn _ _)
  | leave hl' _ => exact absurd hl' (hinn _ _)
  | @enter t v i hl' he _ =>
    by_cases ht : t = g
    · subst ht
      obtain rfl := Monitor.Local.out.inj (hl.symm.trans hl')
      exact absurd (hleft.entry_eq_none.symm.trans he) (by simp)
    · rcases h.others t ht with hover | ⟨o, hover⟩ <;>
        obtain rfl := Monitor.Local.out.inj (hover.symm.trans hl') <;> cases he
  | env _ => exact absurd hok.1 (fun h => h)

theorem finished (h : Underway servers k x g 0 s) :
    s.locals g = .out (.finished (getOutcome k x servers)) := by
  obtain ⟨w, hl, hleft⟩ := h.point
  cases hleft
  exact hl

/-- The call can be brought to its end. -/
theorem completes (hne : servers.keys.Nonempty) : ∀ {n : Nat} {s : System},
    Underway servers k x g n s → ∃ tr s', SystemRun OneAtATime s tr s' ∧
      s'.locals g = .out (.finished (getOutcome k x servers)) := by
  intro n
  induction n using Nat.strong_induction_on with
  | _ n ih =>
    intro s h
    rcases Nat.eq_zero_or_pos n with rfl | hn
    · exact ⟨[], s, .nil, h.finished⟩
    · obtain ⟨l, s', hok, hs, m, hm, h'⟩ := h.exists_step hn hne
      obtain ⟨tr, s'', hrun, hend⟩ := ih m hm h'
      exact ⟨_, s'', Run.cons hok hs hrun, hend⟩

/-- Wherever a run has brought the call, it has ended that way or is still under way. -/
theorem run (h : Underway servers k x g n s) (hne : servers.keys.Nonempty) {tr : Trace}
    (hrun : SystemRun OneAtATime s tr s') :
    (∃ m, Underway servers k x g m s') ∨
      s'.locals g = .out (.finished (getOutcome k x servers)) := by
  refine hrun.invariant (I := fun _ s => (∃ m, Underway servers k x g m s) ∨
    s.locals g = .out (.finished (getOutcome k x servers))) (.inl ⟨n, h⟩)
    fun tr s l s' _ hok hs hI => ?_
  have hs := Monitor.Step.of_step frontend hs
  rcases hI with ⟨m, hm⟩ | hend
  · rcases Nat.eq_zero_or_pos m with rfl | hpos
    · exact .inr (finished_stays hs hm.finished)
    · obtain ⟨m', -, hm'⟩ := hm.step hpos hne hok hs
      exact .inl ⟨m', hm'⟩
  · exact .inr (finished_stays hs hend)

/-- The call is made. -/
theorem of_call (hq : Quiet s) (hv : s.shared.view.Answers servers k x)
    (hs : System.step s (.run g (.call (.get k))) = some s') :
    Underway servers k x g 7 s' := by
  have hstep := Monitor.Step.of_step frontend hs
  obtain ⟨-, hshared, hl⟩ := call_start hstep
  have hlock : s'.lock = none := by
    cases hstep with
    | outside _ _ => exact hq.1
    | inside _ _ => exact hq.1
    | leave _ _ => rfl
  refine ⟨hlock, fun c hc => ?_, hshared ▸ hv, ⟨_, hl, .size⟩⟩
  rw [hstep.locals_of_ne fun e => hc (Option.some.inj e).symm]
  exact hq.2 c

end Underway

/-- The call `g` of `get(k)`, made in the state `s`, can be brought to its end from wherever
a run has brought it, and it returns `y`. -/
def GetReturns (s : System) (g : CallId) (k : Key) (y : Reply) : Prop :=
  ∀ tr s', SystemRun OneAtATime s ((s, .run g (.call (.get k))) :: tr) s' →
    ∃ tr' s'', SystemRun OneAtATime s' tr' s'' ∧ s''.locals g = .out (.finished (.returned y))

theorem getReturns_of_select {x : Val} {g : CallId} {s : System} {id : ServerId} (hq : Quiet s)
    (hv : s.shared.view.Answers servers k x) (hne : servers.keys.Nonempty)
    (hsel : ServerSelector.select k servers = .ok id) : GetReturns s g k (.pair k x) := by
  intro tr s' hrun
  obtain ⟨-, -, s₁, hs, hpost⟩ := hrun.of_split (List.nil_append _).symm
  rw [← getOutcome_of_ok hsel]
  rcases (Underway.of_call hq hv hs).run hne hpost with ⟨m, hm⟩ | hend
  · exact hm.completes hne
  · exact ⟨[], s', .nil, hend⟩

/-- The call fails if `select` throws. -/
theorem not_getReturns_of_error {x : Val} {y : Reply} {g : CallId} {s : System} {e : Exn}
    (hq : Quiet s) (hg : s.locals g = .out .idle) (hv : s.shared.view.Answers servers k x)
    (hne : servers.keys.Nonempty) (hsel : ServerSelector.select k servers = .error e) :
    ¬ GetReturns s g k y := by
  intro hret
  have hok : OneAtATime s (.run g (.call (.get k))) := by
    refine ⟨rfl, fun op hop => ?_⟩
    cases hop
    exact ⟨hq, rfl⟩
  obtain ⟨s₁, hs⟩ : ∃ s₁, System.step s (.run g (.call (.get k))) = some s₁ := by
    simp [System.step, Monitor.step, hg, frontend, Outside.step]
  have hcall := Underway.of_call hq hv hs
  obtain ⟨tr, s₂, hrun, hend⟩ := hcall.completes hne
  obtain ⟨tr', s₃, hrun', hend'⟩ := hret tr s₂ (Run.cons hok hs hrun)
  have hstay : s₃.locals g = .out (.finished (getOutcome k x servers)) :=
    hrun'.invariant (I := fun _ s => s.locals g = .out (.finished (getOutcome k x servers))) hend
      fun _ _ _ _ _ _ hs hI => finished_stays (Monitor.Step.of_step frontend hs) hI
  have hout := hstay.symm.trans hend'
  simp [getOutcome, hsel] at hout

/-- On a membership whose size an `int` can tell, `select` returns a server for no other
keys. -/
theorem routable_of_select {id : ServerId} (hne : servers.keys.Nonempty)
    (hsmall : servers.keys.card < 2 ^ 31) (h : ServerSelector.select k servers = .ok id) :
    Routable k servers.keys.card := by
  have hcard : 0 < servers.keys.card := hne.card_pos
  rw [select_eq hne, ServerSelector.get_ok_iff, remainder_toInt, Nat.min_eq_left (by omega),
    Int.tmod_eq_emod] at h
  have hlt : k.toInt % (servers.keys.card : Int) < servers.keys.card :=
    Int.emod_lt_of_pos _ (by omega)
  rw [Routable, if_pos hsmall]
  by_contra hno
  rw [if_neg hno] at h
  have hnonneg := h.1
  omega

/-- The value of the last put of a key is read back, from the server of the key's rank, if
and only if the key can be routed.  If the size of the membership is an `int` this is also
exactly when it is read back from any server. -/
theorem read_back_iff {p g : CallId} {x : Val} {s₀ t u : System} {pre mid : Trace}
    (h₀ : AllOpen s₀) (hservers : s₀.shared.servers = servers) (hne : servers.keys.Nonempty)
    (hlive : ∀ id ∈ servers, s₀.shared.crashed id = false)
    (h : SystemRun OneAtATime s₀ (pre ++ (t, .enter p) :: mid) u)
    (hput : t.locals p = .out (Op.put k x).start)
    (hlater : ∀ e ∈ mid, ∀ q z, e.2 = .enter q → e.1.locals q ≠ .out (Op.put k z).start)
    (hu : Quiet u) (hret : u.locals p = .out (.finished (.returned (.success k x))))
    (hg : u.locals g = .out .idle) :
    (GetReturns u g k (.pair k x) ∧ SelectsRank k servers ↔ Routable k servers.keys.card) ∧
      (servers.keys.card < 2 ^ 31 →
        (GetReturns u g k (.pair k x) ↔ Routable k servers.keys.card)) := by
  have hv := answers_of_put h₀ hservers hlive h hput hlater hu hret
  have himp : Routable k servers.keys.card → GetReturns u g k (.pair k x) := fun hr => by
    obtain ⟨id, -, hsel, -⟩ := (selectsRank_iff hne).mpr hr
    exact getReturns_of_select hu hv hne hsel
  constructor
  · rw [selectsRank_iff hne, and_iff_right_iff_imp]
    exact himp
  · refine fun hsmall => ⟨fun hget => ?_, himp⟩
    cases hsel : ServerSelector.select k servers with
    | ok id => exact routable_of_select hne hsmall hsel
    | error e => exact absurd hget (not_getReturns_of_error hu hg hv hne hsel)

/-- `OneAtATime` for a run whose calls are numbered below `n`. -/
def OneAtATimeBelow (n : Nat) (s : System) (l : Label) : Prop :=
  (Faultless l ∧ ∀ op ∈ called l, QuietBelow n s ∧ op.ofStore = true) ∧ ∀ c ∈ l.thread, c < n

instance (n : Nat) (s : System) (l : Label) : Decidable (OneAtATimeBelow n s l) :=
  instDecidableAnd

theorem SystemRun.idle_from {n : Nat} {s : System} {tr : Trace}
    (h : SystemRun (OneAtATimeBelow n) (System.fresh servers) tr s) :
    ∀ c, n ≤ c → s.locals c = .out .idle :=
  SystemRun.idle_above h (fun _ _ hok c hc => hok.2 c hc) fun _ _ => rfl

theorem SystemRun.oneAtATime {n : Nat} {s : System} {tr : Trace}
    (h : SystemRun (OneAtATimeBelow n) (System.fresh servers) tr s) :
    SystemRun OneAtATime (System.fresh servers) tr s := by
  refine (h.strengthen fun tr s hrun => SystemRun.idle_from hrun).mono ?_
  rintro s l ⟨⟨⟨hf, hcall⟩, -⟩, habove⟩
  exact ⟨hf, fun op hop => ⟨(hcall op hop).1.quiet habove, (hcall op hop).2⟩⟩

/-- A put of a negative key that the number of servers divides. -/
theorem read_back_iff_even : ∃ t mid u, SystemRun OneAtATime (System.fresh twoServers)
      ([(System.fresh twoServers, .run 0 (.call (.put (-4) 7)))] ++ (t, .enter 0) :: mid) u ∧
    u.locals 0 = .out (.finished (.returned (.success (-4) 7))) ∧
    GetReturns u 1 (-4) (.pair (-4) 7) ∧ SelectsRank (-4) twoServers := by
  have hput : ((exec System.step (System.fresh twoServers) [.run 0 (.call (.put (-4) 7))]).map
      fun t => t.awaits 0) = some (some (-4, 7)) := by decide +kernel
  have hend : ((exec System.step (System.fresh twoServers) ([.run 0 (.call (.put (-4) 7))] ++
      .enter 0 :: (putOn 0 (-4) 7 [1, 2]).drop 2)).map fun u =>
      (u.outcome 0, decide (QuietBelow 1 u))) =
      some (some (.returned (.success (-4) 7)), true) := by decide +kernel
  obtain ⟨t, mid, u, hrun, ht, hu, hmid⟩ := Run.split_of_exec (OneAtATimeBelow 1) hput hend
    (by decide +kernel)
  obtain ⟨hret, hquiet⟩ := Prod.mk.inj hu
  have hidle := SystemRun.idle_from hrun
  have hlater : ∀ e ∈ mid, ∀ q z, e.2 = .enter q → e.1.locals q ≠ .out (Op.put (-4) z).start := by
    intro e he q z hq
    have hno : ∀ q', Monitor.Label.enter q' ∉ (putOn 0 (-4) 7 [1, 2]).drop 2 := by
      simp [putOn, loopOn]
    exact absurd (hq ▸ hmid e he) (hno q)
  have hlive : ∀ id ∈ twoServers, (System.fresh twoServers).shared.crashed id = false :=
    fun _ _ => rfl
  have hrun := SystemRun.oneAtATime hrun
  refine ⟨t, mid, u, hrun, System.outcome_eq hret, ?_⟩
  exact (read_back_iff (fresh_allOpen _) rfl (by decide +kernel) hlive hrun (System.awaits_eq ht)
    hlater ((of_decide_eq_true hquiet).quiet hidle) (System.outcome_eq hret)
    (hidle 1 (le_refl 1))).1.mpr (by decide +kernel)

/-- The put of key -1 succeeds.  The `get` of it is routed to index -1 and throws. -/
theorem negative_key_not_read : ∃ t mid u post s, SystemRun OneAtATime (System.fresh twoServers)
      ([(System.fresh twoServers, .run 0 (.call (.put (-1) 7)))] ++
        (t, .enter 0) :: (mid ++ (u, .run 1 (.call (.get (-1)))) :: post)) s ∧
    u.locals 0 = .out (.finished (.returned (.success (-1) 7))) ∧
    (∀ e ∈ post, called e.2 = none) ∧
    s.locals 1 = .out (.finished (.threw .indexOutOfBounds)) := by
  have hput : ((exec System.step (System.fresh twoServers) [.run 0 (.call (.put (-1) 7))]).map
      fun t => t.awaits 0) = some (some (-1, 7)) := by decide +kernel
  have hret : ((exec System.step (System.fresh twoServers) ([.run 0 (.call (.put (-1) 7))] ++
      .enter 0 :: (putOn 0 (-1) 7 [1, 2]).drop 2)).map fun u => u.outcome 0) =
      some (some (.returned (.success (-1) 7))) := by decide +kernel
  have hend : ((exec System.step (System.fresh twoServers) ([.run 0 (.call (.put (-1) 7))] ++
      .enter 0 :: ((putOn 0 (-1) 7 [1, 2]).drop 2 ++ .run 1 (.call (.get (-1))) ::
        [.run 1 .step, .run 1 .step]))).map fun s => s.outcome 1) =
      some (some (.threw .indexOutOfBounds)) := by decide +kernel
  obtain ⟨t, mid, u, post, s, hrun, -, hu, hs, hpost⟩ :=
    Run.split_twice_of_exec (OneAtATimeBelow 2) hput hret hend (by decide +kernel)
  refine ⟨t, mid, u, post, s, SystemRun.oneAtATime hrun, System.outcome_eq hu, fun e he => ?_,
    System.outcome_eq hs⟩
  have hstep : e.2 = .run 1 .step := by simpa using hpost e he
  rw [hstep]
  rfl

end ReplicatedStore
