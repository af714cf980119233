/-
What `runWorkload` prints.

Over a store that answers like a map no worker prints an error: the key that a worker
reads was last written by that worker, in the load phase or by the put of the same
request.  A worker that gets a wrong pair prints an error.  A worker that gets an error
word does not: the conversion to a number raises, and nobody looks at its future.
-/
import ReplicatedStore.Loading

namespace ReplicatedStore
namespace RunCluster

open Lib

/-! ## The check -/

theorem pairText_toList (k v : ℤ) :
    (pairText k v).toList = Decimal.text k ++ ':' :: Decimal.text v := by
  rw [pairText, String.toList_append, String.toList_append, List.append_assoc]
  rfl

theorem split_pairText (k v : ℤ) : split (pairText k v) ':' = [Decimal.text k, Decimal.text v] := by
  rw [split, pairText_toList, Decimal.splitOn_pair (by decide)]

theorem check_pairText (key expected k v : ℤ) : check key expected (pairText k v) =
    if k ≠ key ∨ v ≠ expected then
      .prints s!"[Error] request = ({key}, {expected}), return = ({k}, {v})"
    else .passes := by
  rw [check, split_pairText]
  simp only [List.getElem?_cons_zero, List.getElem?_cons_succ, Option.bind_some,
    Decimal.parse_text]

theorem check_expected (k v : ℤ) : check k v (pairText k v) = .passes := by
  rw [check_pairText, if_neg (by simp)]

theorem mem_optypes {r : ℤ} {op : String} (h : op ∈ optypes r) : op = "Put" ∨ op = "Get" := by
  obtain ⟨i, -, rfl⟩ := List.mem_map.mp h
  split
  · exact .inl rfl
  · exact .inr rfl

/-- Only the operations that `runWorkload` knows are in the shuffled list. -/
theorem known_of_item {ops : List String} {r idx : ℤ} {op : String} (h : ops.Perm (optypes r))
    (hop : item ops (idx % 100) = some op) : op = "Put" ∨ op = "Get" :=
  mem_optypes (h.mem_iff.mp (item_mem (Int.emod_nonneg _ (by decide)) hop))

/-! ## The store as a map -/

/-- The pair that a call puts. -/
def Call.pair : Call → Option (ℤ × ℤ)
  | .put k v => some (k, v)
  | .get _ => none

/-- The pair of a put that this step completes. -/
def Point.completes (p : Point) : Act → Option (ℤ × ℤ)
  | .reply _ => p.call.bind Call.pair
  | _ => none

/-- A map with a pair stored. -/
def store (L : ℤ → Option ℤ) : Option (ℤ × ℤ) → ℤ → Option ℤ
  | some e => Function.update L e.1 (some e.2)
  | none => L

namespace Driver

/-- The pair of a put that this step completes. -/
def completes (e : Driver × Label) : Option (ℤ × ℤ) :=
  match e.2 with
  | .work t a => (e.1.points t).bind fun p => p.completes a
  | _ => none

/-- The value of the last completed put of each key. -/
def lastPut (tr : List (Driver × Label)) : ℤ → Option ℤ :=
  tr.foldl (fun L e => store L (completes e)) fun _ => none

/-- A put of this key is under way. -/
def Pending (s : Driver) (k : ℤ) : Prop := ∃ t v, s.call t = some (.put k v)

/-- A step of this worker. -/
def StepOf (t : ℕ) (e : Driver × Label) : Prop := ∃ a, e.2 = .work t a

/-- No put of the key has been under way since the last step of the worker. -/
def Alone (tr : List (Driver × Label)) (s : Driver) (t : ℕ) (k : ℤ) : Prop :=
  LastOf (StepOf t) (fun e => StepOf t e ∨ e.1.Pending k) tr ∧ ¬ s.Pending k

/-- A get with no put of its key beside it is answered with the last completed put. -/
def AnswersLikeMap (tr : List (Driver × Label)) : Prop :=
  ∀ pre s t r post k v, tr = pre ++ (s, .work t (.reply r)) :: post →
    s.call t = some (.get k) → Alone pre s t k → lastPut pre k = some v → r = pairText k v

end Driver

/-! ## One worker over a map -/

namespace Worker

variable {w : Worker} {p p' : Point} {a : Act} {L : ℤ → Option ℤ} {j k v : ℤ}

/-- The key at this index has the value it was loaded with. -/
def Keeps (w : Worker) (L : ℤ → Option ℤ) (j : ℤ) : Prop :=
  ∀ k v, item w.data.keys j = some k → item w.data.loadVals j = some v → L k = some v

/-- The first index whose put has not been completed. -/
def loaded (w : Worker) : Point → ℤ
  | .load idx | .loadPut idx _ _ => idx
  | _ => w.endIdx

/-- What the map holds for a worker of the load phase. -/
def LoadOk (w : Worker) (L : ℤ → Option ℤ) (p : Point) : Prop :=
  ∀ j, w.startIdx ≤ j → j < w.loaded p → w.Keeps L j

/-- What the map holds for a worker of the run phase. -/
def RunOk (w : Worker) (L : ℤ → Option ℤ) : Point → Prop
  | .load _ | .loadPut .. => False
  | .request _ | .change .. | .draw .. | .put .. => True
  | .get _ k v => L k = some v
  | .shuffle => ∀ j, w.Owns j → w.Keeps L j
  | .outer ops _ | .inner ops _ _ | .runPut ops _ _ _ _ | .runGet ops _ _ _ =>
    ∀ j, w.Owns j → item ops (j % 100) = some "Get" → w.Keeps L j
  | .ended e => ∀ line, e ≠ .printed line

theorem Keeps.store_ne (h : w.Keeps L j) (hk : item w.data.keys j ≠ some k) :
    w.Keeps (store L (some (k, v))) j := fun k' v' hk' hv' => by
  have hne : k' ≠ k := by
    rintro rfl
    exact hk hk'
  exact (Function.update_of_ne hne _ _).trans (h k' v' hk' hv')

theorem LoadOk.store_ne (h : w.LoadOk L p) (hl : p.Loads) (hs : w.Sound p)
    (hk : ∀ j, w.Owns j → item w.data.keys j ≠ some k) : w.LoadOk (store L (some (k, v))) p :=
  fun j hstart hlt => by
    have hle : w.loaded p ≤ w.endIdx := by
      cases p with
      | load idx => exact hs.2
      | loadPut idx k v => exact hs.1.2.le
      | ended e => exact le_refl _
      | _ => cases hl
    exact (h j hstart hlt).store_ne (hk j ⟨hstart, hlt.trans_le hle⟩)

theorem RunOk.store_ne (h : w.RunOk L p) (hs : w.Sound p)
    (hk : ∀ j, w.Owns j → item w.data.keys j ≠ some k) : w.RunOk (store L (some (k, v))) p := by
  cases p with
  | load idx => cases h
  | loadPut idx k v => cases h
  | get n k' v' =>
    obtain ⟨j, hj, hk'⟩ := hs
    have hne : k' ≠ k := by
      rintro rfl
      exact hk j hj hk'
    exact (Function.update_of_ne hne _ _).trans h
  | shuffle => exact fun j hj => (h j hj).store_ne (hk j hj)
  | outer ops n => exact fun j hj hop => (h j hj hop).store_ne (hk j hj)
  | inner ops n idx => exact fun j hj hop => (h j hj hop).store_ne (hk j hj)
  | runPut ops n idx k' v' => exact fun j hj hop => (h j hj hop).store_ne (hk j hj)
  | runGet ops n idx k' => exact fun j hj hop => (h j hj hop).store_ne (hk j hj)
  | ended e => exact h
  | _ => exact trivial

/-- The load phase leaves the loaded value at every index it has passed. -/
theorem loadOk_step (h : w.LoadOk L p) (hl : p.Loads) (hs : w.Sound p)
    (hd : w.data.Shuffled w.args) (ha : a = .fails → p.call = none)
    (hstep : w.step p a = some p') (hl' : p'.Loads) : w.LoadOk (store L (p.completes a)) p' := by
  cases move_of_step hstep with
  | issueLoad hidx hk hv => exact h
  | loadRaises => cases hl'
  | loadEnds hidx => exact fun j hstart hlt => h j hstart (lt_of_lt_of_le hlt hidx)
  | @loaded idx k v r =>
    obtain ⟨hidx, hk, hv⟩ := hs
    intro j hstart hlt
    rcases Int.lt_or_eq_of_le (Int.le_of_lt_add_one hlt) with hlt | rfl
    · refine (h j hstart hlt).store_ne fun hk' => ?_
      have hnonneg : 0 ≤ j := w.startIdx_nonneg.trans hstart
      exact absurd (item_inj hd.nodup hnonneg hidx.nonneg hk' hk) hlt.ne
    · intro k' v' hk' hv'
      obtain rfl : k = k' := Option.some.inj (hk.symm.trans hk')
      obtain rfl : v = v' := Option.some.inj (hv.symm.trans hv')
      exact Function.update_self ..
  | callFails hc => exact absurd (ha rfl) (by simp [hc])
  | _ => cases hl

theorem runOk_check {next : Point} {r : String} (hp : p' = (check k v r).point next)
    (hr : r = pairText k v) (h : w.RunOk L next) : w.RunOk L p' := by
  subst hp hr
  rw [check_expected]
  exact h

/-- In the run phase an expected reply lets the worker go on. -/
theorem runOk_step (h : w.RunOk L p) (hs : w.Sound p) (hd : w.data.Shuffled w.args)
    (hstep : w.step p a = some p')
    (hr : ∀ k v r, p.call = some (.get k) → a = .reply r → L k = some v → r = pairText k v) :
    w.RunOk (store L (p.completes a)) p' := by
  cases move_of_step hstep with
  | issueLoad => cases h
  | loadRaises => cases h
  | loadEnds => cases h
  | loaded => cases h
  | emptyRange => exact nofun
  | requestsEnd => exact nofun
  | pick hn hidx he hp => rcases hp with rfl | rfl <;> exact trivial
  | changed => exact trivial
  | changeFails => exact nofun
  | issuePut => exact trivial
  | drawRaises => exact nofun
  | issueGet => exact Function.update_self ..
  | @checkGet n k v r p' hp => exact runOk_check hp (hr k v r rfl rfl h) trivial
  | shuffled => exact fun j hj _ => h j hj
  | pass => exact h
  | passesEnd => exact nofun
  | passEnds => exact h
  | issueRunPut => exact h
  | issueRunGet => exact h
  | passRaises => exact nofun
  | @unknown ops n idx op hop hput hget =>
    rcases known_of_item hs.1 hop with rfl | rfl
    · exact absurd rfl hput
    · exact absurd rfl hget
  | @runPutDone ops n idx k v r =>
    obtain ⟨-, hidx, hop, hk, -⟩ := hs
    intro j hj hop'
    refine (h j hj hop').store_ne fun hk' => ?_
    obtain rfl := item_inj hd.nodup hj.nonneg hidx.nonneg hk' hk
    simp [hop] at hop'
  | @checkRunGet ops n idx k v r p' hv hp =>
    obtain ⟨-, hidx, hop, hk⟩ := hs
    exact runOk_check hp (hr k v r rfl rfl (h idx hidx hop k v hk hv)) h
  | checkRaises => exact nofun
  | callFails => exact nofun

end Worker

/-! ## All workers over a map -/

namespace Driver

variable {args : Args} {s s' : Driver} {l : Label} {tr : List (Driver × Label)}

theorem lastPut_snoc (e : Driver × Label) :
    lastPut (tr ++ [e]) = store (lastPut tr) (completes e) := by
  simp [lastPut, List.foldl_append]

theorem completes_of_not_work (hl : ∀ t a, l ≠ .work t a) : completes (s, l) = none := by
  cases l with
  | work t a => exact absurd rfl (hl t a)
  | _ => rfl

theorem completes_of_work {t : ℕ} {a : Act} {p : Point} (hp : s.points t = some p) :
    completes (s, .work t a) = p.completes a := by
  simp [completes, hp]

theorem AnswersLikeMap.of_snoc {e : Driver × Label} (h : AnswersLikeMap (tr ++ [e])) :
    AnswersLikeMap tr := fun pre s t r post k v htr =>
  h pre s t r (post ++ [e]) k v (by rw [htr, List.append_assoc]; rfl)

/-- A worker that reads a key is alone with it. -/
theorem Sound.not_pending (h : s.Sound args) {t : ℕ} {k : ℤ} (ht : s.call t = some (.get k)) :
    ¬ s.Pending k := by
  rintro ⟨u, v, hu⟩
  obtain rfl : t = u := h.call_unique ht hu rfl
  cases ht.symm.trans hu

theorem call_submit {m : Main} {d : DataSet} {task : Worker → Point} {t : ℕ}
    (htask : ∀ w : Worker, (task w).call = none) : (s.submit args m d task).call t = none := by
  rw [call, Option.bind_eq_none_iff]
  intro p hp
  rw [(submit_points hp).2]
  exact htask _

theorem call_runWorkload (w : Worker) : w.runWorkload.call = none := by
  unfold Worker.runWorkload
  split <;> rfl

/-- Other steps leave a worker alone with the key it reads. -/
theorem Alone.snoc {t : ℕ} {k : ℤ} (h : Alone tr s t k) (hl : ¬ StepOf t (s, l))
    (hs : ¬ s'.Pending k) : Alone (tr ++ [(s, l)]) s' t k :=
  ⟨lastOf_snoc.mpr (.inr ⟨h.1, fun hor => hor.elim hl h.2⟩), hs⟩

/-- A get never has a put of its key beside it. -/
theorem alone_of_run {ok : Driver → Label → Prop} (h : Run (step args) ok init tr s) :
    ∀ t k, s.call t = some (.get k) → Alone tr s t k := by
  refine h.invariant (I := fun tr s => ∀ t k, s.call t = some (.get k) → Alone tr s t k)
    (fun t k hc => by cases hc) fun tr s l s' hrun _ hstep ih t k hc => ?_
  have hs' : ¬ s'.Pending k := (sound_step (sound_of_run hrun) hstep).not_pending hc
  cases move_of_step hstep with
  | prepare hl hs hm => exact (ih t k hc).snoc (fun hex => hex.elim fun a ha => hl t a ha) hs'
  | load hm hd =>
    rw [call_submit fun w => (rfl : w.loadDataset.call = none)] at hc
    cases hc
  | run hm hi =>
    rw [call_submit call_runWorkload] at hc
    cases hc
  | finish hm hi => exact (ih t k hc).snoc (fun hex => hex.elim fun a ha => by cases ha) hs'
  | @work u a p p' hp hs =>
    by_cases hu : u = t
    · exact ⟨lastOf_snoc.mpr (.inl ⟨a, by rw [hu]⟩), hs'⟩
    · have hsame : s.call t = some (.get k) := by
        simpa only [call, Function.update_of_ne (Ne.symm hu)] using hc
      refine (ih t k hsame).snoc (fun hex => hex.elim fun b hb => ?_) hs'
      cases hb
      exact hu rfl

/-- What the map holds for the workers. -/
structure MapInv (args : Args) (tr : List (Driver × Label)) (s : Driver) : Prop where
  loading : s.main = .loading → ∀ t p, s.points t = some p →
    (s.worker args t).LoadOk (lastPut tr) p
  running : s.main ≠ .loading → ∀ t p, s.points t = some p →
    (s.worker args t).RunOk (lastPut tr) p

/-- A put that one worker completes writes no key of another. -/
theorem Sound.completes_other (h : s.Sound args) {t u : ℕ} {a : Act} {p : Point} {k v : ℤ}
    (hp : s.points t = some p) (hc : p.completes a = some (k, v)) (hu : u ≠ t) {j : ℤ}
    (hj : (s.worker args u).Owns j) : item (s.worker args u).data.keys j ≠ some k := fun hk => by
  cases a with
  | reply r =>
    obtain ⟨c, hcall, hpair⟩ := Option.bind_eq_some_iff.mp hc
    cases c with
    | put k' v' =>
      obtain ⟨rfl, rfl⟩ := Prod.mk.inj (Option.some.inj hpair)
      obtain ⟨i, hi, hk'⟩ := (h.worker t p hp).of_call hcall
      obtain rfl := item_inj (h.shuffled (h.started t p hp)).nodup hj.nonneg hi.nonneg hk hk'
      exact hu (Worker.Owns.unique (w := s.worker args u) (u := s.worker args t) rfl rfl hj hi)
    | get k' => cases hpair
  | _ => cases hc

theorem mapInv_work (h : s.Sound args) (hL : s.LoadInv args tr) (hI : s.MapInv args tr) {t : ℕ}
    {a : Act} {p p' : Point} (hp : s.points t = some p)
    (hs : (s.worker args t).step p a = some p') (ha : a = .fails → p.call = none)
    (hl' : s.main = .loading → p'.Loads)
    (hr : ∀ k v r, p.call = some (.get k) → a = .reply r → lastPut tr k = some v →
      r = pairText k v) :
    MapInv args (tr ++ [(s, .work t a)])
      { s with points := Function.update s.points t (some p') } := by
  have hd : s.data.Shuffled args := h.shuffled (h.started t p hp)
  have hother : ∀ u, u ≠ t → ∀ k v, p.completes a = some (k, v) →
      ∀ j, (s.worker args u).Owns j → item (s.worker args u).data.keys j ≠ some k :=
    fun u hu k v hc j hj => h.completes_other hp hc hu hj
  constructor
  · intro hm u q hq
    rw [lastPut_snoc, completes_of_work hp]
    rcases points_work hq with ⟨rfl, rfl⟩ | ⟨hu, hq⟩
    · exact Worker.loadOk_step (hI.loading hm u p hp) (hL.loads hm u p hp) (h.worker u p hp) hd
        ha hs (hl' hm)
    · cases hc : p.completes a with
      | none => exact hI.loading hm u q hq
      | some e =>
        exact (hI.loading hm u q hq).store_ne (hL.loads hm u q hq) (h.worker u q hq)
          (hother u hu _ _ hc)
  · intro hm u q hq
    rw [lastPut_snoc, completes_of_work hp]
    rcases points_work hq with ⟨rfl, rfl⟩ | ⟨hu, hq⟩
    · exact Worker.runOk_step (hI.running hm u p hp) (h.worker u p hp) hd hs
        fun k v r hc hr' => hr k v r hc hr'
    · cases hc : p.completes a with
      | none => exact hI.running hm u q hq
      | some e => exact (hI.running hm u q hq).store_ne (h.worker u q hq) (hother u hu _ _ hc)

/-- A step at which a get is answered with what the map holds, if it holds anything. -/
theorem mapInv_next (h : s.Sound args) (hL : s.LoadInv args tr) (hI : s.MapInv args tr)
    (hok : s.Succeeds l) (hstep : s.step args l = some s')
    (hr : ∀ t k v r, l = .work t (.reply r) → s.call t = some (.get k) → lastPut tr k = some v →
      r = pairText k v) : s'.MapInv args (tr ++ [(s, l)]) := by
  have hL' := loadInv_step h hL (fun _ => hok) hstep
  cases move_of_step hstep with
  | prepare hl hs hm =>
    have hno : ∀ t p, s.points t ≠ some p := fun t p hp => not_started hs (h.started t p hp)
    exact ⟨fun _ t p hp => absurd hp (hno t p), fun _ t p hp => absurd hp (hno t p)⟩
  | load hm hd =>
    refine ⟨fun _ t p hp j hstart hlt => ?_, fun hm' => absurd rfl hm'⟩
    rw [(submit_points hp).2] at hlt
    exact absurd hlt (not_lt.mpr hstart)
  | run hm hi =>
    refine ⟨fun hm' => (by cases hm'), fun _ t p hp => ?_⟩
    obtain ⟨ht, rfl⟩ := submit_points hp
    rw [lastPut_snoc, completes_of_not_work (by simp), Worker.runWorkload]
    split
    · exact trivial
    · obtain ⟨e, hq⟩ := hi.ended ht
      exact fun j hj => hI.loading hm t _ hq j hj.1 hj.2
  | finish hm hi =>
    refine ⟨fun hm' => (by cases hm'), fun _ t p hp => ?_⟩
    rw [lastPut_snoc, completes_of_not_work (by simp)]
    exact hI.running (by simp [hm]) t p hp
  | @work t a p p' hp hs =>
    refine mapInv_work h hL hI hp hs (hok.call_of_fails hp)
      (fun hm => hL'.loads hm t p' (Function.update_self ..)) ?_
    rintro k v r hc rfl hv
    exact hr t k v r rfl (by rw [call, hp, Option.bind_some, hc]) hv

/-- A worker of the run phase that ends by an exception leaves the map to the others. -/
theorem MapInv.raises (hI : s.MapInv args tr) (hm : s.main ≠ .loading) {t : ℕ} {a : Act}
    {p : Point} (hp : s.points t = some p) (hc : p.completes a = none) :
    MapInv args (tr ++ [(s, .work t a)])
      { s with points := Function.update s.points t (some (.ended .raised)) } := by
  refine ⟨fun hm' => absurd hm' hm, fun _ u q hq => ?_⟩
  rw [lastPut_snoc, completes_of_work hp, hc]
  rcases points_work hq with ⟨rfl, rfl⟩ | ⟨-, hq⟩
  · exact fun line => by simp
  · exact hI.running hm u q hq

theorem mapInv_step (h : s.Sound args) (hL : s.LoadInv args tr) (hI : s.MapInv args tr)
    (halone : ∀ t k, s.call t = some (.get k) → Alone tr s t k) (hok : s.Succeeds l)
    (hmap : AnswersLikeMap (tr ++ [(s, l)])) (hstep : s.step args l = some s') :
    s'.MapInv args (tr ++ [(s, l)]) := by
  refine mapInv_next h hL hI hok hstep ?_
  rintro t k v r rfl hcall hv
  exact hmap tr s t r [] k v rfl hcall (halone t k hcall) hv

theorem mapInv_of_run (h : Run (step args) Succeeds init tr s) (hmap : AnswersLikeMap tr) :
    s.MapInv args tr := by
  refine h.invariant (I := fun tr s => AnswersLikeMap tr → s.MapInv args tr)
    (fun _ => ⟨fun hm => (by cases hm), fun _ t p hp => (by cases hp)⟩)
    (fun tr s l s' hrun hok hs ih hmap => ?_) hmap
  exact mapInv_step (sound_of_run hrun) (loadInv_of_run hrun) (ih hmap.of_snoc) (alone_of_run hrun)
    hok hmap hs

/-- Over a store that answers like a map no worker prints an error. -/
theorem no_false_alarm (h : Run (step args) Succeeds init tr s) (hmap : AnswersLikeMap tr) (t : ℕ)
    (line : String) : s.points t ≠ some (.ended (.printed line)) := by
  intro hp
  by_cases hm : s.main = .loading
  · exact (loadInv_of_run h).loads hm t _ hp
  · exact (mapInv_of_run h hmap).running hm t _ hp line rfl

/-- If this step answers a get, it answers with what the map holds. -/
def RepliesFrom (L : ℤ → Option ℤ) (e : Driver × Label) : Prop :=
  match e.2 with
  | .work t (.reply r) =>
    match e.1.call t with
    | some (.get k) => ∀ v ∈ L k, r = pairText k v
    | _ => True
  | _ => True

instance (L : ℤ → Option ℤ) (e : Driver × Label) : Decidable (RepliesFrom L e) := by
  unfold RepliesFrom
  split
  · split <;> infer_instance
  · infer_instance

/-- A store that always answers with the last completed put answers like a map. -/
theorem answersLikeMap_of_forall
    (h : ∀ (i : ℕ) (hi : i < tr.length), RepliesFrom (lastPut (tr.take i)) tr[i]) :
    AnswersLikeMap tr := by
  rintro pre s t r post k v rfl hc - hv
  have hi := h pre.length (by simp)
  rw [List.take_left, List.getElem_append_right (le_refl _)] at hi
  simp only [Nat.sub_self, List.getElem_cons_zero, RepliesFrom, hc] at hi
  exact hi v hv

/-- Two threads that check one request each. -/
def twoThreads : Args where
  numKeys := 2
  numThreads := 2
  numRequests := 2
  putRatio := 50
  testConsistency := 1
  crashServer := 0
  addServer := 0
  removeServer := 0

def twoThreadsRun : List Label :=
  [.reply "0,1", .reply "",
    .shuffle { keys := [1, 0], loadVals := [0, 1], runVals := [2, 3] },
    .work 0 .step, .work 1 .step, .work 1 (.reply "Success 0=1"), .work 0 (.reply "Success 1=0"),
    .work 0 .step, .work 1 .step, .step,
    .work 0 (.choose 0), .work 1 (.choose 1), .work 0 (.choose 7), .work 1 (.choose 8),
    .work 0 (.reply "Success 1=7"), .work 1 (.reply "Success 0=8"),
    .work 1 (.reply "0:8"), .work 0 (.reply "1:7"), .work 0 .step, .work 1 .step, .step]

theorem no_false_alarm_twoThreads : ∃ tr s, Run (step twoThreads) Succeeds init tr s ∧
    AnswersLikeMap tr ∧ s.main = .ended .returned ∧
    ∀ t line, s.points t ≠ some (.ended (.printed line)) := by
  have hexec : (exec (step twoThreads) init twoThreadsRun).map Driver.main =
      some (.ended .returned) := by decide +kernel
  obtain ⟨s, hrun, hm⟩ := Run.exists_of_exec Succeeds hexec (by decide +kernel)
  have hmap : AnswersLikeMap (traceOf (step twoThreads) init twoThreadsRun) :=
    answersLikeMap_of_forall (by decide +kernel)
  exact ⟨_, s, hrun, hmap, hm, no_false_alarm hrun hmap⟩

end Driver

end RunCluster
end ReplicatedStore
