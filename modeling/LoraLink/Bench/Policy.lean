import LoraLink.Bench.Scheduler
import Mathlib.Tactic.Ring
import Mathlib.Tactic.Linarith.Frontend

/-!
# What the scheduler of the mixed bench promises

A run is a list of calls on a fresh scheduler, of items whose types are in the table and whose order numbers differ
pairwise.

- `extreme_spec`: the item that is chosen is there, no other one comes before it, and the rest is the list without it;
- `Ready`: what holds of the scheduler before the calls that are still to come; `Ready.push`, `Ready.pop`: every call
  keeps it;
- `Stores`: what a push does with a full queue and with one that is not full; `Serves`: what a pop hands out;
- `scheduler_policy`: all of it for every run, and the account of the items pushed.
-/

namespace LoraLink.Bench

open Application

variable {D : Type} [DecidableEq D]

/-! ## The extreme of a list -/

section Extreme

omit [DecidableEq D]

/-- An order without cycles in which two items that come before neither are alike. -/
structure Ranks (before : WorkItem D → WorkItem D → Bool) : Prop where
  asymm : ∀ x y, before x y → ¬ before y x
  trans : ∀ x y z, ¬ before x y → ¬ before y z → ¬ before x z

theorem ranks_evictedBefore : Ranks (fun item other : WorkItem D => item.EvictedBefore other) where
  asymm x y := by
    rw [decide_eq_true_eq, decide_eq_true_eq, WorkItem.EvictedBefore, WorkItem.EvictedBefore]
    omega
  trans x y z := by
    rw [decide_eq_true_eq, decide_eq_true_eq, decide_eq_true_eq, WorkItem.EvictedBefore, WorkItem.EvictedBefore,
      WorkItem.EvictedBefore]
    omega

theorem ranks_servedBefore : Ranks (fun item other : WorkItem D => item.ServedBefore other) where
  asymm x y := by
    rw [decide_eq_true_eq, decide_eq_true_eq, WorkItem.ServedBefore, WorkItem.ServedBefore]
    grind
  trans x y z := by
    rw [decide_eq_true_eq, decide_eq_true_eq, decide_eq_true_eq, WorkItem.ServedBefore, WorkItem.ServedBefore,
      WorkItem.ServedBefore]
    grind

/-- Of two items with different order numbers one comes before the other. -/
theorem evictedBefore_of_not {item other : WorkItem D} (h : ¬ other.EvictedBefore item)
    (hdiffer : other.order ≠ item.order) :
    item.EvictedBefore other := by
  rw [WorkItem.EvictedBefore] at h ⊢
  omega

theorem servedBefore_of_not {item other : WorkItem D} (h : ¬ other.ServedBefore item)
    (hdiffer : other.order ≠ item.order) :
    item.ServedBefore other := by
  rw [WorkItem.ServedBefore] at h ⊢
  grind

/-- No item comes before the one that is found: the others are the list without its index. -/
theorem extreme_spec {before : WorkItem D → WorkItem D → Bool} (hranks : Ranks before) {items : List (WorkItem D)}
    (hne : items ≠ []) : ∃ index best, Scheduler.extreme before items = some (index, best) ∧
      items.Perm (best :: items.eraseIdx index) ∧ ∀ other ∈ items, ¬ before other best := by
  induction items with
  | nil => exact absurd rfl hne
  | cons item items ih =>
    have hself : ¬ before item item := fun h => hranks.asymm item item h h
    obtain rfl | hrest := eq_or_ne items []
    · exact ⟨0, item, rfl, List.Perm.refl _, by simpa using hself⟩
    obtain ⟨index, best, hfound, hperm, hbest⟩ := ih hrest
    by_cases hbefore : before best item
    · refine ⟨index + 1, best, by simp only [Scheduler.extreme, hfound, hbefore, if_true], ?_, ?_⟩
      · exact (hperm.cons item).trans (List.Perm.swap ..)
      · exact List.forall_mem_cons.mpr ⟨hranks.asymm _ _ hbefore, hbest⟩
    · refine ⟨0, item, by simp only [Scheduler.extreme, hfound, hbefore]; rfl, List.Perm.refl _, ?_⟩
      exact List.forall_mem_cons.mpr ⟨hself, fun other hother => hranks.trans _ _ _ (hbest other hother) hbefore⟩

end Extreme

/-! ## What holds between the calls -/

/-- The items that a list of calls pushes. -/
def pushed (calls : List (Call D)) : List (WorkItem D) :=
  calls.filterMap fun
    | .push item => some item
    | .pop _ => none

omit [DecidableEq D] in
@[simp] theorem pushed_nil : pushed ([] : List (Call D)) = [] := rfl

omit [DecidableEq D] in
@[simp] theorem pushed_push (item : WorkItem D) (calls : List (Call D)) :
    pushed (.push item :: calls) = item :: pushed calls := rfl

omit [DecidableEq D] in
@[simp] theorem pushed_pop (now : ℚ) (calls : List (Call D)) : pushed (.pop now :: calls) = pushed calls := rfl

/-- The scheduler before the calls that are still to come. -/
structure Ready (limit : Nat) (calls : List (Call D)) (s : Scheduler D) : Prop where
  limit_eq : s.limit = limit
  bounded : s.items.length ≤ limit
  highWater : s.highWater ≤ limit
  single : ∀ direction, s.items.countP (·.sampleOf direction) ≤ 1
  distinct : ((s.items ++ pushed calls).map (·.order)).Nodup
  table : ∀ item ∈ s.items ++ pushed calls, (priority item.frame.typ).isSome

/-- What a push replaces. -/
def replaces (item queued : WorkItem D) : Bool := item.frame.typ = telemetry ∧ queued.sampleOf item.direction

/-- Every item that was pushed and not handed out: it waits, or one of the counters has it. -/
def Scheduler.accounted (s : Scheduler D) : Nat :=
  s.items.length + s.queueDrops + s.telemetryReplaced + s.staleRtcmDrops

/-- What a push does: `retained` are the items that it does not replace. -/
inductive Stores (limit : Nat) (retained : List (WorkItem D)) (item : WorkItem D) : Bool → List (WorkItem D) → Prop
  | appends : retained.length < limit → Stores limit retained item true (retained ++ [item])
  | evicts (victim : WorkItem D) (rest : List (WorkItem D)) : retained.length = limit →
      retained.Perm (victim :: rest) → rest.Sublist retained → item.rank < victim.rank →
      (∀ other ∈ rest, victim.EvictedBefore other) →
      Stores limit retained item true (rest ++ [item])
  | refuses : retained.length = limit → (∀ other ∈ retained, other.rank ≤ item.rank) →
      Stores limit retained item false retained

/-- What a pop does: `retained` are the items that are not stale. -/
inductive Serves (retained : List (WorkItem D)) : Option (WorkItem D) → List (WorkItem D) → Prop
  | empty : retained = [] → Serves retained none []
  | serves (item : WorkItem D) (rest : List (WorkItem D)) : retained.Perm (item :: rest) → rest.Sublist retained →
      (∀ other ∈ rest, item.ServedBefore other) → Serves retained (some item) rest

/-! ## Looking up the table -/

omit [DecidableEq D] in
theorem priority_eq_ok {item : WorkItem D} (h : (priority item.frame.typ).isSome) : item.priority = .ok item.rank := by
  obtain ⟨p, hp⟩ := Option.isSome_iff_exists.mp h
  simp [WorkItem.priority, WorkItem.rank, hp]

omit [DecidableEq D] in
theorem lookUp_eq_ok {items : List (WorkItem D)} (h : ∀ item ∈ items, (priority item.frame.typ).isSome) :
    Scheduler.lookUp items = .ok () := by
  induction items with
  | nil => rfl
  | cons item items ih =>
    have hrest := ih fun other hother => h other (List.mem_cons_of_mem _ hother)
    simp only [Scheduler.lookUp, List.forM_eq_forM, List.forM_cons] at hrest ⊢
    rw [priority_eq_ok (h item (List.mem_cons_self ..))]
    exact hrest

omit [DecidableEq D] in
theorem worstIndex_eq {items : List (WorkItem D)} (hne : items ≠ [])
    (h : ∀ item ∈ items, (priority item.frame.typ).isSome) :
    ∃ index victim, Scheduler.worstIndex items = .ok (index, victim) ∧ items.Perm (victim :: items.eraseIdx index) ∧
      ∀ other ∈ items, ¬ other.EvictedBefore victim := by
  obtain ⟨index, victim, hfound, hperm, hmax⟩ := extreme_spec ranks_evictedBefore hne
  refine ⟨index, victim, ?_, hperm, by simpa using hmax⟩
  simp only [Scheduler.worstIndex, lookUp_eq_ok h, hfound]
  rfl

omit [DecidableEq D] in
theorem bestIndex_eq {items : List (WorkItem D)} (hne : items ≠ [])
    (h : ∀ item ∈ items, (priority item.frame.typ).isSome) :
    ∃ index item, Scheduler.bestIndex items = .ok (index, item) ∧ items.Perm (item :: items.eraseIdx index) ∧
      ∀ other ∈ items, ¬ other.ServedBefore item := by
  obtain ⟨index, item, hfound, hperm, hmin⟩ := extreme_spec ranks_servedBefore hne
  refine ⟨index, item, ?_, hperm, by simpa using hmin⟩
  simp only [Scheduler.bestIndex, lookUp_eq_ok h, hfound]
  rfl

/-! ## A push -/

omit [DecidableEq D] in
/-- What a push leaves is a part of what there was and the new item, in the old order. -/
theorem Stores.sublist {limit : Nat} {retained after : List (WorkItem D)} {item : WorkItem D} {ok : Bool}
    (h : Stores limit retained item ok after) : after.Sublist (retained ++ [item]) := by
  cases h with
  | appends => exact List.Sublist.refl _
  | evicts victim rest _ _ hsub => exact hsub.append_right _
  | refuses => exact List.sublist_append_left ..

omit [DecidableEq D] in
theorem Stores.length_le {limit : Nat} {retained after : List (WorkItem D)} {item : WorkItem D} {ok : Bool}
    (h : Stores limit retained item ok after) : after.length ≤ limit := by
  cases h with
  | appends hfree =>
    simp only [List.length_append, List.length_singleton]
    exact hfree
  | evicts victim rest hfull hperm =>
    have hlength := hperm.length_eq
    simp only [List.length_cons, List.length_append, List.length_nil] at hlength ⊢
    omega
  | refuses hfull => exact hfull.le

omit [DecidableEq D] in
/-- Items of distinct order numbers: a first or last one is so strictly. -/
theorem order_ne {items rest : List (WorkItem D)} {item other : WorkItem D} (hdistinct : (items.map (·.order)).Nodup)
    (hperm : items.Perm (item :: rest)) (hother : other ∈ rest) : other.order ≠ item.order := by
  have hnodup : ((item :: rest).map (·.order)).Nodup := (hperm.map _).nodup_iff.mp hdistinct
  intro heq
  exact (List.nodup_cons.mp hnodup).1 (List.mem_map.mpr ⟨other, hother, heq⟩)

omit [DecidableEq D] in
/-- The part of `push` behind the first loop, with room for one item at least. -/
theorem insert_stores {s : Scheduler D} {item : WorkItem D} (hlimit : 1 ≤ s.limit) (hbounded : s.items.length ≤ s.limit)
    (hdistinct : (s.items.map (·.order)).Nodup) (htable : ∀ other ∈ item :: s.items, (priority other.frame.typ).isSome) :
    ∃ ok, (s.insert item).1 = .ok ok ∧ Stores s.limit s.items item ok (s.insert item).2.items ∧
      (s.insert item).2.accounted = s.accounted + 1 ∧ (s.insert item).2.limit = s.limit ∧
      (s.insert item).2.highWater ≤ max s.highWater s.limit := by
  by_cases hfree : s.items.length < s.limit
  · refine ⟨true, ?_⟩
    simp only [Scheduler.insert, ge_iff_le, Nat.not_le.mpr hfree, if_false]
    refine ⟨trivial, .appends hfree, ?_, rfl, max_le_max_left _ hfree⟩
    simp only [Scheduler.accounted, Scheduler.append, List.length_append, List.length_singleton]
    omega
  have hfull : s.items.length = s.limit := by omega
  have hne : s.items ≠ [] := by
    intro hnil
    simp only [hnil, List.length_nil] at hfull
    omega
  obtain ⟨index, victim, hworst, hperm, hmax⟩ := worstIndex_eq hne fun other hother =>
    htable other (List.mem_cons_of_mem _ hother)
  have hvictim : victim ∈ s.items := hperm.symm.subset (List.mem_cons_self ..)
  have hitem := priority_eq_ok (htable item (List.mem_cons_self ..))
  have hworstRank := priority_eq_ok (htable victim (List.mem_cons_of_mem _ hvictim))
  by_cases hrank : item.rank < victim.rank
  · have hlength := hperm.length_eq
    refine ⟨true, ?_⟩
    simp only [Scheduler.insert, ge_iff_le, hfull, le_refl, if_true, hworst, hitem, hworstRank, hrank]
    refine ⟨trivial, .evicts victim _ hfull hperm (List.eraseIdx_sublist ..) hrank fun other hother => ?_, ?_, rfl, ?_⟩
    · exact evictedBefore_of_not (hmax other (List.mem_of_mem_eraseIdx hother)) (order_ne hdistinct hperm hother)
    · simp only [Scheduler.accounted, Scheduler.append, Scheduler.countDrop, List.length_append, List.length_singleton]
      simp only [List.length_cons] at hlength
      omega
    · simp only [Scheduler.append, Scheduler.countDrop]
      simp only [List.length_cons] at hlength
      omega
  · refine ⟨false, ?_⟩
    simp only [Scheduler.insert, ge_iff_le, hfull, le_refl, if_true, hworst, hitem, hworstRank, hrank, if_false]
    refine ⟨trivial, .refuses hfull fun other hother => ?_, ?_, rfl, le_max_left ..⟩
    · have hlast := hmax other hother
      rw [WorkItem.EvictedBefore] at hlast
      omega
    · simp only [Scheduler.accounted, Scheduler.countDrop]
      omega

/-- The first loop of `push`, also where it is skipped. -/
theorem push_eq (s : Scheduler D) (item : WorkItem D) :
    s.push item = ({ s with
      items := s.items.filter fun queued => ¬ replaces item queued
      telemetryReplaced := s.telemetryReplaced + s.items.countP (replaces item) } : Scheduler D).insert item := by
  by_cases htyp : item.frame.typ = telemetry
  · have hreplaces : replaces item = fun queued => queued.sampleOf item.direction := by simp [funext_iff, replaces, htyp]
    simp [Scheduler.push, Scheduler.replaceTelemetry, hreplaces, htyp]
  · have hreplaces : replaces item = fun _ => false := by simp [funext_iff, replaces, htyp]
    simp [Scheduler.push, hreplaces, htyp]

theorem countP_not_replaces (s : Scheduler D) (item : WorkItem D) :
    s.items.countP (replaces item) + (s.items.filter fun queued => ¬ replaces item queued).length = s.items.length := by
  simpa [List.countP_eq_length_filter] using (List.length_eq_length_filter_add (l := s.items) (replaces item)).symm

/-- A push keeps what holds between the calls. -/
theorem Ready.push {limit : Nat} {calls : List (Call D)} {s : Scheduler D} {item : WorkItem D} (hlimit : 1 ≤ limit)
    (h : Ready limit (.push item :: calls) s) :
    Ready limit calls (s.push item).2 ∧ (s.push item).2.accounted = s.accounted + 1 ∧
      ∃ ok, (s.push item).1 = .ok ok ∧
        Stores limit (s.items.filter fun queued => ¬ replaces item queued) item ok (s.push item).2.items := by
  have hcount := countP_not_replaces s item
  have hsub : (s.items.filter fun queued => ¬ replaces item queued).Sublist s.items := List.filter_sublist
  rw [push_eq]
  set replaced : Scheduler D := { s with
    items := s.items.filter fun queued => ¬ replaces item queued
    telemetryReplaced := s.telemetryReplaced + s.items.countP (replaces item) }
  have hreplaced : replaced.accounted = s.accounted := by
    simp only [replaced, Scheduler.accounted]
    omega
  have hall : (s.items ++ [item]).Sublist (s.items ++ pushed (.push item :: calls)) :=
    List.Sublist.append_left (List.singleton_sublist.mpr (List.mem_cons_self ..)) _
  obtain ⟨ok, hok, hstores, haccounted, hsame, hhigh⟩ := @insert_stores D replaced item
    (h.limit_eq.symm ▸ hlimit) (h.limit_eq.symm ▸ hsub.length_le.trans h.bounded)
    (h.distinct.sublist ((hsub.trans (List.sublist_append_left ..)).map _))
    (fun other hother => h.table other (by
      obtain rfl | hother := List.mem_cons.mp hother
      · exact List.mem_append_right _ (List.mem_cons_self ..)
      · exact List.mem_append_left _ (hsub.subset hother)))
  have hlimitEq : replaced.limit = limit := h.limit_eq
  rw [hlimitEq] at hstores hsame hhigh
  have hafter : ((replaced.insert item).2.items ++ pushed calls).Sublist (s.items ++ pushed (.push item :: calls)) := by
    have hleft := (hstores.sublist.trans (hsub.append_right _)).append_right (pushed calls)
    simpa using hleft
  refine ⟨⟨hsame, hstores.length_le, hhigh.trans (max_le h.highWater le_rfl), fun direction => ?_, ?_, ?_⟩,
    by rw [haccounted, hreplaced], ok, hok, hstores⟩
  · refine (hstores.sublist.countP_le).trans ?_
    rw [List.countP_append]
    by_cases hsample : item.sampleOf direction
    · obtain ⟨htyp, rfl⟩ : item.frame.typ = telemetry ∧ item.direction = direction := by
        simpa [WorkItem.sampleOf] using hsample
      have hnone : replaced.items.countP (·.sampleOf item.direction) = 0 := by
        simp [List.countP_eq_zero, replaced, replaces, htyp]
      rw [hnone]
      exact (Nat.zero_add _).trans_le List.countP_le_length
    · have hother : [item].countP (·.sampleOf direction) = 0 := by simp [hsample]
      rw [hother]
      exact hsub.countP_le.trans (h.single direction)
  · exact h.distinct.sublist (hafter.map _)
  · exact fun other hother => h.table other (hafter.subset hother)

/-! ## A pop -/

/-- A pop keeps what holds between the calls. -/
theorem Ready.pop {limit : Nat} {calls : List (Call D)} {s : Scheduler D} {now : ℚ}
    (h : Ready limit (.pop now :: calls) s) :
    Ready limit calls (s.pop now).2 ∧ ∃ result, (s.pop now).1 = .ok result ∧
      (s.pop now).2.accounted + result.toList.length = s.accounted ∧
      Serves (s.items.filter fun item => ¬ item.stale now) result (s.pop now).2.items := by
  have hsub : (s.items.filter fun item => ¬ item.stale now).Sublist s.items := List.filter_sublist
  have hcount : s.items.countP (·.stale now) + (s.items.filter fun item => ¬ item.stale now).length = s.items.length := by
    simpa [List.countP_eq_length_filter] using (List.length_eq_length_filter_add (l := s.items) (·.stale now)).symm
  -- whatever part of the list is left, what holds between the calls holds of it
  have hpart : ∀ left : List (WorkItem D), left.Sublist s.items →
      Ready limit calls { s.purge now with items := left } := by
    intro left hleft
    have hall := hleft.append_right (pushed calls)
    exact ⟨h.limit_eq, hleft.length_le.trans h.bounded, h.highWater,
      fun direction => hleft.countP_le.trans (h.single direction), h.distinct.sublist (hall.map _),
      fun item hitem => h.table item (hall.subset hitem)⟩
  by_cases hempty : (s.items.filter fun item => ¬ item.stale now) = []
  · have hpurged : (s.purge now).items = [] := hempty
    simp only [Scheduler.pop, hpurged, if_true]
    refine ⟨hpart _ hsub, none, rfl, ?_, .empty hempty⟩
    simp only [hempty, List.length_nil] at hcount
    simp only [Scheduler.accounted, Scheduler.purge, hempty, List.length_nil, Option.toList_none]
    omega
  · have hpurged : (s.purge now).items ≠ [] := hempty
    obtain ⟨index, item, hbest, hperm, hmin⟩ := bestIndex_eq hempty fun item hitem =>
      h.table item (List.mem_append_left _ (hsub.subset hitem))
    have hbest' : Scheduler.bestIndex (s.purge now).items = .ok (index, item) := hbest
    have hdistinct := h.distinct.sublist ((hsub.trans (List.sublist_append_left ..)).map _)
    have hrest := (List.eraseIdx_sublist (s.items.filter fun item => ¬ item.stale now) index)
    have hlength := hperm.length_eq
    simp only [Scheduler.pop, hpurged, if_false, hbest']
    refine ⟨hpart _ (hrest.trans hsub), some item, rfl, ?_, .serves item _ hperm hrest fun other hother => ?_⟩
    · simp only [List.length_cons] at hlength
      simp only [Scheduler.accounted, Scheduler.purge, Option.toList_some, List.length_singleton]
      omega
    · exact servedBefore_of_not (hmin other (List.mem_of_mem_eraseIdx hother)) (order_ne hdistinct hperm hother)

/-! ## Runs -/

/-- What a call hands out. -/
def served (m : Move (Scheduler D) (Call D)) : Option (WorkItem D) :=
  match m.input with
  | .push _ => none
  | .pop now => (m.before.pop now).1.toOption.join

/-- What a call does to the queue. -/
def Follows (limit : Nat) (m : Move (Scheduler D) (Call D)) : Prop :=
  match m.input with
  | .push item => ∃ ok, (m.before.push item).1 = .ok ok ∧
      Stores limit (m.before.items.filter fun queued => ¬ replaces item queued) item ok m.after.items ∧
      ((∃ queued ∈ m.before.items, replaces item queued) → ok = true ∧ item ∈ m.after.items)
  | .pop now => ∃ result, (m.before.pop now).1 = .ok result ∧
      Serves (m.before.items.filter fun item => ¬ item.stale now) result m.after.items ∧
      ∀ item ∈ result, ¬ (item.frame.typ = rtcmFragment ∧ now - item.createdAt > 9 / 10)

/-- A sample that replaces another one finds room. -/
theorem Stores.of_replaces {limit : Nat} {s : Scheduler D} {item queued : WorkItem D} {after : List (WorkItem D)}
    {ok : Bool} (hbounded : s.items.length ≤ limit) (hqueued : queued ∈ s.items) (hreplaces : replaces item queued)
    (h : Stores limit (s.items.filter fun queued => ¬ replaces item queued) item ok after) :
    ok = true ∧ item ∈ after := by
  have hsome : 0 < s.items.countP (replaces item) := List.countP_pos_iff.mpr ⟨queued, hqueued, hreplaces⟩
  have hcount := countP_not_replaces s item
  cases h with
  | appends => exact ⟨rfl, List.mem_append_right _ (List.mem_singleton_self _)⟩
  | evicts victim rest hfull => omega
  | refuses hfull => omega

omit [DecidableEq D] in
theorem Serves.mem {retained after : List (WorkItem D)} {item : WorkItem D} (h : Serves retained (some item) after) :
    item ∈ retained := by
  cases h with
  | serves _ rest hperm => exact hperm.symm.subset (List.mem_cons_self ..)

/-- One call. -/
theorem Ready.call {limit : Nat} {call : Call D} {calls : List (Call D)} {s : Scheduler D} (hlimit : 1 ≤ limit)
    (h : Ready limit (call :: calls) s) :
    Ready limit calls (step call s) ∧ Follows limit ⟨s, call, step call s⟩ ∧
      (pushed [call]).length + s.accounted =
        (served ⟨s, call, step call s⟩).toList.length + (step call s).accounted := by
  cases call with
  | push item =>
    obtain ⟨hready, haccounted, ok, hok, hstores⟩ := h.push hlimit
    refine ⟨hready, ⟨ok, hok, hstores, fun ⟨_, hqueued, hreplaces⟩ => hstores.of_replaces h.bounded hqueued hreplaces⟩,
      ?_⟩
    simp only [pushed_push, pushed_nil, List.length_singleton, served, Option.toList_none, List.length_nil, step]
    omega
  | pop now =>
    obtain ⟨hready, result, hresult, haccounted, hserves⟩ := h.pop
    refine ⟨hready, ⟨result, hresult, hserves, fun item hitem => ?_⟩, ?_⟩
    · obtain rfl : result = some item := hitem
      have hfresh : ¬ item.stale now := by simpa using (List.mem_filter.mp hserves.mem).2
      simpa only [WorkItem.stale, decide_eq_true_eq] using hfresh
    · have hserved : served ⟨s, .pop now, step (.pop now) s⟩ = result := by
        simp [served, hresult, Except.toOption]
      rw [hserved]
      simp only [pushed_pop, pushed_nil, List.length_nil, step]
      omega

/-- Every run, from what holds before its first call. -/
theorem Ready.calls {limit : Nat} {calls : List (Call D)} {s : Scheduler D} (hlimit : 1 ≤ limit)
    (h : Ready limit calls s) :
    Ready limit [] (run step s calls) ∧ (∀ m ∈ trace step s calls, Follows limit m) ∧
      (pushed calls).length + s.accounted =
        ((trace step s calls).filterMap served).length + (run step s calls).accounted := by
  induction calls generalizing s with
  | nil => exact ⟨h, fun m hm => absurd hm List.not_mem_nil, by simp [trace, run]⟩
  | cons call calls ih =>
    obtain ⟨hready, hfollows, hbalance⟩ := h.call hlimit
    obtain ⟨hlast, hrest, hsum⟩ := ih hready
    refine ⟨hlast, fun m hm => ?_, ?_⟩
    · obtain rfl | hm := List.mem_cons.mp hm
      · exact hfollows
      · exact hrest m hm
    · have hpushed : (pushed (call :: calls)).length = (pushed [call]).length + (pushed calls).length := by
        rw [← List.length_append, pushed, pushed, pushed, ← List.filterMap_append]
        rfl
      have hserved : ((trace step s (call :: calls)).filterMap served).length =
          (served ⟨s, call, step call s⟩).toList.length +
            ((trace step (step call s) calls).filterMap served).length := by
        rw [trace, List.filterMap_cons]
        cases served ⟨s, call, step call s⟩ with
        | none => simp
        | some item => simp [Nat.add_comm]
      rw [hpushed, hserved, run]
      omega

/-- The scheduler's policy, over every run on a fresh one: it stays within its limit, with one telemetry sample for each
direction at most; every push and every pop does what it should, and every item pushed is accounted for. -/
theorem scheduler_policy {limit : Nat} (hlimit : 1 ≤ limit) {calls : List (Call D)}
    (hdistinct : ((pushed calls).map (·.order)).Nodup)
    (htable : ∀ item ∈ pushed calls, (priority item.frame.typ).isSome) :
    let start : Scheduler D := { limit := limit }
    let s := run step start calls
    (s.items.length ≤ limit ∧ s.highWater ≤ limit ∧ ∀ direction, s.items.countP (·.sampleOf direction) ≤ 1) ∧
      (∀ m ∈ trace step start calls, Follows limit m) ∧
      (pushed calls).length = ((trace step start calls).filterMap served).length + s.items.length + s.queueDrops +
        s.telemetryReplaced + s.staleRtcmDrops := by
  intro start s
  have hstart : Ready limit calls start :=
    ⟨rfl, Nat.zero_le _, Nat.zero_le _, fun _ => Nat.zero_le _, hdistinct, htable⟩
  obtain ⟨hlast, hfollows, hbalance⟩ := hstart.calls hlimit
  refine ⟨⟨hlast.bounded, hlast.highWater, hlast.single⟩, hfollows, ?_⟩
  have hzero : start.accounted = 0 := rfl
  have haccounted : (run step start calls).accounted =
      s.items.length + s.queueDrops + s.telemetryReplaced + s.staleRtcmDrops := rfl
  omega

/-- A fragment, two samples of one direction, a stop that finds the queue full, and two pops. -/
def mixedCalls : List (Call Bool) :=
  [.push ⟨⟨rtcmFragment, 1, 1, 0, [120]⟩, true, 0, 1, some (1, 1)⟩,
    .push ⟨⟨telemetry, 2, 1, 0, [120]⟩, false, 0, 2, none⟩, .push ⟨⟨telemetry, 2, 2, 0, [121]⟩, false, 0, 3, none⟩,
    .push ⟨⟨stopRequest, 1, 2, 0, []⟩, true, 0, 4, none⟩,
    .pop 0, .pop 1]

theorem scheduler_policy_mixedCalls :
    let s := run step { limit := 2 } mixedCalls
    4 = ((trace step { limit := 2 } mixedCalls).filterMap served).length + s.items.length + s.queueDrops +
      s.telemetryReplaced + s.staleRtcmDrops :=
  (@scheduler_policy Bool _ 2 (by decide) mixedCalls (by decide) (by decide)).2.2

example : let s := run step { limit := 2 } mixedCalls
    (s.items.length, s.queueDrops, s.telemetryReplaced, s.staleRtcmDrops) = (0, 1, 1, 0) := by decide +kernel

end LoraLink.Bench
