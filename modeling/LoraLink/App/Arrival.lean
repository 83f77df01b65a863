import LoraLink.App.Replay
import Mathlib.Data.List.Induction

/-!
# Frames that arrive in any order

- `Shelf.Path.placed`: an assembly keeps its place among the others as long as nothing is done to it;
- `Reassembler.reassembly_completes`: the fragments of a valid frame, added in any order and any number of times, give the
  frame out once.
-/

namespace LoraLink.Application

namespace Shelf

/-- The event has to do with the key. -/
def Event.Concerns (key : Key) : Event → Prop
  | .started k _ _ | .ended k _ _ _ => k = key
  | .stored f _ _ => keyOf f = key
  | .purged _ => False

/-- An assembly of another key is started. -/
def Event.opensOther (key : Key) : Event → Bool
  | .started k _ _ => decide (k ≠ key)
  | _ => false

/-- How many assemblies of other keys are started. -/
def othersOpened (key : Key) (es : List Event) : Nat := es.countP (Event.opensOther key)

/-- The key is not blocked, and its assembly has at most `n` others behind it. -/
def Placed (key : Key) (item : Assembly) (n : Nat) (s : Shelf) : Prop :=
  s.blocked.lookup key = none ∧ ∃ A B, s.items = A ++ (key, item) :: B ∧ B.length ≤ n

variable {key : Key} {s s₀ : Shelf} {es : List Event} {item : Assembly} {n : Nat}

theorem othersOpened_append (es fs : List Event) :
    othersOpened key (es ++ fs) = othersOpened key es + othersOpened key fs := List.countP_append

theorem Placed.lookup (h : Placed key item n s) (htidy : Tidy s) : s.items.lookup key = some item := by
  obtain ⟨-, A, B, hitems, -⟩ := h
  exact lookup_of_mem htidy.keys (by rw [hitems]; exact List.mem_append_right _ List.mem_cons_self)

theorem Placed.mono {n' : Nat} (h : Placed key item n s) (hle : n ≤ n') : Placed key item n' s := by
  obtain ⟨hopen, A, B, hitems, hB⟩ := h
  exact ⟨hopen, A, B, hitems, hB.trans hle⟩

/-- What is done to other assemblies leaves this one where it is. -/
theorem Placed.on (h : Placed key item n s) {e : Event} (he : s.Allowed e) (hother : ¬ e.Concerns key) :
    Placed key item (n + othersOpened key [e]) (s.on e) := by
  obtain ⟨hopen, A, B, hitems, hB⟩ := h
  cases e with
  | started k p now =>
    refine ⟨hopen, A, B ++ [(k, opened p now)], ?_, ?_⟩
    · rw [Shelf.on, hitems, List.append_assoc, List.cons_append]
    · have hk : k ≠ key := hother
      simpa [othersOpened, Event.opensOther, hk] using hB
  | stored f p now =>
    obtain ⟨-, item', hitem', -⟩ := he
    rw [items_stored _ _ hitem']
    have hne : key ≠ keyOf f := Ne.symm hother
    have hmem : keyOf f ∈ (A ++ (key, item) :: B).map Prod.fst := hitems ▸ List.mem_map_of_mem (mem_of_lookup hitem')
    obtain ⟨A', B', hset, hlength⟩ := setKey_other hne hmem _
    refine ⟨hopen, A', B', ?_, ?_⟩
    · rw [hitems]
      exact hset
    · rw [hlength]
      exact hB.trans (Nat.le_add_right _ _)
  | ended k startedAt now how =>
    have hne : key ≠ k := Ne.symm hother
    refine ⟨?_, popKey A k, popKey B k, ?_, (List.length_filter_le _ _).trans (hB.trans (Nat.le_add_right _ _))⟩
    · rw [lookup_eq_none] at hopen ⊢
      intro hmem
      have hall := ((List.drop_sublist _ _).map Prod.fst).subset hmem
      rw [List.map_append, keys_popKey, List.mem_append, List.mem_filter] at hall
      rcases hall with hall | hall
      · exact hopen hall.1
      · exact hne (by simpa using hall)
    · rw [items_ended, hitems, popKey, List.filter_append, List.filter_cons, if_pos (by simpa using hne)]
      rfl
  | purged now =>
    refine ⟨?_, A, B, hitems, hB⟩
    rw [lookup_eq_none] at hopen ⊢
    exact fun hmem => hopen ((List.filter_sublist.map Prod.fst).subset hmem)

theorem Path.placed (h : Path s₀ es s) (h₀ : Placed key item n s₀) (hother : ∀ e ∈ es, ¬ e.Concerns key) :
    Placed key item (n + othersOpened key es) s := by
  induction h with
  | nil => exact h₀
  | snoc _ he ih =>
    rw [othersOpened_append, ← Nat.add_assoc]
    refine (ih fun e hmem => hother e (List.mem_append_left _ hmem)).on he ?_
    exact hother _ (List.mem_append_right _ (List.mem_singleton.mpr rfl))

/-- The oldest of eight assemblies has seven others behind it. -/
theorem Placed.full (h : Placed key item n s) (htidy : Tidy s) {item' : Assembly}
    (hhead : s.items.head? = some (key, item')) (hfull : s.items.length = maxReassemblies) : maxReassemblies ≤ n + 1 := by
  obtain ⟨-, A, B, hitems, hB⟩ := h
  have hkeys := htidy.keys
  rw [hitems] at hhead hfull hkeys
  cases A with
  | nil =>
    simp only [List.nil_append, List.length_cons] at hfull
    omega
  | cons a A =>
    obtain rfl : a = (key, item') := by simpa using hhead
    simp at hkeys

end Shelf

open LoraLink.Application.Shelf (Event)

namespace Reassembler

/-! ## Calls for other keys -/

variable {r : Reassembler} {key : Key} {item : Assembly} {p : Fragment} {f : Frame} {now : ℚ} {e : Event} {n : Nat}

theorem opensOther_expire (key : Key) (now : ℚ) (r : Reassembler) : Shelf.othersOpened key (r.expireEvents now) = 0 := by
  apply List.countP_eq_zero.mpr
  intro e he
  rcases List.mem_append.mp he with he | he
  · obtain ⟨q, -, rfl⟩ := List.mem_map.mp he
    exact Bool.false_ne_true
  · obtain rfl := List.mem_singleton.mp he
    exact Bool.false_ne_true

theorem concerns_expire (htidy : r.shelf.Tidy) (h : r.items.lookup key = some item)
    (hfresh : now - item.startedAt < reassemblyTimeoutS) : ∀ e ∈ r.expireEvents now, ¬ e.Concerns key := by
  rintro e he hconcerns
  rcases List.mem_append.mp he with he | he
  · obtain ⟨q, hq, rfl⟩ := List.mem_map.mp he
    obtain ⟨hmem, hold⟩ := List.mem_filter.mp hq
    obtain rfl : q.1 = key := hconcerns
    have hlookup : r.items.lookup q.1 = some q.2 := lookup_of_mem htidy.keys hmem
    rw [h] at hlookup
    obtain rfl : item = q.2 := by simpa using hlookup
    exact absurd (of_decide_eq_true hold) (not_le.mpr hfresh)
  · obtain rfl := List.mem_singleton.mp he
    exact hconcerns

/-- Nothing but the fresh assembly of the key keeps its place when the old ones are given up. -/
theorem expire_placed (htidy : r.shelf.Tidy) (h : r.shelf.Placed key item n)
    (hfresh : now - item.startedAt < reassemblyTimeoutS) : (r.expire now).2.shelf.Placed key item n := by
  have hplaced := Shelf.Path.placed (expire_path htidy now) h (concerns_expire htidy (h.lookup htidy) hfresh)
  rwa [opensOther_expire] at hplaced

theorem concerns_finish (h : e ∈ finishEvents key item p now) : e.Concerns key := by
  unfold finishEvents at h
  split at h
  · cases h
  · split at h
    · obtain rfl := List.mem_singleton.mp h
      rfl
    · obtain rfl := List.mem_singleton.mp h
      rfl

theorem concerns_store (h : e ∈ storeEvents f item p now) : e.Concerns (keyOf f) := by
  unfold storeEvents at h
  split at h
  · obtain rfl := List.mem_singleton.mp h
    rfl
  · split at h
    · split at h
      · obtain rfl := List.mem_singleton.mp h
        rfl
      · cases h
    · rcases List.mem_cons.mp h with rfl | h
      · rfl
      · split at h
        · cases h
        · exact concerns_finish h

theorem concerns_eq {k k' : Key} (h : e.Concerns k) (h' : e.Concerns k') : k = k' := by
  cases e with
  | started j _ _ => exact Eq.trans (Eq.symm h) h'
  | stored f _ _ => exact Eq.trans (Eq.symm h) h'
  | ended j _ _ _ => exact Eq.trans (Eq.symm h) h'
  | purged _ => exact h.elim

/-- A new assembly of another key takes the place of this one only if seven have been started behind it. -/
theorem concerns_assembly (htidy : r.shelf.Tidy) (h : r.shelf.Placed key item n) (hother : keyOf f ≠ key)
    (hroom : n + Shelf.othersOpened key (r.assemblyEvents (keyOf f) p now) < maxReassemblies) :
    ∀ e ∈ r.assemblyEvents (keyOf f) p now, ¬ e.Concerns key := by
  unfold assemblyEvents at hroom ⊢
  rcases hitem : r.items.lookup (keyOf f) with _ | item'
  · simp only [hitem] at hroom
    rw [Shelf.othersOpened_append] at hroom
    rintro e he hconcerns
    rcases List.mem_append.mp he with he | he
    · unfold evictEvents at he
      split at he
      · cases he
      · rename_i hitems
        split at he
        · rename_i hfull
          obtain rfl := List.mem_singleton.mp he
          obtain rfl := hconcerns
          have hseven := h.full htidy (by simp only [shelf, hitems]; rfl) hfull
          simp [Shelf.othersOpened, Event.opensOther, hother] at hroom
          omega
        · cases he
    · obtain rfl := List.mem_singleton.mp he
      exact hother hconcerns
  · exact fun e he => absurd he List.not_mem_nil

/-- A call that does not add for the key leaves its fresh assembly in its place, as long as fewer than eight others are
started. -/
theorem call_placed (htidy : r.shelf.Tidy) (h : r.shelf.Placed key item n) {c : Call}
    (hother : ∀ f now, c = .add f now → keyOf f ≠ key) (hfresh : c.now - item.startedAt < reassemblyTimeoutS)
    (hroom : n + Shelf.othersOpened key (callEvents c r) < maxReassemblies) :
    (call c r).shelf.Placed key item (n + Shelf.othersOpened key (callEvents c r)) := by
  apply Shelf.Path.placed (call_path htidy c) h
  have hexpire := concerns_expire htidy (h.lookup htidy) hfresh
  cases c with
  | expire now => exact hexpire
  | add f now =>
    have hf : keyOf f ≠ key := hother f now rfl
    have hplaced := expire_placed htidy h hfresh
    have htidy' := (expire_path htidy now).tidy htidy
    intro e he
    rcases List.mem_append.mp he with he | he
    · exact hexpire e he
    · simp only [callEvents, addEvents, Shelf.othersOpened_append] at hroom
      revert hroom he
      rcases parseFragment f with _ | p
      · exact fun he _ => absurd he List.not_mem_nil
      · simp only
        split
        · exact fun he _ => absurd he List.not_mem_nil
        · intro he hroom
          rcases List.mem_append.mp he with he | he
          · rw [Shelf.othersOpened_append] at hroom
            exact concerns_assembly htidy' hplaced hf (by omega) e he
          · exact fun hconcerns => hf (concerns_eq (concerns_store he) hconcerns)

/-! ## The fragments of a frame -/

section Arrival

variable (raw : Bytes) (s id : Int)

/-- The fragment `index` is added by one of the calls. -/
def Has (cs : List Call) (index : Nat) : Prop := ∃ age t, Call.add (piece raw s id age index) t ∈ cs

/-- A fragment is not added by any of the calls. -/
def Missing (cs : List Call) : Prop := ∃ index < fragmentCount raw.length, ¬ Has raw s id cs index

/-- What the assembly of the frame has when the calls have added their fragments. -/
structure Growing (t₀ : ℚ) (cs : List Call) (item : Assembly) : Prop where
  startedAt : item.startedAt = t₀
  header : (item.rtcmType, item.totalLength, item.fragmentCount) =
    (typeBits raw, raw.length, fragmentCount raw.length)
  parts : ∀ q ∈ item.parts, q.1 < fragmentCount raw.length ∧ q.2 = fragmentData raw q.1
  has : ∀ index < fragmentCount raw.length, Has raw s id cs index ↔ index ∈ item.parts.map Prod.fst
  keys : (item.parts.map Prod.fst).Nodup

variable {raw s id} {cs : List Call} {t₀ : ℚ} {age : Int} {index : Nat}

theorem Has.mono {cs' : List Call} (h : Has raw s id cs index) (hsub : cs ⊆ cs') : Has raw s id cs' index := by
  obtain ⟨age, t, hmem⟩ := h
  exact ⟨age, t, hsub hmem⟩

theorem Missing.anti {cs' : List Call} (h : Missing raw s id cs') (hsub : cs ⊆ cs') : Missing raw s id cs := by
  obtain ⟨index, hindex, hnot⟩ := h
  exact ⟨index, hindex, fun hhas => hnot (hhas.mono hsub)⟩

/-- A fragment says which one it is. -/
theorem piece_inj (hvalid : validRtcm3 raw = true) {age' : Int} {index' : Nat} (hage : age < rtcmTransportTtlMs)
    (hindex : index < fragmentCount raw.length) (hindex' : index' < fragmentCount raw.length)
    (h : piece raw s id age index = piece raw s id age' index') : index = index' := by
  have hparse := parse_piece hvalid s id hage hindex
  rw [h] at hparse
  have heq := parse_piece_ok hvalid hindex' hparse
  exact congrArg Fragment.index heq

theorem has_snoc (hvalid : validRtcm3 raw = true) (hage : age < rtcmTransportTtlMs)
    (hindex : index < fragmentCount raw.length) {now : ℚ} {j : Nat} (hj : j < fragmentCount raw.length) :
    Has raw s id (cs ++ [.add (piece raw s id age index) now]) j ↔ Has raw s id cs j ∨ j = index := by
  constructor
  · rintro ⟨age', t, hmem⟩
    rcases List.mem_append.mp hmem with hmem | hmem
    · exact Or.inl ⟨age', t, hmem⟩
    · have heq : piece raw s id age' j = piece raw s id age index := (Call.add.inj (List.mem_singleton.mp hmem)).1
      exact Or.inr (piece_inj hvalid hage hindex hj heq.symm).symm
  · rintro (h | rfl)
    · exact h.mono (List.subset_append_left _ _)
    · exact ⟨age, now, List.mem_append_right _ (List.mem_singleton.mpr rfl)⟩

/-- A call that adds no fragment of the frame. -/
theorem has_other {c : Call} (h : ∀ f now, c = .add f now → keyOf f ≠ (s, id)) (j : Nat) :
    Has raw s id (cs ++ [c]) j ↔ Has raw s id cs j := by
  refine ⟨?_, fun h => h.mono (List.subset_append_left _ _)⟩
  rintro ⟨age, t, hmem⟩
  rcases List.mem_append.mp hmem with hmem | hmem
  · exact ⟨age, t, hmem⟩
  · exact absurd rfl (h _ t (List.mem_singleton.mp hmem).symm)

theorem Growing.other {item : Assembly} (h : Growing raw s id t₀ cs item) {c : Call}
    (hother : ∀ f now, c = .add f now → keyOf f ≠ (s, id)) : Growing raw s id t₀ (cs ++ [c]) item :=
  { h with has := fun j hj => (has_other hother j).trans (h.has j hj) }

/-- Different numbers below `n` are all of them or fewer. -/
theorem length_lt_iff {l : List Nat} {n : Nat} (hnodup : l.Nodup) (hlt : ∀ i ∈ l, i < n) :
    l.length < n ↔ ∃ i < n, i ∉ l := by
  constructor
  · intro hlength
    by_contra hall
    have hsub : List.range n ⊆ l := by
      intro i hi
      by_contra hnot
      exact hall ⟨i, List.mem_range.mp hi, hnot⟩
    have hle := (List.subperm_of_subset List.nodup_range hsub).length_le
    rw [List.length_range] at hle
    omega
  · rintro ⟨i, hi, hnot⟩
    have hsub : i :: l ⊆ List.range n := by
      intro j hj
      rcases List.mem_cons.mp hj with rfl | hj
      · exact List.mem_range.mpr hi
      · exact List.mem_range.mpr (hlt j hj)
    have hle := (List.subperm_of_subset (List.nodup_cons.mpr ⟨hnot, hnodup⟩) hsub).length_le
    rw [List.length_range, List.length_cons] at hle
    omega

theorem missing_nil (hvalid : validRtcm3 raw = true) : Missing raw s id [] := by
  have hlength := le_length_of_validRtcm3 hvalid
  refine ⟨0, ?_, ?_⟩
  · simp only [fragmentCount, rtcmFragmentDataSize]
    omega
  · rintro ⟨age, t, hmem⟩
    cases hmem

/-- An assembly that the frame has just opened. -/
theorem growing_opened (index : Nat) (t₀ : ℚ) :
    Growing raw s id t₀ [] (Shelf.opened (fragmentOf raw index) t₀) := by
  refine ⟨rfl, rfl, fun q hq => absurd hq List.not_mem_nil, fun j _ => ⟨?_, fun h => absurd h List.not_mem_nil⟩,
    List.nodup_nil⟩
  rintro ⟨age, t, hmem⟩
  cases hmem

variable {item : Assembly}

theorem Growing.missing_iff (h : Growing raw s id t₀ cs item) :
    Missing raw s id cs ↔ item.parts.length < fragmentCount raw.length := by
  rw [← List.length_map (f := Prod.fst), length_lt_iff h.keys]
  · constructor
    · rintro ⟨j, hj, hnot⟩
      exact ⟨j, hj, fun hmem => hnot ((h.has j hj).mpr hmem)⟩
    · rintro ⟨j, hj, hnot⟩
      exact ⟨j, hj, fun hhas => hnot ((h.has j hj).mp hhas)⟩
  · rintro j hj
    obtain ⟨q, hq, rfl⟩ := List.mem_map.mp hj
    exact (h.parts q hq).1

/-- The fragment is there already. -/
theorem Growing.duplicate (h : Growing raw s id t₀ cs item) (hvalid : validRtcm3 raw = true)
    (hage : age < rtcmTransportTtlMs) (hindex : index < fragmentCount raw.length)
    (hmem : index ∈ item.parts.map Prod.fst) (now : ℚ) :
    Growing raw s id t₀ (cs ++ [.add (piece raw s id age index) now]) item := by
  refine { h with has := fun j hj => ?_ }
  rw [has_snoc hvalid hage hindex hj, h.has j hj]
  constructor
  · rintro (hj | rfl)
    · exact hj
    · exact hmem
  · exact Or.inl

/-- The fragment is stored. -/
theorem Growing.store (h : Growing raw s id t₀ cs item) (hvalid : validRtcm3 raw = true)
    (hage : age < rtcmTransportTtlMs) (hindex : index < fragmentCount raw.length)
    (hnew : item.parts.lookup index = none) (now : ℚ) :
    Growing raw s id t₀ (cs ++ [.add (piece raw s id age index) now])
      { item with parts := setKey item.parts index (fragmentData raw index) } := by
  have hkeys : (setKey item.parts index (fragmentData raw index)).map Prod.fst =
      item.parts.map Prod.fst ++ [index] := by
    rw [setKey_new hnew, List.map_append]
    rfl
  refine ⟨h.startedAt, h.header, fun q hq => ?_, fun j hj => ?_, ?_⟩
  · rcases mem_of_mem_setKey hq with rfl | hq
    · exact ⟨hindex, rfl⟩
    · exact h.parts q hq
  · rw [has_snoc hvalid hage hindex hj, hkeys, List.mem_append, List.mem_singleton, h.has j hj]
  · rw [hkeys]
    apply List.nodup_append.mpr
    refine ⟨h.keys, by simp, ?_⟩
    rintro j hj j' hj' rfl
    obtain rfl := List.mem_singleton.mp hj'
    exact lookup_eq_none.mp hnew hj

theorem mapM_of_forall {α β : Type} {f : α → Option β} {g : α → β} {l : List α} (h : ∀ a ∈ l, f a = some (g a)) :
    l.mapM f = some (l.map g) := by
  induction l with
  | nil => rfl
  | cons a l ih =>
    rw [List.mapM_cons, h a List.mem_cons_self, ih fun b hb => h b (List.mem_cons_of_mem _ hb)]
    rfl

/-- All fragments are there: the frame is put together, and its key is blocked. -/
theorem Growing.finish (h : Growing raw s id t₀ cs item) (hvalid : validRtcm3 raw = true)
    (hall : ¬ Missing raw s id cs) (r : Reassembler) (index : Nat) :
    (r.finish (s, id) item (fragmentOf raw index)).1 = .ok (some raw) ∧
      Shelf.Shut (s, id) (Shelf.blockUntil t₀) [] (r.finish (s, id) item (fragmentOf raw index)).2.shelf := by
  have hlookup : ∀ j ∈ List.range (fragmentOf raw index).count, item.parts.lookup j = some (fragmentData raw j) := by
    intro j hj
    have hj' : j < fragmentCount raw.length := List.mem_range.mp hj
    have hhas : Has raw s id cs j := by
      by_contra hnot
      exact hall ⟨j, hj', hnot⟩
    obtain ⟨q, hq, rfl⟩ := List.mem_map.mp ((h.has j hj').mp hhas)
    rw [← (h.parts q hq).2]
    exact lookup_of_mem h.keys hq
  have hflatten : ((List.range (fragmentOf raw index).count).map (fragmentData raw)).flatten = raw :=
    flatten_fragmentData raw
  unfold Reassembler.finish
  rw [mapM_of_forall hlookup]
  simp only [hflatten]
  rw [if_neg (by simp [fragmentOf, hvalid])]
  refine ⟨rfl, ?_⟩
  rw [← h.startedAt]
  exact Shelf.shut_ended (s, id) item.startedAt 0 .expired r.shelf

variable (raw s id) in
/-- What an `add` for the frame answers, and what it leaves. -/
def Answered (t₀ : ℚ) (cs : List Call) (n : Nat) (out : Except Raised (Option Bytes) × Reassembler) : Prop :=
  (out.1 = .ok none ∧ Missing raw s id cs ∧
      ∃ item, Growing raw s id t₀ cs item ∧ out.2.shelf.Placed (s, id) item n) ∨
    (out.1 = .ok (some raw) ∧ ¬ Missing raw s id cs ∧ Shelf.Shut (s, id) (Shelf.blockUntil t₀) [] out.2.shelf)

/-- A fragment meets the assembly of its frame. -/
theorem store_mine (hvalid : validRtcm3 raw = true) (htidy : r.shelf.Tidy) (h : r.shelf.Placed (s, id) item n)
    (hgrowing : Growing raw s id t₀ cs item) (hmissing : Missing raw s id cs) (hage : age < rtcmTransportTtlMs)
    (hindex : index < fragmentCount raw.length) (now : ℚ) :
    Answered raw s id t₀ (cs ++ [.add (piece raw s id age index) now]) n
      (r.store (s, id) item (fragmentOf raw index)) := by
  have hheader : ¬ (item.rtcmType, item.totalLength, item.fragmentCount) ≠
      ((fragmentOf raw index).messageType, (fragmentOf raw index).totalLength, (fragmentOf raw index).count) :=
    not_not.mpr hgrowing.header
  obtain ⟨hopen, A, B, hitems, hB⟩ := h
  have hitems' : r.items = A ++ ((s, id), item) :: B := hitems
  unfold store
  rw [if_neg hheader]
  rcases hpart : item.parts.lookup (fragmentOf raw index).index with _ | data <;> simp only
  · have hgrowing' := hgrowing.store hvalid hage hindex hpart now
    split
    · rename_i hfew
      refine Or.inl ⟨rfl, hgrowing'.missing_iff.mpr hfew, _, hgrowing', hopen, A, B, ?_, hB⟩
      have hkeys := htidy.keys
      rw [hitems] at hkeys
      show setKey r.items _ _ = _
      rw [hitems', setKey_here hkeys]
      rfl
    · rename_i hfull
      have hall := mt hgrowing'.missing_iff.mp hfull
      obtain ⟨hraw, hshut⟩ := hgrowing'.finish hvalid hall { r with items := setKey r.items (s, id) _ } index
      exact Or.inr ⟨hraw, hall, hshut⟩
  · have hmem := mem_of_lookup hpart
    have hdata : data = (fragmentOf raw index).data := (hgrowing.parts _ hmem).2
    have hindex' : index ∈ item.parts.map Prod.fst := List.mem_map_of_mem hmem
    have hgrowing' := hgrowing.duplicate hvalid hage hindex hindex' now
    rw [if_neg (not_not.mpr hdata)]
    refine Or.inl ⟨rfl, ?_, item, hgrowing', hopen, A, B, hitems, hB⟩
    rw [hgrowing'.missing_iff]
    exact hgrowing.missing_iff.mp hmissing

theorem opens_expire : ∀ e ∈ r.expireEvents now, ¬ e.Opens key := by
  intro e he
  rcases List.mem_append.mp he with he | he
  · obtain ⟨q, -, rfl⟩ := List.mem_map.mp he
    exact id
  · obtain rfl := List.mem_singleton.mp he
    exact id

/-- Only an `add` for the key opens an assembly of it. -/
theorem opens_call {c : Call} (hother : ∀ f now, c = .add f now → keyOf f ≠ key) :
    ∀ e ∈ callEvents c r, ¬ e.Opens key := by
  cases c with
  | expire now => exact opens_expire
  | add f now =>
    have hf := hother f now rfl
    have hconcerns : ∀ e : Event, e.Opens key → e.Concerns key := by
      rintro (_ | _ | _ | _) he
      · exact he
      · exact he.elim
      · exact he.elim
      · exact he.elim
    intro e he hopens
    rcases List.mem_append.mp he with he | he
    · exact opens_expire e he hopens
    · simp only at he
      split at he
      · cases he
      · split at he
        · cases he
        · rcases List.mem_append.mp he with he | he
          · unfold assemblyEvents at he
            split at he
            · cases he
            · rcases List.mem_append.mp he with he | he
              · exact not_opens_evictEvents e he hopens
              · obtain rfl := List.mem_singleton.mp he
                exact hf hopens
          · exact hf (concerns_eq (concerns_store he) (hconcerns e hopens))

theorem run_absent (htidy : r.shelf.Tidy) (h : r.shelf.Absent key) {cs : List Call}
    (hother : ∀ f now, Call.add f now ∈ cs → keyOf f ≠ key) : (run call r cs).shelf.Absent key := by
  induction cs generalizing r with
  | nil => exact h
  | cons c cs ih =>
    have hpath := call_path htidy c
    refine ih (hpath.tidy htidy) (hpath.absent h (opens_call fun f now hc => hother f now ?_))
      fun f now hmem => hother f now (List.mem_cons_of_mem _ hmem)
    rw [hc]
    exact List.mem_cons_self

/-- The first fragment of a frame. -/
theorem add_first (hvalid : validRtcm3 raw = true) (htidy : r.shelf.Tidy) (h : r.shelf.Absent (s, id))
    (hage : age < rtcmTransportTtlMs) (hindex : index < fragmentCount raw.length) (t₀ : ℚ) :
    Answered raw s id t₀ [.add (piece raw s id age index) t₀] 0
      (r.add (piece raw s id age index) t₀) := by
  have hexpire := expire_path htidy t₀
  have htidy' := hexpire.tidy htidy
  have habsent := hexpire.absent h opens_expire
  have hassembly := assembly_path (p := fragmentOf raw index) htidy' (fresh_expire t₀ r) habsent.2
  unfold add
  simp only [parse_piece hvalid s id hage hindex]
  rw [show keyOf (piece raw s id age index) = (s, id) from rfl,
    if_neg (by rw [show (r.expire t₀).2.blockedUntil.lookup (s, id) = none from habsent.2]; simp)]
  rw [assembly_new htidy' habsent] at hassembly ⊢
  show Answered raw s id t₀ ([] ++ [_]) 0 _
  exact store_mine hvalid (hassembly.1.tidy htidy')
    ⟨(evict_absent htidy' habsent).2, _, [], rfl, Nat.le_refl 0⟩ (growing_opened index t₀)
      (missing_nil hvalid) hage hindex t₀

/-- A later fragment of the frame. -/
theorem add_mine (hvalid : validRtcm3 raw = true) (htidy : r.shelf.Tidy) (h : r.shelf.Placed (s, id) item n)
    (hgrowing : Growing raw s id t₀ cs item) (hmissing : Missing raw s id cs) (hage : age < rtcmTransportTtlMs)
    (hindex : index < fragmentCount raw.length) (hfresh : now < t₀ + reassemblyTimeoutS) :
    Answered raw s id t₀ (cs ++ [.add (piece raw s id age index) now]) n
      (r.add (piece raw s id age index) now) := by
  have htime : now - item.startedAt < reassemblyTimeoutS := by
    rw [hgrowing.startedAt]
    linarith
  have htidy' := (expire_path htidy now).tidy htidy
  have hplaced := expire_placed htidy h htime
  unfold add
  simp only [parse_piece hvalid s id hage hindex]
  rw [show keyOf (piece raw s id age index) = (s, id) from rfl,
    if_neg (by rw [show (r.expire now).2.blockedUntil.lookup (s, id) = none from hplaced.1]; simp)]
  unfold assembly
  rw [show (r.expire now).2.items.lookup (s, id) = some item from hplaced.lookup htidy']
  exact store_mine hvalid htidy' hplaced hgrowing hmissing hage hindex now

/-! ## The run -/

variable (raw s id) in
/-- The calls for the key add fragments of the frame that are not too old. -/
def OnlyPieces (cs : List Call) : Prop :=
  ∀ f now, Call.add f now ∈ cs → keyOf f = (s, id) →
    ∃ age < rtcmTransportTtlMs, ∃ index < fragmentCount raw.length, f = piece raw s id age index

/-- The calls come less than 0.6 s after the first, and open fewer than eight assemblies of other keys. -/
def Prompt (key : Key) (t₀ : ℚ) (r : Reassembler) (cs : List Call) : Prop :=
  (∀ c ∈ cs, c.now < t₀ + reassemblyTimeoutS) ∧
    Shelf.othersOpened key (history (trace call r cs)) < maxReassemblies

theorem history_append (r : Reassembler) (cs cs' : List Call) : history (trace call r (cs ++ cs')) =
    history (trace call r cs) ++ history (trace call (run call r cs) cs') := by
  rw [trace_append]
  exact outputs_append _ _

theorem history_snoc (r : Reassembler) (cs : List Call) (c : Call) : history (trace call r (cs ++ [c])) =
    history (trace call r cs) ++ callEvents c (run call r cs) := by
  rw [history_append]
  exact congrArg _ (List.append_nil _)

theorem Prompt.of_append {cs cs' : List Call} (h : Prompt key t₀ r (cs ++ cs')) : Prompt key t₀ r cs := by
  obtain ⟨htime, hroom⟩ := h
  rw [history_append, Shelf.othersOpened_append] at hroom
  exact ⟨fun c hc => htime c (List.mem_append_left _ hc), by omega⟩

theorem tidy_run (htidy : r.shelf.Tidy) (cs : List Call) : (run call r cs).shelf.Tidy := (run_path htidy cs).tidy htidy

/-- As long as fragments are missing the assembly is in its place, and holds those that were added. -/
theorem run_growing (hvalid : validRtcm3 raw = true) (htidy : r.shelf.Tidy) (h : r.shelf.Absent (s, id)) {f₀ : Frame}
    (hfirst : keyOf f₀ = (s, id)) (bs : List Call) (honly : OnlyPieces raw s id (.add f₀ t₀ :: bs))
    (hprompt : Prompt (s, id) t₀ r (.add f₀ t₀ :: bs)) (hmissing : Missing raw s id (.add f₀ t₀ :: bs)) :
    ∃ item, Growing raw s id t₀ (.add f₀ t₀ :: bs) item ∧ (run call r (.add f₀ t₀ :: bs)).shelf.Placed (s, id) item
      (Shelf.othersOpened (s, id) (history (trace call r (.add f₀ t₀ :: bs)))) := by
  induction bs using List.reverseRecOn with
  | nil =>
    obtain ⟨age, hage, index, hindex, rfl⟩ := honly f₀ t₀ List.mem_cons_self hfirst
    rcases add_first hvalid htidy h hage hindex t₀ with ⟨-, -, item, hgrowing, hplaced⟩ | ⟨-, hall, -⟩
    · exact ⟨item, hgrowing, hplaced.mono (Nat.zero_le _)⟩
    · exact absurd hmissing hall
  | append_singleton bs c ih =>
    rw [← List.cons_append] at honly hprompt hmissing ⊢
    have hsub : (.add f₀ t₀ :: bs) ⊆ (.add f₀ t₀ :: bs) ++ [c] := List.subset_append_left _ _
    obtain ⟨item, hgrowing, hplaced⟩ := ih (fun f now hf => honly f now (hsub hf)) hprompt.of_append (hmissing.anti hsub)
    obtain ⟨htime, hroom⟩ := hprompt
    have hc := htime c (List.mem_append_right _ (List.mem_singleton.mpr rfl))
    rw [history_snoc, Shelf.othersOpened_append] at hroom ⊢
    rw [run_append]
    by_cases hmine : ∃ f now, c = .add f now ∧ keyOf f = (s, id)
    · obtain ⟨f, now, rfl, hkey⟩ := hmine
      obtain ⟨age, hage, index, hindex, rfl⟩ :=
        honly f now (List.mem_append_right _ (List.mem_singleton.mpr rfl)) hkey
      rcases add_mine hvalid (tidy_run htidy _) hplaced hgrowing (hmissing.anti hsub) hage hindex hc with
        ⟨-, -, item', hgrowing', hplaced'⟩ | ⟨-, hall, -⟩
      · exact ⟨item', hgrowing', hplaced'.mono (Nat.le_add_right _ _)⟩
      · exact absurd hmissing hall
    · have hother : ∀ f now, c = .add f now → keyOf f ≠ (s, id) := fun f now hc hkey => hmine ⟨f, now, hc, hkey⟩
      have hfresh : c.now - item.startedAt < reassemblyTimeoutS := by
        rw [hgrowing.startedAt]
        linarith
      exact ⟨item, hgrowing.other hother, call_placed (tidy_run htidy _) hplaced hother hfresh hroom⟩

/-- What is answered to a fragment of the frame as long as fragments are missing. -/
theorem run_answered (hvalid : validRtcm3 raw = true) (htidy : r.shelf.Tidy) (h : r.shelf.Absent (s, id)) {f₀ f : Frame}
    (hfirst : keyOf f₀ = (s, id)) {bs pre post : List Call} (honly : OnlyPieces raw s id (.add f₀ t₀ :: bs))
    (hcut : .add f₀ t₀ :: bs = pre ++ .add f now :: post) (hkey : keyOf f = (s, id))
    (hprompt : Prompt (s, id) t₀ r (pre ++ [.add f now])) (hmissing : Missing raw s id pre) :
    ∃ n, Answered raw s id t₀ (pre ++ [.add f now]) n ((run call r pre).add f now) := by
  obtain ⟨age, hage, index, hindex, rfl⟩ := honly f now (by rw [hcut]; simp) hkey
  cases pre with
  | nil =>
    obtain ⟨⟨rfl, rfl⟩, -⟩ : (f₀ = _ ∧ t₀ = now) ∧ bs = post := by simpa using hcut
    exact ⟨0, add_first hvalid htidy h hage hindex t₀⟩
  | cons c pre =>
    obtain ⟨rfl, rfl⟩ : .add f₀ t₀ = c ∧ bs = pre ++ .add _ now :: post := by simpa using hcut
    have hsub : (.add f₀ t₀ :: pre) ⊆ .add f₀ t₀ :: (pre ++ .add (piece raw s id age index) now :: post) := by
      rw [← List.cons_append]
      exact List.subset_append_left _ _
    obtain ⟨item, hgrowing, hplaced⟩ := run_growing hvalid htidy h hfirst pre
      (fun f now hf => honly f now (hsub hf)) hprompt.of_append hmissing
    have hnow := hprompt.1 _ (List.mem_append_right _ (List.mem_singleton.mpr rfl))
    exact ⟨_, add_mine hvalid (tidy_run htidy _) hplaced hgrowing hmissing hage hindex hnow⟩

/-- While its key is shut, no frame of it is given out. -/
theorem shut_answers {time : ℚ} (htidy : r.shelf.Tidy) (h : Shelf.Shut key time [] r.shelf) (mid : List Call)
    (hkey : keyOf f = key) (htime : ∀ c ∈ mid ++ [.add f now], c.now < time)
    (hfew : (Shelf.othersBlocked key (history (trace call r (mid ++ [.add f now])))).length < 64) (raw : Bytes) :
    ((run call r mid).add f now).1 ≠ .ok (some raw) := by
  intro hraw
  obtain ⟨es, t, hes⟩ := add_returns hraw
  have hpath := run_path htidy (mid ++ [.add f now])
  have hhistory : history (trace call r (mid ++ [.add f now])) =
      history (trace call r mid) ++ es ++ [.ended (keyOf f) t now (.delivered raw)] := by
    rw [history_snoc, List.append_assoc]
    exact congrArg _ hes
  have htimes : ∀ e ∈ history (trace call r mid) ++ es, e.now < time := by
    intro e he
    have hmem : e ∈ history (trace call r (mid ++ [.add f now])) := hhistory ▸ List.mem_append_left _ he
    obtain ⟨c, hc, hof⟩ := of_history hmem
    rw [hof.1]
    exact htime c hc
  rw [hhistory] at hpath hfew
  obtain ⟨v, hbefore, hallowed, -⟩ := hpath.split
  have hshut := Shelf.Path.shut htidy hbefore h htimes
    ((Shelf.length_othersBlocked_le (List.subset_append_left _ _)).trans_lt hfew)
  exact (hshut.not_allowed hallowed).2 hkey

variable (raw s id) in
/-- What the calls answer to the fragments of the frame, `t₀` being the time of the first. -/
structure Delivered (t₀ : ℚ) (r : Reassembler) (cs : List Call) : Prop where
  early : ∀ pre f now post, cs = pre ++ .add f now :: post → keyOf f = (s, id) →
    Prompt (s, id) t₀ r (pre ++ [.add f now]) → Missing raw s id (pre ++ [.add f now]) →
    ((run call r pre).add f now).1 = .ok none
  last : ∀ pre f now post, cs = pre ++ .add f now :: post → keyOf f = (s, id) →
    Prompt (s, id) t₀ r (pre ++ [.add f now]) → Missing raw s id pre → ¬ Missing raw s id (pre ++ [.add f now]) →
    ((run call r pre).add f now).1 = .ok (some raw)
  late : ∀ pre g t mid f now post, cs = pre ++ .add g t :: (mid ++ .add f now :: post) → keyOf g = (s, id) →
    keyOf f = (s, id) → Prompt (s, id) t₀ r (pre ++ [.add g t]) → Missing raw s id pre →
    ¬ Missing raw s id (pre ++ [.add g t]) → now < t₀ + rtcmTransportTtlMs / 1000 →
    (Shelf.othersBlocked (s, id)
      (history (trace call (run call r (pre ++ [.add g t])) (mid ++ [.add f now])))).length < 64 →
    ∀ raw', ((run call r (pre ++ .add g t :: mid)).add f now).1 ≠ .ok (some raw')

/-- The calls up to one come no later than it does. -/
theorem now_le {pre mid post : List Call} {c : Call} (h : ((pre ++ (mid ++ c :: post)).map Call.now).Pairwise (· ≤ ·)) :
    ∀ c' ∈ mid ++ [c], c'.now ≤ c.now := by
  rw [List.map_append, List.map_append] at h
  have hmid := (List.pairwise_append.mp (List.pairwise_append.mp h).2.1).2.2
  intro c' hc'
  rcases List.mem_append.mp hc' with hc' | hc'
  · exact hmid _ (List.mem_map_of_mem hc') _ List.mem_cons_self
  · rw [List.mem_singleton.mp hc']

theorem delivered (hvalid : validRtcm3 raw = true) (htidy : r.shelf.Tidy) (habsent : r.shelf.Absent (s, id)) {f₀ : Frame}
    (hfirst : keyOf f₀ = (s, id)) {bs : List Call} (hclock : ((.add f₀ t₀ :: bs).map Call.now).Pairwise (· ≤ ·))
    (honly : OnlyPieces raw s id (.add f₀ t₀ :: bs)) : Delivered raw s id t₀ r (.add f₀ t₀ :: bs) := by
  refine ⟨?_, ?_, ?_⟩
  · intro pre f now post hcut hkey hprompt hmissing
    obtain ⟨n, hanswered⟩ := run_answered hvalid htidy habsent hfirst honly hcut hkey hprompt
      (hmissing.anti (List.subset_append_left _ _))
    rcases hanswered with ⟨hnone, -⟩ | ⟨-, hall, -⟩
    · exact hnone
    · exact absurd hmissing hall
  · intro pre f now post hcut hkey hprompt hmissing hall
    obtain ⟨n, hanswered⟩ := run_answered hvalid htidy habsent hfirst honly hcut hkey hprompt hmissing
    rcases hanswered with ⟨-, hmissing', -⟩ | ⟨hraw, -⟩
    · exact absurd hmissing' hall
    · exact hraw
  · intro pre g t mid f now post hcut hkeyg hkey hprompt hmissing hall htime hfew raw'
    obtain ⟨n, hanswered⟩ := run_answered hvalid htidy habsent hfirst honly hcut hkeyg hprompt hmissing
    rcases hanswered with ⟨-, hmissing', -⟩ | ⟨-, -, hshut⟩
    · exact absurd hmissing' hall
    · have hdone : run call r (pre ++ [.add g t]) = ((run call r pre).add g t).2 := run_append r pre [.add g t]
      have htidy' := tidy_run htidy (pre ++ [.add g t])
      rw [List.append_cons, run_append]
      rw [hdone] at hfew htidy' ⊢
      refine shut_answers htidy' hshut mid hkey (fun c hc => ?_) hfew raw'
      rw [hcut, List.append_cons] at hclock
      exact (now_le hclock c hc).trans_lt htime

/-- **Frames that arrive in any order.** A valid frame has between one and six fragments, each of which survives the
codec at every age below 1000. Where its key is neither assembled nor blocked, every fragment before the last missing
one answers nothing, that one answers the frame, and later ones answer no frame before 1.0 s after the first unless 64
other keys have been blocked. -/
theorem reassembly_completes (hvalid : validRtcm3 raw = true) (hs : 1 ≤ s ∧ s ≤ 2 ^ 32 - 1)
    (hid : 1 ≤ id ∧ id ≤ 2 ^ 32 - 1) :
    (1 ≤ fragmentCount raw.length ∧ fragmentCount raw.length ≤ 6 ∧ ∀ age, 0 ≤ age → age < rtcmTransportTtlMs →
      fragment raw s id age = .ok ((List.range (fragmentCount raw.length)).map (piece raw s id age)) ∧
      ∀ index < fragmentCount raw.length, ∃ bytes, encode (piece raw s id age index) = .ok bytes ∧
        decode bytes = .ok (piece raw s id age index)) ∧
    ∀ (before as bs : List Call) (f₀ : Frame) (t₀ : ℚ), (run call {} before).shelf.Absent (s, id) →
      ((as ++ .add f₀ t₀ :: bs).map Call.now).Pairwise (· ≤ ·) → (∀ f now, Call.add f now ∈ as → keyOf f ≠ (s, id)) →
      keyOf f₀ = (s, id) → OnlyPieces raw s id (.add f₀ t₀ :: bs) →
      Delivered raw s id t₀ (run call (run call {} before) as) (.add f₀ t₀ :: bs) := by
  refine ⟨⟨?_, fragmentCount_le (length_of_validRtcm3 hvalid), fun age hpos hage =>
    ⟨fragment_eq_map hvalid s id age, fun index hindex => ?_⟩⟩, ?_⟩
  · have hlength := le_length_of_validRtcm3 hvalid
    simp only [fragmentCount, rtcmFragmentDataSize]
    omega
  · have hage' : 0 ≤ age ∧ age ≤ 65535 := by
      simp only [rtcmTransportTtlMs] at hage
      omega
    obtain ⟨bytes, hbytes⟩ := encode_isOk.mpr (encodable_piece raw hs hid hage' index)
    exact ⟨bytes, hbytes, decode_encode hbytes⟩
  · intro before as bs f₀ t₀ hstart hclock has hfirst honly
    have htidy := tidy_run tidy_empty before
    rw [List.map_append] at hclock
    exact delivered hvalid (tidy_run htidy as) (run_absent htidy hstart has) hfirst
      (List.pairwise_append.mp hclock).2.1 honly

end Arrival

/-- The three fragments of a frame come in the order 2, 0, 1, with repeats of 2 and 0, between those of two other
frames. -/
def shuffled : List Call :=
  let frame (age : Int) (index : Nat) := piece (zeroFrame 343) 1 1 age index
  [.add (frame 0 2) (1 / 10), .add (frame 5 0) (2 / 10), .add (frame 5 2) (2 / 10),
    .add (piece (zeroFrame 0) 2 9 0 0) (3 / 10), .add (frame 7 1) (4 / 10), .add (frame 9 0) (5 / 10)]

set_option maxRecDepth 100000 in
theorem reassembly_completes_shuffled :
    let r := run call (run call {} [.add (piece (zeroFrame 0) 2 8 0 0) 0]) [.expire (1 / 10)]
    ((run call r (shuffled.take 2)).add (piece (zeroFrame 343) 1 1 5 2) (2 / 10)).1 = .ok none ∧
      ((run call r (shuffled.take 4)).add (piece (zeroFrame 343) 1 1 7 1) (4 / 10)).1 = .ok (some (zeroFrame 343)) ∧
      ∀ raw, ((run call r (shuffled.take 5)).add (piece (zeroFrame 343) 1 1 9 0) (5 / 10)).1 ≠ .ok (some raw) := by
  intro r
  have hvalid : validRtcm3 (zeroFrame 343) = true := by decide +kernel
  have hcount : fragmentCount (zeroFrame 343).length = 3 := by decide +kernel
  have hother : keyOf (piece (zeroFrame 0) 2 9 0 0) ≠ (1, 1) := by decide +kernel
  have hdelivered : Delivered (zeroFrame 343) 1 1 (1 / 10) r shuffled := by
    refine (reassembly_completes hvalid (by decide) (by decide)).2 _ _ (shuffled.drop 1) _ _
      ⟨by decide +kernel, by decide +kernel⟩ (by decide +kernel) (by simp) rfl ?_
    intro f now hmem hkey
    simp only [shuffled, List.drop_one, List.tail_cons, List.mem_cons, Call.add.injEq, List.not_mem_nil, or_false] at hmem
    rw [hcount]
    rcases hmem with ⟨rfl, -⟩ | ⟨rfl, -⟩ | ⟨rfl, -⟩ | ⟨rfl, -⟩ | ⟨rfl, -⟩ | ⟨rfl, -⟩
    · exact ⟨0, by decide, 2, by decide, rfl⟩
    · exact ⟨5, by decide, 0, by decide, rfl⟩
    · exact ⟨5, by decide, 2, by decide, rfl⟩
    · exact absurd hkey hother
    · exact ⟨7, by decide, 1, by decide, rfl⟩
    · exact ⟨9, by decide, 0, by decide, rfl⟩
  -- fragment 1 comes only with the fifth call
  have hmissing : Missing (zeroFrame 343) 1 1 (shuffled.take 4) := by
    refine ⟨1, by rw [hcount]; decide, ?_⟩
    rintro ⟨age, t, hmem⟩
    have hne : ∀ age' < rtcmTransportTtlMs, ∀ index < 3, index ≠ 1 →
        piece (zeroFrame 343) 1 1 age 1 ≠ piece (zeroFrame 343) 1 1 age' index := fun age' hage index hindex hdiffer h =>
      hdiffer (piece_inj hvalid hage (by rwa [hcount]) (by rw [hcount]; decide) h.symm)
    simp only [shuffled, List.take_succ_cons, List.take_zero, List.mem_cons, Call.add.injEq, List.not_mem_nil,
      or_false] at hmem
    rcases hmem with ⟨h, -⟩ | ⟨h, -⟩ | ⟨h, -⟩ | ⟨h, -⟩
    · exact hne 0 (by decide) 2 (by decide) (by decide) h
    · exact hne 5 (by decide) 0 (by decide) (by decide) h
    · exact hne 5 (by decide) 2 (by decide) (by decide) h
    · exact hother (congrArg keyOf h).symm
  have hwhole : ¬ Missing (zeroFrame 343) 1 1 (shuffled.take 5) := by
    rintro ⟨index, hindex, hnot⟩
    rw [hcount] at hindex
    refine hnot ?_
    obtain rfl | rfl | rfl : index = 0 ∨ index = 1 ∨ index = 2 := by omega
    · exact ⟨5, 2 / 10, by simp [shuffled]⟩
    · exact ⟨7, 4 / 10, by simp [shuffled]⟩
    · exact ⟨0, 1 / 10, by simp [shuffled]⟩
  have hprompt : Prompt (1, 1) (1 / 10) r (shuffled.take 3 ++ (shuffled.drop 3).take 2) :=
    ⟨by decide +kernel, by decide +kernel⟩
  refine ⟨?_, ?_, ?_⟩
  · exact hdelivered.early (shuffled.take 2) _ _ (shuffled.drop 3) rfl rfl hprompt.of_append
      (hmissing.anti (List.subset_append_left (shuffled.take 3) ((shuffled.drop 3).take 1)))
  · exact hdelivered.last (shuffled.take 4) _ _ (shuffled.drop 5) rfl rfl hprompt hmissing hwhole
  · exact hdelivered.late (shuffled.take 4) _ _ [] _ _ [] rfl rfl rfl hprompt hmissing hwhole
      (by decide +kernel) (by decide +kernel)

end Reassembler

end LoraLink.Application
