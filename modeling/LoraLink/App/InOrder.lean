import LoraLink.App.Arrival

/-!
# Reassembly in order

The fragments of some messages arrive in order, one message after the other.

- `filter_suffix`: the keys that are no longer blocked are those blocked first;
- `InOrder.expire`: nothing but such keys is lost when an assembly is younger than 0.6 s;
- `InOrder.add`: the next fragment of a message is stored, and the last one gives the frame.
-/

namespace LoraLink.Application

open scoped List

namespace Reassembler

/-! ## One message after the other -/

/-- The assembly of a frame of which the first `n` fragments have been added. -/
def begun (raw : Bytes) (t₀ : ℚ) (n : Nat) : Assembly :=
  { startedAt := t₀, rtcmType := typeBits raw, totalLength := raw.length, fragmentCount := fragmentCount raw.length
    parts := (List.range n).map fun i => (i, fragmentData raw i) }

/-- The assemblies when `n` fragments of one message have been added, and all fragments of those before it. -/
def underway (key : Key) (raw : Bytes) (t₀ : ℚ) (n : Nat) : List (Key × Assembly) :=
  if n = 0 then [] else [(key, begun raw t₀ n)]

/-- The messages `done` have been given out, with the times until which their keys are blocked; nothing else has
happened to any assembly. -/
structure InOrder (done : List (Key × ℚ)) (items : List (Key × Assembly)) (r : Reassembler) : Prop where
  items : r.items = items
  clock : (done.map Prod.snd).Pairwise (· ≤ ·)
  blocked : r.blockedUntil <:+ done
  few : r.blockedUntil.length ≤ 64
  timeouts : r.timeoutCount = 0
  conflicts : r.conflictCount = 0
  evictions : r.evictionCount = 0
  duplicates : r.duplicateCount = 0

variable {done : List (Key × ℚ)} {items : List (Key × Assembly)} {r : Reassembler} {raw : Bytes} {s id : Int} {n : Nat}
  {t₀ now : ℚ} {age : Int}

/-- The keys that are no longer blocked are those blocked first. -/
theorem filter_suffix {l : List (Key × ℚ)} (h : (l.map Prod.snd).Pairwise (· ≤ ·)) (now : ℚ) :
    (l.filter fun q => decide (¬ now ≥ q.2)) <:+ l := by
  induction l with
  | nil => exact List.suffix_refl _
  | cons q l ih =>
    rw [List.map_cons, List.pairwise_cons] at h
    by_cases hq : now ≥ q.2
    · rw [List.filter_cons_of_neg (by simpa using hq)]
      exact (ih h.2).trans (List.suffix_cons q l)
    · have hall : ∀ a ∈ q :: l, decide (¬ now ≥ a.2) = true := by
        intro a ha
        apply decide_eq_true
        rcases List.mem_cons.mp ha with rfl | ha
        · exact hq
        · intro hnow
          exact hq (le_trans (h.1 _ (List.mem_map_of_mem ha)) hnow)
      exact ⟨[], by rw [List.filter_eq_self.mpr hall, List.nil_append]⟩

theorem pairwise_suffix {l l' : List (Key × ℚ)} (h : (l.map Prod.snd).Pairwise (· ≤ ·)) (hsuffix : l' <:+ l) :
    (l'.map Prod.snd).Pairwise (· ≤ ·) := h.sublist (hsuffix.sublist.map _)

/-- An assembly that is younger than 0.6 s survives. -/
theorem InOrder.expire (h : InOrder done items r) (hfresh : ∀ q ∈ items, now - q.2.startedAt < reassemblyTimeoutS) :
    InOrder done items (r.expire now).2 := by
  have hnone : r.items.filter (fun q => decide (now - q.2.startedAt ≥ reassemblyTimeoutS)) = [] := by
    rw [h.items, List.filter_eq_nil_iff]
    intro q hq hold
    exact absurd (of_decide_eq_true hold) (not_le.mpr (hfresh q hq))
  have hsame : (r.expire now).2 =
      { r with blockedUntil := r.blockedUntil.filter fun q => decide (¬ now ≥ q.2) } := by
    unfold Reassembler.expire
    rw [hnone]
    rfl
  rw [hsame]
  have hsuffix := filter_suffix (pairwise_suffix h.clock h.blocked) now
  exact { h with blocked := hsuffix.trans h.blocked, few := hsuffix.length_le.trans h.few }

/-- A key that is not among the last 64 is not blocked. -/
theorem InOrder.free (h : InOrder done items r) {key : Key}
    (hkey : key ∉ (done.map Prod.fst).drop (done.length - 64)) : r.blockedUntil.lookup key = none := by
  rw [lookup_eq_none]
  intro hmem
  apply hkey
  obtain ⟨front, hfront⟩ := h.blocked
  have hlength := congrArg List.length hfront
  have hfew := h.few
  rw [List.length_append] at hlength
  have hdrop : done.drop (done.length - 64) = (front ++ r.blockedUntil).drop (done.length - 64) := by rw [hfront]
  rw [← List.map_drop, hdrop, List.drop_append_of_le_length (by omega), List.map_append]
  exact List.mem_append_right _ hmem

/-- The assembly of the next fragment. -/
theorem InOrder.assembly (h : InOrder done (underway (s, id) raw t₀ n) r) (index : Nat) (now : ℚ) :
    (r.assembly (s, id) (fragmentOf raw index) now).1 = begun raw (if n = 0 then now else t₀) n ∧
      InOrder done [((s, id), begun raw (if n = 0 then now else t₀) n)]
        (r.assembly (s, id) (fragmentOf raw index) now).2 := by
  have hitems := h.items
  unfold underway at hitems
  by_cases hn : n = 0
  · subst hn
    rw [if_pos rfl] at hitems
    have hevict : r.evict = r := by
      unfold Reassembler.evict
      rw [hitems]
    have hnew : r.assembly (s, id) (fragmentOf raw index) now =
        (begun raw now 0, { r with items := [((s, id), begun raw now 0)] }) := by
      unfold Reassembler.assembly
      rw [hitems]
      simp only [List.lookup_nil, hevict, hitems]
      rfl
    rw [if_pos rfl, hnew]
    exact ⟨rfl, { h with items := rfl }⟩
  · rw [if_neg hn] at hitems
    have hold : r.assembly (s, id) (fragmentOf raw index) now = (begun raw t₀ n, r) := by
      unfold Reassembler.assembly
      rw [hitems]
      simp
    rw [if_neg hn, hold]
    exact ⟨rfl, { h with items := hitems }⟩

theorem begun_succ (raw : Bytes) (t₀ : ℚ) (n : Nat) : begun raw t₀ (n + 1) =
    { begun raw t₀ n with parts := setKey (begun raw t₀ n).parts n (fragmentData raw n) } := by
  have hnew : (begun raw t₀ n).parts.lookup n = none := by
    rw [lookup_eq_none]
    simp [begun]
  rw [setKey_new hnew]
  simp [begun, List.range_succ]

/-- All fragments are there. -/
theorem InOrder.finish (h : InOrder done items r) (hitems : items = [((s, id), begun raw t₀ (fragmentCount raw.length))])
    (hvalid : validRtcm3 raw = true) (hkey : (s, id) ∉ (done.map Prod.fst).drop (done.length - 64))
    (hlast : ∀ q ∈ done, q.2 ≤ Shelf.blockUntil t₀) (index : Nat) :
    (r.finish (s, id) (begun raw t₀ (fragmentCount raw.length)) (fragmentOf raw index)).1 = .ok (some raw) ∧
      InOrder (done ++ [((s, id), Shelf.blockUntil t₀)]) []
        (r.finish (s, id) (begun raw t₀ (fragmentCount raw.length)) (fragmentOf raw index)).2 := by
  have hlookup : ∀ j ∈ List.range (fragmentOf raw index).count,
      (begun raw t₀ (fragmentCount raw.length)).parts.lookup j = some (fragmentData raw j) := by
    intro j hj
    have hkeys : ((begun raw t₀ (fragmentCount raw.length)).parts.map Prod.fst).Nodup := by
      simp [begun, Function.comp_def, List.nodup_range]
    exact lookup_of_mem hkeys (List.mem_map_of_mem (f := fun i => (i, fragmentData raw i)) hj)
  have hflatten : ((List.range (fragmentOf raw index).count).map (fragmentData raw)).flatten = raw :=
    flatten_fragmentData raw
  have hpop : popKey r.blockedUntil (s, id) = r.blockedUntil := by
    apply List.filter_eq_self.mpr
    intro q hq
    have hne : q.1 ≠ (s, id) := by
      intro heq
      exact lookup_eq_none.mp (h.free hkey) (heq ▸ List.mem_map_of_mem hq)
    simpa using hne
  have hsuffix : r.blockedUntil ++ [((s, id), Shelf.blockUntil t₀)] <:+ done ++ [((s, id), Shelf.blockUntil t₀)] := by
    obtain ⟨front, hfront⟩ := h.blocked
    exact ⟨front, by rw [← List.append_assoc, hfront]⟩
  unfold Reassembler.finish
  rw [mapM_of_forall hlookup]
  simp only [hflatten]
  rw [if_neg (by simp [fragmentOf, hvalid])]
  refine ⟨rfl, ?_, ?_, ?_, ?_, h.timeouts, h.conflicts, h.evictions, h.duplicates⟩
  · show popKey r.items (s, id) = []
    rw [h.items, hitems]
    simp [popKey]
  · rw [List.map_append, List.pairwise_append]
    refine ⟨h.clock, List.pairwise_singleton _ _, ?_⟩
    intro a ha b hb
    obtain ⟨q, hq, rfl⟩ := List.mem_map.mp ha
    rw [List.mem_singleton.mp hb]
    exact hlast q hq
  · simp only [discard, block, hpop]
    exact (List.drop_suffix _ _).trans hsuffix
  · simp only [discard, block, List.length_drop]
    omega

/-- The next fragment of a message is stored, and the last one gives the frame. -/
theorem InOrder.add (h : InOrder done (underway (s, id) raw t₀ n) r) (hvalid : validRtcm3 raw = true)
    (hn : n < fragmentCount raw.length) (hage : age < rtcmTransportTtlMs) (hfresh : n ≠ 0 → now - t₀ < reassemblyTimeoutS)
    (hkey : (s, id) ∉ (done.map Prod.fst).drop (done.length - 64))
    (hlast : ∀ q ∈ done, q.2 ≤ Shelf.blockUntil (if n = 0 then now else t₀)) :
    (n + 1 < fragmentCount raw.length ∧ (r.add (piece raw s id age n) now).1 = .ok none ∧
        InOrder done (underway (s, id) raw (if n = 0 then now else t₀) (n + 1)) (r.add (piece raw s id age n) now).2) ∨
      (n + 1 = fragmentCount raw.length ∧ (r.add (piece raw s id age n) now).1 = .ok (some raw) ∧
        InOrder (done ++ [((s, id), Shelf.blockUntil (if n = 0 then now else t₀))]) []
          (r.add (piece raw s id age n) now).2) := by
  have hexpire : InOrder done (underway (s, id) raw t₀ n) (r.expire now).2 := by
    apply h.expire
    intro q hq
    unfold underway at hq
    split at hq
    · cases hq
    · rename_i hn
      rw [List.mem_singleton.mp hq]
      exact hfresh hn
  have hadd : r.add (piece raw s id age n) now =
      ((r.expire now).2.assembly (s, id) (fragmentOf raw n) now).2.store (s, id)
        ((r.expire now).2.assembly (s, id) (fragmentOf raw n) now).1 (fragmentOf raw n) := by
    unfold Reassembler.add
    simp only [parse_piece hvalid s id hage hn]
    rw [show keyOf (piece raw s id age n) = (s, id) from rfl, if_neg (by rw [hexpire.free hkey]; simp)]
  obtain ⟨hassembly, hr⟩ := hexpire.assembly n now
  rw [hadd, hassembly]
  generalize ((r.expire now).2.assembly (s, id) (fragmentOf raw n) now).2 = r₁ at hr ⊢
  generalize (if n = 0 then now else t₀) = t₁ at hr hlast ⊢
  have hnew : (begun raw t₁ n).parts.lookup (fragmentOf raw n).index = none := by
    rw [lookup_eq_none]
    simp [begun, fragmentOf]
  have hstored :
      ({ begun raw t₁ n with
          parts := setKey (begun raw t₁ n).parts (fragmentOf raw n).index (fragmentOf raw n).data } : Assembly) =
        begun raw t₁ (n + 1) :=
    (begun_succ raw t₁ n).symm
  have hset : setKey r₁.items (s, id) (begun raw t₁ (n + 1)) = [((s, id), begun raw t₁ (n + 1))] := by
    rw [hr.items]
    simp [setKey]
  have hlength : (setKey (begun raw t₁ n).parts (fragmentOf raw n).index (fragmentOf raw n).data).length = n + 1 := by
    rw [show setKey _ _ _ = (begun raw t₁ (n + 1)).parts from congrArg Assembly.parts hstored]
    simp [begun]
  have hheld : InOrder done [((s, id), begun raw t₁ (n + 1))] { r₁ with items := [((s, id), begun raw t₁ (n + 1))] } :=
    { hr with items := rfl }
  have hheader : ¬ ((begun raw t₁ n).rtcmType, (begun raw t₁ n).totalLength, (begun raw t₁ n).fragmentCount) ≠
      ((fragmentOf raw n).messageType, (fragmentOf raw n).totalLength, (fragmentOf raw n).count) := not_not.mpr rfl
  unfold Reassembler.store
  simp only
  rw [if_neg hheader, hnew]
  simp only [hstored, hset, hlength]
  by_cases hmore : n + 1 < (fragmentOf raw n).count
  · rw [if_pos hmore]
    refine Or.inl ⟨hmore, rfl, ?_⟩
    unfold underway
    rw [if_neg (Nat.succ_ne_zero n)]
    exact hheld
  · rw [if_neg hmore]
    have hend : n + 1 = fragmentCount raw.length := by
      have hcount : (fragmentOf raw n).count = fragmentCount raw.length := rfl
      omega
    rw [hend] at hheld ⊢
    exact Or.inr ⟨rfl, hheld.finish rfl hvalid hkey hlast n⟩

end Reassembler

end LoraLink.Application
