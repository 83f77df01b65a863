import LoraLink.App.Shelf
import Mathlib.Data.List.Dedup
import Mathlib.Data.List.Perm.Subperm

/-!
# What a reassembler gives out, and what it takes no more

- `Shelf.Path.kept`: every assembly has its start in the history, and each of its parts was stored since then;
- `Shelf.Path.shut`: the key of an assembly that has ended stays blocked until its time, unless 64 other keys have been
  blocked since then;
- `Reassembler.reassembly_sound`: both, for every list of calls at times that do not decrease.
-/

namespace LoraLink.Application

namespace Shelf

namespace Event

def now : Event → ℚ
  | .started _ _ now | .stored _ _ now | .ended _ _ now _ | .purged now => now

/-- An assembly of the key ends. -/
def Ends (key : Key) : Event → Prop
  | .ended k _ _ _ => k = key
  | _ => False

/-- The key that is blocked. -/
def blocks : Event → Option Key
  | .ended key _ _ _ => some key
  | _ => none

end Event

/-- The keys other than `key` that the events block. -/
def othersBlocked (key : Key) (es : List Event) : List Key := ((es.filterMap Event.blocks).filter (· ≠ key)).dedup

/-- The last assembly of the key was started at `t₀`, by the fragment `p`, and `es` is what has happened since. -/
def Since (key : Key) (p : Fragment) (t₀ : ℚ) (H es : List Event) : Prop :=
  (∃ X, H = X ++ .started key p t₀ :: es) ∧ ∀ e ∈ es, ¬ e.Opens key ∧ ¬ e.Ends key

variable {key : Key} {s s₀ : Shelf} {es H : List Event} {item : Assembly}

/-! ## Where the parts come from -/

/-- A fragment with the data was stored. -/
def Supplied (es : List Event) (key : Key) (item : Assembly) (index : Nat) (data : Bytes) : Prop :=
  ∃ g p t, Event.stored g p t ∈ es ∧ keyOf g = key ∧ parseFragment g = .ok p ∧ Matches item p ∧ p.index = index ∧
    p.data = data

/-- The assembly has its start in the history, and its parts were stored since then. -/
def Kept (H : List Event) (key : Key) (item : Assembly) : Prop :=
  ∃ p es, Since key p item.startedAt H es ∧ Matches item p ∧ ∀ q ∈ item.parts, Supplied es key item q.1 q.2

theorem Since.snoc {p : Fragment} {t₀ : ℚ} (h : Since key p t₀ H es) {e : Event} (hopens : ¬ e.Opens key)
    (hends : ¬ e.Ends key) : Since key p t₀ (H ++ [e]) (es ++ [e]) := by
  obtain ⟨⟨X, rfl⟩, hes⟩ := h
  refine ⟨⟨X, by simp⟩, fun e' he' => ?_⟩
  rcases List.mem_append.mp he' with he' | he'
  · exact hes e' he'
  · obtain rfl := List.mem_singleton.mp he'
    exact ⟨hopens, hends⟩

theorem Supplied.mono {fs : List Event} {index : Nat} {data : Bytes} (h : Supplied es key item index data)
    (hsub : ∀ e ∈ es, e ∈ fs) : Supplied fs key item index data := by
  obtain ⟨g, p, t, hg, h⟩ := h
  exact ⟨g, p, t, hsub _ hg, h⟩

theorem Kept.snoc (h : Kept H key item) {e : Event} (hopens : ¬ e.Opens key) (hends : ¬ e.Ends key) :
    Kept (H ++ [e]) key item := by
  obtain ⟨p, es, hsince, hp, hparts⟩ := h
  exact ⟨p, es ++ [e], hsince.snoc hopens hends, hp, fun q hq =>
    (hparts q hq).mono fun _ he => List.mem_append_left _ he⟩

/-- A fragment is stored in its assembly. -/
theorem Kept.store {f : Frame} (h : Kept H (keyOf f) item) {p : Fragment} (now : ℚ) (hparse : parseFragment f = .ok p)
    (hmatch : Matches item p) : Kept (H ++ [.stored f p now]) (keyOf f)
      { item with parts := setKey item.parts p.index p.data } := by
  obtain ⟨p₀, es, hsince, hp₀, hparts⟩ := h
  refine ⟨p₀, es ++ [.stored f p now], hsince.snoc id id, hp₀, fun q hq => ?_⟩
  rcases mem_of_mem_setKey hq with rfl | hq
  · exact ⟨f, p, now, List.mem_append_right _ (List.mem_singleton.mpr rfl), rfl, hparse, hmatch, rfl, rfl⟩
  · exact (hparts q hq).mono fun _ he => List.mem_append_left _ he

theorem Kept.on (h : ∀ q ∈ s.items, Kept H q.1 q.2) {e : Event} (he : s.Allowed e) :
    ∀ q ∈ (s.on e).items, Kept (H ++ [e]) q.1 q.2 := by
  intro q hq
  cases e with
  | started key p now =>
    rcases List.mem_append.mp hq with hq | hq
    · refine (h q hq).snoc (fun heq => ?_) id
      exact lookup_eq_none.mp he.1 (List.mem_map.mpr ⟨q, hq, heq.symm⟩)
    · obtain rfl := List.mem_singleton.mp hq
      exact ⟨p, [], ⟨⟨H, rfl⟩, fun e he => absurd he List.not_mem_nil⟩, rfl, fun q hq => absurd hq List.not_mem_nil⟩
  | stored f p now =>
    obtain ⟨hparse, item, hitem, hmatch, -⟩ := he
    rw [items_stored _ _ hitem] at hq
    rcases mem_of_mem_setKey hq with rfl | hq
    · exact (h _ (mem_of_lookup hitem)).store now hparse hmatch
    · exact (h q hq).snoc id id
  | ended key startedAt now how =>
    have hne : q.1 ≠ key := by simpa using (List.mem_filter.mp hq).2
    exact (h q (mem_of_mem_popKey hq)).snoc id (Ne.symm hne)
  | purged now => exact (h q hq).snoc id id

theorem Path.kept (h : Path s₀ es s) (hitems : s₀.items = []) :
    ∀ q ∈ s.items, Kept es q.1 q.2 := by
  have hnone : ∀ q ∈ s₀.items, Kept [] q.1 q.2 := by
    rw [hitems]
    exact fun q hq => absurd hq List.not_mem_nil
  exact h.rel (R := fun H s => ∀ q ∈ s.items, Kept H q.1 q.2) (H := []) hnone fun H s e h he => Kept.on h he

/-! ## How long a key is blocked -/

theorem othersBlocked_subset {fs : List Event} (h : es ⊆ fs) : othersBlocked key es ⊆ othersBlocked key fs := by
  intro k hk
  rw [othersBlocked, List.mem_dedup, List.mem_filter] at hk ⊢
  exact ⟨List.filterMap_subset _ h hk.1, hk.2⟩

theorem length_othersBlocked_le {fs : List Event} (h : es ⊆ fs) :
    (othersBlocked key es).length ≤ (othersBlocked key fs).length :=
  (List.subperm_of_subset (List.nodup_dedup _) (othersBlocked_subset h)).length_le

/-- The key is not assembled, and blocked; the keys behind it have been blocked by `es`. -/
structure Shut (key : Key) (time : ℚ) (es : List Event) (s : Shelf) : Prop where
  gone : s.items.lookup key = none
  blocked : ∃ A B, s.blocked = A ++ (key, time) :: B ∧ ∀ q ∈ B, q.1 ∈ othersBlocked key es

theorem Shut.lookup {time : ℚ} (h : Shut key time es s) : s.blocked.lookup key ≠ none := by
  obtain ⟨A, B, hblocked, -⟩ := h.blocked
  rw [Ne, lookup_eq_none, not_not, hblocked]
  simp

/-- No assembly of a key that is shut starts or ends. -/
theorem Shut.not_allowed {time : ℚ} (h : Shut key time es s) {e : Event} (he : s.Allowed e) :
    ¬ e.Opens key ∧ ¬ e.Ends key := by
  cases e with
  | started k p now =>
    refine ⟨?_, id⟩
    rintro rfl
    exact h.lookup he.2.1
  | stored f p now => exact ⟨id, id⟩
  | ended k startedAt now how =>
    refine ⟨id, ?_⟩
    rintro rfl
    obtain ⟨item, hitem, -⟩ := he
    rw [h.gone] at hitem
    cases hitem
  | purged now => exact ⟨id, id⟩

/-- The key of an assembly that ends is shut. -/
theorem shut_ended (key : Key) (startedAt now : ℚ) (how : Ending) (s : Shelf) :
    Shut key (blockUntil startedAt) [] (s.on (.ended key startedAt now how)) := by
  refine ⟨lookup_popKey_self s.items key, (popKey s.blocked key).drop ((popKey s.blocked key).length + 1 - 64), [], ?_,
    fun q hq => absurd hq List.not_mem_nil⟩
  show List.drop _ (popKey s.blocked key ++ [(key, blockUntil startedAt)]) = _
  rw [List.length_append, List.length_singleton, List.drop_append_of_le_length (by omega)]

theorem Shut.mono {time : ℚ} {fs : List Event} (h : Shut key time es s) (hsub : es ⊆ fs) : Shut key time fs s := by
  obtain ⟨A, B, hblocked, hB⟩ := h.blocked
  exact ⟨h.gone, A, B, hblocked, fun q hq => othersBlocked_subset hsub (hB q hq)⟩

/-- Another key is blocked. -/
theorem Shut.push {time : ℚ} (h : Shut key time es s) (htidy : Tidy s) {k : Key} (hne : k ≠ key) (startedAt now : ℚ)
    (how : Ending) (hfew : (othersBlocked key (es ++ [.ended k startedAt now how])).length < 64) :
    Shut key time (es ++ [.ended k startedAt now how]) (s.on (.ended k startedAt now how)) := by
  have hsub : es ⊆ es ++ [.ended k startedAt now how] := List.subset_append_left _ _
  obtain ⟨A, B, hblocked, hB⟩ := h.blocked
  have hpop : popKey s.blocked k ++ [(k, blockUntil startedAt)] =
      popKey A k ++ (key, time) :: (popKey B k ++ [(k, blockUntil startedAt)]) := by
    rw [hblocked, popKey, List.filter_append, List.filter_cons, if_pos (by simpa using Ne.symm hne)]
    simp [popKey]
  have hk : k ∈ othersBlocked key (es ++ [.ended k startedAt now how]) := by
    rw [othersBlocked, List.mem_dedup, List.mem_filter]
    exact ⟨List.mem_filterMap.mpr ⟨_, List.mem_append_right _ (List.mem_singleton.mpr rfl), rfl⟩, by simpa using hne⟩
  have hbehind : ∀ q ∈ popKey B k ++ [(k, blockUntil startedAt)],
      q.1 ∈ othersBlocked key (es ++ [.ended k startedAt now how]) := by
    intro q hq
    rcases List.mem_append.mp hq with hq | hq
    · exact othersBlocked_subset hsub (hB q (mem_of_mem_popKey hq))
    · obtain rfl := List.mem_singleton.mp hq
      exact hk
  -- the keys behind are different, so there are fewer than 64 of them
  have hkeys : ((popKey B k ++ [(k, blockUntil startedAt)]).map Prod.fst).Nodup := by
    have hall := htidy.blockedKeys
    rw [hblocked, List.map_append, List.map_cons] at hall
    have hnodup := (List.nodup_cons.mp (List.nodup_append.mp hall).2.1).2
    rw [List.map_append, keys_popKey]
    apply List.nodup_append.mpr
    refine ⟨hnodup.filter _, by simp, ?_⟩
    rintro j hj j' hj' rfl
    obtain rfl : j = k := by simpa using hj'
    simp at hj
  have hlength : (popKey B k ++ [(k, blockUntil startedAt)]).length < 64 := by
    rw [← List.length_map (f := Prod.fst)]
    refine lt_of_le_of_lt (List.subperm_of_subset hkeys fun j hj => ?_).length_le hfew
    obtain ⟨q, hq, rfl⟩ := List.mem_map.mp hj
    exact hbehind q hq
  refine ⟨(lookup_popKey_ne s.items (Ne.symm hne)).trans h.gone, (popKey A k).drop
    ((popKey s.blocked k ++ [(k, blockUntil startedAt)]).length - 64), _, ?_, hbehind⟩
  show List.drop _ (popKey s.blocked k ++ [(k, blockUntil startedAt)]) = _
  rw [hpop, List.drop_append_of_le_length]
  simp only [List.length_append, List.length_cons] at hlength ⊢
  omega

theorem Shut.on {time : ℚ} (h : Shut key time es s) (htidy : Tidy s) {e : Event} (he : s.Allowed e) (htime : e.now < time)
    (hfew : (othersBlocked key (es ++ [e])).length < 64) : Shut key time (es ++ [e]) (s.on e) := by
  obtain ⟨hopens, hends⟩ := h.not_allowed he
  have hsub : es ⊆ es ++ [e] := List.subset_append_left _ _
  cases e with
  | started k p now =>
    refine ⟨?_, (h.mono hsub).blocked⟩
    have hne : (key == k) = false := by simpa using Ne.symm hopens
    rw [Shelf.on, lookup_append, h.gone, List.lookup_cons, hne]
    rfl
  | stored f p now =>
    obtain ⟨-, item, hitem, -⟩ := he
    rw [items_stored _ _ hitem]
    refine ⟨?_, (h.mono hsub).blocked⟩
    have hne : key ≠ keyOf f := by
      rintro rfl
      rw [h.gone] at hitem
      cases hitem
    exact (lookup_setKey_ne _ hne _).trans h.gone
  | ended k startedAt now how => exact h.push htidy hends startedAt now how hfew
  | purged now =>
    refine ⟨h.gone, ?_⟩
    obtain ⟨A, B, hblocked, hB⟩ := (h.mono hsub).blocked
    refine ⟨A.filter fun q => decide (¬ now ≥ q.2), B.filter fun q => decide (¬ now ≥ q.2), ?_,
      fun q hq => hB q (List.mem_filter.mp hq).1⟩
    show s.blocked.filter (fun q => decide (¬ now ≥ q.2)) = _
    have hkeep : ¬ now ≥ time := not_le.mpr htime
    rw [hblocked, List.filter_append, List.filter_cons, if_pos (by simpa using hkeep)]

/-- A key stays blocked until its time, unless 64 other keys are blocked. -/
theorem Path.shut {time : ℚ} (htidy : Tidy s₀) (h : Path s₀ es s) (h₀ : Shut key time [] s₀)
    (htime : ∀ e ∈ es, e.now < time) (hfew : (othersBlocked key es).length < 64) : Shut key time es s := by
  have hrel := h.rel (R := fun es s => Tidy s ∧ ((∀ e ∈ es, e.now < time) →
    (othersBlocked key es).length < 64 → Shut key time es s)) (H := []) ⟨htidy, fun _ _ => h₀⟩ ?_
  · exact hrel.2 htime hfew
  · rintro H v e ⟨htidy, hshut⟩ he
    refine ⟨htidy.on he, fun htime hfew => ?_⟩
    have hsub : H ⊆ H ++ [e] := List.subset_append_left _ _
    exact (hshut (fun e' he' => htime e' (hsub he')) ((length_othersBlocked_le hsub).trans_lt hfew)).on htidy he
      (htime e (List.mem_append_right _ (List.mem_singleton.mpr rfl))) hfew

end Shelf

open LoraLink.Application.Shelf (Event)

namespace Reassembler

/-! ## The history of a run -/

variable {r : Reassembler} {key : Key} {item : Assembly} {p : Fragment} {f : Frame} {now : ℚ} {e : Event}

def eventsOf (x : Move Reassembler Call) : List Event := callEvents x.input x.before

abbrev history (T : List (Move Reassembler Call)) : List Event := outputs eventsOf T

/-- The event happens at the time of a call, and what it stores is the frame that the call adds. -/
def Event.Of (c : Call) (e : Event) : Prop := e.now = c.now ∧ ∀ g p t, e = .stored g p t → c = .add g t

theorem of_expire (h : e ∈ r.expireEvents now) : e.now = now ∧ ∀ g p t, e ≠ .stored g p t := by
  rcases List.mem_append.mp h with h | h
  · obtain ⟨q, -, rfl⟩ := List.mem_map.mp h
    exact ⟨rfl, fun _ _ _ h => by cases h⟩
  · obtain rfl := List.mem_singleton.mp h
    exact ⟨rfl, fun _ _ _ h => by cases h⟩

theorem of_assembly (h : e ∈ r.assemblyEvents key p now) : e.now = now ∧ ∀ g p t, e ≠ .stored g p t := by
  unfold assemblyEvents evictEvents at h
  rcases hlookup : r.items.lookup key with _ | item <;> simp only [hlookup] at h
  · rcases List.mem_append.mp h with h | h
    · split at h
      · cases h
      · split at h
        · obtain rfl := List.mem_singleton.mp h
          exact ⟨rfl, fun _ _ _ h => by cases h⟩
        · cases h
    · obtain rfl := List.mem_singleton.mp h
      exact ⟨rfl, fun _ _ _ h => by cases h⟩
  · cases h

theorem of_finish (h : e ∈ finishEvents key item p now) : e.now = now ∧ ∀ g p t, e ≠ .stored g p t := by
  unfold finishEvents at h
  split at h
  · cases h
  · split at h
    · obtain rfl := List.mem_singleton.mp h
      exact ⟨rfl, fun _ _ _ h => by cases h⟩
    · obtain rfl := List.mem_singleton.mp h
      exact ⟨rfl, fun _ _ _ h => by cases h⟩

theorem of_store (h : e ∈ storeEvents f item p now) : Event.Of (.add f now) e := by
  unfold storeEvents at h
  split at h
  · obtain rfl := List.mem_singleton.mp h
    exact ⟨rfl, fun _ _ _ h => by cases h⟩
  · split at h
    · split at h
      · obtain rfl := List.mem_singleton.mp h
        exact ⟨rfl, fun _ _ _ h => by cases h⟩
      · cases h
    · rcases List.mem_cons.mp h with rfl | h
      · exact ⟨rfl, fun _ _ _ h => by cases h; rfl⟩
      · split at h
        · cases h
        · obtain ⟨hnow, hnot⟩ := of_finish h
          exact ⟨hnow, fun g p t heq => absurd heq (hnot g p t)⟩

theorem of_call {c : Call} (h : e ∈ callEvents c r) : Event.Of c e := by
  have hother : ∀ {now}, (e.now = now ∧ ∀ g p t, e ≠ .stored g p t) → now = c.now → Event.Of c e :=
    fun h heq => ⟨heq ▸ h.1, fun g p t he => absurd he (h.2 g p t)⟩
  cases c with
  | expire now => exact hother (of_expire h) rfl
  | add f now =>
    rcases List.mem_append.mp h with h | h
    · exact hother (of_expire h) rfl
    · simp only at h
      split at h
      · cases h
      · split at h
        · cases h
        · rcases List.mem_append.mp h with h | h
          · exact hother (of_assembly h) rfl
          · exact of_store h

theorem of_history {cs : List Call} (h : e ∈ history (trace call r cs)) : ∃ c ∈ cs, Event.Of c e := by
  induction cs generalizing r with
  | nil => cases h
  | cons c cs ih =>
    rcases List.mem_append.mp h with h | h
    · exact ⟨c, List.mem_cons_self, of_call h⟩
    · obtain ⟨c', hc', hof⟩ := ih h
      exact ⟨c', List.mem_cons_of_mem _ hc', hof⟩

/-- The events come in the order of their times. -/
theorem history_clock {cs : List Call} (h : (cs.map Call.now).Pairwise (· ≤ ·)) :
    (history (trace call r cs)).Pairwise fun e e' => e.now ≤ e'.now := by
  induction cs generalizing r with
  | nil => exact List.Pairwise.nil
  | cons c cs ih =>
    rw [List.map_cons, List.pairwise_cons] at h
    show List.Pairwise _ (callEvents c r ++ history (trace call (call c r) cs))
    apply List.pairwise_append.mpr
    refine ⟨?_, ih h.2, ?_⟩
    · refine List.pairwise_of_forall_mem_list fun e he e' he' => ?_
      rw [(of_call he).1, (of_call he').1]
    · intro e he e' he'
      obtain ⟨c', hc', hof⟩ := of_history he'
      rw [(of_call he).1, hof.1]
      exact h.1 _ (List.mem_map_of_mem hc')

theorem run_path (h : r.shelf.Tidy) (cs : List Call) :
    Shelf.Path r.shelf (history (trace call r cs)) (run call r cs).shelf := by
  induction cs generalizing r with
  | nil => exact .nil
  | cons c cs ih =>
    have hcall := call_path h c
    exact hcall.append (ih (hcall.tidy h))

theorem tidy_empty : (shelf {}).Tidy := ⟨List.nodup_nil, Nat.zero_le _, List.nodup_nil⟩

/-- What a call of `add` returns is the last thing it did. -/
theorem add_returns {raw : Bytes} (h : (r.add f now).1 = .ok (some raw)) :
    ∃ es t₀, r.addEvents f now = es ++ [.ended (keyOf f) t₀ now (.delivered raw)] := by
  unfold add at h
  unfold addEvents
  rcases hparse : parseFragment f with e | p <;> simp only [hparse] at h ⊢
  · cases h
  · split at h
    · cases h
    · rename_i hopen
      rw [if_neg hopen]
      generalize hassembly : (r.expire now).2.assembly (keyOf f) p now = a at h
      obtain ⟨item, r'⟩ := a
      unfold store at h
      unfold storeEvents
      simp only at h ⊢
      split at h
      · cases h
      · rename_i hmatch
        rw [if_neg hmatch]
        rcases hpart : item.parts.lookup p.index with _ | data <;> simp only [hpart] at h ⊢
        · split at h
          · cases h
          · rename_i hcount
            rw [if_neg hcount]
            unfold finish at h
            unfold finishEvents
            simp only at h ⊢
            cases hparts : (List.range p.count).mapM fun index => (setKey item.parts p.index p.data).lookup index with
            | none =>
              rw [hparts] at h
              cases h
            | some parts =>
              rw [hparts] at h
              simp only at h ⊢
              split at h
              · cases h
              · rename_i hgood
                obtain rfl : parts.flatten = raw := by simpa using h
                rw [if_neg hgood]
                exact ⟨r.expireEvents now ++ ((r.expire now).2.assemblyEvents (keyOf f) p now ++ [.stored f p now]),
                  item.startedAt, by simp⟩
        · split at h
          · cases h
          · cases h

/-! ## Soundness, and no replays -/

/-- The fragment `index` of a frame: it was added by one of the calls, and stored. -/
def Supplies (cs : List Call) (es : List Event) (key : Key) (raw : Bytes) (index : Nat) (data : Bytes) : Prop :=
  ∃ g p t, Call.add g t ∈ cs ∧ Event.stored g p t ∈ es ∧ keyOf g = key ∧ parseFragment g = .ok p ∧
    g.sourceAgeMs < rtcmTransportTtlMs ∧ p.messageType = typeBits raw ∧ p.totalLength = raw.length ∧ p.index = index ∧
    p.data = data

/-- What a frame that is given out at `now` was put together from, `H` being the history. -/
structure Assembled (cs : List Call) (H : List Event) (key : Key) (now : ℚ) (raw : Bytes) : Prop where
  valid : validRtcm3 raw = true
  since : ∃ p₀ t₀ es D, Shelf.Since key p₀ t₀ H es ∧ now < t₀ + reassemblyTimeoutS ∧
    raw = ((List.range p₀.count).map D).flatten ∧
    ∀ index < p₀.count, Supplies cs es key raw index (D index)

/-- A frame that is given out was put together from fresh fragments with its type and its length, all added since the
assembly of their key was started, less than 0.6 s before. An assembly ends with the time it was started at. Once an
assembly of a key has ended, none of that key is started or ends before 1.0 s after its start, unless 64 other keys have
been blocked. -/
theorem reassembly_sound (cs : List Call) (hclock : (cs.map Call.now).Pairwise (· ≤ ·)) :
    (∀ T₁ x T₂ f now raw, trace call {} cs = T₁ ++ x :: T₂ → x.input = .add f now →
      (x.before.add f now).1 = .ok (some raw) →
      ∃ H t₀, history (T₁ ++ [x]) = H ++ [.ended (keyOf f) t₀ now (.delivered raw)] ∧
        Assembled cs H (keyOf f) now raw) ∧
    (∀ (X Y : List Event) key t₀ t how, history (trace call {} cs) = X ++ .ended key t₀ t how :: Y →
      ∃ p es, Shelf.Since key p t₀ X es) ∧
    (∀ (X Y Z : List Event) key t₀ t how (e : Event),
      history (trace call {} cs) = X ++ .ended key t₀ t how :: (Y ++ e :: Z) →
      e.Opens key ∨ e.Ends key → e.now < t₀ + rtcmTransportTtlMs / 1000 →
      64 ≤ (Shelf.othersBlocked key Y).length) := by
  have hpath := run_path tidy_empty cs
  refine ⟨?_, ?_, ?_⟩
  · intro T₁ x T₂ f now raw hT hinput hraw
    obtain ⟨pre, post, hcs, rfl, hrun, hafter, -⟩ := trace_split hT
    have htrace : trace call {} (pre ++ [x.input]) = trace call {} pre ++ [x] := by
      rw [trace_snoc, ← hrun, ← hafter]
    obtain ⟨es, t₀, hes⟩ := add_returns hraw
    have hhistory : history (trace call {} pre ++ [x]) =
        history (trace call {} pre) ++ es ++ [.ended (keyOf f) t₀ now (.delivered raw)] := by
      rw [history, outputs_append, outputs_cons, outputs_nil, List.append_nil, eventsOf, hinput]
      exact (congrArg _ hes).trans (List.append_assoc _ _ _).symm
    refine ⟨_, t₀, hhistory, ?_⟩
    have hlast := run_path tidy_empty (pre ++ [x.input])
    rw [htrace, hhistory] at hlast
    obtain ⟨v, hbefore, ⟨item, hitem, rfl, hfresh, hwhole⟩, -⟩ := hlast.split
    obtain ⟨p₀, es', hsince, hp₀, hparts⟩ := Shelf.Path.kept hbefore rfl _ (mem_of_lookup hitem)
    obtain ⟨D, hD, hall⟩ := hwhole.data
    obtain ⟨-, -, hcount⟩ := hp₀.fields
    rw [hcount] at hD hall
    refine ⟨hwhole.valid, p₀, item.startedAt, es', D, hsince, by linarith, hD, fun index hindex => ?_⟩
    obtain ⟨g, p, t, hg, hkey, hparse, hmatch, hindex', hdata⟩ := hparts _ (mem_of_lookup (hall index hindex))
    obtain ⟨htyp, hlength, -⟩ := hmatch.fields
    have hcall : Call.add g t ∈ cs := by
      obtain ⟨⟨X, hX⟩, -⟩ := hsince
      have hstored : Event.stored g p t ∈ history (trace call {} (pre ++ [x.input])) := by
        rw [htrace, hhistory, hX]
        exact List.mem_append_left _ (List.mem_append_right _ (List.mem_cons_of_mem _ hg))
      obtain ⟨c, hc, -, hof⟩ := of_history hstored
      rw [← hof g p t rfl, hcs, List.append_cons]
      exact List.mem_append_left _ hc
    exact ⟨g, p, t, hcall, hg, hkey, hparse, age_of_parse hparse, htyp ▸ hwhole.typ.symm, hlength ▸ hwhole.length.symm,
      hindex', hdata⟩
  · intro X Y key t₀ t how hH
    rw [hH] at hpath
    obtain ⟨v, hX, ⟨item, hitem, rfl, -⟩, -⟩ := hpath.split
    obtain ⟨p, es, hsince, -⟩ := Shelf.Path.kept hX rfl _ (mem_of_lookup hitem)
    exact ⟨p, es, hsince⟩
  · intro X Y Z key t₀ t how e hH he htime
    have htimes := history_clock (r := {}) hclock
    rw [hH] at hpath htimes
    obtain ⟨v, hX, hended, hrest⟩ := hpath.split
    obtain ⟨u, hY, hallowed, -⟩ := hrest.split
    by_contra hfew
    have hbefore : ∀ e' ∈ Y, e'.now < Shelf.blockUntil t₀ := by
      intro e' he'
      have hpair := (List.pairwise_append.mp (List.pairwise_cons.mp (List.pairwise_append.mp htimes).2.1).2).2.2
      exact (hpair e' he' e List.mem_cons_self).trans_lt htime
    have htidy := (Shelf.Path.tidy hX tidy_empty).on hended
    have hshut := Shelf.Path.shut htidy hY (Shelf.shut_ended key t₀ t how v) hbefore (not_le.mp hfew)
    obtain ⟨hopens, hends⟩ := hshut.not_allowed hallowed
    exact he.elim hopens hends

/-- A frame of three fragments out of order, one of them again, and all of them again a second later. -/
def replayed : List Call :=
  let frame (age : Int) (index : Nat) := piece (zeroFrame 343) 1 1 age index
  [.add (frame 0 2) 0, .add (frame 0 0) (1 / 10), .add (frame 0 1) (2 / 10), .add (frame 20 0) (5 / 10),
    .add (frame 0 0) (11 / 10), .add (frame 0 2) (11 / 10), .add (frame 0 1) (12 / 10)]

set_option maxRecDepth 100000 in
theorem reassembly_sound_replayed : ∃ H t₀,
    history (trace call {} (replayed.take 3)) = H ++ [.ended (1, 1) t₀ (2 / 10) (.delivered (zeroFrame 343))] ∧
      Assembled replayed H (1, 1) (2 / 10) (zeroFrame 343) ∧
      ∀ (Y Z : List Event) (e : Event), history (trace call {} replayed) =
          H ++ .ended (1, 1) t₀ (2 / 10) (.delivered (zeroFrame 343)) :: (Y ++ e :: Z) →
        e.Opens (1, 1) ∨ e.Ends (1, 1) → t₀ + 1 ≤ e.now := by
  obtain ⟨hdelivered, -, hreplays⟩ := reassembly_sound replayed (by decide +kernel)
  let r := run call {} (replayed.take 2)
  have htrace : trace call {} replayed = trace call {} (replayed.take 2) ++
      ⟨r, .add (piece (zeroFrame 343) 1 1 0 1) (2 / 10), call (.add (piece (zeroFrame 343) 1 1 0 1) (2 / 10)) r⟩ ::
        trace call (call (.add (piece (zeroFrame 343) 1 1 0 1) (2 / 10)) r) (replayed.drop 3) := rfl
  obtain ⟨H, t₀, hH, hassembled⟩ := hdelivered _ _ _ (piece (zeroFrame 343) 1 1 0 1) (2 / 10) (zeroFrame 343) htrace rfl
    (by decide +kernel)
  refine ⟨H, t₀, hH, hassembled, fun Y Z e hhistory he => ?_⟩
  by_contra hearly
  have hmany := hreplays H Y Z (1, 1) t₀ (2 / 10) _ e hhistory he (by simpa [rtcmTransportTtlMs] using hearly)
  have hfew : (history (trace call {} replayed)).length < 64 := by decide +kernel
  have hless : (Shelf.othersBlocked (1, 1) Y).length ≤ Y.length := 
    (List.dedup_sublist _).length_le.trans ((List.length_filter_le _ _).trans (List.length_filterMap_le _ _))
  rw [hhistory] at hfew
  simp only [List.length_append, List.length_cons] at hfew
  omega

end Reassembler

end LoraLink.Application
