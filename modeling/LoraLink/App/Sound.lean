import LoraLink.App.Arrival

/-!
# What a reassembler can be given

Frames of any content are added to a reassembler, most of which no sender would make. Whatever they are, the assemblies
stay sound, and a frame that is refused harms at most the message it says it belongs to.

- `Shelf.Sound`, `Shelf.Timely`: what holds of the assemblies and the blocked keys between calls;
- `store_outcome`: what happens when a fragment meets its assembly, in four cases;
- `sound_call`: every call keeps the assemblies sound, whatever it is given;
- `add_raises`: nothing but an `ApplicationError` is raised;
- `rejected_fragment`: what a refused frame leaves behind.
-/

namespace LoraLink.Application

/-! ## Sound assemblies -/

/-- The parts of an assembly are parts of a frame of its length. -/
structure Assembly.Sound (item : Assembly) : Prop where
  total : 1 ≤ item.totalLength ∧ item.totalLength ≤ maxRtcmFrameSize
  count : item.fragmentCount = Application.fragmentCount item.totalLength ∧ 1 ≤ item.fragmentCount ∧
    item.fragmentCount ≤ maxRtcmFragments
  keys : (item.parts.map Prod.fst).Nodup
  fits : ∀ q ∈ item.parts, q.1 < item.fragmentCount ∧
    (q.2.length : Int) = expectedLength item.totalLength q.1 item.fragmentCount
  incomplete : item.parts.length < item.fragmentCount

/-- The errors of the checks on the frame itself. -/
def frameErrors : List ApplicationError := [.rtcmFragmentBody, .staleRtcmFragment, .rtcmFragmentShape]

/-- The errors of a fragment that does not go with its assembly. -/
def assemblyErrors : List ApplicationError := [.metadataConflict, .dataConflict, .assembledRtcmFrame]

theorem parse_error {f : Frame} {e : ApplicationError} (h : parseFragment f = .error e) : e ∈ frameErrors := by
  unfold parseFragment at h
  split at h
  · cases h
    exact List.mem_cons_self
  · split at h
    · cases h
      exact List.mem_cons_of_mem _ List.mem_cons_self
    · simp only at h
      split at h
      · cases h
        exact List.mem_cons_of_mem _ (List.mem_cons_of_mem _ List.mem_cons_self)
      · cases h

/-- The fragment has the shape of a part of a frame of its length. -/
structure Fragment.Shaped (p : Fragment) : Prop where
  total : 1 ≤ p.totalLength ∧ p.totalLength ≤ maxRtcmFrameSize
  count : p.count = fragmentCount p.totalLength ∧ 1 ≤ p.count ∧ p.count ≤ maxRtcmFragments
  index : p.index < p.count
  length : (p.data.length : Int) = expectedLength p.totalLength p.index p.count

theorem shaped_of_parse {f : Frame} {p : Fragment} (h : parseFragment f = .ok p) : p.Shaped := by
  unfold parseFragment at h
  split at h
  · cases h
  · split at h
    · cases h
    · simp only at h
      split at h
      · cases h
      · rename_i hshape
        cases h
        simp only [not_or, not_not, not_lt, ge_iff_le, not_le] at hshape
        obtain ⟨hpos, hmax, hcount, hrange, hindex, hlength⟩ := hshape
        exact ⟨⟨Nat.pos_of_ne_zero hpos, hmax⟩, ⟨hcount, hrange⟩, hindex, hlength⟩

/-- An assembly that has been opened for a fragment. -/
theorem sound_opened {p : Fragment} (h : p.Shaped) (now : ℚ) : (Shelf.opened p now).Sound where
  total := h.total
  count := h.count
  keys := List.nodup_nil
  fits := fun _ hq => absurd hq List.not_mem_nil
  incomplete := h.count.2.1

/-- A part that was missing is stored. -/
structure Stores (item : Assembly) (p : Fragment) : Prop where
  keys : ((setKey item.parts p.index p.data).map Prod.fst).Nodup
  fits : ∀ q ∈ setKey item.parts p.index p.data, q.1 < item.fragmentCount ∧
    (q.2.length : Int) = expectedLength item.totalLength q.1 item.fragmentCount
  some : setKey item.parts p.index p.data ≠ []

theorem Assembly.Sound.stores {item : Assembly} {p : Fragment} (h : item.Sound) (hp : p.Shaped)
    (hsame : Shelf.Matches item p) (hnew : item.parts.lookup p.index = none) : Stores item p := by
  obtain ⟨-, hlength, hcount⟩ := hsame.fields
  have hset := setKey_new hnew p.data
  constructor
  · rw [hset, List.map_append]
    apply List.nodup_append.mpr
    refine ⟨h.keys, by simp, ?_⟩
    rintro k hk k' hk' rfl
    obtain rfl : k = p.index := by simpa using hk'
    exact lookup_eq_none.mp hnew hk
  · intro q hq
    rcases mem_of_mem_setKey hq with rfl | hq
    · rw [hlength, hcount]
      exact ⟨hp.index, hp.length⟩
    · exact h.fits q hq
  · rw [hset]
    exact List.append_ne_nil_of_right_ne_nil _ (List.cons_ne_nil _ _)

/-- All parts of a full assembly are found. -/
theorem mapM_full {parts : List (Nat × Bytes)} {n : Nat} (hkeys : (parts.map Prod.fst).Nodup)
    (hfits : ∀ q ∈ parts, q.1 < n) (hfull : ¬ parts.length < n) :
    ∃ ds, (List.range n).mapM (fun i => parts.lookup i) = some ds := by
  refine ⟨(List.range n).map fun i => (parts.lookup i).getD [], Reassembler.mapM_of_forall fun i hi => ?_⟩
  have hall : ∀ j < n, j ∈ parts.map Prod.fst := by
    intro j hj
    by_contra hnot
    refine hfull ?_
    rw [← List.length_map (f := Prod.fst)]
    refine (Reassembler.length_lt_iff hkeys fun k hk => ?_).mpr ⟨j, hj, hnot⟩
    obtain ⟨q, hq, rfl⟩ := List.mem_map.mp hk
    exact hfits q hq
  obtain ⟨q, hq, rfl⟩ := List.mem_map.mp (hall i (List.mem_range.mp hi))
  rw [lookup_of_mem hkeys (show (q.1, q.2) ∈ parts from hq)]
  rfl

/-! ## Sound shelves -/

namespace Shelf

/-- What holds of the assemblies and the blocked keys, if `P` does of each assembly. -/
structure Orderly (P : Key → Assembly → Prop) (s : Shelf) : Prop where
  tidy : s.Tidy
  apart : ∀ key ∈ s.items.map Prod.fst, key ∉ s.blocked.map Prod.fst
  bound : s.blocked.length ≤ 64
  each : ∀ q ∈ s.items, P q.1 q.2

/-- Every assembly is sound and has a part. -/
abbrev Sound (s : Shelf) : Prop := Orderly (fun _ item => item.Sound ∧ item.parts ≠ []) s

/-- At `now` no assembly is too old, and every block lies in the future. -/
structure Timely (now : ℚ) (s : Shelf) : Prop where
  fresh : ∀ q ∈ s.items, now - q.2.startedAt < reassemblyTimeoutS
  future : ∀ b ∈ s.blocked, now < b.2

/-- The assembly that was started at `startedAt` is gone, and its key is blocked. -/
def close (key : Key) (startedAt : ℚ) (s : Shelf) : Shelf := s.on (.ended key startedAt startedAt .rejected)

variable {P Q : Key → Assembly → Prop} {s : Shelf} {key : Key} {item : Assembly} {now : ℚ}

theorem Orderly.mono (h : Orderly P s) (hPQ : ∀ key item, P key item → Q key item) : Orderly Q s :=
  { h with each := fun q hq => hPQ _ _ (h.each q hq) }

theorem Orderly.close (h : Orderly P s) (hitem : s.items.lookup key = some item)
    (hPQ : ∀ k i, k ≠ key → P k i → Q k i) : Orderly Q (s.close key item.startedAt) := by
  refine ⟨h.tidy.on ⟨item, hitem, rfl, trivial⟩, ?_, ?_, ?_⟩
  · intro k hk hblocked
    have hmem : k ∈ (popKey s.items key).map Prod.fst := hk
    rw [keys_popKey, List.mem_filter] at hmem
    obtain ⟨hold, hne⟩ := hmem
    have hall := ((List.drop_sublist _ _).map Prod.fst).subset hblocked
    rw [List.map_append, keys_popKey, List.mem_append, List.mem_filter] at hall
    rcases hall with ⟨hall, -⟩ | hall
    · exact h.apart k hold hall
    · exact of_decide_eq_true hne (by simpa using hall)
  · simp only [Shelf.close, on, List.length_drop]
    omega
  · intro q hq
    have hmem : q ∈ popKey s.items key := hq
    obtain ⟨hold, hne⟩ := List.mem_filter.mp hmem
    exact hPQ _ _ (by simpa using hne) (h.each q hold)

/-- The key of a fresh assembly is blocked for some time to come. -/
theorem Timely.close (h : Timely now s) (hitem : s.items.lookup key = some item) :
    Timely now (s.close key item.startedAt) := by
  constructor
  · exact fun q hq => h.fresh q (mem_of_mem_popKey hq)
  · intro b hb
    rcases List.mem_append.mp ((List.drop_sublist _ _).subset hb) with hb | hb
    · exact h.future b (mem_of_mem_popKey hb)
    · obtain rfl := List.mem_singleton.mp hb
      have hfresh := h.fresh _ (mem_of_lookup hitem)
      simp only [blockUntil, rtcmTransportTtlMs, reassemblyTimeoutS] at hfresh ⊢
      norm_num at hfresh ⊢
      linarith

/-- Another assembly is put behind the others. -/
theorem Orderly.start (h : Orderly P s) (habsent : s.Absent key) (hroom : s.items.length < maxReassemblies)
    (hitem : P key item) : Orderly P { s with items := s.items ++ [(key, item)] } := by
  have hkey : key ∉ s.items.map Prod.fst := lookup_eq_none.mp habsent.1
  refine ⟨⟨?_, ?_, h.tidy.blockedKeys⟩, ?_, h.bound, ?_⟩
  · rw [List.map_append]
    apply List.nodup_append.mpr
    refine ⟨h.tidy.keys, by simp, ?_⟩
    rintro k hk k' hk' rfl
    obtain rfl : k = key := by simpa using hk'
    exact hkey hk
  · simp only [List.length_append, List.length_singleton]
    omega
  · intro k hk
    rw [List.map_append, List.mem_append] at hk
    rcases hk with hk | hk
    · exact h.apart k hk
    · obtain rfl : k = key := by simpa using hk
      exact lookup_eq_none.mp habsent.2
  · intro q hq
    rcases List.mem_append.mp hq with hq | hq
    · exact h.each q hq
    · obtain rfl := List.mem_singleton.mp hq
      exact hitem

/-- An assembly is replaced by another one of its key. -/
theorem Orderly.set (h : Orderly P s) (hitem : s.items.lookup key = some item) {item' : Assembly} (hitem' : Q key item')
    (hPQ : ∀ k i, k ≠ key → P k i → Q k i) : Orderly Q { s with items := setKey s.items key item' } := by
  have hsome : s.items.lookup key ≠ none := by simp [hitem]
  refine ⟨⟨?_, ?_, h.tidy.blockedKeys⟩, ?_, h.bound, ?_⟩
  · rw [keys_setKey hsome]
    exact h.tidy.keys
  · rw [← List.length_map (f := Prod.fst), keys_setKey hsome, List.length_map]
    exact h.tidy.length
  · rw [keys_setKey hsome]
    exact h.apart
  · intro q hq
    by_cases hkey : q.1 = key
    · have hnodup : ((setKey s.items key item').map Prod.fst).Nodup := by
        rw [keys_setKey hsome]
        exact h.tidy.keys
      have hlookup := lookup_of_mem hnodup (show (q.1, q.2) ∈ _ from hq)
      rw [hkey, lookup_setKey_self] at hlookup
      injection hlookup with heq
      rw [hkey, ← heq]
      exact hitem'
    · rcases mem_of_mem_setKey hq with rfl | hq
      · exact absurd rfl hkey
      · exact hPQ _ _ hkey (h.each q hq)

theorem Timely.set (h : Timely now s) (hitem : s.items.lookup key = some item) {item' : Assembly}
    (hstart : item'.startedAt = item.startedAt) : Timely now { s with items := setKey s.items key item' } := by
  refine ⟨fun q hq => ?_, h.future⟩
  rcases mem_of_mem_setKey hq with rfl | hq
  · rw [hstart]
    exact h.fresh _ (mem_of_lookup hitem)
  · exact h.fresh q hq

end Shelf

namespace Reassembler

open LoraLink.Application.Shelf (Orderly Sound Timely)

variable {P : Key → Assembly → Prop} {r : Reassembler} {key : Key} {item : Assembly} {p : Fragment} {now : ℚ}

theorem shelf_discard (key : Key) (item : Assembly) (r : Reassembler) :
    (r.discard key item).shelf = r.shelf.close key item.startedAt := by
  simp only [Shelf.close, Shelf.on, discard, block, shelf, Shelf.blockUntil]

theorem timeOut_orderly (expired : List (Key × Assembly)) : ∀ {r : Reassembler}, (expired.map Prod.fst).Nodup →
    (∀ q ∈ expired, r.items.lookup q.1 = some q.2) → r.shelf.Orderly P → (r.timeOut expired).shelf.Orderly P := by
  induction expired with
  | nil => exact fun _ _ h => h
  | cons q expired ih =>
    intro r hkeys hitems h
    obtain ⟨hfirst, hrest⟩ := List.nodup_cons.mp hkeys
    have hclose : (r.shelf.close q.1 q.2.startedAt).Orderly P :=
      h.close (hitems q List.mem_cons_self) fun _ _ _ hP => hP
    have hitems' : ∀ q' ∈ expired, (popKey r.items q.1).lookup q'.1 = some q'.2 := by
      intro q' hq'
      have hne : q'.1 ≠ q.1 := fun heq => hfirst (heq ▸ List.mem_map_of_mem hq')
      exact (lookup_popKey_ne r.items hne).trans (hitems q' (List.mem_cons_of_mem _ hq'))
    exact @ih { r.discard q.1 q.2 with timeoutCount := r.timeoutCount + 1 } hrest hitems' hclose

theorem expire_orderly (h : r.shelf.Orderly P) (now : ℚ) : (r.expire now).2.shelf.Orderly P := by
  have hkeys := h.tidy.keys.sublist ((List.filter_sublist
    (p := fun q : Key × Assembly => decide (now - q.2.startedAt ≥ reassemblyTimeoutS))).map Prod.fst)
  have hout := timeOut_orderly _ hkeys (fun q hq => lookup_of_mem h.tidy.keys (List.mem_filter.mp hq).1) h
  refine ⟨⟨hout.tidy.keys, hout.tidy.length, ?_⟩, fun k hk hblocked => ?_, ?_, hout.each⟩
  · exact hout.tidy.blockedKeys.sublist (List.filter_sublist.map _)
  · exact hout.apart k hk ((List.filter_sublist.map Prod.fst).subset hblocked)
  · exact (List.length_filter_le _ _).trans hout.bound

theorem expire_timely (now : ℚ) (r : Reassembler) : (r.expire now).2.shelf.Timely now := by
  refine ⟨fresh_expire now r, fun b hb => ?_⟩
  have hfuture := of_decide_eq_true (List.mem_filter.mp hb).2
  exact not_le.mp hfuture

/-- The oldest assembly makes room, if there is none. -/
theorem evict_cases (h : r.shelf.Tidy) : r.evict.shelf = r.shelf ∨
    ∃ key item, r.items.lookup key = some item ∧ r.evict.shelf = r.shelf.close key item.startedAt := by
  rcases hitems : r.items with _ | ⟨⟨key, item⟩, rest⟩
  · left
    simp only [evict, hitems]
  · by_cases hfull : r.items.length = maxReassemblies
    · right
      have hnew : key ∉ rest.map Prod.fst := by
        have hkeys := h.keys
        simp only [shelf, hitems, List.map_cons, List.nodup_cons] at hkeys
        exact hkeys.1
      have hpop : popKey r.items key = rest := by
        rw [hitems, popKey, List.filter_cons, if_neg (by simp)]
        apply List.filter_eq_self.mpr
        intro q hq
        have hne : q.1 ≠ key := fun heq => hnew (heq ▸ List.mem_map_of_mem hq)
        simpa using hne
      have hclose : r.shelf.close key item.startedAt =
          (({ r with items := rest } : Reassembler).block key (item.startedAt + rtcmTransportTtlMs / 1000)).shelf := by
        rw [← shelf_discard, discard, hpop]
      refine ⟨key, item, by simp, ?_⟩
      rw [hclose, evict, hitems]
      simp only
      rw [if_pos (by rwa [hitems] at hfull)]
      rfl
    · left
      rw [evict, hitems]
      simp only
      rw [if_neg (by rwa [hitems] at hfull)]

theorem evict_orderly (h : r.shelf.Orderly P) : r.evict.shelf.Orderly P := by
  rcases evict_cases h.tidy with heq | ⟨key, item, hitem, heq⟩
  · rwa [heq]
  · rw [heq]
    exact h.close hitem fun _ _ _ hP => hP

theorem evict_timely (h : r.shelf.Tidy) (htime : r.shelf.Timely now) : r.evict.shelf.Timely now := by
  rcases evict_cases h with heq | ⟨key, item, hitem, heq⟩
  · rwa [heq]
  · rw [heq]
    exact htime.close hitem

/-- The fragment's assembly may have no part yet. -/
abbrev Waits (key : Key) (k : Key) (item : Assembly) : Prop := item.Sound ∧ (k ≠ key → item.parts ≠ [])

/-- The assembly that a fragment meets. -/
structure Meets (key : Key) (now : ℚ) (out : Assembly × Reassembler) : Prop where
  item : out.2.items.lookup key = some out.1
  orderly : out.2.shelf.Orderly (Waits key)
  timely : out.2.shelf.Timely now

theorem meets_assembly (h : r.shelf.Sound) (htime : r.shelf.Timely now) (hopen : r.blockedUntil.lookup key = none)
    (hp : p.Shaped) : Meets key now (r.assembly key p now) := by
  have hwait : ∀ k i, (Assembly.Sound i ∧ i.parts ≠ []) → Waits key k i := fun _ _ hi => ⟨hi.1, fun _ => hi.2⟩
  rcases hitem : r.items.lookup key with _ | item
  · have hlookup := (assembly_path (p := p) h.tidy htime.fresh hopen).2.1
    have habsent : r.shelf.Absent key := ⟨hitem, hopen⟩
    rw [assembly_new h.tidy habsent] at hlookup ⊢
    have hevict : r.evict.shelf.Orderly (Waits key) := (evict_orderly h).mono hwait
    refine ⟨hlookup, ?_, ?_⟩
    · exact hevict.start (evict_absent h.tidy habsent) (evict_path h.tidy now).2
        ⟨sound_opened hp now, fun hne => absurd rfl hne⟩
    · have hold := evict_timely h.tidy htime
      refine ⟨fun q hq => ?_, hold.future⟩
      rcases List.mem_append.mp hq with hq | hq
      · exact hold.fresh q hq
      · obtain rfl := List.mem_singleton.mp hq
        simp only [Shelf.opened, sub_self, reassemblyTimeoutS]
        norm_num
  · unfold assembly
    rw [hitem]
    exact ⟨hitem, h.mono hwait, htime⟩

/-! ## A fragment meets its assembly -/

/-- What becomes of an assembly that a fragment meets. -/
inductive Outcome (key : Key) (item : Assembly) (r : Reassembler) : Except Raised (Option Bytes) → Shelf → Prop
  | refused (e : ApplicationError) (he : e ∈ assemblyErrors) :
      Outcome key item r (.error (.applicationError e)) (r.shelf.close key item.startedAt)
  | delivered (raw : Bytes) : Outcome key item r (.ok (some raw)) (r.shelf.close key item.startedAt)
  | repeated (h : item.parts ≠ []) : Outcome key item r (.ok none) r.shelf
  | grown (item' : Assembly) (hsound : item'.Sound) (hparts : item'.parts ≠ [])
      (hstart : item'.startedAt = item.startedAt) :
      Outcome key item r (.ok none) { r.shelf with items := setKey r.items key item' }

theorem conflict_shelf : ({ r.discard key item with conflictCount := r.conflictCount + 1 } : Reassembler).shelf =
    r.shelf.close key item.startedAt := by
  rw [← shelf_discard]
  rfl

/-- A full assembly is closed, whatever its parts make. -/
theorem finish_outcome {item' : Assembly} (hstart : item'.startedAt = item.startedAt)
    (hfound : ∃ ds, (List.range p.count).mapM (fun i => item'.parts.lookup i) = some ds) :
    Outcome key item r (({ r with items := setKey r.items key item' } : Reassembler).finish key item' p).1
      (({ r with items := setKey r.items key item' } : Reassembler).finish key item' p).2.shelf := by
  obtain ⟨ds, hds⟩ := hfound
  have hshelf : (({ r with items := setKey r.items key item' } : Reassembler).discard key item').shelf =
      r.shelf.close key item.startedAt := by
    rw [shelf_discard, hstart]
    simp only [Shelf.close, Shelf.on, shelf, popKey_setKey]
  unfold finish
  rw [hds]
  simp only
  split
  · rw [hshelf]
    exact .refused _ (by decide)
  · rw [hshelf]
    exact .delivered _

/-- What happens when a fragment meets its assembly. -/
theorem store_outcome (hsound : item.Sound) (hp : p.Shaped) :
    Outcome key item r (r.store key item p).1 (r.store key item p).2.shelf := by
  unfold store
  simp only
  split
  · rw [conflict_shelf]
    exact .refused _ (by decide)
  · rename_i hsame
    rw [not_not] at hsame
    rcases hpart : item.parts.lookup p.index with _ | data <;> simp only
    · have hstores := hsound.stores hp hsame hpart
      have hcount : item.fragmentCount = p.count := (Shelf.Matches.fields hsame).2.2
      split
      · rename_i hfew
        refine .grown _ ⟨hsound.total, hsound.count, hstores.keys, hstores.fits, ?_⟩ hstores.some rfl
        rw [hcount]
        exact hfew
      · rename_i hfull
        refine finish_outcome rfl (mapM_full hstores.keys (fun q hq => ?_) hfull)
        rw [← hcount]
        exact (hstores.fits q hq).1
    · split
      · rw [conflict_shelf]
        exact .refused _ (by decide)
      · refine .repeated fun hnil => ?_
        rw [hnil] at hpart
        cases hpart

/-- What a frame finds when it is added. -/
theorem add_cases (f : Frame) (now : ℚ) (r : Reassembler) :
    (∃ e ∈ .expiredOrCompleted :: frameErrors, r.add f now = (.error (.applicationError e), (r.expire now).2)) ∨
      ∃ p, p.Shaped ∧ (r.expire now).2.blockedUntil.lookup (keyOf f) = none ∧
        r.add f now = ((r.expire now).2.assembly (keyOf f) p now).2.store (keyOf f)
          ((r.expire now).2.assembly (keyOf f) p now).1 p := by
  unfold add
  rcases hparse : parseFragment f with e | p <;> simp only
  · exact Or.inl ⟨e, List.mem_cons_of_mem _ (parse_error hparse), rfl⟩
  · split
    · exact Or.inl ⟨_, List.mem_cons_self, rfl⟩
    · rename_i hopen
      exact Or.inr ⟨p, shaped_of_parse hparse, Option.not_isSome_iff_eq_none.mp hopen, rfl⟩

theorem Outcome.sound {result : Except Raised (Option Bytes)} {s : Shelf} {out : Assembly × Reassembler}
    (h : Outcome key out.1 out.2 result s) (hmeets : Meets key now out) : s.Sound ∧ s.Timely now := by
  have hother : ∀ k i, k ≠ key → Waits key k i → Assembly.Sound i ∧ i.parts ≠ [] := fun _ _ hne hi => ⟨hi.1, hi.2 hne⟩
  cases h with
  | refused e he => exact ⟨hmeets.orderly.close hmeets.item hother, hmeets.timely.close hmeets.item⟩
  | delivered raw => exact ⟨hmeets.orderly.close hmeets.item hother, hmeets.timely.close hmeets.item⟩
  | repeated hparts =>
    refine ⟨{ hmeets.orderly with each := fun q hq => ?_ }, hmeets.timely⟩
    by_cases hkey : q.1 = key
    · have hlookup := lookup_of_mem hmeets.orderly.tidy.keys (show (q.1, q.2) ∈ _ from hq)
      rw [hkey, show out.2.shelf.items.lookup key = some out.1 from hmeets.item] at hlookup
      injection hlookup with heq
      exact ⟨(hmeets.orderly.each q hq).1, heq ▸ hparts⟩
    · exact hother _ _ hkey (hmeets.orderly.each q hq)
  | grown item' hsound hparts hstart =>
    exact ⟨hmeets.orderly.set hmeets.item ⟨hsound, hparts⟩ hother, hmeets.timely.set hmeets.item hstart⟩

/-- Every call keeps the assemblies sound, and leaves none that is too old and no block that has passed. -/
theorem sound_call (h : r.shelf.Sound) (c : Call) : (call c r).shelf.Sound ∧ (call c r).shelf.Timely c.now := by
  cases c with
  | expire now => exact ⟨expire_orderly h now, expire_timely now r⟩
  | add f now =>
    show (r.add f now).2.shelf.Sound ∧ (r.add f now).2.shelf.Timely now
    rcases add_cases f now r with ⟨e, -, heq⟩ | ⟨p, hp, hopen, heq⟩
    · rw [heq]
      exact ⟨expire_orderly h now, expire_timely now r⟩
    · have hmeets := meets_assembly (expire_orderly h now) (expire_timely now r) hopen hp
      rw [heq]
      exact (store_outcome (hmeets.orderly.each _ (mem_of_lookup hmeets.item)).1 hp).sound hmeets

/-- Nothing but an `ApplicationError` is raised. -/
theorem add_raises (h : r.shelf.Sound) (f : Frame) (now : ℚ) : (r.add f now).1 ≠ .error .keyError := by
  intro hkey
  rcases add_cases f now r with ⟨e, -, heq⟩ | ⟨p, hp, hopen, heq⟩
  · rw [heq] at hkey
    cases hkey
  · have hmeets := meets_assembly (expire_orderly h now) (expire_timely now r) hopen hp
    have hout := @store_outcome ((r.expire now).2.assembly (keyOf f) p now).2 (keyOf f) _ p
      (hmeets.orderly.each _ (mem_of_lookup hmeets.item)).1 hp
    rw [← heq, hkey] at hout
    cases hout

theorem sound_nil : ({} : Reassembler).shelf.Sound :=
  ⟨⟨List.nodup_nil, Nat.zero_le _, List.nodup_nil⟩, fun _ hk => absurd hk List.not_mem_nil, Nat.zero_le _,
    fun _ hq => absurd hq List.not_mem_nil⟩

theorem sound_run (calls : List Call) : (run call {} calls).shelf.Sound :=
  run_inv (P := fun r : Reassembler => r.shelf.Sound) sound_nil (fun c _ h => (sound_call h c).1) calls

/-! ## Refused frames -/

/-- The newest 64 of the blocked keys. -/
def newest (blocked : List (Key × ℚ)) : List (Key × ℚ) := blocked.drop (blocked.length - 64)

/-- The reassembler in which a frame of the key finds its assembly, or room for one. -/
def room (key : Key) (r : Reassembler) : Reassembler := if (r.items.lookup key).isSome then r else r.evict

/-- When the assembly of the key was started, or is. -/
def startOf (key : Key) (now : ℚ) (r : Reassembler) : ℚ := ((r.items.lookup key).map Assembly.startedAt).getD now

/-- An assembly that a frame of its key finds, or has just opened, is closed. -/
theorem close_assembly (h : r.shelf.Sound) (hopen : r.blockedUntil.lookup key = none) (p : Fragment) (now : ℚ) :
    (r.assembly key p now).2.shelf.close key (r.assembly key p now).1.startedAt =
      { items := popKey (r.room key).items key
        blocked := newest ((r.room key).blockedUntil ++ [(key, r.startOf key now + 1)]) } := by
  have hsame : ∀ {r' : Reassembler}, r'.blockedUntil.lookup key = none →
      popKey r'.blockedUntil key = r'.blockedUntil := by
    intro r' hnone
    apply List.filter_eq_self.mpr
    intro b hb
    have hne : b.1 ≠ key := fun heq => lookup_eq_none.mp hnone (heq ▸ List.mem_map_of_mem hb)
    simpa using hne
  have hone : ∀ t : ℚ, Shelf.blockUntil t = t + 1 := by
    intro t
    simp only [Shelf.blockUntil, rtcmTransportTtlMs]
    norm_num
  rcases hitem : r.items.lookup key with _ | item
  · have habsent : r.shelf.Absent key := ⟨hitem, hopen⟩
    obtain ⟨hnew, hstill⟩ := evict_absent h.tidy habsent
    have hpop : popKey (r.evict.items ++ [(key, Shelf.opened p now)]) key = popKey r.evict.items key := by
      simp [popKey]
    have hroom : r.room key = r.evict := if_neg (by rw [hitem]; exact Bool.false_ne_true)
    rw [assembly_new h.tidy habsent, hroom]
    simp only [Shelf.close, Shelf.on, shelf, hpop, hsame hstill, hone, newest, startOf, hitem]
    rfl
  · have hroom : r.room key = r := if_pos (by rw [hitem]; rfl)
    unfold assembly
    rw [hroom, hitem]
    simp only [Shelf.close, Shelf.on, shelf, hsame hopen, hone, newest, startOf, hitem]
    rfl

/-- **A refused fragment harms only its own message.** After any calls a frame is added and something is raised. If the
frame is refused for itself or because its key is blocked, what is left is the state after `expire`. If it does not go
with its assembly, or completes a frame that is invalid, then that assembly is closed, after the oldest one made room if
the frame has opened it: its key is blocked until one second after its start, and nothing else is changed. -/
theorem rejected_fragment (calls : List Call) (f : Frame) (now : ℚ) {e : Raised}
    (he : ((run call {} calls).add f now).1 = .error e) :
    let expired := ((run call {} calls).expire now).2
    (∃ e' ∈ .expiredOrCompleted :: frameErrors, e = .applicationError e' ∧
        ((run call {} calls).add f now).2 = expired) ∨
      ∃ e' ∈ assemblyErrors, e = .applicationError e' ∧
        ((run call {} calls).add f now).2.shelf =
          { items := (expired.room (keyOf f)).items.filter fun q => q.1 ≠ keyOf f
            blocked := newest ((expired.room (keyOf f)).blockedUntil ++
              [(keyOf f, expired.startOf (keyOf f) now + 1)]) } := by
  intro expired
  have hsound := expire_orderly (sound_run calls) now
  rcases add_cases f now (run call {} calls) with ⟨e', he', heq⟩ | ⟨p, hp, hopen, heq⟩
  · rw [heq] at he ⊢
    injection he with he
    exact Or.inl ⟨e', he', he.symm, rfl⟩
  · have hmeets := meets_assembly hsound (expire_timely now _) hopen hp
    have hout := @store_outcome (expired.assembly (keyOf f) p now).2 (keyOf f) _ p
      (hmeets.orderly.each _ (mem_of_lookup hmeets.item)).1 hp
    have hclose := close_assembly hsound hopen p now
    rw [← heq, he] at hout
    generalize hshelf : ((run call {} calls).add f now).2.shelf = s at hout
    cases hout with
    | refused e' he' => exact Or.inr ⟨e', he', rfl, hclose⟩

/-- The first of two fragments, with zeros for data. -/
def zeros (type : UInt8) : Frame :=
  { typ := rtcmFragment, senderSession := 7, messageId := 1, sourceAgeMs := 0
    body := [0, type, 0, 175, 0, 2] ++ List.replicate 174 0 }

/-- A fragment comes again with another message type. -/
theorem rejected_fragment_zeros :
    ∃ e' ∈ assemblyErrors, Raised.applicationError .metadataConflict = .applicationError e' ∧
      ((run call {} [.add (zeros 1) 0]).add (zeros 2) (1 / 10)).2.shelf = { items := [], blocked := [((7, 1), 1)] } := by
  have he : ((run call {} [.add (zeros 1) 0]).add (zeros 2) (1 / 10)).1 =
      .error (.applicationError .metadataConflict) := by decide +kernel
  rcases rejected_fragment [.add (zeros 1) 0] (zeros 2) (1 / 10) he with ⟨e', hmem, heq, -⟩ | ⟨e', hmem, heq, hshelf⟩
  · cases heq
    exact absurd hmem (by decide)
  · refine ⟨e', hmem, heq, ?_⟩
    rw [hshelf]
    exact congrArg₂ Shelf.mk (by decide +kernel) (by decide +kernel)

end Reassembler

end LoraLink.Application
