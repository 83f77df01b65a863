import LoraLink.App.Reassembler
import LoraLink.Lib.Path
import LoraLink.Lib.Run
import Mathlib.Tactic.Linarith

/-!
# What happens to the assemblies

A shelf has the assemblies of a reassembler and the keys it blocks, each with the time until which it does. Five
things can happen on it: an assembly is started, a part is stored in one, an assembly ends and its key is blocked, and
the keys whose time has come are no longer blocked. `Shelf.Allowed` says when each of them may happen.

- `Reassembler.call_path`: every call of a reassembler is a path of such events, those of `callEvents`.
-/

namespace LoraLink.Application

structure Shelf where
  items : List (Key × Assembly)
  blocked : List (Key × ℚ)

namespace Shelf

/-- Why an assembly ends. -/
inductive Ending
  | delivered (raw : Bytes)
  | rejected
  | conflicted
  | expired
  | evicted
deriving DecidableEq

inductive Event
  | started (key : Key) (p : Fragment) (now : ℚ)
  | stored (f : Frame) (p : Fragment) (now : ℚ)
  | ended (key : Key) (startedAt now : ℚ) (how : Ending)
  | purged (now : ℚ)

/-- The time until which the key of an assembly is blocked. -/
def blockUntil (startedAt : ℚ) : ℚ := startedAt + rtcmTransportTtlMs / 1000

/-- An assembly without parts. -/
def opened (p : Fragment) (now : ℚ) : Assembly :=
  { startedAt := now, rtcmType := p.messageType, totalLength := p.totalLength, fragmentCount := p.count }

def on (s : Shelf) : Event → Shelf
  | .started key p now => { s with items := s.items ++ [(key, opened p now)] }
  | .stored f p _ =>
    match s.items.lookup (keyOf f) with
    | none => s
    | some item =>
      { s with items := setKey s.items (keyOf f) { item with parts := setKey item.parts p.index p.data } }
  | .ended key startedAt _ _ =>
    let blocked := popKey s.blocked key ++ [(key, blockUntil startedAt)]
    { items := popKey s.items key, blocked := blocked.drop (blocked.length - 64) }
  | .purged now => { s with blocked := s.blocked.filter fun (_, time) => decide (¬ now ≥ time) }

/-- The parts of an assembly are all there and put together they are the frame. -/
structure Whole (item : Assembly) (raw : Bytes) : Prop where
  data : ∃ D : Nat → Bytes, raw = ((List.range item.fragmentCount).map D).flatten ∧
    ∀ index < item.fragmentCount, item.parts.lookup index = some (D index)
  length : raw.length = item.totalLength
  valid : validRtcm3 raw = true
  typ : typeBits raw = item.rtcmType

/-- When an assembly may end so. -/
def Due (s : Shelf) (key : Key) (item : Assembly) (now : ℚ) : Ending → Prop
  | .delivered raw => now - item.startedAt < reassemblyTimeoutS ∧ Whole item raw
  | .rejected | .conflicted => True
  | .expired => now - item.startedAt ≥ reassemblyTimeoutS
  | .evicted => s.items.head? = some (key, item) ∧ s.items.length = maxReassemblies

/-- The fragment belongs to the message that is assembled. -/
def Matches (item : Assembly) (p : Fragment) : Prop :=
  (item.rtcmType, item.totalLength, item.fragmentCount) = (p.messageType, p.totalLength, p.count)

theorem Matches.fields {item : Assembly} {p : Fragment} (h : Matches item p) : item.rtcmType = p.messageType ∧
    item.totalLength = p.totalLength ∧ item.fragmentCount = p.count := by
  simpa only [Matches, Prod.mk.injEq] using h

def Allowed (s : Shelf) : Event → Prop
  | .started key _ _ =>
    s.items.lookup key = none ∧ s.blocked.lookup key = none ∧ s.items.length < maxReassemblies
  | .stored f p _ => parseFragment f = .ok p ∧ ∃ item, s.items.lookup (keyOf f) = some item ∧ Matches item p ∧
      item.parts.lookup p.index = none
  | .ended key startedAt now how =>
    ∃ item, s.items.lookup key = some item ∧ item.startedAt = startedAt ∧ Due s key item now how
  | .purged _ => True

/-- The keys of the assemblies are different, and there are at most eight of them. -/
structure Tidy (s : Shelf) : Prop where
  keys : (s.items.map Prod.fst).Nodup
  length : s.items.length ≤ maxReassemblies
  blockedKeys : (s.blocked.map Prod.fst).Nodup

variable {s : Shelf}

theorem items_ended (key : Key) (startedAt now : ℚ) (how : Ending) :
    (s.on (.ended key startedAt now how)).items = popKey s.items key := rfl

theorem items_stored {f : Frame} {item : Assembly} (p : Fragment) (now : ℚ)
    (h : s.items.lookup (keyOf f) = some item) : s.on (.stored f p now) =
      { s with items := setKey s.items (keyOf f) { item with parts := setKey item.parts p.index p.data } } := by
  simp only [on, h]

theorem Tidy.on (h : Tidy s) {e : Event} (he : s.Allowed e) : Tidy (s.on e) := by
  cases e with
  | started key p now =>
    obtain ⟨hnew, -, hroom⟩ := he
    refine ⟨?_, ?_, h.blockedKeys⟩
    · rw [Shelf.on, List.map_append]
      apply List.nodup_append.mpr
      refine ⟨h.keys, by simp, ?_⟩
      rintro k hk k' hk' rfl
      obtain rfl : k = key := by simpa using hk'
      exact lookup_eq_none.mp hnew hk
    · simp only [Shelf.on, List.length_append, List.length_singleton]
      omega
  | stored f p now =>
    obtain ⟨-, item, hitem, -⟩ := he
    rw [items_stored p now hitem]
    have hsome : s.items.lookup (keyOf f) ≠ none := by simp [hitem]
    refine ⟨?_, ?_, h.blockedKeys⟩
    · rw [keys_setKey hsome]
      exact h.keys
    · rw [← List.length_map (f := Prod.fst), keys_setKey hsome, List.length_map]
      exact h.length
  | ended key startedAt now how =>
    refine ⟨?_, (List.length_filter_le _ _).trans h.length, ?_⟩
    · rw [items_ended, keys_popKey]
      exact h.keys.filter _
    · have hall : ((popKey s.blocked key ++ [(key, blockUntil startedAt)]).map Prod.fst).Nodup := by
        rw [List.map_append, keys_popKey]
        apply List.nodup_append.mpr
        refine ⟨h.blockedKeys.filter _, by simp, ?_⟩
        rintro k hk k' hk' rfl
        obtain rfl : k = key := by simpa using hk'
        simp at hk
      exact hall.sublist ((List.drop_sublist _ _).map _)
  | purged now => exact ⟨h.keys, h.length, h.blockedKeys.sublist (List.filter_sublist.map _)⟩

/-- An assembly of the key is started. -/
def Event.Opens (key : Key) : Event → Prop
  | .started k _ _ => k = key
  | _ => False

/-- The key is neither assembled nor blocked. -/
def Absent (key : Key) (s : Shelf) : Prop := s.items.lookup key = none ∧ s.blocked.lookup key = none

theorem Absent.on {key : Key} (h : Absent key s) {e : Event} (he : s.Allowed e) (hopens : ¬ e.Opens key) :
    Absent key (s.on e) := by
  obtain ⟨hitems, hblocked⟩ := h
  cases e with
  | started k p now =>
    refine ⟨?_, hblocked⟩
    have hne : (key == k) = false := by simpa using Ne.symm hopens
    rw [Shelf.on, lookup_append, hitems, List.lookup_cons, hne]
    rfl
  | stored f p now =>
    obtain ⟨-, item, hitem, -⟩ := he
    rw [items_stored p now hitem]
    refine ⟨?_, hblocked⟩
    have hne : key ≠ keyOf f := by
      rintro rfl
      rw [hitems] at hitem
      cases hitem
    exact (lookup_setKey_ne _ hne _).trans hitems
  | ended k startedAt now how =>
    obtain ⟨item, hitem, -⟩ := he
    have hne : key ≠ k := by
      rintro rfl
      rw [hitems] at hitem
      cases hitem
    refine ⟨(lookup_popKey_ne _ hne).trans hitems, ?_⟩
    rw [lookup_eq_none] at hblocked ⊢
    intro hmem
    have hall := ((List.drop_sublist _ _).map Prod.fst).subset hmem
    rw [List.map_append, keys_popKey, List.mem_append, List.mem_filter] at hall
    rcases hall with hall | hall
    · exact hblocked hall.1
    · exact hne (by simpa using hall)
  | purged now =>
    refine ⟨hitems, ?_⟩
    rw [lookup_eq_none] at hblocked ⊢
    exact fun hmem => hblocked ((List.filter_sublist.map Prod.fst).subset hmem)

/-- What a list of events does to a shelf. -/
abbrev Path (s₀ : Shelf) : List Event → Shelf → Prop := LoraLink.Path Allowed on s₀

theorem Path.tidy {s₀ : Shelf} {es : List Event} (h : Path s₀ es s) (h₀ : Tidy s₀) : Tidy s :=
  h.inv (P := Tidy) h₀ fun _ _ h he => h.on he

theorem Path.absent {s₀ : Shelf} {es : List Event} {key : Key} (h : Path s₀ es s) (h₀ : Absent key s₀)
    (hopens : ∀ e ∈ es, ¬ e.Opens key) : Absent key s := by
  induction h with
  | nil => exact h₀
  | snoc _ he ih =>
    refine (ih fun e hmem => hopens e (List.mem_append_left _ hmem)).on he ?_
    exact hopens _ (List.mem_append_right _ (List.mem_singleton.mpr rfl))

end Shelf

open LoraLink.Application.Shelf (Event)

namespace Reassembler

/-! ## The events of a call -/

/-- A call of `expire` or of `add`. -/
inductive Call
  | expire (now : ℚ)
  | add (f : Frame) (now : ℚ)

def Call.now : Call → ℚ
  | .expire now => now
  | .add _ now => now

/-- What a call does. -/
def call (c : Call) (r : Reassembler) : Reassembler :=
  match c with
  | .expire now => (r.expire now).2
  | .add f now => (r.add f now).2

def shelf (r : Reassembler) : Shelf := { items := r.items, blocked := r.blockedUntil }

def expireEvents (now : ℚ) (r : Reassembler) : List Event :=
  (r.items.filter fun (_, item) => decide (now - item.startedAt ≥ reassemblyTimeoutS)).map
    (fun (key, item) => .ended key item.startedAt now .expired) ++ [.purged now]

def evictEvents (now : ℚ) (r : Reassembler) : List Event :=
  match r.items with
  | [] => []
  | (key, item) :: _ => if r.items.length = maxReassemblies then [.ended key item.startedAt now .evicted] else []

def assemblyEvents (key : Key) (p : Fragment) (now : ℚ) (r : Reassembler) : List Event :=
  match r.items.lookup key with
  | some _ => []
  | none => r.evictEvents now ++ [.started key p now]

def finishEvents (key : Key) (item : Assembly) (p : Fragment) (now : ℚ) : List Event :=
  match (List.range p.count).mapM fun index => item.parts.lookup index with
  | none => []
  | some parts =>
    if parts.flatten.length ≠ p.totalLength ∨ validRtcm3 parts.flatten = false ∨
        typeBits parts.flatten ≠ p.messageType then [.ended key item.startedAt now .rejected]
    else [.ended key item.startedAt now (.delivered parts.flatten)]

def storeEvents (f : Frame) (item : Assembly) (p : Fragment) (now : ℚ) : List Event :=
  if (item.rtcmType, item.totalLength, item.fragmentCount) ≠ (p.messageType, p.totalLength, p.count) then
    [.ended (keyOf f) item.startedAt now .conflicted]
  else
    match item.parts.lookup p.index with
    | some data => if data ≠ p.data then [.ended (keyOf f) item.startedAt now .conflicted] else []
    | none =>
      let item := { item with parts := setKey item.parts p.index p.data }
      .stored f p now :: if item.parts.length < p.count then [] else finishEvents (keyOf f) item p now

def addEvents (f : Frame) (now : ℚ) (r : Reassembler) : List Event :=
  r.expireEvents now ++
    let r := (r.expire now).2
    match parseFragment f with
    | .error _ => []
    | .ok p =>
      if (r.blockedUntil.lookup (keyOf f)).isSome then []
      else r.assemblyEvents (keyOf f) p now ++ storeEvents f (r.assembly (keyOf f) p now).1 p now

def callEvents (c : Call) (r : Reassembler) : List Event :=
  match c with
  | .expire now => r.expireEvents now
  | .add f now => r.addEvents f now

/-! ## Every call is a path -/

variable {r : Reassembler} {key : Key} {item : Assembly} {p : Fragment} {now : ℚ}

theorem ended_path (how : Shelf.Ending) (now : ℚ) (hitem : r.items.lookup key = some item)
    (hdue : r.shelf.Due key item now how) :
    Shelf.Path r.shelf [.ended key item.startedAt now how] (r.discard key item).shelf :=
  LoraLink.Path.nil.snoc (e := Event.ended key item.startedAt now how) ⟨item, hitem, rfl, hdue⟩

theorem timeOut_path (expired : List (Key × Assembly)) : ∀ {r : Reassembler}, (expired.map Prod.fst).Nodup →
    (∀ q ∈ expired, r.items.lookup q.1 = some q.2 ∧ now - q.2.startedAt ≥ reassemblyTimeoutS) →
    Shelf.Path r.shelf (expired.map fun (key, item) => .ended key item.startedAt now .expired)
      (r.timeOut expired).shelf := by
  induction expired with
  | nil => exact fun _ _ => .nil
  | cons q expired ih =>
    intro r hkeys hdue
    obtain ⟨hfirst, hrest⟩ := List.nodup_cons.mp hkeys
    obtain ⟨hitem, hold⟩ := hdue q List.mem_cons_self
    refine (ended_path .expired now hitem hold).append
      (ih (r := { r.discard q.1 q.2 with timeoutCount := r.timeoutCount + 1 }) hrest fun q' hq' => ?_)
    obtain ⟨hitem', hold'⟩ := hdue q' (List.mem_cons_of_mem _ hq')
    have hne : q'.1 ≠ q.1 := fun heq => hfirst (heq ▸ List.mem_map_of_mem hq')
    exact ⟨(lookup_popKey_ne r.items hne).trans hitem', hold'⟩

theorem expire_path (h : r.shelf.Tidy) (now : ℚ) : Shelf.Path r.shelf (r.expireEvents now) (r.expire now).2.shelf := by
  have hkeys := h.keys.sublist ((List.filter_sublist
    (p := fun q : Key × Assembly => decide (now - q.2.startedAt ≥ reassemblyTimeoutS))).map Prod.fst)
  have hpath := timeOut_path _ hkeys fun q hq => ⟨lookup_of_mem h.keys (List.mem_filter.mp hq).1,
    of_decide_eq_true (List.mem_filter.mp hq).2⟩
  exact hpath.snoc (e := Event.purged now) trivial

/-- No assembly is too old. -/
def Fresh (now : ℚ) (r : Reassembler) : Prop := ∀ q ∈ r.items, now - q.2.startedAt < reassemblyTimeoutS

theorem mem_timeOut (expired : List (Key × Assembly)) : ∀ {r : Reassembler}, ∀ q ∈ (r.timeOut expired).items,
    q ∈ r.items ∧ q.1 ∉ expired.map Prod.fst := by
  induction expired with
  | nil => exact fun q hq => ⟨hq, by simp⟩
  | cons q' expired ih =>
    intro r q hq
    obtain ⟨hmem, hnot⟩ := ih (r := { r.discard q'.1 q'.2 with timeoutCount := r.timeoutCount + 1 }) q hq
    have hpop : q ∈ popKey r.items q'.1 := hmem
    have hne : q.1 ≠ q'.1 := by simpa using (List.mem_filter.mp hpop).2
    refine ⟨mem_of_mem_popKey hpop, ?_⟩
    rw [List.map_cons, List.mem_cons, not_or]
    exact ⟨hne, hnot⟩

theorem fresh_expire (now : ℚ) (r : Reassembler) : Fresh now (r.expire now).2 := by
  intro q hq
  obtain ⟨hmem, hnot⟩ := mem_timeOut _ q hq
  by_contra hold
  refine hnot (List.mem_map_of_mem (List.mem_filter.mpr ⟨hmem, ?_⟩))
  simpa using hold

theorem evict_path (h : r.shelf.Tidy) (now : ℚ) : Shelf.Path r.shelf (r.evictEvents now) r.evict.shelf ∧
    r.evict.items.length < maxReassemblies := by
  have hlength := h.length
  have hkeys := h.keys
  rcases hitems : r.items with _ | ⟨⟨key, item⟩, rest⟩
  · simp only [evictEvents, evict, hitems]
    exact ⟨.nil, Nat.zero_lt_succ _⟩
  · simp only [shelf, hitems, List.length_cons, List.map_cons, List.nodup_cons] at hlength hkeys
    simp only [evictEvents, evict, hitems, List.length_cons]
    split
    · rename_i hfull
      have hhead : r.items.lookup key = some item := by simp [hitems]
      have hpop : popKey r.items key = rest := by
        rw [hitems, popKey, List.filter_cons, if_neg (by simp)]
        apply List.filter_eq_self.mpr
        intro q hq
        have hne : q.1 ≠ key := fun heq => hkeys.1 (heq ▸ List.mem_map_of_mem hq)
        simpa using hne
      have hpath := ended_path .evicted now hhead ⟨by simp [shelf, hitems], by simp [shelf, hitems, hfull]⟩
      refine ⟨?_, ?_⟩
      · simpa only [shelf, discard, block, hpop] using hpath
      · simp only [block]
        omega
    · rename_i hroom
      refine ⟨.nil, ?_⟩
      rw [hitems, List.length_cons]
      omega

theorem not_opens_evictEvents : ∀ e ∈ r.evictEvents now, ¬ e.Opens key := by
  intro e he
  unfold evictEvents at he
  split at he
  · cases he
  · split at he
    · obtain rfl := List.mem_singleton.mp he
      exact id
    · cases he

theorem evict_absent (h : r.shelf.Tidy) (habsent : r.shelf.Absent key) : r.evict.shelf.Absent key :=
  (evict_path h 0).1.absent habsent not_opens_evictEvents

/-- An assembly is opened behind the others. -/
theorem assembly_new (h : r.shelf.Tidy) (habsent : r.shelf.Absent key) :
    r.assembly key p now = (Shelf.opened p now,
      { r.evict with items := r.evict.items ++ [(key, Shelf.opened p now)] }) := by
  unfold assembly
  rw [show r.items.lookup key = none from habsent.1]
  show (Shelf.opened p now, ({ r.evict with items := setKey r.evict.items key (Shelf.opened p now) } : Reassembler)) = _
  rw [setKey_new (show r.evict.items.lookup key = none from (evict_absent h habsent).1)]

/-- The assembly is on the shelf, and it is fresh. -/
theorem assembly_path (h : r.shelf.Tidy) (hfresh : Fresh now r) (hopen : r.blockedUntil.lookup key = none) :
    Shelf.Path r.shelf (r.assemblyEvents key p now) (r.assembly key p now).2.shelf ∧
      (r.assembly key p now).2.items.lookup key = some (r.assembly key p now).1 ∧
      now - (r.assembly key p now).1.startedAt < reassemblyTimeoutS := by
  rcases hitem : r.items.lookup key with _ | item
  · obtain ⟨hpath, hroom⟩ := evict_path h now
    obtain ⟨hnew, hstill⟩ := evict_absent h ⟨hitem, hopen⟩
    rw [assembly_new h ⟨hitem, hopen⟩]
    unfold assemblyEvents
    rw [hitem]
    refine ⟨hpath.snoc (e := Event.started key p now) ⟨hnew, hstill, hroom⟩, ?_, ?_⟩
    · show (r.evict.items ++ [(key, Shelf.opened p now)]).lookup key = _
      rw [← setKey_new (show r.evict.items.lookup key = none from hnew)]
      exact lookup_setKey_self _ _ _
    · simp only [Shelf.opened, sub_self]
      unfold reassemblyTimeoutS
      norm_num
  · unfold assemblyEvents assembly
    rw [hitem]
    exact ⟨.nil, hitem, hfresh _ (mem_of_lookup hitem)⟩

theorem finish_path (hitem : r.items.lookup key = some item) (hfresh : now - item.startedAt < reassemblyTimeoutS)
    (hsame : Shelf.Matches item p) :
    Shelf.Path r.shelf (finishEvents key item p now) (r.finish key item p).2.shelf := by
  obtain ⟨htyp, hlength, hcount⟩ := hsame.fields
  unfold finishEvents finish
  rcases hparts : (List.range p.count).mapM fun index => item.parts.lookup index with _ | parts
  · exact .nil
  · simp only
    split
    · exact ended_path _ now hitem trivial
    · rename_i hgood
      simp only [not_or, not_not, Bool.not_eq_false] at hgood
      obtain ⟨hdata, hall⟩ := mapM_lookup _ hparts
      refine ended_path _ now hitem ⟨hfresh, ⟨fun index => (item.parts.lookup index).getD [], ?_, ?_⟩, ?_, hgood.2.1, ?_⟩
      · rw [hcount, hdata]
      · intro index hindex
        obtain ⟨d, hd⟩ := Option.isSome_iff_exists.mp (hall index (List.mem_range.mpr (hcount ▸ hindex)))
        simp [hd]
      · rw [hlength]
        exact hgood.1
      · rw [htyp]
        exact hgood.2.2

theorem store_path {f : Frame} (hparse : parseFragment f = .ok p) (hitem : r.items.lookup (keyOf f) = some item)
    (hfresh : now - item.startedAt < reassemblyTimeoutS) :
    Shelf.Path r.shelf (storeEvents f item p now) (r.store (keyOf f) item p).2.shelf := by
  unfold storeEvents store
  simp only
  split
  · exact ended_path .conflicted now hitem trivial
  · rename_i hsame
    rw [not_not] at hsame
    rcases hpart : item.parts.lookup p.index with _ | data <;> simp only
    · have hstored : Shelf.Path r.shelf [Event.stored f p now] (Shelf.mk (setKey r.items (keyOf f)
            { item with parts := setKey item.parts p.index p.data }) r.blockedUntil) := by
        have hon := Shelf.items_stored (s := r.shelf) p now hitem
        have hpath : Shelf.Path r.shelf [Event.stored f p now] (r.shelf.on (.stored f p now)) :=
          LoraLink.Path.nil.snoc (e := Event.stored f p now) ⟨hparse, item, hitem, hsame, hpart⟩
        rw [hon] at hpath
        exact hpath
      split
      · exact hstored
      · have hset := lookup_setKey_self r.items (keyOf f) { item with parts := setKey item.parts p.index p.data }
        exact hstored.append (finish_path (r := { r with items := setKey r.items (keyOf f) _ }) hset hfresh hsame)
    · split
      · exact ended_path .conflicted now hitem trivial
      · exact .nil

theorem add_path (h : r.shelf.Tidy) (f : Frame) (now : ℚ) :
    Shelf.Path r.shelf (r.addEvents f now) (r.add f now).2.shelf := by
  have hexpire := expire_path h now
  unfold addEvents add
  simp only
  rcases hparse : parseFragment f with e | p
  · simpa using hexpire
  · simp only
    split
    · simpa using hexpire
    · rename_i hopen
      rw [Option.not_isSome_iff_eq_none] at hopen
      obtain ⟨hassembly, hitem, hfresh⟩ := assembly_path (p := p) (hexpire.tidy h) (fresh_expire now r) hopen
      rw [← List.append_assoc]
      exact (hexpire.append hassembly).append (store_path hparse hitem hfresh)

/-- Every call is a path of its events. -/
theorem call_path (h : r.shelf.Tidy) (c : Call) : Shelf.Path r.shelf (callEvents c r) (call c r).shelf := by
  cases c with
  | expire now => exact expire_path h now
  | add f now => exact add_path h f now

end Reassembler

end LoraLink.Application
