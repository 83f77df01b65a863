import LoraLink.App.Codec
import LoraLink.Lib.Dict

/-!
# Reassembly

`Reassembler` of `application.py`. A dictionary that is indexed with a key it does not have raises `KeyError`, so
`add` has two kinds of exception.

- `parse_piece`: the fragments of a valid frame have the shape that `add` checks;
- `add_spec`: a property of the parts that the assemblies hold is kept if the fragment added has it, and what `add`
  returns is put together from data with that property.
-/

namespace LoraLink.Application

inductive Raised
  | applicationError (e : ApplicationError)
  | keyError
deriving DecidableEq, Repr

/-- What is in the body of a fragment. -/
structure Fragment where
  messageType : Nat
  totalLength : Nat
  index : Nat
  count : Nat
  data : Bytes
deriving DecidableEq, Repr

/-- `_Assembly`. -/
structure Assembly where
  startedAt : ℚ
  rtcmType : Nat
  totalLength : Nat
  fragmentCount : Nat
  parts : List (Nat × Bytes) := []
deriving DecidableEq, Repr

/-- The sender session and the message id. -/
abbrev Key : Type := Int × Int

def keyOf (f : Frame) : Key := (f.senderSession, f.messageId)

structure Reassembler where
  items : List (Key × Assembly) := []
  blockedUntil : List (Key × ℚ) := []
  timeoutCount : Nat := 0
  conflictCount : Nat := 0
  evictionCount : Nat := 0
  duplicateCount : Nat := 0

/-- The length that the data of a fragment must have. -/
def expectedLength (totalLength index count : Nat) : Int :=
  if (index : Int) < count - 1 then rtcmFragmentDataSize
  else (totalLength : Int) - rtcmFragmentDataSize * ((count : Int) - 1)

/-- The checks of `add` on the frame itself. -/
def parseFragment (f : Frame) : Except ApplicationError Fragment :=
  if f.typ ≠ rtcmFragment ∨ f.body.length < 6 then .error .rtcmFragmentBody
  else if f.sourceAgeMs ≥ rtcmTransportTtlMs then .error .staleRtcmFragment
  else
    let totalLength := u16 (f.body.drop 2)
    let index := (byteAt f.body 4).toNat
    let count := (byteAt f.body 5).toNat
    let data := f.body.drop 6
    if totalLength = 0 ∨ totalLength > maxRtcmFrameSize ∨ count ≠ fragmentCount totalLength ∨
        ¬ (1 ≤ count ∧ count ≤ maxRtcmFragments) ∨ index ≥ count ∨
        (data.length : Int) ≠ expectedLength totalLength index count then .error .rtcmFragmentShape
    else
      .ok { messageType := u16 f.body, totalLength := totalLength, index := index, count := count, data := data }

/-- What the fragment `index` of a frame has in its body. -/
def fragmentOf (raw : Bytes) (index : Nat) : Fragment :=
  { messageType := typeBits raw, totalLength := raw.length, index := index, count := fragmentCount raw.length
    data := fragmentData raw index }

theorem length_fragmentData (raw : Bytes) (index : Nat) :
    (fragmentData raw index).length = min rtcmFragmentDataSize (raw.length - index * rtcmFragmentDataSize) := by
  rw [fragmentData, List.length_take, List.length_drop]

/-- The fragments of a valid frame have the shape that `add` checks. -/
theorem parse_piece {raw : Bytes} (hvalid : validRtcm3 raw = true) (s id : Int) {age : Int}
    (hage : age < rtcmTransportTtlMs) {index : Nat} (hindex : index < fragmentCount raw.length) :
    parseFragment (piece raw s id age index) = .ok (fragmentOf raw index) := by
  have hmax := length_of_validRtcm3 hvalid
  have hcount := fragmentCount_le hmax
  simp only [maxRtcmFragments, maxRtcmFrameSize] at hmax hcount
  have hbody : (piece raw s id age index).body =
      be16 (typeBits raw) ++ (be16 raw.length ++ ([UInt8.ofNat index, UInt8.ofNat (fragmentCount raw.length)] ++
        fragmentData raw index)) := by
    simp [piece, fragmentHeader]
  have htype : u16 (piece raw s id age index).body = typeBits raw := by
    rw [hbody, u16_be16]
    have hbits := u16_lt (raw.drop 3)
    simp only [typeBits]
    omega
  have hlength : u16 ((piece raw s id age index).body.drop 2) = raw.length := by
    rw [hbody]
    show u16 (be16 raw.length ++ _) = _
    rw [u16_be16]
    omega
  have hi : (byteAt (piece raw s id age index).body 4).toNat = index := by
    rw [hbody]
    show (UInt8.ofNat index).toNat = index
    exact UInt8.toNat_ofNat_of_lt' (show index < 256 by omega)
  have hc : (byteAt (piece raw s id age index).body 5).toNat = fragmentCount raw.length := by
    rw [hbody]
    show (UInt8.ofNat (fragmentCount raw.length)).toNat = _
    exact UInt8.toNat_ofNat_of_lt' (show fragmentCount raw.length < 256 by omega)
  have hdata : (piece raw s id age index).body.drop 6 = fragmentData raw index := by
    rw [hbody]
    rfl
  have hlong : ¬ ((piece raw s id age index).typ ≠ rtcmFragment ∨ (piece raw s id age index).body.length < 6) := by
    rw [hbody]
    simp [piece]
    omega
  have hage' : ¬ (piece raw s id age index).sourceAgeMs ≥ rtcmTransportTtlMs := not_le.mpr hage
  unfold parseFragment
  rw [if_neg hlong, if_neg hage']
  simp only [htype, hlength, hi, hc, hdata]
  rw [if_neg]
  · rfl
  · have hexpected : ((fragmentData raw index).length : Int) =
        expectedLength raw.length index (fragmentCount raw.length) := by
      rw [length_fragmentData, expectedLength]
      split
      · rename_i hlast
        simp only [fragmentCount, rtcmFragmentDataSize] at hindex hlast ⊢
        omega
      · rename_i hlast
        simp only [fragmentCount, rtcmFragmentDataSize] at hindex hlast ⊢
        omega
    simp only [maxRtcmFragments, maxRtcmFrameSize]
    have hpos : 0 < fragmentCount raw.length := Nat.zero_lt_of_lt hindex
    rintro (h | h | h | h | h | h)
    · simp [h, fragmentCount, rtcmFragmentDataSize] at hpos
    · exact absurd h (Nat.not_lt.mpr hmax)
    · exact h rfl
    · exact h ⟨hpos, hcount⟩
    · exact absurd hindex (Nat.not_lt.mpr h)
    · exact h hexpected

/-- A fragment of a valid frame is refused for its age, or for nothing. -/
theorem parse_piece_ok {raw : Bytes} (hvalid : validRtcm3 raw = true) {s id age : Int} {index : Nat}
    (hindex : index < fragmentCount raw.length) {p : Fragment} (h : parseFragment (piece raw s id age index) = .ok p) :
    p = fragmentOf raw index := by
  by_cases hage : age < rtcmTransportTtlMs
  · rw [parse_piece hvalid s id hage hindex] at h
    cases h
    rfl
  · have hold : (piece raw s id age index).sourceAgeMs ≥ rtcmTransportTtlMs := not_lt.mp hage
    unfold parseFragment at h
    rw [if_pos hold] at h
    split at h
    · cases h
    · cases h

/-- A fragment that passes the checks is fresh. -/
theorem age_of_parse {f : Frame} {p : Fragment} (h : parseFragment f = .ok p) : f.sourceAgeMs < rtcmTransportTtlMs := by
  unfold parseFragment at h
  split at h
  · cases h
  · split at h
    · cases h
    · rename_i hage
      exact not_le.mp hage

namespace Reassembler

def block (key : Key) (time : ℚ) (r : Reassembler) : Reassembler :=
  let blocked := popKey r.blockedUntil key ++ [(key, time)]
  -- the loop drops the oldest until the bound holds
  { r with blockedUntil := blocked.drop (blocked.length - 64) }

/-- An assembly is given up: its key is blocked. -/
def discard (key : Key) (item : Assembly) (r : Reassembler) : Reassembler :=
  { r with items := popKey r.items key }.block key (item.startedAt + rtcmTransportTtlMs / 1000)

/-- The loop of `expire` over the assemblies that are too old. -/
def timeOut (expired : List (Key × Assembly)) (r : Reassembler) : Reassembler :=
  expired.foldl (fun r (key, item) => { r.discard key item with timeoutCount := r.timeoutCount + 1 }) r

def expire (now : ℚ) (r : Reassembler) : Nat × Reassembler :=
  let expired := r.items.filter fun (_, item) => decide (now - item.startedAt ≥ reassemblyTimeoutS)
  let r := r.timeOut expired
  (expired.length, { r with blockedUntil := r.blockedUntil.filter fun (_, time) => decide (¬ now ≥ time) })

/-- Room for one more assembly. -/
def evict (r : Reassembler) : Reassembler :=
  match r.items with
  | [] => r
  | (key, item) :: rest =>
    if r.items.length = maxReassemblies then
      { { r with items := rest }.block key (item.startedAt + rtcmTransportTtlMs / 1000) with
        evictionCount := r.evictionCount + 1 }
    else r

/-- The assembly of a key, a new one if there is none. -/
def assembly (key : Key) (f : Fragment) (now : ℚ) (r : Reassembler) : Assembly × Reassembler :=
  match r.items.lookup key with
  | some item => (item, r)
  | none =>
    let item : Assembly :=
      { startedAt := now, rtcmType := f.messageType, totalLength := f.totalLength, fragmentCount := f.count }
    let r := r.evict
    (item, { r with items := setKey r.items key item })

/-- All parts are there. -/
def finish (key : Key) (item : Assembly) (f : Fragment) (r : Reassembler) :
    Except Raised (Option Bytes) × Reassembler :=
  match (List.range f.count).mapM fun index => item.parts.lookup index with
  | none => (.error .keyError, r)
  | some parts =>
    let raw := parts.flatten
    let r := r.discard key item
    if raw.length ≠ f.totalLength ∨ validRtcm3 raw = false ∨ typeBits raw ≠ f.messageType then
      (.error (.applicationError .assembledRtcmFrame), r)
    else (.ok (some raw), r)

/-- A fragment meets its assembly. -/
def store (key : Key) (item : Assembly) (f : Fragment) (r : Reassembler) :
    Except Raised (Option Bytes) × Reassembler :=
  let conflict := { r.discard key item with conflictCount := r.conflictCount + 1 }
  if (item.rtcmType, item.totalLength, item.fragmentCount) ≠ (f.messageType, f.totalLength, f.count) then
    (.error (.applicationError .metadataConflict), conflict)
  else
    match item.parts.lookup f.index with
    | some data =>
      if data ≠ f.data then (.error (.applicationError .dataConflict), conflict)
      else (.ok none, { r with duplicateCount := r.duplicateCount + 1 })
    | none =>
      let item := { item with parts := setKey item.parts f.index f.data }
      let r := { r with items := setKey r.items key item }
      if item.parts.length < f.count then (.ok none, r) else r.finish key item f

def add (f : Frame) (now : ℚ) (r : Reassembler) : Except Raised (Option Bytes) × Reassembler :=
  let r := (r.expire now).2
  match parseFragment f with
  | .error e => (.error (.applicationError e), r)
  | .ok p =>
    if (r.blockedUntil.lookup (keyOf f)).isSome then (.error (.applicationError .expiredOrCompleted), r)
    else
      let (item, r) := r.assembly (keyOf f) p now
      r.store (keyOf f) item p

/-! ## What the assemblies hold -/

/-- The parts of an assembly under `key` have the property. -/
def PartsIn (P : Key → Nat → Bytes → Prop) (key : Key) (item : Assembly) : Prop := ∀ q ∈ item.parts, P key q.1 q.2

/-- The parts of all assemblies have the property. -/
def Holds (P : Key → Nat → Bytes → Prop) (r : Reassembler) : Prop := ∀ p ∈ r.items, PartsIn P p.1 p.2

variable {P : Key → Nat → Bytes → Prop} {r : Reassembler} {key : Key} {item : Assembly} {p : Fragment}

/-- Fewer assemblies hold no more. -/
theorem Holds.sub {s : Reassembler} (h : Holds P r) (hsub : ∀ p ∈ s.items, p ∈ r.items) : Holds P s :=
  fun p hp => h p (hsub p hp)

theorem items_discard (key : Key) (item : Assembly) (r : Reassembler) :
    (r.discard key item).items = popKey r.items key := rfl

theorem Holds.discard (h : Holds P r) : Holds P (r.discard key item) :=
  h.sub fun _ hp => mem_of_mem_popKey (items_discard key item r ▸ hp)

theorem Holds.timeOut (expired : List (Key × Assembly)) :
    ∀ {r : Reassembler}, Holds P r → Holds P (r.timeOut expired) := by
  induction expired with
  | nil => exact fun h => h
  | cons p expired ih =>
    intro r h
    have hfirst : Holds P { r.discard p.1 p.2 with timeoutCount := r.timeoutCount + 1 } :=
      (@Holds.discard P r p.1 p.2 h).sub fun _ hp => hp
    exact ih hfirst

theorem Holds.expire (h : Holds P r) (now : ℚ) : Holds P (r.expire now).2 :=
  (h.timeOut (r.items.filter fun (_, item) => decide (now - item.startedAt ≥ reassemblyTimeoutS))).sub fun _ hp => hp

theorem Holds.evict (h : Holds P r) : Holds P r.evict := by
  refine h.sub fun p hp => ?_
  unfold Reassembler.evict at hp
  split at hp
  · exact hp
  · rename_i hitems
    split at hp
    · rw [hitems]
      exact List.mem_cons_of_mem _ hp
    · exact hp

theorem Holds.set (h : Holds P r) (hitem : PartsIn P key item) : Holds P { r with items := setKey r.items key item } := by
  intro p hp
  rcases mem_of_mem_setKey hp with rfl | hp
  · exact hitem
  · exact h p hp

theorem Holds.assembly (h : Holds P r) (now : ℚ) :
    Holds P (r.assembly key p now).2 ∧ PartsIn P key (r.assembly key p now).1 := by
  unfold Reassembler.assembly
  split
  · rename_i item hitem
    exact ⟨h, h _ (mem_of_lookup hitem)⟩
  · have hnew : PartsIn P key { startedAt := now, rtcmType := p.messageType, totalLength := p.totalLength
                                fragmentCount := p.count } := fun q hq => absurd hq List.not_mem_nil
    exact ⟨h.evict.set hnew, hnew⟩

/-- The data that a list of lookups finds. -/
theorem mapM_lookup {parts : List (Nat × Bytes)} (is : List Nat) : ∀ {ds : List Bytes},
    is.mapM (fun i => parts.lookup i) = some ds →
    ds = is.map (fun i => (parts.lookup i).getD []) ∧ ∀ i ∈ is, (parts.lookup i).isSome := by
  induction is with
  | nil =>
    intro ds h
    simp only [List.mapM_nil, Option.pure_def, Option.some.injEq] at h
    simp [← h]
  | cons i is ih =>
    intro ds h
    simp only [List.mapM_cons, Option.bind_eq_bind, Option.bind_eq_some_iff, Option.pure_def, Option.some.injEq] at h
    obtain ⟨d, hd, ds', hds, rfl⟩ := h
    obtain ⟨rfl, hall⟩ := ih hds
    simp only [List.map_cons, hd, Option.getD_some, List.mem_cons, forall_eq_or_imp, Option.isSome_some, true_and]
    exact hall

/-- The raw bytes are data of each index, put together. -/
def Joined (P : Key → Nat → Bytes → Prop) (key : Key) (count : Nat) (raw : Bytes) : Prop :=
  ∃ D : Nat → Bytes, raw = ((List.range count).map D).flatten ∧ ∀ index < count, P key index (D index)

theorem Holds.finish (h : Holds P r) (hitem : PartsIn P key item) : Holds P (r.finish key item p).2 ∧
    ∀ raw, (r.finish key item p).1 = .ok (some raw) → Joined P key p.count raw := by
  unfold Reassembler.finish
  split
  · exact ⟨h, fun raw hraw => by cases hraw⟩
  · rename_i parts hparts
    obtain ⟨hdata, hall⟩ := mapM_lookup _ hparts
    simp only
    split
    · exact ⟨h.discard, fun raw hraw => by cases hraw⟩
    · refine ⟨h.discard, fun raw hraw => ?_⟩
      simp only [Except.ok.injEq, Option.some.injEq] at hraw
      refine ⟨fun i => (item.parts.lookup i).getD [], by rw [← hraw, hdata], fun index hindex => ?_⟩
      obtain ⟨d, hd⟩ := Option.isSome_iff_exists.mp (hall index (List.mem_range.mpr hindex))
      show P key index ((item.parts.lookup index).getD [])
      rw [hd]
      exact hitem _ (mem_of_lookup hd)

theorem Holds.store (h : Holds P r) (hitem : PartsIn P key item) (hp : P key p.index p.data) :
    Holds P (r.store key item p).2 ∧ ∀ raw, (r.store key item p).1 = .ok (some raw) → Joined P key p.count raw := by
  have hset : PartsIn P key { item with parts := setKey item.parts p.index p.data } := by
    intro q hq
    rcases mem_of_mem_setKey hq with rfl | hq
    · exact hp
    · exact hitem q hq
  have hconflict : Holds P { r.discard key item with conflictCount := r.conflictCount + 1 } :=
    (@Holds.discard P r key item h).sub fun _ hq => hq
  unfold Reassembler.store
  simp only
  split
  · exact ⟨hconflict, fun raw hraw => by cases hraw⟩
  · split
    · split
      · exact ⟨hconflict, fun raw hraw => by cases hraw⟩
      · exact ⟨h.sub fun _ hq => hq, fun raw hraw => by cases hraw⟩
    · split
      · exact ⟨h.set hset, fun raw hraw => by cases hraw⟩
      · exact (h.set hset).finish hset

theorem finish_valid {raw : Bytes} (h : (r.finish key item p).1 = .ok (some raw)) : validRtcm3 raw = true := by
  unfold Reassembler.finish at h
  split at h
  · cases h
  · simp only at h
    split at h
    · cases h
    · rename_i hgood
      simp only [not_or, Bool.not_eq_false] at hgood
      obtain rfl : _ = raw := Option.some.inj (Except.ok.inj h)
      exact hgood.2.1

/-- The frames that are put together are valid. -/
theorem add_valid {f : Frame} {now : ℚ} {raw : Bytes} (h : (r.add f now).1 = .ok (some raw)) : validRtcm3 raw = true := by
  unfold Reassembler.add at h
  simp only at h
  split at h
  · cases h
  · split at h
    · cases h
    · unfold Reassembler.store at h
      simp only at h
      split at h
      · cases h
      · split at h
        · split at h <;> cases h
        · split at h
          · cases h
          · exact finish_valid h

/-- What a call of `add` keeps, and what it returns. -/
theorem add_spec (h : Holds P r) {f : Frame} (now : ℚ)
    (hf : ∀ p, parseFragment f = .ok p → P (keyOf f) p.index p.data) :
    Holds P (r.add f now).2 ∧ ∀ raw, (r.add f now).1 = .ok (some raw) →
      ∃ p, parseFragment f = .ok p ∧ Joined P (keyOf f) p.count raw := by
  have hexpire := h.expire now
  unfold Reassembler.add
  simp only
  split
  · exact ⟨hexpire, fun raw hraw => by cases hraw⟩
  · rename_i p hparse
    split
    · exact ⟨hexpire, fun raw hraw => by cases hraw⟩
    · obtain ⟨hr, hitem⟩ := @Holds.assembly P _ (keyOf f) p hexpire now
      obtain ⟨hstore, hraw⟩ := hr.store hitem (hf p hparse)
      exact ⟨hstore, fun raw hr => ⟨p, hparse, hraw raw hr⟩⟩

end Reassembler

end LoraLink.Application
