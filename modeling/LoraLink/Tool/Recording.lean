import LoraLink.App.RtcmStream
import LoraLink.Lib.Records
import LoraLink.Lib.Struct

/-!
# Recordings of an RTCM stream

`_records`, `main_record` and `main_replay` of `rtcm_tool.py`. A generator is the list of what it yields and the error
that ends it; the clock is asked once for every frame.

- `mainRecord_eq`: what a recording of a stream consists of;
- `recording_faithful`: a recording is read back as it was made, replayed it is the same stream of frames, and what is
  left of one that is cut is told from a whole one.
-/

namespace LoraLink.Tool

open Application Rtcm RtcmStreamParser

/-- `MLR1`. -/
def magic : Bytes := [0x4d, 0x4c, 0x52, 0x31]

inductive Raised
  | valueError (message : String)
  | structError (e : Struct.StructError)
deriving DecidableEq, Repr

/-- `struct.unpack(">QH", header)`. -/
def unpackHeader (header : Bytes) : Except Raised (Int × Nat) :=
  match Struct.unpack [.Q, .H] header with
  | .ok [timestampNs, length] => .ok (timestampNs, length.toNat)
  | .ok _ => .error (.structError .wrongNumberOfItems)
  | .error e => .error (.structError e)

def recordFormat : Records.Format Int Raised where
  size := 10
  parse := unpackHeader
  shortHeader := .valueError "truncated recording header"
  shortBody := .valueError "truncated recording frame"

/-- `_records`. -/
def records (source : Bytes) : List (Int × Bytes) × Option Raised :=
  if source.take 4 ≠ magic then ([], some (.valueError "not a Mowgli LoRa RTCM recording"))
  else Records.read recordFormat source.length (source.drop 4)

/-- The inner loop of `main_record`: the clock has been asked `index` times. -/
def recordFrames (clock : Nat → Int) (index : Nat) (target : Bytes) : List RtcmFrame → Except Struct.StructError Bytes
  | [] => .ok target
  | frame :: frames => do
    let header ← Struct.pack [.Q, .H] [clock index, frame.raw.length]
    recordFrames clock (index + 1) (target ++ (header ++ frame.raw)) frames

/-- The outer loop: a read of no bytes ends it. -/
def recordChunks (clock : Nat → Int) (index : Nat) (target : Bytes) (rtcm : RtcmStreamParser) :
    List (Bytes × ℚ) → Except Struct.StructError Bytes
  | [] => .ok target
  | (chunk, now) :: reads =>
    if chunk = [] then .ok target
    else do
      let (rtcm, frames) := rtcm.feed chunk now
      let target ← recordFrames clock index target frames
      recordChunks clock (index + frames.length) target rtcm reads

def mainRecord (clock : Nat → Int) (reads : List (Bytes × ℚ)) : Except Struct.StructError Bytes :=
  recordChunks clock 0 magic {} reads

/-- What `main_replay` writes, and the error that ends it. -/
def mainReplay (dropEvery : Nat) (source : Bytes) : List Bytes × Option Raised :=
  let (found, e) := records source
  ((found.zipIdx 1).filterMap fun ((_, raw), index) =>
    if dropEvery = 0 ∨ index % dropEvery ≠ 0 then some raw else none, e)

/-! ## One record -/

/-- The header that is packed for a record. -/
def recordHeader (r : Int × Bytes) : Bytes :=
  match Struct.pack [.Q, .H] [r.1, r.2.length] with
  | .ok header => header
  | .error _ => []

theorem pack_recordHeader {r : Int × Bytes} (htime : 0 ≤ r.1 ∧ r.1 < 2 ^ 64) (hlength : r.2.length < 65536) :
    Struct.pack [.Q, .H] [r.1, r.2.length] = .ok (recordHeader r) := by
  obtain ⟨header, hpack⟩ := Struct.pack_isOk.mpr
    (.cons htime (.cons (Struct.Code.fits_H.mpr ⟨Int.natCast_nonneg _, Int.ofNat_lt.mpr hlength⟩) .nil) :
      List.Forall₂ Struct.Code.Fits [.Q, .H] [r.1, (r.2.length : Int)])
  rw [recordHeader, hpack]

theorem heads_recordHeader {r : Int × Bytes} (htime : 0 ≤ r.1 ∧ r.1 < 2 ^ 64) (hlength : r.2.length < 65536) :
    Records.Heads recordFormat r (recordHeader r) := by
  have hpack := pack_recordHeader htime hlength
  refine ⟨Struct.length_pack hpack, ?_⟩
  have hunpack := Struct.unpack_pack hpack
  simp only [recordFormat, unpackHeader, hunpack, Int.toNat_natCast]

/-! ## A whole recording -/

/-- The frames with the times at which they were recorded. -/
def stamped (clock : Nat → Int) (index : Nat) (frames : List Bytes) : List (Int × Bytes) :=
  frames.mapIdx fun i raw => (clock (index + i), raw)

theorem stamped_cons (clock : Nat → Int) (index : Nat) (raw : Bytes) (frames : List Bytes) :
    stamped clock index (raw :: frames) = (clock index, raw) :: stamped clock (index + 1) frames := by
  simp only [stamped, List.mapIdx_cons, Nat.add_zero, Nat.add_assoc, Nat.add_comm 1]

theorem stamped_append (clock : Nat → Int) (index : Nat) (frames frames' : List Bytes) :
    stamped clock index (frames ++ frames') =
      stamped clock index frames ++ stamped clock (index + frames.length) frames' := by
  simp only [stamped, List.mapIdx_append, Nat.add_assoc, Nat.add_comm frames.length]

section Record

variable {clock : Nat → Int} (hclock : ∀ n, 0 ≤ clock n ∧ clock n < 2 ^ 64)
include hclock

theorem recordFrames_eq {frames : List RtcmFrame} (hvalid : ∀ f ∈ frames, validRtcm3 f.raw = true) :
    ∀ (index : Nat) (target : Bytes), recordFrames clock index target frames =
      .ok (target ++ Records.encode recordHeader (stamped clock index (frames.map RtcmFrame.raw))) := by
  induction frames with
  | nil =>
    intro index target
    exact congrArg Except.ok (List.append_nil _).symm
  | cons f frames ih =>
    intro index target
    have hlength : f.raw.length < 65536 :=
      Nat.lt_of_le_of_lt (length_of_validRtcm3 (hvalid f List.mem_cons_self)) (by decide)
    have hpack := pack_recordHeader (r := (clock index, f.raw)) (hclock index) hlength
    have hrest := ih (fun g hg => hvalid g (List.mem_cons_of_mem _ hg)) (index + 1)
      (target ++ (recordHeader (clock index, f.raw) ++ f.raw))
    rw [recordFrames, hpack, List.map_cons, stamped_cons]
    refine hrest.trans (congrArg Except.ok ?_)
    simp only [Records.encode, List.flatMap_cons, List.append_assoc]

/-- The reads up to the first that is empty. -/
theorem recordChunks_eq {reads : List (Bytes × ℚ)} : ∀ (index : Nat) (target : Bytes) (rtcm : RtcmStreamParser),
    recordChunks clock index target rtcm reads = .ok (target ++ Records.encode recordHeader (stamped clock index
      ((rtcm.feedAll (reads.takeWhile fun read => read.1 ≠ [])).2.map RtcmFrame.raw))) := by
  induction reads with
  | nil =>
    intro index target rtcm
    exact congrArg Except.ok (List.append_nil _).symm
  | cons read reads ih =>
    intro index target rtcm
    obtain ⟨chunk, now⟩ := read
    rw [recordChunks]
    by_cases hempty : chunk = []
    · rw [if_pos hempty, List.takeWhile_cons_of_neg (by simpa using hempty)]
      exact congrArg Except.ok (List.append_nil _).symm
    · have hframes := recordFrames_eq hclock (fun f hf => (feed_made rtcm chunk now f hf).valid) index target
      have hrest := ih (index + (rtcm.feed chunk now).2.length)
        (target ++ Records.encode recordHeader (stamped clock index ((rtcm.feed chunk now).2.map RtcmFrame.raw)))
        (rtcm.feed chunk now).1
      rw [if_neg hempty, List.takeWhile_cons_of_pos (by simpa using hempty)]
      simp only [feedAll, List.map_append, stamped_append, List.length_map]
      rw [hframes]
      refine hrest.trans (congrArg Except.ok ?_)
      simp only [Records.encode, List.flatMap_append, List.append_assoc]

theorem mainRecord_eq (reads : List (Bytes × ℚ)) :
    mainRecord clock reads = .ok (magic ++ Records.encode recordHeader (stamped clock 0
      ((feedAll {} (reads.takeWhile fun read => read.1 ≠ [])).2.map RtcmFrame.raw))) :=
  recordChunks_eq hclock 0 magic {}

end Record

/-! ## Reading -/

section Read

variable {clock : Nat → Int} {frames : List Bytes}

theorem map_stamped (clock : Nat → Int) (frames : List Bytes) (index : Nat) :
    (stamped clock index frames).map Prod.snd = frames := by
  induction frames generalizing index with
  | nil => rfl
  | cons raw frames ih => rw [stamped_cons, List.map_cons, ih]

/-- Where the magic and the first `n` frames of a recording end. -/
def boundary (frames : List Bytes) (n : Nat) : Nat := 4 + ((frames.take n).map fun raw => 10 + raw.length).sum

theorem boundary_eq (clock : Nat → Int) (frames : List Bytes) (n : Nat) :
    boundary frames n = 4 + Records.ends recordFormat.size (stamped clock 0 frames) n := by
  have hlengths : (stamped clock 0 frames).map (fun r => recordFormat.size + r.2.length) =
      frames.map fun raw => 10 + raw.length := by
    conv_rhs => rw [← map_stamped clock frames 0, List.map_map]
    rfl
  rw [boundary, Records.ends, List.map_take, List.map_take, hlengths]

/-- A file that is at least as long as the magic. -/
theorem records_take (k : Nat) (rest : Bytes) : records ((magic ++ rest).take (4 + k)) =
    Records.read recordFormat (4 + min k rest.length) (rest.take k) := by
  have hmagic : magic.length = 4 := rfl
  rw [records, ← hmagic, List.take_length_add_append, List.take_left, if_neg (fun h => h rfl), List.drop_left,
    List.length_append, List.length_take]

/-- A file that ends inside the magic. -/
theorem records_short {k : Nat} (hk : k < 4) (rest : Bytes) :
    records ((magic ++ rest).take k) = ([], some (.valueError "not a Mowgli LoRa RTCM recording")) := by
  have hne : ((magic ++ rest).take k).take 4 ≠ magic := by
    intro h
    have hlength := congrArg List.length h
    simp only [List.length_take, magic, List.length_cons, List.length_nil] at hlength
    omega
  rw [records, if_pos hne]

variable (hclock : ∀ n, 0 ≤ clock n ∧ clock n < 2 ^ 64) (hvalid : ∀ raw ∈ frames, validRtcm3 raw = true)
include hclock hvalid

theorem heads_stamped (index : Nat) :
    ∀ r ∈ stamped clock index frames, Records.Heads recordFormat r (recordHeader r) := by
  intro r hr
  obtain ⟨i, hi, rfl⟩ := List.mem_mapIdx.mp hr
  have hlength := length_of_validRtcm3 (hvalid frames[i] (List.getElem_mem hi))
  exact heads_recordHeader (hclock _) (Nat.lt_of_le_of_lt hlength (by decide))

theorem records_whole : records (magic ++ Records.encode recordHeader (stamped clock 0 frames)) =
    (stamped clock 0 frames, none) := by
  have hread := records_take (Records.encode recordHeader (stamped clock 0 frames)).length
    (Records.encode recordHeader (stamped clock 0 frames))
  have hall : 4 + (Records.encode recordHeader (stamped clock 0 frames)).length =
      (magic ++ Records.encode recordHeader (stamped clock 0 frames)).length := by
    rw [List.length_append]
    rfl
  rw [hall, List.take_length, List.take_length, Nat.min_self] at hread
  exact hread.trans (Records.read_encode (by decide) (heads_stamped hclock hvalid 0) (Nat.le_add_left ..))

theorem length_recording : (magic ++ Records.encode recordHeader (stamped clock 0 frames)).length =
    boundary frames frames.length := by
  have hlength : (stamped clock 0 frames).length = frames.length := List.length_mapIdx
  rw [List.length_append, Records.length_encode (heads_stamped hclock hvalid 0), boundary_eq clock frames, hlength]
  rfl

/-- The first `k` bytes of a recording. -/
theorem records_cut {k : Nat} (hk : k ≤ boundary frames frames.length) :
    ∃ n ≤ frames.length,
      (records ((magic ++ Records.encode recordHeader (stamped clock 0 frames)).take k)).1 =
        (stamped clock 0 frames).take n ∧
      (∀ i < frames.length, i < n ↔ boundary frames (i + 1) ≤ k) ∧
      ((records ((magic ++ Records.encode recordHeader (stamped clock 0 frames)).take k)).2 = none ↔
        ∃ m ≤ frames.length, k = boundary frames m) ∧
      ∀ e ∈ (records ((magic ++ Records.encode recordHeader (stamped clock 0 frames)).take k)).2,
        ∃ message, e = .valueError message := by
  have hheads := heads_stamped hclock hvalid 0
  have hlength : (stamped clock 0 frames).length = frames.length := List.length_mapIdx
  by_cases hshort : k < 4
  · rw [records_short hshort]
    refine ⟨0, Nat.zero_le _, rfl, fun i _ => ⟨nofun, fun h => ?_⟩, ⟨nofun, fun ⟨m, _, h⟩ => ?_⟩, fun e he => ?_⟩
    · rw [boundary] at h
      omega
    · rw [boundary] at h
      omega
    · exact ⟨_, (Option.some.inj he).symm⟩
  obtain ⟨k, rfl⟩ := Nat.exists_eq_add_of_le (Nat.le_of_not_lt hshort)
  have hcode : k ≤ (Records.encode recordHeader (stamped clock 0 frames)).length := by
    rw [← length_recording hclock hvalid, List.length_append] at hk
    exact Nat.le_of_add_le_add_left hk
  rw [records_take, Nat.min_eq_left hcode]
  obtain ⟨n, hcut⟩ := Records.read_take (f := recordFormat) (by decide) hheads hcode (Nat.le_add_left k 4)
  refine ⟨n, hlength ▸ hcut.le, hcut.records, fun i hi => ?_, ?_, fun e he => ?_⟩
  · rw [hcut.whole (by decide) (hlength.symm ▸ hi), boundary_eq clock frames, Nat.add_le_add_iff_left]
  · rw [hcut.boundary (by decide), hlength]
    simp only [boundary_eq clock frames, Nat.add_left_cancel_iff]
  · obtain rfl | rfl := hcut.error e he
    · exact ⟨_, rfl⟩
    · exact ⟨_, rfl⟩

end Read

/-- Without drops all records are written. -/
theorem mainReplay_zero {source : Bytes} {found : List (Int × Bytes)} {e : Option Raised}
    (h : records source = (found, e)) :
    mainReplay 0 source = (found.map Prod.snd, e) := by
  have hfirst : ((found.zipIdx 1).map Prod.fst).map Prod.snd = found.map Prod.snd := by rw [List.zipIdx_map_fst]
  rw [mainReplay, h, ← hfirst, List.map_map, ← List.filterMap_eq_map]
  rfl

/-- **A recording is faithful**: `mainRecord` writes the frames that a parser makes of the stream. They are read back with
their times, their bytes one after the other are a stream of just these frames, and of the first `k` bytes of the file
those records are read that end within them, with an error unless one ends there. -/
theorem recording_faithful (clock : Nat → UInt64) (reads : List (Bytes × ℚ)) :
    let time : Nat → Int := fun n => (clock n).toNat
    let fed := (feedAll {} (reads.takeWhile fun read => read.1 ≠ [])).2
    let frames := fed.map RtcmFrame.raw
    let recorded := frames.mapIdx fun i raw => (time i, raw)
    ∃ file, mainRecord time reads = .ok file ∧ records file = (recorded, none) ∧ mainReplay 0 file = (frames, none) ∧
      (∀ chunks, streamOf chunks = (mainReplay 0 file).1.flatten →
        let again := feedAll {} chunks
        keys again.2 = keys fed ∧ again.1.stats.garbageBytes = 0 ∧ again.1.stats.headerFailures = 0 ∧
          again.1.stats.crcFailures = 0) ∧
      file.length = boundary frames frames.length ∧
      ∀ k ≤ file.length, ∃ n ≤ frames.length, (records (file.take k)).1 = recorded.take n ∧
        (∀ i < frames.length, i < n ↔ boundary frames (i + 1) ≤ k) ∧
        ((records (file.take k)).2 = none ↔ ∃ m ≤ frames.length, k = boundary frames m) ∧
        ∀ e ∈ (records (file.take k)).2, ∃ message, e = .valueError message := by
  intro time fed frames recorded
  have htime : ∀ n, 0 ≤ time n ∧ time n < 2 ^ 64 := by
    intro n
    have hlt := (clock n).toNat_lt
    exact ⟨Int.natCast_nonneg _, by simp only [time]; omega⟩
  have hmade : ∀ f ∈ fed, validRtcm3 f.raw = true ∧ f.messageType = typeBits f.raw := feedAll_made _ {}
  have hvalid : ∀ raw ∈ frames, validRtcm3 raw = true := by
    intro raw hraw
    obtain ⟨f, hf, rfl⟩ := List.mem_map.mp hraw
    exact (hmade f hf).1
  have hstamped : recorded = stamped time 0 frames := by simp only [recorded, stamped, Nat.zero_add]
  have hkeys : keys fed = frames.map fun raw => (raw, typeBits raw) := by
    rw [keys, List.map_map]
    exact List.map_congr_left fun f hf => Prod.ext rfl (hmade f hf).2
  have hwhole := records_whole htime hvalid
  have hreplay := mainReplay_zero hwhole
  rw [map_stamped] at hreplay
  rw [hstamped]
  refine ⟨_, mainRecord_eq htime reads, hwhole, hreplay, fun chunks hchunks => ?_, length_recording htime hvalid,
    fun k hk => records_cut htime hvalid (length_recording htime hvalid ▸ hk)⟩
  rw [hreplay] at hchunks
  obtain ⟨hagain, hrefused⟩ := frames_keys hvalid hchunks
  rw [refused] at hrefused
  exact ⟨hagain.trans hkeys.symm, by omega, by omega, by omega⟩

end LoraLink.Tool
