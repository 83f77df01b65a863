import LoraLink.Lib.Lines
import LoraLink.Usb.Codec
import Mathlib.Data.List.Induction
import Mathlib.Data.List.ReduceOption

/-!
# The segments of a byte stream

A stream is cut at its zero bytes into segments, and a receiver makes a frame of each. The stream arrives in chunks:
`marked` puts a mark behind each chunk, so that a segment with its marks shows where the chunks were cut.

- `streamDecoder_framing`: a `StreamDecoder` makes a frame of every segment that is not too long, and finds the next
  frame after any delimiter;
- `splitStream_agrees_iff`: `splitStream`, called on every chunk, forgets at a cut that it is discarding, and makes a
  frame of what follows; it agrees with a decoder when no such residue is a frame.
-/

namespace LoraLink.Protocol

/-- The segments of the stream that a delimiter ends. -/
def segments (stream : Bytes) : List Bytes := closed 0 stream

/-- The frame of a segment: the decoded one, if the segment is not empty and not too long. -/
def frameOf (maxEncoded : Nat) (segment : Bytes) : Option Frame :=
  if segment ≠ [] ∧ segment.length ≤ maxEncoded then decodeFrame segment else none

/-- Chunks are fed in order. -/
def StreamDecoder.feedAll (d : StreamDecoder) : List Bytes → StreamDecoder × List Frame
  | [] => (d, [])
  | chunk :: chunks =>
    let (d', frames) := d.feed chunk
    let (d'', frames') := d'.feedAll chunks
    (d'', frames ++ frames')

/-- Every chunk is appended to the stream, which is split then. -/
def splitChunks (maxEncoded : Nat) (stream : Bytes) : List Bytes → Bytes × List Frame
  | [] => (stream, [])
  | chunk :: chunks =>
    let (stream, frames) := splitStream (stream ++ chunk) maxEncoded
    let (stream', frames') := splitChunks maxEncoded stream chunks
    (stream', frames ++ frames')

theorem feedAll_eq (d : StreamDecoder) (chunks : List Bytes) : d.feedAll chunks = d.feed chunks.flatten := by
  induction chunks generalizing d with
  | nil => rfl
  | cons chunk chunks ih =>
    rw [List.flatten_cons, feed_append]
    simp only [StreamDecoder.feedAll, ih]

/-! ## Marked streams -/

/-- The bytes of the chunks, with a mark behind each chunk. -/
def marked (chunks : List Bytes) : List (Option UInt8) := chunks.flatMap fun chunk => chunk.map some ++ [none]

/-- The segments of a marked stream. -/
def markedSegments (l : List (Option UInt8)) : List (List (Option UInt8)) := closed (some 0) l

/-- What of a segment is there at its end if more than `maxEncoded` bytes are forgotten at a mark. -/
def residue (maxEncoded : Nat) (segment : List (Option UInt8)) : Bytes :=
  segment.foldl (fun bytes x => match x with
    | some byte => bytes ++ [byte]
    | none => if bytes.length ≤ maxEncoded then bytes else []) []

/-- A decoder that forgets at a mark that it is discarding. -/
def StreamDecoder.feedMark (d : StreamDecoder) : Option UInt8 → StreamDecoder × List Frame
  | none => ({ d with discarding := false }, [])
  | some byte => d.feedByte byte

theorem reduceOption_marked (chunks : List Bytes) : (marked chunks).reduceOption = chunks.flatten := by
  induction chunks with
  | nil => rfl
  | cons chunk chunks ih =>
    simp only [marked, List.flatMap_cons, List.reduceOption_append, List.flatten_cons] at ih ⊢
    rw [ih]
    simp [List.reduceOption]

/-- Without its marks, a stream has the same segments without theirs. -/
theorem segments_reduceOption (l : List (Option UInt8)) :
    segments l.reduceOption = (markedSegments l).map List.reduceOption := by
  suffices h : l.reduceOption.splitOn 0 = (l.splitOn (some 0)).map List.reduceOption by
    rw [segments, markedSegments, closed, closed, h, List.map_dropLast]
  induction l with
  | nil => rfl
  | cons x l ih =>
    rw [List.splitOn_cons_eq_if_modifyHead]
    cases x with
    | none =>
      rw [List.reduceOption_cons_of_none, ih]
      simp
      cases l.splitOn (some 0) <;> simp
    | some byte =>
      rw [List.reduceOption_cons_of_some, List.splitOn_cons_eq_if_modifyHead, ih]
      by_cases hz : byte = 0
      · simp [hz]
      · have hne : ¬ (some byte == some (0 : UInt8)) = true := by simpa using hz
        simp [hz]
        cases l.splitOn (some 0) <;> simp

/-! ## The decoder along a segment -/

/-- The bytes `line` have come since the last delimiter. -/
structure StreamDecoder.Holds (maxEncoded : Nat) (line : Bytes) (d : StreamDecoder) : Prop where
  limit : d.maxEncoded = maxEncoded
  kept : line.length ≤ maxEncoded → d.discarding = false ∧ d.buffer = line
  long : maxEncoded < line.length → d.discarding = true ∧ d.buffer = []

namespace StreamDecoder.Holds

variable {maxEncoded : Nat} {line : Bytes} {d : StreamDecoder}

/-- Between frames. -/
theorem start (hlimit : d.maxEncoded = maxEncoded) (hdiscarding : d.discarding = false) (hbuffer : d.buffer = []) :
    Holds maxEncoded [] d :=
  ⟨hlimit, fun _ => ⟨hdiscarding, hbuffer⟩, fun h => absurd h (Nat.not_lt_zero _)⟩

theorem buffer_le (h : Holds maxEncoded line d) : d.buffer.length ≤ maxEncoded := by
  by_cases hlength : line.length ≤ maxEncoded
  · rw [(h.kept hlength).2]
    exact hlength
  · rw [(h.long (Nat.lt_of_not_le hlength)).2]
    exact Nat.zero_le _

theorem more (h : Holds maxEncoded line d) {byte : UInt8} (hz : byte ≠ 0) :
    (d.feedByte byte).2 = [] ∧ Holds maxEncoded (line ++ [byte]) (d.feedByte byte).1 := by
  have hlimit := h.limit
  unfold StreamDecoder.feedByte
  rw [if_neg hz]
  by_cases hlength : line.length ≤ maxEncoded
  · obtain ⟨hdiscarding, hbuffer⟩ := h.kept hlength
    simp only [hdiscarding, Bool.false_eq_true, not_false_eq_true, if_true, hbuffer, hlimit]
    split
    · rename_i hlong
      exact ⟨rfl, rfl, fun hshort => absurd hlong (Nat.not_lt.mpr hshort), fun _ => ⟨rfl, rfl⟩⟩
    · rename_i hshort
      exact ⟨rfl, rfl, fun _ => ⟨rfl, rfl⟩, fun hlong => absurd hlong hshort⟩
  · obtain ⟨hdiscarding, hbuffer⟩ := h.long (Nat.lt_of_not_le hlength)
    rw [if_neg (by simp [hdiscarding])]
    refine ⟨rfl, hlimit, fun hshort => ?_, fun _ => ⟨hdiscarding, hbuffer⟩⟩
    rw [List.length_append, List.length_singleton] at hshort
    omega

/-- At the delimiter the segment is decoded. -/
theorem ended (h : Holds maxEncoded line d) :
    (d.feedByte 0).2 = (frameOf maxEncoded line).toList ∧ Holds maxEncoded [] (d.feedByte 0).1 := by
  refine ⟨?_, .start h.limit rfl rfl⟩
  unfold StreamDecoder.feedByte frameOf
  rw [if_pos rfl]
  by_cases hlength : line.length ≤ maxEncoded
  · obtain ⟨hdiscarding, hbuffer⟩ := h.kept hlength
    simp only [hdiscarding, hbuffer, Bool.false_eq_true, not_false_eq_true, true_and, hlength, and_true]
    split <;> rfl
  · obtain ⟨hdiscarding, -⟩ := h.long (Nat.lt_of_not_le hlength)
    simp only [hdiscarding, hlength, and_false, if_false, not_true_eq_false, false_and, Option.toList_none]

/-- At a mark a segment that is too long is forgotten. -/
theorem mark (h : Holds maxEncoded line d) :
    Holds maxEncoded (if line.length ≤ maxEncoded then line else []) { d with discarding := false } := by
  by_cases hlength : line.length ≤ maxEncoded
  · rw [if_pos hlength]
    exact ⟨h.limit, fun _ => ⟨rfl, (h.kept hlength).2⟩, fun hlong => absurd hlong (Nat.not_lt.mpr hlength)⟩
  · rw [if_neg hlength]
    exact .start h.limit rfl (h.long (Nat.lt_of_not_le hlength)).2

end StreamDecoder.Holds

theorem feed_eq_reads (d : StreamDecoder) (data : Bytes) : d.feed data = reads StreamDecoder.feedByte d data := by
  induction data generalizing d with
  | nil => rfl
  | cons byte data ih => simp only [StreamDecoder.feed, reads, ih]

theorem segmented (maxEncoded : Nat) : Segmented 0 StreamDecoder.feedByte (StreamDecoder.Holds maxEncoded)
    fun line => (frameOf maxEncoded line).toList :=
  ⟨fun hz h => h.more hz, fun h => h.ended⟩

/-- The frames of a stream are those of its segments. -/
theorem feed_segments {maxEncoded : Nat} {line : Bytes} {d : StreamDecoder} (h : StreamDecoder.Holds maxEncoded line d)
    (hline : 0 ∉ line) (stream : Bytes) :
    (d.feed stream).2 = (segments (line ++ stream)).filterMap (frameOf maxEncoded) ∧
      ∃ line, 0 ∉ line ∧ StreamDecoder.Holds maxEncoded line (d.feed stream).1 := by
  obtain ⟨hframes, hend⟩ := (segmented maxEncoded).reads stream hline h
  rw [feed_eq_reads, List.filterMap_eq_flatMap_toList]
  exact ⟨hframes, hend⟩

/-- The same from the start of the stream. -/
theorem feed_start (maxEncoded : Nat) (stream : Bytes) : (({ maxEncoded := maxEncoded } : StreamDecoder).feed stream).2 =
    (segments stream).filterMap (frameOf maxEncoded) :=
  (feed_segments (.start rfl rfl rfl) List.not_mem_nil stream).1

/-! ## Encoded frames -/

/-- A frame is read back from the bytes it is encoded in. -/
theorem frameOfBody_rawFrame {msgType session sequence : Nat} {payload : Bytes} (ht : msgType ≤ 255)
    (hs : session ≤ 0xffffffff) (hq : sequence ≤ 0xffffffff) (hp : payload.length ≤ maxUsbPayload) :
    frameOfBody (rawFrame msgType session sequence payload) =
      some { msgType := msgType, session := session, sequence := sequence, payload := payload } := by
  have hp' : payload.length ≤ 256 := hp
  have hhead : (frameBody msgType session sequence payload).length = 16 + payload.length := by
    simp [frameBody]
    omega
  have hlength : (rawFrame msgType session sequence payload).length = 18 + payload.length := by
    rw [rawFrame, List.length_append, hhead, length_be16]
    omega
  have hcut : 18 + payload.length - 2 = (frameBody msgType session sequence payload).length := by omega
  have htake : (rawFrame msgType session sequence payload).take (frameBody msgType session sequence payload).length =
      frameBody msgType session sequence payload := List.take_left
  have hdrop : (rawFrame msgType session sequence payload).drop (frameBody msgType session sequence payload).length =
      be16 (crc16 (frameBody msgType session sequence payload)) ++ [] := by
    rw [List.append_nil]
    exact List.drop_left
  have hcrc : u16 (be16 (crc16 (frameBody msgType session sequence payload)) ++ []) =
      crc16 (frameBody msgType session sequence payload) :=
    (u16_be16 _ _).trans (Nat.mod_eq_of_lt (crc_lt 0x1021#16 0xffff#16 _))
  have hsession : u32 ((rawFrame msgType session sequence payload).drop 6) = session :=
    (u32_be32 session _).trans (Nat.mod_eq_of_lt (by omega))
  have hsequence : u32 ((rawFrame msgType session sequence payload).drop 10) = sequence :=
    (u32_be32 sequence _).trans (Nat.mod_eq_of_lt (by omega))
  have hsize : u16 ((rawFrame msgType session sequence payload).drop 14) = payload.length :=
    (u16_be16 payload.length _).trans (Nat.mod_eq_of_lt (by omega))
  have htype : (byteAt (rawFrame msgType session sequence payload) 3).toNat = msgType := by
    show (UInt8.ofNat msgType).toNat = msgType
    rw [UInt8.toNat_ofNat']
    omega
  unfold frameOfBody
  rw [if_neg, if_neg, if_neg, if_neg]
  · rw [hlength, hcut, htake, hsession, hsequence, htype]
    rfl
  · rw [hlength, hcut, htake, hdrop, hcrc]
    exact not_not.mpr rfl
  · rw [hlength, hsize]
    omega
  · exact not_or.mpr ⟨not_not.mpr rfl, not_or.mpr ⟨not_not.mpr rfl, not_not.mpr rfl⟩⟩
  · rw [hlength]
    refine not_or.mpr ⟨by omega, not_or.mpr ⟨?_, not_not.mpr rfl⟩⟩
    rw [maxDecoded]
    omega

/-- The bytes of an encoded frame: a segment that is a frame again, and its delimiter. -/
theorem encodeFrame_segment {msgType session sequence : Nat} {payload encoded : Bytes}
    (h : encodeFrame msgType session sequence payload = some encoded) :
    ∃ segment, encoded = segment ++ [0] ∧ 0 ∉ segment ∧ frameOf 380 segment =
      some { msgType := msgType, session := session, sequence := sequence, payload := payload } := by
  unfold encodeFrame at h
  split at h
  · cases h
  · rename_i hid
    split at h
    · cases h
    · rename_i hp
      obtain rfl := (Option.some.inj h).symm
      have hp' : payload.length ≤ 256 := Nat.le_of_not_lt hp
      have hbody := @frameOfBody_rawFrame msgType session sequence payload
        (by omega) (by omega) (by omega) (Nat.le_of_not_lt hp)
      have hstuff := Cobs.length_stuff (rawFrame msgType session sequence payload)
      have hlength : (rawFrame msgType session sequence payload).length = 18 + payload.length := by
        simp [rawFrame, frameBody]
        omega
      refine ⟨_, rfl, fun hzero => ?_, ?_⟩
      · rw [cobsEncode_eq_stuff] at hzero
        exact Cobs.stuff_ne_zero _ 0 hzero rfl
      · rw [frameOf, if_pos, decodeFrame_cobsEncode, hbody]
        rw [cobsEncode_eq_stuff]
        exact ⟨Cobs.stuff_ne_nil _, by omega⟩

/-- Behind a delimiter, a segment and what follows it. -/
theorem segments_behind {before segment : Bytes} (hbefore : before = [] ∨ before.getLast? = some 0)
    (hsegment : 0 ∉ segment)
    (after : Bytes) : segments (before ++ (segment ++ [0]) ++ after) = segments before ++ segment :: segments after := by
  rcases hbefore with rfl | hlast
  · rw [List.nil_append, List.append_assoc]
    exact closed_cut hsegment after
  · obtain ⟨front, rfl⟩ := List.getLast?_eq_some_iff.mp hlast
    have hshape : front ++ [0] ++ (segment ++ [0]) ++ after = front ++ 0 :: (segment ++ 0 :: after) := by simp
    rw [hshape]
    exact (closed_append front _).trans (congrArg _ (closed_cut hsegment after))

/-- A `StreamDecoder`, however the stream is cut into chunks: it makes a frame of each segment that is not empty, not
too long and accepted, never keeps more than the longest segment, and misses no encoded frame behind a delimiter. -/
theorem streamDecoder_framing (maxEncoded : Nat) (chunks : List Bytes) :
    let d : StreamDecoder := { maxEncoded := maxEncoded }
    (d.feedAll chunks).2 = ((segments chunks.flatten).filter fun segment =>
        segment ≠ [] ∧ segment.length ≤ maxEncoded).filterMap decodeFrame ∧
      (∀ read, read <+: chunks.flatten → (d.feed read).1.buffer.length ≤ maxEncoded) ∧
      (maxEncoded = 380 → ∀ before after encoded msgType session sequence payload,
        encodeFrame msgType session sequence payload = some encoded → (before = [] ∨ before.getLast? = some 0) →
        chunks.flatten = before ++ encoded ++ after → (d.feedAll chunks).2 = (d.feed before).2 ++
          [{ msgType := msgType, session := session, sequence := sequence, payload := payload }] ++
            (d.feed after).2) := by
  intro d
  refine ⟨?_, fun read _ => ?_, ?_⟩
  · rw [feedAll_eq, feed_start, List.filterMap_filter]
    refine List.filterMap_congr fun segment _ => ?_
    simp [frameOf]
  · have hd : StreamDecoder.Holds maxEncoded [] d := .start rfl rfl rfl
    obtain ⟨-, line, -, hline⟩ := feed_segments hd List.not_mem_nil read
    exact hline.buffer_le
  · rintro rfl before after encoded msgType session sequence payload hencode hbefore hstream
    obtain ⟨segment, rfl, hsegment, hframe⟩ := encodeFrame_segment hencode
    rw [feedAll_eq, hstream, feed_start, feed_start, feed_start, segments_behind hbefore hsegment,
      List.filterMap_append, List.filterMap_cons, hframe, List.append_assoc]
    rfl

/-! ## Split streams -/

theorem residue_some (maxEncoded : Nat) (segment : List (Option UInt8)) (byte : UInt8) :
    residue maxEncoded (segment ++ [some byte]) = residue maxEncoded segment ++ [byte] := List.foldl_append

theorem residue_none (maxEncoded : Nat) (segment : List (Option UInt8)) : residue maxEncoded (segment ++ [none]) =
    if (residue maxEncoded segment).length ≤ maxEncoded then residue maxEncoded segment else [] := List.foldl_append

/-- Nothing is forgotten of a segment that is not too long. -/
theorem residue_short {maxEncoded : Nat} (segment : List (Option UInt8)) (h : segment.reduceOption.length ≤ maxEncoded) :
    residue maxEncoded segment = segment.reduceOption := by
  induction segment using List.reverseRecOn with
  | nil => rfl
  | append_singleton segment x ih =>
    rw [List.reduceOption_append, List.length_append] at h
    have hsegment := ih (by omega)
    cases x with
    | some byte =>
      rw [residue_some, hsegment, List.reduceOption_append]
      rfl
    | none =>
      rw [residue_none, hsegment, if_pos (by omega), List.reduceOption_append]
      exact (List.append_nil _).symm

/-- A segment seen by a decoder that forgets. -/
theorem segmented_marks (maxEncoded : Nat) : Segmented (some 0) StreamDecoder.feedMark
    (fun cur => StreamDecoder.Holds maxEncoded (residue maxEncoded cur))
    fun segment => (frameOf maxEncoded (residue maxEncoded segment)).toList := by
  constructor
  · intro cur d x hx h
    cases x with
    | none =>
      rw [residue_none]
      exact ⟨rfl, h.mark⟩
    | some byte =>
      rw [residue_some]
      exact h.more fun hz => hx (congrArg some hz)
  · exact fun h => h.ended

theorem reads_feedMark (d : StreamDecoder) (chunk : Bytes) :
    reads StreamDecoder.feedMark d (chunk.map some) = d.feed chunk := by
  induction chunk generalizing d with
  | nil => rfl
  | cons byte chunk ih => simp only [List.map_cons, reads, StreamDecoder.feed, ih, StreamDecoder.feedMark]

/-- What is left in the stream is what the decoder had in its buffer, so the next call goes on from there. -/
theorem splitStream_eq {maxEncoded : Nat} {stream : Bytes} (hstream : 0 ∉ stream) (hlength : stream.length ≤ maxEncoded)
    (chunk : Bytes) : splitStream (stream ++ chunk) maxEncoded =
      (let d : StreamDecoder := { buffer := stream, maxEncoded := maxEncoded }
       ((d.feed chunk).1.buffer, (d.feed chunk).2)) := by
  have hfill := feed_fill stream { maxEncoded := maxEncoded } rfl (fun x hx hz => hstream (hz ▸ hx))
    (by simpa using hlength)
  simp only [splitStream, feed_append, hfill, List.nil_append]

theorem splitChunks_eq {maxEncoded : Nat} (chunks : List Bytes) : ∀ {stream : Bytes}, 0 ∉ stream →
    stream.length ≤ maxEncoded → (splitChunks maxEncoded stream chunks).2 =
      (reads StreamDecoder.feedMark { buffer := stream, maxEncoded := maxEncoded } (marked chunks)).2 := by
  induction chunks with
  | nil => exact fun _ _ => rfl
  | cons chunk chunks ih =>
    intro stream hstream hlength
    have hholds : StreamDecoder.Holds maxEncoded stream { buffer := stream, maxEncoded := maxEncoded } :=
      ⟨rfl, fun _ => ⟨rfl, rfl⟩, fun hlong => absurd hlength (Nat.not_le.mpr hlong)⟩
    obtain ⟨-, line, hline, hnext⟩ := feed_segments hholds hstream chunk
    have hmarked : marked (chunk :: chunks) = chunk.map some ++ none :: marked chunks := by
      simp [marked]
    simp only [splitChunks, splitStream_eq hstream hlength]
    rw [hmarked, reads_append, reads_feedMark]
    generalize ({ buffer := stream, maxEncoded := maxEncoded } : StreamDecoder).feed chunk = fed at hnext ⊢
    obtain ⟨⟨buffer, discarding, limit⟩, frames⟩ := fed
    obtain rfl : limit = maxEncoded := hnext.limit
    have hbuffer : 0 ∉ buffer := by
      by_cases hshort : line.length ≤ limit
      · have hkept : buffer = line := (hnext.kept hshort).2
        rwa [hkept]
      · have hgone : buffer = [] := (hnext.long (Nat.lt_of_not_le hshort)).2
        rw [hgone]
        exact List.not_mem_nil
    rw [ih hbuffer hnext.buffer_le]
    rfl

/-- `splitStream` on every chunk makes a frame of what it remembers of each segment. -/
theorem splitChunks_segments (maxEncoded : Nat) (chunks : List Bytes) : (splitChunks maxEncoded [] chunks).2 =
    (markedSegments (marked chunks)).filterMap fun segment => frameOf maxEncoded (residue maxEncoded segment) := by
  have hstart : StreamDecoder.Holds maxEncoded (residue maxEncoded []) { maxEncoded := maxEncoded } := .start rfl rfl rfl
  rw [splitChunks_eq chunks List.not_mem_nil (Nat.zero_le _), List.filterMap_eq_flatMap_toList]
  exact ((segmented_marks maxEncoded).reads (marked chunks) List.not_mem_nil hstart).1

/-- `splitStream` agrees with a decoder on a stream in chunks if and only if what it remembers of a segment that is too
long is never a frame: it forgets at the end of a chunk that it is discarding. -/
theorem splitStream_agrees_iff (maxEncoded : Nat) (chunks : List Bytes) :
    (splitChunks maxEncoded [] chunks).2 = (({ maxEncoded := maxEncoded } : StreamDecoder).feedAll chunks).2 ↔
      ∀ segment ∈ markedSegments (marked chunks), maxEncoded < segment.reduceOption.length →
        frameOf maxEncoded (residue maxEncoded segment) = none := by
  have hframe : ∀ segment : List (Option UInt8), maxEncoded < segment.reduceOption.length →
      frameOf maxEncoded segment.reduceOption = none := by
    intro segment hlong
    rw [frameOf, if_neg]
    exact fun h => absurd h.2 (Nat.not_le.mpr hlong)
  have hagree : ∀ segment : List (Option UInt8), frameOf maxEncoded segment.reduceOption = none ∨
      frameOf maxEncoded (residue maxEncoded segment) = frameOf maxEncoded segment.reduceOption := by
    intro segment
    rcases Nat.lt_or_ge maxEncoded segment.reduceOption.length with hlong | hshort
    · exact Or.inl (hframe segment hlong)
    · exact Or.inr (by rw [residue_short segment hshort])
  rw [splitChunks_segments, feedAll_eq, feed_start, ← reduceOption_marked, segments_reduceOption, List.filterMap_map]
  refine (filterMap_eq_iff hagree _).trans (forall₂_congr fun segment _ => ?_)
  rcases Nat.lt_or_ge maxEncoded segment.reduceOption.length with hlong | hshort
  · rw [hframe segment hlong]
    exact ⟨fun h _ => h, fun h => h hlong⟩
  · rw [residue_short segment hshort]
    exact ⟨fun _ hlong => absurd hshort (Nat.not_le.mpr hlong), fun _ => rfl⟩

/-- A frame behind 381 other bytes, cut off from them by the end of a chunk, is not discarded with them. -/
theorem splitStream_takes_rest : ¬ ∀ maxEncoded chunks, (splitChunks maxEncoded [] chunks).2 =
    (({ maxEncoded := maxEncoded } : StreamDecoder).feedAll chunks).2 := by
  intro h
  have hagree := h 380 [List.replicate 381 0x78, cobsEncode (rawFrame Msg.hello 1 1 []) ++ [0]]
  exact absurd hagree (by decide +kernel)

end LoraLink.Protocol
