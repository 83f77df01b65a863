import LoraLink.Usb.Protocol

/-!
# The USB framing, read back

- `cobsEncode_eq_stuff`, `cobsDecode_eq`: the loops of the source compute the block form of `Lib/Cobs.lean`;
- `frameOfBody_fields`: what the checks of `decode_frame` have found, field by field;
- `feed_frames`: on whole stuffed strings, each ended by a zero, a stream decoder with an empty buffer yields the
  frames `decodeFrame` makes of them, in order, and has an empty buffer again.
-/

namespace LoraLink.Protocol

open LoraLink.Cobs

/-! ## COBS -/

/-- The loop of `cobsEncode`: closed blocks `done`, the open block `blk` behind its place holder. -/
theorem cobsEncode_loop (d : Bytes) : ∀ (done blk : Bytes), blk.length ≤ 253 →
    (let s := d.foldl cobsEncodeByte { out := done ++ 0 :: blk, code := blk.length + 1, codePos := done.length }
     s.out.set s.codePos (UInt8.ofNat s.code)) = done ++ stuffFrom blk d := by
  have hset : ∀ (done blk : Bytes) (x : UInt8), (done ++ 0 :: blk).set done.length x = done ++ x :: blk := by
    intro done blk x
    rw [List.set_append_right _ _ (Nat.le_refl _)]
    simp
  induction d with
  | nil => intro done blk h; simp only [List.foldl_nil, hset]; rfl
  | cons b d ih =>
    intro done blk h
    simp only [List.foldl_cons, cobsEncodeByte, stuffFrom]
    by_cases hb : b = 0
    · have := ih (done ++ code blk :: blk) [] (by simp)
      simp only [if_pos hb, hset]
      simpa [code] using this
    · by_cases hl : blk.length = 253
      · have := ih (done ++ code (blk ++ [b]) :: (blk ++ [b])) [] (by simp)
        simp only [if_neg hb, hl, if_true, List.append_assoc, List.cons_append, hset]
        simpa [code, hl] using this
      · have := ih done (blk ++ [b]) (by simp; omega)
        simp only [if_neg hb, hl, if_false, show ¬ blk.length + 1 + 1 = 0xff by omega]
        simpa using this

theorem cobsEncode_eq_stuff (d : Bytes) : cobsEncode d = stuff d := by
  unfold cobsEncode stuff
  split
  · rename_i h; subst h; rfl
  · simpa using cobsEncode_loop d [] [] (by simp)

theorem unstuffFrom_sep {rest : Bytes} (h : rest ≠ []) :
    unstuffFrom 0 true rest = (unstuffFrom 0 false rest).map (0 :: ·) := by
  cases rest with
  | nil => exact absurd rfl h
  | cons c rest =>
    simp only [unstuffFrom]
    split <;> simp

/-- Reading `need` bytes of a block at once. -/
theorem unstuffFrom_take (sep : Bool) {rest : Bytes} {need : Nat} (h : need ≤ rest.length) :
    unstuffFrom need sep rest = (unstuffFrom 0 sep (rest.drop need)).map (rest.take need ++ ·) := by
  have := unstuffFrom_block sep (rest.drop need) (rest.take need)
  rwa [List.take_append_drop, List.length_take, Nat.min_eq_left h] at this

theorem cobsDecodeLoop_eq : ∀ (fuel : Nat) (a out : Bytes), a.length ≤ fuel →
    cobsDecodeLoop fuel a out = (unstuffFrom 0 false a).map (out ++ ·) := by
  intro fuel
  induction fuel with
  | zero =>
    intro a out h
    have : a = [] := List.eq_nil_of_length_eq_zero (by omega)
    subst this; simp [cobsDecodeLoop, unstuffFrom]
  | succ fuel ih =>
    intro a out h
    cases a with
    | nil => simp [cobsDecodeLoop, unstuffFrom]
    | cons c rest =>
      simp only [cobsDecodeLoop, unstuffFrom]
      by_cases hc : c = 0
      · simp [hc]
      · rw [if_neg hc, if_neg hc]
        by_cases hs : rest.length < c.toNat - 1
        · rw [if_pos hs, unstuffFrom_short _ _ _ hs]; rfl
        · have hdrop : (rest.drop (c.toNat - 1)).length ≤ fuel := by simp at h ⊢; omega
          have htake := @unstuffFrom_take (c != 255) rest (c.toNat - 1) (by omega)
          rw [if_neg hs, ih _ _ hdrop, htake]
          by_cases hr : rest.drop (c.toNat - 1) = []
          · simp [hr, unstuffFrom]
          · by_cases hf : c = 255
            · simp [hf, Function.comp_def]
            · have hsep : (c != 255) = true := by simpa using hf
              rw [if_pos ⟨hf, hr⟩, hsep, unstuffFrom_sep hr]
              simp [Function.comp_def]

theorem cobsDecode_eq {a : Bytes} (h : a ≠ []) : cobsDecode a = unstuff a := by
  rw [cobsDecode, if_neg h, cobsDecodeLoop_eq _ _ _ (Nat.le_refl _)]
  simp [unstuff]

theorem cobsDecode_cobsEncode (d : Bytes) : cobsDecode (cobsEncode d) = some d := by
  rw [cobsEncode_eq_stuff, cobsDecode_eq (stuff_ne_nil d), unstuff_stuff]

theorem decodeFrame_cobsEncode (b : Bytes) : decodeFrame (cobsEncode b) = frameOfBody b := by
  simp [decodeFrame, cobsDecode_cobsEncode]

/-! ## Frames -/

/-- A decoded frame shows the fields of the bytes it was made of. -/
theorem frameOfBody_fields {b : Bytes} {f : Frame} (h : frameOfBody b = some f) :
    18 ≤ b.length ∧ f.msgType = (byteAt b 3).toNat ∧ f.session = u32 (b.drop 6) ∧ f.sequence = u32 (b.drop 10) ∧
      f.payload = (b.take (b.length - 2)).drop 16 := by
  simp only [frameOfBody, Option.ite_none_left_eq_some, Option.some.injEq, not_or] at h
  obtain ⟨⟨h18, -⟩, -, -, -, rfl⟩ := h
  exact ⟨by omega, rfl, rfl, rfl, rfl⟩

/-! ## The stream decoder -/

theorem feed_append (d : StreamDecoder) (a b : Bytes) :
    d.feed (a ++ b) = (((d.feed a).1.feed b).1, (d.feed a).2 ++ ((d.feed a).1.feed b).2) := by
  induction a generalizing d with
  | nil => simp [StreamDecoder.feed]
  | cons x a ih => simp [StreamDecoder.feed, ih]

/-- Bytes other than zero fill the buffer while they fit. -/
theorem feed_fill : ∀ (e : Bytes) (d : StreamDecoder), d.discarding = false → (∀ x ∈ e, x ≠ 0) →
    d.buffer.length + e.length ≤ d.maxEncoded → d.feed e = ({ d with buffer := d.buffer ++ e }, [])
  | [], d, _, _, _ => by simp [StreamDecoder.feed]
  | x :: e, d, hd, hz, hl => by
    have hx : x ≠ 0 := hz x List.mem_cons_self
    have hstep : d.feedByte x = ({ d with buffer := d.buffer ++ [x] }, []) := by
      simp only [List.length_cons] at hl
      simp [StreamDecoder.feedByte, hx, hd]
      omega
    have ih := feed_fill e { d with buffer := d.buffer ++ [x] } hd (fun y hy => hz y (List.mem_cons_of_mem _ hy))
      (by simp at hl ⊢; omega)
    simp [StreamDecoder.feed, hstep, ih]

/-- One stuffed string and its delimiter, between frames. -/
theorem feed_one {e : Bytes} {d : StreamDecoder} (hd : d.discarding = false) (hb : d.buffer = [])
    (hz : ∀ x ∈ e, x ≠ 0) (hne : e ≠ []) (hl : e.length ≤ d.maxEncoded) :
    d.feed (e ++ [0]) = (d, (decodeFrame e).toList) := by
  rw [feed_append, feed_fill e d hd hz (by simpa [hb] using hl)]
  cases d
  simp_all [StreamDecoder.feed, StreamDecoder.feedByte]

/-- Whole stuffed strings between delimiters are decoded one by one. -/
theorem feed_frames {d : StreamDecoder} (hd : d.discarding = false) (hb : d.buffer = []) :
    ∀ bs : List Bytes, (∀ b ∈ bs, (cobsEncode b).length ≤ d.maxEncoded) →
      d.feed (bs.flatMap fun b => cobsEncode b ++ [0]) = (d, bs.filterMap frameOfBody)
  | [], _ => rfl
  | b :: bs, hl => by
    have hone : d.feed (cobsEncode b ++ [0]) = (d, (frameOfBody b).toList) := by
      have hlb := hl b List.mem_cons_self
      rw [← decodeFrame_cobsEncode]
      rw [cobsEncode_eq_stuff] at hlb ⊢
      exact feed_one hd hb (stuff_ne_zero b) (stuff_ne_nil b) hlb
    have ih := feed_frames hd hb bs (fun c hc => hl c (List.mem_cons_of_mem _ hc))
    rw [List.flatMap_cons, feed_append, hone]
    simp only [ih, List.filterMap_cons]
    cases frameOfBody b <;> rfl

/-- Bytes other than zero complete no frame: they are in the buffer, or thrown away. -/
theorem feed_nonzero : ∀ (e : Bytes) (d : StreamDecoder), (∀ x ∈ e, x ≠ 0) →
    (d.feed e).2 = [] ∧ (d.feed e).1.maxEncoded = d.maxEncoded ∧
      ((d.feed e).1.discarding = false → d.discarding = false ∧ (d.feed e).1.buffer = d.buffer ++ e)
  | [], d, _ => ⟨rfl, rfl, fun h => ⟨h, (List.append_nil _).symm⟩⟩
  | x :: e, d, hz => by
    have hx : x ≠ 0 := hz x List.mem_cons_self
    obtain ⟨hnone, hmax, hbuffer⟩ := feed_nonzero e (d.feedByte x).1 fun y hy => hz y (List.mem_cons_of_mem _ hy)
    have hfeed : d.feed (x :: e) = (((d.feedByte x).1.feed e).1, (d.feedByte x).2 ++ ((d.feedByte x).1.feed e).2) := rfl
    have hbyte : (d.feedByte x).2 = [] ∧ (d.feedByte x).1.maxEncoded = d.maxEncoded ∧
        ((d.feedByte x).1.discarding = false → d.discarding = false ∧ (d.feedByte x).1.buffer = d.buffer ++ [x]) := by
      unfold StreamDecoder.feedByte
      rw [if_neg hx]
      split
      · rename_i hopen
        simp only
        split
        · exact ⟨rfl, rfl, fun h => by cases h⟩
        · exact ⟨rfl, rfl, fun h => ⟨h, rfl⟩⟩
      · rename_i hclosed
        exact ⟨rfl, rfl, fun h => absurd h (by simpa using hclosed)⟩
    rw [hfeed]
    refine ⟨by rw [hbyte.1, hnone]; rfl, hmax.trans hbyte.2.1, fun h => ?_⟩
    obtain ⟨hopen, hall⟩ := hbuffer h
    obtain ⟨hopen', hone⟩ := hbyte.2.2 hopen
    exact ⟨hopen', by rw [hall, hone, List.append_assoc]; rfl⟩

/-- A stuffed string of any length leaves a new decoder as it was, and yields its frame if any. -/
theorem feed_whole {d : StreamDecoder} (hd : d.discarding = false) (hb : d.buffer = []) (b : Bytes) :
    (d.feed (cobsEncode b ++ [0])).1 = d ∧ ∀ f ∈ (d.feed (cobsEncode b ++ [0])).2, frameOfBody b = some f := by
  obtain ⟨hnone, hmax, hbuffer⟩ := feed_nonzero (cobsEncode b) d (by rw [cobsEncode_eq_stuff]; exact stuff_ne_zero b)
  rw [feed_append, hnone, List.nil_append]
  generalize (d.feed (cobsEncode b)).1 = d' at hmax hbuffer
  obtain ⟨buffer, discarding, maxEncoded⟩ := d
  obtain ⟨buffer', discarding', maxEncoded'⟩ := d'
  obtain rfl : discarding = false := hd
  obtain rfl : buffer = [] := hb
  obtain rfl : maxEncoded' = maxEncoded := hmax
  refine ⟨rfl, fun f hf => ?_⟩
  simp only [StreamDecoder.feed, StreamDecoder.feedByte, if_true, List.append_nil] at hf
  split at hf
  · rename_i hopen
    have hall : buffer' = cobsEncode b := (hbuffer (by simpa using hopen.1)).2
    rw [hall, decodeFrame_cobsEncode, Option.mem_toList] at hf
    exact hf
  · exact absurd hf List.not_mem_nil

/-- Whole stuffed strings yield no other frames than theirs. -/
theorem feed_frames_sound {d : StreamDecoder} (hd : d.discarding = false) (hb : d.buffer = []) : ∀ bs : List Bytes,
    (d.feed (bs.flatMap fun b => cobsEncode b ++ [0])).1 = d ∧
      ∀ f ∈ (d.feed (bs.flatMap fun b => cobsEncode b ++ [0])).2, ∃ b ∈ bs, frameOfBody b = some f
  | [] => ⟨rfl, fun f hf => absurd hf List.not_mem_nil⟩
  | b :: bs => by
    obtain ⟨hsame, hone⟩ := feed_whole hd hb b
    obtain ⟨hend, hrest⟩ := feed_frames_sound hd hb bs
    rw [List.flatMap_cons, feed_append, hsame]
    refine ⟨hend, fun f hf => ?_⟩
    rcases List.mem_append.mp hf with hf | hf
    · exact ⟨b, List.mem_cons_self, hone f hf⟩
    · obtain ⟨c, hc, hfc⟩ := hrest f hf
      exact ⟨c, List.mem_cons_of_mem _ hc, hfc⟩

end LoraLink.Protocol
