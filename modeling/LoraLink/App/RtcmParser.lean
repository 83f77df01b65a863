import LoraLink.App.Codec

/-!
# The RTCM3 stream parser

`RtcmStreamParser` of `rtcm.py`. `pass` is one pass of the loop of `feed`. A pass after which the loop goes on has
shortened the buffer (`length_pass`), so the length of the buffer is fuel enough.

- `loop_fuel`: more fuel than the length of the buffer makes no difference;
- `feed_made`: every frame that comes out is a valid RTCM3 frame with its own type and the time of its chunk.
-/

namespace LoraLink.Rtcm

open LoraLink.Application

def maxRtcm3Payload : Nat := 1023

structure RtcmFrame where
  raw : Bytes
  messageType : Nat
  receivedAt : ℚ
deriving DecidableEq, Repr

/-- The counters `stats`. -/
structure Stats where
  inputBytes : Nat := 0
  garbageBytes : Nat := 0
  headerFailures : Nat := 0
  lengthFailures : Nat := 0
  crcFailures : Nat := 0
  frames : Nat := 0
  frameBytes : Nat := 0
  streamResets : Nat := 0
deriving DecidableEq, Repr

structure RtcmStreamParser where
  buffer : Bytes := []
  stats : Stats := {}
  /-- `message_types`, a counter for each type. -/
  messageTypes : Nat → Nat := fun _ => 0

namespace RtcmStreamParser

def count (f : Stats → Stats) (p : RtcmStreamParser) : RtcmStreamParser := { p with stats := f p.stats }

def reset (p : RtcmStreamParser) : RtcmStreamParser :=
  { p with buffer := [] }.count fun s => { s with streamResets := s.streamResets + 1 }

/-- The bytes ahead of the first D3 are garbage. -/
def skipGarbage (start : Nat) (p : RtcmStreamParser) : RtcmStreamParser :=
  { p with buffer := p.buffer.drop start }.count fun s => { s with garbageBytes := s.garbageBytes + start }

/-- A candidate that is complete: the frame, or a candidate less. -/
def complete (now : ℚ) (raw rest : Bytes) (p : RtcmStreamParser) : RtcmStreamParser × List RtcmFrame :=
  if validRtcm3 raw = false then
    ({ p with buffer := raw.drop 1 ++ rest }.count fun s => { s with crcFailures := s.crcFailures + 1 }, [])
  else
    let type := typeBits raw
    ({ p with buffer := rest, messageTypes := fun t => if t = type then p.messageTypes t + 1 else p.messageTypes t }.count
        fun s => { s with frames := s.frames + 1, frameBytes := s.frameBytes + raw.length },
      [{ raw := raw, messageType := type, receivedAt := now }])

/-- One pass of the loop of `feed`: the new state, the frame that came out, and whether the loop goes on. -/
def pass (now : ℚ) (p : RtcmStreamParser) : (RtcmStreamParser × List RtcmFrame) × Bool :=
  let start := p.buffer.idxOf 0xd3
  if start = p.buffer.length then ((p.skipGarbage start, []), false)
  else
    let p := p.skipGarbage start
    if p.buffer.length < 3 then ((p, []), false)
    else if byteAt p.buffer 1 &&& 0xfc ≠ 0 then
      (({ p with buffer := p.buffer.drop 1 }.count fun s => { s with headerFailures := s.headerFailures + 1 }, []), true)
    else
      let length := (byteAt p.buffer 1 &&& 3).toNat * 2 ^ 8 + (byteAt p.buffer 2).toNat
      if length > maxRtcm3Payload then
        (({ p with buffer := p.buffer.drop 1 }.count fun s =>
          { s with lengthFailures := s.lengthFailures + 1 }, []), true)
      else
        let total := length + 6
        if p.buffer.length < total then ((p, []), false)
        else (p.complete now (p.buffer.take total) (p.buffer.drop total), true)

def loop (now : ℚ) : Nat → RtcmStreamParser → RtcmStreamParser × List RtcmFrame
  | 0, p => (p, [])
  | fuel + 1, p =>
    if p.buffer = [] then (p, [])
    else
      let ((p, frames), more) := p.pass now
      if more then
        let (p, frames') := loop now fuel p
        (p, frames ++ frames')
      else (p, frames)

def feed (p : RtcmStreamParser) (chunk : Bytes) (now : ℚ) : RtcmStreamParser × List RtcmFrame :=
  let p := { p with buffer := p.buffer ++ chunk }.count fun s => { s with inputBytes := s.inputBytes + chunk.length }
  loop now p.buffer.length p

/-! ## The loop ends -/

theorem length_skipGarbage (n : Nat) (p : RtcmStreamParser) : (p.skipGarbage n).buffer.length ≤ p.buffer.length := by
  simp [skipGarbage, count]

theorem length_complete (now : ℚ) {raw : Bytes} (h : raw ≠ []) (rest : Bytes) (p : RtcmStreamParser) :
    (p.complete now raw rest).1.buffer.length < raw.length + rest.length := by
  have hpos := List.length_pos_of_ne_nil h
  unfold complete
  split
  · simp only [count, List.length_append, List.length_drop]
    omega
  · simp only [count]
    omega

/-- A pass after which the loop goes on has shortened the buffer. -/
theorem length_pass {now : ℚ} {p : RtcmStreamParser} (h : (p.pass now).2 = true) :
    (p.pass now).1.1.buffer.length < p.buffer.length := by
  have hskip := length_skipGarbage (p.buffer.idxOf 0xd3) p
  revert h
  unfold pass
  simp only
  generalize p.skipGarbage _ = q at hskip
  split
  · intro h; cases h
  split
  · intro h; cases h
  rename_i _ hthree
  split
  · intro _
    simp only [count, List.length_drop]
    omega
  split
  · intro _
    simp only [count, List.length_drop]
    omega
  split
  · intro h; cases h
  rename_i htotal
  intro _
  refine Nat.lt_of_lt_of_le (length_complete now ?_ _ q) ?_
  · intro hnil
    have hlen := congrArg List.length hnil
    simp only [List.length_take, List.length_nil] at hlen
    omega
  · simp only [List.length_take, List.length_drop]
    omega

/-- Fuel for the length of the buffer is enough: more makes no difference. -/
theorem loop_fuel (now : ℚ) : ∀ (fuel : Nat) (p : RtcmStreamParser), p.buffer.length ≤ fuel →
    loop now (fuel + 1) p = loop now fuel p := by
  intro fuel
  induction fuel with
  | zero =>
    intro p h
    have hnil : p.buffer = [] := List.eq_nil_of_length_eq_zero (Nat.le_zero.mp h)
    exact if_pos hnil
  | succ fuel ih =>
    intro p h
    rw [loop, loop]
    split
    · rfl
    · have hshort := @length_pass now p
      generalize p.pass now = r at hshort ⊢
      obtain ⟨⟨q, frames⟩, more⟩ := r
      cases more with
      | false => rfl
      | true =>
        have hq : q.buffer.length < p.buffer.length := hshort rfl
        simp only [if_true]
        rw [ih q (by omega)]

end RtcmStreamParser

/-! ## The frames -/

/-- A frame as the parser makes them at a time. -/
structure RtcmFrame.Made (now : ℚ) (f : RtcmFrame) : Prop where
  valid : validRtcm3 f.raw = true
  type : f.messageType = typeBits f.raw
  time : f.receivedAt = now

namespace RtcmStreamParser

theorem complete_made (now : ℚ) (raw rest : Bytes) (p : RtcmStreamParser) :
    ∀ f ∈ (p.complete now raw rest).2, f.Made now := by
  intro f hf
  unfold complete at hf
  split at hf
  · simp at hf
  · rename_i hvalid
    simp only [List.mem_singleton] at hf
    subst hf
    exact ⟨by simpa using hvalid, rfl, rfl⟩

theorem pass_made (now : ℚ) (p : RtcmStreamParser) : ∀ f ∈ (p.pass now).1.2, f.Made now := by
  intro f hf
  unfold pass at hf
  simp only at hf
  repeat' split at hf
  all_goals first | exact absurd hf List.not_mem_nil | exact complete_made _ _ _ _ f hf

theorem loop_made (now : ℚ) : ∀ (fuel : Nat) (p : RtcmStreamParser), ∀ f ∈ (loop now fuel p).2, f.Made now := by
  intro fuel
  induction fuel with
  | zero => intro p f hf; exact absurd hf List.not_mem_nil
  | succ fuel ih =>
    intro p f hf
    rw [loop] at hf
    split at hf
    · exact absurd hf List.not_mem_nil
    · have hpass := pass_made now p
      generalize p.pass now = r at hf hpass
      obtain ⟨⟨q, frames⟩, more⟩ := r
      cases more with
      | false => exact hpass f hf
      | true =>
        rcases List.mem_append.mp hf with hf | hf
        · exact hpass f hf
        · exact ih q f hf

/-- Every frame that comes out is a valid RTCM3 frame with its own type and the time of its chunk. -/
theorem feed_made (p : RtcmStreamParser) (chunk : Bytes) (now : ℚ) : ∀ f ∈ (p.feed chunk now).2, f.Made now :=
  loop_made now _ _

end RtcmStreamParser

end LoraLink.Rtcm
