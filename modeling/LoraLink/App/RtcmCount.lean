import LoraLink.App.RtcmStream
import Mathlib.Algebra.BigOperators.Group.Finset.Piecewise

/-!
# The counters of the RTCM3 parser

Every byte that the parser has been given is in a frame, was garbage, was dropped from a refused candidate, or is still
in the buffer.

- `Loops`: the loop of `feed`, without fuel; `feed_loops`: it ends, and `feed` returns what it ends with;
- `pass_tallied`, `feedAll_tallied`: each pass moves bytes between the counters and the buffer, and loses none;
- `Loops.rests`: what `feed` leaves in the buffer is the beginning of a candidate;
- `bytes_conserved`: all of it, for every sequence of chunks.
-/

namespace LoraLink.Rtcm

open LoraLink.Application

namespace RtcmStreamParser

/-! ## The loop ends -/

/-- `while self.buffer: ...`, from the parser given to what it ends with. -/
inductive Loops (now : ℚ) : RtcmStreamParser → RtcmStreamParser × List RtcmFrame → Prop
  | empty {p : RtcmStreamParser} (h : p.buffer = []) : Loops now p (p, [])
  | leave {p : RtcmStreamParser} (h : p.buffer ≠ []) (hpass : (p.pass now).2 = false) : Loops now p (p.pass now).1
  | again {p : RtcmStreamParser} {r : RtcmStreamParser × List RtcmFrame} (h : p.buffer ≠ [])
      (hpass : (p.pass now).2 = true) (hrest : Loops now (p.pass now).1.1 r) :
      Loops now p (r.1, (p.pass now).1.2 ++ r.2)

theorem loop_loops (now : ℚ) : ∀ (fuel : Nat) (p : RtcmStreamParser), p.buffer.length ≤ fuel →
    Loops now p (loop now fuel p) := by
  intro fuel
  induction fuel with
  | zero =>
    intro p h
    have hnil : p.buffer = [] := List.eq_nil_of_length_eq_zero (Nat.le_zero.mp h)
    rw [loop]
    exact .empty hnil
  | succ fuel ih =>
    intro p h
    by_cases hnil : p.buffer = []
    · rw [loop, if_pos hnil]
      exact .empty hnil
    · rw [loop_succ now fuel hnil]
      split
      · rename_i hmore
        have hshort := length_pass hmore
        exact .again hnil hmore (ih _ (by omega))
      · rename_i hmore
        exact .leave hnil (Bool.eq_false_iff.mpr hmore)

/-- The loop of `feed` ends, whatever the chunk. -/
theorem feed_loops (p : RtcmStreamParser) (chunk : Bytes) (now : ℚ) : Loops now (p.extend chunk) (p.feed chunk now) :=
  loop_loops now _ _ (Nat.le_refl _)

/-! ## What is left in the buffer -/

/-- The buffer is empty, or begins with D3 and is shorter than the longest frame. -/
def Rests (p : RtcmStreamParser) : Prop := p.buffer.length ≤ 1028 ∧ (p.buffer = [] ∨ byteAt p.buffer 0 = 0xd3)

theorem pass_rests {p : RtcmStreamParser} {now : ℚ} (h : (p.pass now).2 = false) : Rests (p.pass now).1.1 := by
  have hstop := congrArg Prod.fst (pass_stop h)
  simp only at hstop
  rw [hstop]
  by_cases hidx : p.buffer.idxOf 0xd3 = p.buffer.length
  · have hnil : (p.skipGarbage (p.buffer.idxOf 0xd3)).buffer = [] := by
      rw [buffer_skipGarbage, hidx, List.drop_length]
    exact ⟨by rw [hnil]; exact Nat.zero_le _, Or.inl hnil⟩
  · have hpreamble := preamble_skipGarbage hidx
    rw [pass_eq, if_neg hidx] at h
    refine ⟨?_, Or.inr hpreamble⟩
    rcases attempt_cases now hpreamble with ⟨hwait, -⟩ | ⟨-, -, hgo⟩ | ⟨-, -, hgo⟩
    · rcases hwait with hshort | ⟨-, hshort⟩
      · omega
      · have hle := announced_le (p.skipGarbage (p.buffer.idxOf 0xd3)).buffer
        simp only [announced, maxRtcm3Payload] at hshort hle
        omega
    · rw [hgo] at h
      cases h
    · rw [hgo] at h
      cases h

theorem Loops.rests {now : ℚ} {p : RtcmStreamParser} {r : RtcmStreamParser × List RtcmFrame} (h : Loops now p r) :
    Rests r.1 := by
  induction h with
  | empty hnil => exact ⟨by rw [hnil]; exact Nat.zero_le _, Or.inl hnil⟩
  | leave _ hpass => exact pass_rests hpass
  | again _ _ _ ih => exact ih

/-! ## Where the bytes are -/

/-- The counters of a parser that has put out the frames of `F`. -/
structure Tallied (F : List RtcmFrame) (p : RtcmStreamParser) : Prop where
  bytes : p.stats.inputBytes = p.stats.frameBytes + p.stats.garbageBytes + p.stats.headerFailures +
    p.stats.lengthFailures + p.stats.crcFailures + p.buffer.length
  frames : p.stats.frames = F.length
  frameBytes : p.stats.frameBytes = (F.map fun f => f.raw.length).sum
  types : ∀ t, p.messageTypes t = F.countP fun f => f.messageType = t

variable {F : List RtcmFrame} {p : RtcmStreamParser}

theorem Tallied.extend (h : Tallied F p) (chunk : Bytes) : Tallied F (p.extend chunk) := by
  refine ⟨?_, h.frames, h.frameBytes, h.types⟩
  have hbytes := h.bytes
  simp only [RtcmStreamParser.extend, count, List.length_append]
  omega

theorem Tallied.skipGarbage (h : Tallied F p) {n : Nat} (hn : n ≤ p.buffer.length) : Tallied F (p.skipGarbage n) := by
  refine ⟨?_, h.frames, h.frameBytes, h.types⟩
  have hbytes := h.bytes
  simp only [RtcmStreamParser.skipGarbage, count, List.length_drop]
  omega

theorem Tallied.refuseHeader (h : Tallied F p) (hne : p.buffer ≠ []) : Tallied F p.refuseHeader := by
  refine ⟨?_, h.frames, h.frameBytes, h.types⟩
  have hbytes := h.bytes
  have hpos := List.length_pos_of_ne_nil hne
  simp only [RtcmStreamParser.refuseHeader, count, List.length_drop]
  omega

/-- The first bytes are put out as a frame, or one of them is dropped. -/
theorem Tallied.complete (h : Tallied F p) (now : ℚ) {raw rest : Bytes} (hraw : raw ≠ [])
    (hbuffer : p.buffer = raw ++ rest) :
    Tallied (F ++ (p.complete now raw rest).2) (p.complete now raw rest).1 := by
  have hbytes := h.bytes
  rw [hbuffer, List.length_append] at hbytes
  have hpos := List.length_pos_of_ne_nil hraw
  unfold RtcmStreamParser.complete
  split
  · rw [List.append_nil]
    refine ⟨?_, h.frames, h.frameBytes, h.types⟩
    simp only [count, List.length_append, List.length_drop]
    omega
  · refine ⟨?_, ?_, ?_, fun t => ?_⟩
    · simp only [count]
      omega
    · simp [count, h.frames]
    · simp [count, h.frameBytes]
    · simp only [count, List.countP_append, List.countP_singleton, h.types, decide_eq_true_eq, eq_comm (a := t)]
      split <;> rfl

theorem pass_tallied (h : Tallied F p) (now : ℚ) : Tallied (F ++ (p.pass now).1.2) (p.pass now).1.1 := by
  have hskip := h.skipGarbage (n := p.buffer.idxOf 0xd3) List.idxOf_le_length
  rw [pass_eq]
  split
  · rw [List.append_nil]
    exact hskip
  · rename_i hidx
    have hpreamble := preamble_skipGarbage hidx
    generalize p.skipGarbage (p.buffer.idxOf 0xd3) = q at hskip hpreamble
    rcases attempt_cases now hpreamble with ⟨-, hattempt⟩ | ⟨hthree, -, hattempt⟩ | ⟨hframe, hlength, hattempt⟩
    · rw [hattempt, List.append_nil]
      exact hskip
    · rw [hattempt, List.append_nil]
      refine hskip.refuseHeader fun hnil => ?_
      rw [hnil] at hthree
      exact absurd hthree (by decide)
    · rw [hattempt]
      refine hskip.complete now (fun hnil => ?_) (List.take_append_drop _ _).symm
      have hzero := congrArg List.length hnil
      rw [List.length_take, List.length_nil] at hzero
      have hthree := hframe.three
      simp only [announced] at hzero hlength
      omega

theorem Loops.tallied {now : ℚ} {r : RtcmStreamParser × List RtcmFrame} (h : Loops now p r) :
    ∀ {F : List RtcmFrame}, Tallied F p → Tallied (F ++ r.2) r.1 := by
  induction h with
  | empty => exact fun hp => (List.append_nil _).symm ▸ hp
  | leave => exact fun hp => pass_tallied hp now
  | again _ _ _ ih =>
    intro F hp
    rw [← List.append_assoc]
    exact ih (pass_tallied hp now)

/-- What holds of a parser between two calls of `feed`. -/
theorem feedAll_tallied (chunks : List (Bytes × ℚ)) : ∀ {F : List RtcmFrame} {p : RtcmStreamParser}, Tallied F p →
    Rests p → Tallied (F ++ (p.feedAll chunks).2) (p.feedAll chunks).1 ∧ Rests (p.feedAll chunks).1 := by
  induction chunks with
  | nil => exact fun hp hrest => ⟨(List.append_nil _).symm ▸ hp, hrest⟩
  | cons c chunks ih =>
    intro F p hp hrest
    obtain ⟨chunk, now⟩ := c
    have hloop := feed_loops p chunk now
    obtain ⟨htally, hend⟩ := ih (hloop.tallied (hp.extend chunk)) hloop.rests
    rw [List.append_assoc] at htally
    exact ⟨htally, hend⟩

/-! ## Every sequence of chunks -/

theorem typeBits_lt (raw : Bytes) : typeBits raw < 4096 := by
  have h := u16_lt (raw.drop 3)
  simp only [typeBits]
  omega

/-- Counted by type, the frames are as many as there are. -/
theorem sum_countP {n : Nat} : ∀ F : List RtcmFrame, (∀ f ∈ F, f.messageType < n) →
    ∑ t ∈ Finset.range n, F.countP (fun f => f.messageType = t) = F.length := by
  intro F
  induction F with
  | nil => simp
  | cons f F ih =>
    intro hF
    have hf : f.messageType ∈ Finset.range n := Finset.mem_range.mpr (hF f List.mem_cons_self)
    simp only [List.countP_cons, decide_eq_true_eq, Finset.sum_add_distrib, List.length_cons,
      ih fun g hg => hF g (List.mem_cons_of_mem _ hg), Finset.sum_ite_eq, if_pos hf]

theorem feedAll_types (chunks : List (Bytes × ℚ)) (p : RtcmStreamParser) : ∀ f ∈ (p.feedAll chunks).2,
    f.messageType < 4096 := by
  intro f hf
  rw [(feedAll_made chunks p f hf).2]
  exact typeBits_lt f.raw

/-- What holds of a parser that has put out the frames of `F`, and of the next call of `feed`. -/
structure Conserved (F : List RtcmFrame) (p : RtcmStreamParser) : Prop extends Tallied F p where
  /-- A pass of the loop that does not leave it shortens the buffer. -/
  shortens : ∀ (now : ℚ) (q : RtcmStreamParser), (q.pass now).2 = true →
    (q.pass now).1.1.buffer.length < q.buffer.length
  /-- The loop of the next call ends. -/
  terminates : ∀ chunk now, Loops now (p.extend chunk) (p.feed chunk now)
  rests : Rests p
  byType : p.stats.frames = ∑ t ∈ Finset.range 4096, p.messageTypes t ∧ ∀ t, 4096 ≤ t → p.messageTypes t = 0

/-- **No byte is lost**: after every sequence of chunks the counters and the buffer account for all bytes, the buffer
is short, and the next call ends. -/
theorem bytes_conserved (chunks : List (Bytes × ℚ)) : Conserved (feedAll {} chunks).2 (feedAll {} chunks).1 := by
  have hstart : Tallied [] ({} : RtcmStreamParser) := ⟨rfl, rfl, rfl, fun _ => rfl⟩
  obtain ⟨htally, hrest⟩ := feedAll_tallied chunks hstart ⟨Nat.zero_le _, Or.inl rfl⟩
  rw [List.nil_append] at htally
  have htypes := feedAll_types chunks {}
  refine { htally with
    shortens := fun _ _ => length_pass
    terminates := fun chunk now => feed_loops _ chunk now
    rests := hrest
    byType := ⟨?_, fun t ht => ?_⟩ }
  · rw [htally.frames, ← sum_countP _ htypes]
    exact Finset.sum_congr rfl fun t _ => (htally.types t).symm
  · rw [htally.types t, List.countP_eq_zero]
    intro f hf heq
    have hlt := htypes f hf
    rw [of_decide_eq_true heq] at hlt
    omega

end RtcmStreamParser

end LoraLink.Rtcm
