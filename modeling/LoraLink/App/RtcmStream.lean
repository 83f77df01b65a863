import LoraLink.App.RtcmParser

/-!
# The RTCM3 parser on a stream

What the parser makes of a stream does not depend on how it is cut into chunks, and every complete frame of the
stream is found.

- `pass_extend`, `drain_stop`: more bytes change nothing about what a pass has decided; they matter only to a pass
  that waits for them;
- `feedAll_drain`: feeding chunks is feeding them all at once;
- `chunking_independent`: two ways to cut the same stream;
- `stream_parsed`: the frames that come out are frames of the stream, and those that do not are inside others or wait
  behind a candidate that is incomplete;
- `frames_parsed`: a stream of nothing but frames.
-/

namespace LoraLink.Rtcm

open LoraLink.Application

namespace RtcmStreamParser

/-! ## More bytes -/

/-- A chunk arrives. -/
def extend (chunk : Bytes) (p : RtcmStreamParser) : RtcmStreamParser :=
  { p with buffer := p.buffer ++ chunk }.count fun s => { s with inputBytes := s.inputBytes + chunk.length }

theorem feed_eq (p : RtcmStreamParser) (chunk : Bytes) (now : ℚ) :
    p.feed chunk now = loop now (p.extend chunk).buffer.length (p.extend chunk) := rfl

@[simp] theorem buffer_extend (chunk : Bytes) (p : RtcmStreamParser) : (p.extend chunk).buffer = p.buffer ++ chunk := rfl

@[simp] theorem buffer_skipGarbage (n : Nat) (p : RtcmStreamParser) : (p.skipGarbage n).buffer = p.buffer.drop n := rfl

theorem extend_extend (a b : Bytes) (p : RtcmStreamParser) : (p.extend a).extend b = p.extend (a ++ b) := by
  simp [extend, count, Nat.add_assoc]

theorem extend_nil (p : RtcmStreamParser) : p.extend [] = p := by simp [extend, count]

/-- What is garbage stays garbage. -/
theorem skipGarbage_extend {n : Nat} {p : RtcmStreamParser} (h : n ≤ p.buffer.length) (x : Bytes) :
    (p.extend x).skipGarbage n = (p.skipGarbage n).extend x := by
  simp only [skipGarbage, extend, count, List.drop_append_of_le_length h]

theorem skipGarbage_skipGarbage (m n : Nat) (p : RtcmStreamParser) :
    (p.skipGarbage m).skipGarbage n = p.skipGarbage (m + n) := by
  simp [skipGarbage, count, List.drop_drop, Nat.add_assoc]

theorem idxOf_drop {l : Bytes} {b : UInt8} {n : Nat} (h : n ≤ l.idxOf b) : (l.drop n).idxOf b + n = l.idxOf b := by
  have hlength : (l.take n).length = n := by
    have hle : l.idxOf b ≤ l.length := List.idxOf_le_length
    rw [List.length_take]
    omega
  have hsplit : l.idxOf b = (l.take n ++ l.drop n).idxOf b := by rw [List.take_append_drop]
  rw [hsplit, List.idxOf_append]
  split
  · rename_i hmem
    have hlt := List.idxOf_lt_length_of_mem hmem
    rw [hsplit, List.idxOf_append, if_pos hmem] at h
    omega
  · rw [hlength]

/-- A pass on a buffer that begins with D3. -/
def attempt (now : ℚ) (p : RtcmStreamParser) : (RtcmStreamParser × List RtcmFrame) × Bool :=
  if p.buffer.length < 3 then ((p, []), false)
  else if byteAt p.buffer 1 &&& 0xfc ≠ 0 then
    (({ p with buffer := p.buffer.drop 1 }.count fun s => { s with headerFailures := s.headerFailures + 1 }, []), true)
  else
    let length := (byteAt p.buffer 1 &&& 3).toNat * 2 ^ 8 + (byteAt p.buffer 2).toNat
    if length > maxRtcm3Payload then
      (({ p with buffer := p.buffer.drop 1 }.count fun s => { s with lengthFailures := s.lengthFailures + 1 }, []), true)
    else if p.buffer.length < length + 6 then ((p, []), false)
    else (p.complete now (p.buffer.take (length + 6)) (p.buffer.drop (length + 6)), true)

theorem pass_eq (now : ℚ) (p : RtcmStreamParser) : p.pass now =
    if p.buffer.idxOf 0xd3 = p.buffer.length then ((p.skipGarbage (p.buffer.idxOf 0xd3), []), false)
    else (p.skipGarbage (p.buffer.idxOf 0xd3)).attempt now := rfl

/-- Garbage that is skipped first makes no difference to a pass. -/
theorem pass_skipGarbage {n : Nat} {p : RtcmStreamParser} (h : n ≤ p.buffer.idxOf 0xd3) (now : ℚ) :
    (p.skipGarbage n).pass now = p.pass now := by
  have hle : p.buffer.idxOf 0xd3 ≤ p.buffer.length := List.idxOf_le_length
  have hidx := idxOf_drop h
  have hskip : (p.skipGarbage n).skipGarbage ((p.buffer.drop n).idxOf 0xd3) = p.skipGarbage (p.buffer.idxOf 0xd3) := by
    rw [skipGarbage_skipGarbage, Nat.add_comm, hidx]
  rw [pass_eq, pass_eq, buffer_skipGarbage, hskip, List.length_drop]
  by_cases hend : p.buffer.idxOf 0xd3 = p.buffer.length
  · rw [if_pos hend, if_pos (by omega)]
  · rw [if_neg hend, if_neg (by omega)]

/-- The length of the frame that a header announces. -/
def announced (buffer : Bytes) : Nat := (byteAt buffer 1 &&& 3).toNat * 2 ^ 8 + (byteAt buffer 2).toNat + 6

/-- The first bytes may be the header of a frame. -/
structure Plausible (buffer : Bytes) : Prop where
  preamble : byteAt buffer 0 = 0xd3
  three : 3 ≤ buffer.length
  reserved : byteAt buffer 1 &&& 0xfc = 0

/-- A byte that begins no frame is dropped. -/
def refuseHeader (p : RtcmStreamParser) : RtcmStreamParser :=
  { p with buffer := p.buffer.drop 1 }.count fun s => { s with headerFailures := s.headerFailures + 1 }

variable {now : ℚ} {p : RtcmStreamParser}

theorem announced_le (buffer : Bytes) :
    ¬ (byteAt buffer 1 &&& 3).toNat * 2 ^ 8 + (byteAt buffer 2).toNat > maxRtcm3Payload := by
  have hlow : (byteAt buffer 1 &&& 3).toNat ≤ 3 := by
    rw [UInt8.toNat_and]
    exact Nat.and_le_right
  have hbyte := (byteAt buffer 2).toNat_lt
  simp only [maxRtcm3Payload]
  omega

theorem attempt_short (h : p.buffer.length < 3) : p.attempt now = ((p, []), false) := if_pos h

theorem attempt_header (hthree : 3 ≤ p.buffer.length) (h : byteAt p.buffer 1 &&& 0xfc ≠ 0) :
    p.attempt now = ((p.refuseHeader, []), true) := by
  rw [attempt, if_neg (Nat.not_lt.mpr hthree), if_pos h]
  rfl

theorem attempt_incomplete (h : Plausible p.buffer) (hlength : p.buffer.length < announced p.buffer) :
    p.attempt now = ((p, []), false) := by
  rw [attempt, if_neg (Nat.not_lt.mpr h.three), if_neg (not_not.mpr h.reserved)]
  exact (if_neg (announced_le p.buffer)).trans (if_pos hlength)

theorem attempt_complete (h : Plausible p.buffer) (hlength : announced p.buffer ≤ p.buffer.length) :
    p.attempt now =
      (p.complete now (p.buffer.take (announced p.buffer)) (p.buffer.drop (announced p.buffer)), true) := by
  rw [attempt, if_neg (Nat.not_lt.mpr h.three), if_neg (not_not.mpr h.reserved)]
  exact (if_neg (announced_le p.buffer)).trans (if_neg (Nat.not_lt.mpr hlength))

/-- A candidate is refused, complete, or waits for more bytes. -/
theorem attempt_cases (now : ℚ) (hpreamble : byteAt p.buffer 0 = 0xd3) :
    ((p.buffer.length < 3 ∨ (Plausible p.buffer ∧ p.buffer.length < announced p.buffer)) ∧
        p.attempt now = ((p, []), false)) ∨
      (3 ≤ p.buffer.length ∧ byteAt p.buffer 1 &&& 0xfc ≠ 0 ∧ p.attempt now = ((p.refuseHeader, []), true)) ∨
      (Plausible p.buffer ∧ announced p.buffer ≤ p.buffer.length ∧ p.attempt now =
        (p.complete now (p.buffer.take (announced p.buffer)) (p.buffer.drop (announced p.buffer)), true)) := by
  by_cases hthree : p.buffer.length < 3
  · exact Or.inl ⟨Or.inl hthree, attempt_short hthree⟩
  rw [Nat.not_lt] at hthree
  by_cases hreserved : byteAt p.buffer 1 &&& 0xfc = 0
  · have hframe : Plausible p.buffer := ⟨hpreamble, hthree, hreserved⟩
    by_cases hlength : p.buffer.length < announced p.buffer
    · exact Or.inl ⟨Or.inr ⟨hframe, hlength⟩, attempt_incomplete hframe hlength⟩
    · rw [Nat.not_lt] at hlength
      exact Or.inr (Or.inr ⟨hframe, hlength, attempt_complete hframe hlength⟩)
  · exact Or.inr (Or.inl ⟨hthree, hreserved, attempt_header hthree hreserved⟩)

/-- The buffer from its first D3 on. -/
theorem preamble_skipGarbage (h : p.buffer.idxOf 0xd3 ≠ p.buffer.length) :
    byteAt (p.skipGarbage (p.buffer.idxOf 0xd3)).buffer 0 = 0xd3 := by
  have hlt : p.buffer.idxOf 0xd3 < p.buffer.length := Nat.lt_of_le_of_ne List.idxOf_le_length h
  rw [buffer_skipGarbage, byteAt_drop, Nat.add_zero, byteAt, List.getD_eq_getElem?_getD,
    List.getElem?_eq_getElem hlt, Option.getD_some, List.getElem_idxOf]

/-- What is decided about a candidate stays decided. -/
theorem complete_extend (now : ℚ) (raw rest x : Bytes) (p : RtcmStreamParser) :
    (p.extend x).complete now raw (rest ++ x) = ((p.complete now raw rest).1.extend x, (p.complete now raw rest).2) := by
  unfold complete
  split
  · simp only [extend, count, List.append_assoc]
  · rfl

theorem byteAt_extend {i : Nat} (hi : i < 3) (hthree : 3 ≤ p.buffer.length) (x : Bytes) :
    byteAt (p.extend x).buffer i = byteAt p.buffer i := byteAt_append_left (by omega)

theorem Plausible.extend (h : Plausible p.buffer) (x : Bytes) : Plausible (p.extend x).buffer := by
  refine ⟨?_, ?_, ?_⟩
  · rw [byteAt_extend (by omega) h.three, h.preamble]
  · rw [buffer_extend, List.length_append]
    exact Nat.le_add_right_of_le h.three
  · rw [byteAt_extend (by omega) h.three, h.reserved]

theorem attempt_extend (hpreamble : byteAt p.buffer 0 = 0xd3) (h : (p.attempt now).2 = true) (x : Bytes) :
    (p.extend x).attempt now = (((p.attempt now).1.1.extend x, (p.attempt now).1.2), true) := by
  rcases attempt_cases now hpreamble with ⟨-, hw⟩ | ⟨hthree, hreserved, hr⟩ | ⟨hframe, hlength, hc⟩
  · rw [hw] at h
    cases h
  · have hmore : 3 ≤ (p.extend x).buffer.length := by
      rw [buffer_extend, List.length_append]
      omega
    have hsame : byteAt (p.extend x).buffer 1 &&& 0xfc ≠ 0 := by rwa [byteAt_extend (by omega) hthree]
    rw [hr, attempt_header hmore hsame]
    simp only [refuseHeader, RtcmStreamParser.extend, count,
      List.drop_append_of_le_length (show 1 ≤ p.buffer.length by omega)]
  · have hsame : announced (p.extend x).buffer = announced p.buffer := by
      rw [announced, byteAt_extend (by omega) hframe.three, byteAt_extend (by omega) hframe.three]
      rfl
    have hmore : announced (p.extend x).buffer ≤ (p.extend x).buffer.length := by
      rw [hsame, buffer_extend, List.length_append]
      omega
    rw [hc, attempt_complete (hframe.extend x) hmore, hsame, buffer_extend, List.take_append_of_le_length hlength,
      List.drop_append_of_le_length hlength, complete_extend]

/-- A pass after which the loop goes on does the same when there are more bytes. -/
theorem pass_extend (h : (p.pass now).2 = true) (x : Bytes) :
    (p.extend x).pass now = (((p.pass now).1.1.extend x, (p.pass now).1.2), true) := by
  have hle : p.buffer.idxOf 0xd3 ≤ p.buffer.length := List.idxOf_le_length
  rw [pass_eq] at h ⊢
  by_cases hend : p.buffer.idxOf 0xd3 = p.buffer.length
  · rw [if_pos hend] at h
    cases h
  · rw [if_neg hend] at h
    have hmem : (0xd3 : UInt8) ∈ p.buffer := List.idxOf_lt_length_iff.mp (Nat.lt_of_le_of_ne hle hend)
    have hidx : (p.buffer ++ x).idxOf 0xd3 = p.buffer.idxOf 0xd3 := by rw [List.idxOf_append, if_pos hmem]
    have hpreamble := preamble_skipGarbage hend
    rw [buffer_extend, hidx, List.length_append, if_neg (by omega), skipGarbage_extend hle, attempt_extend hpreamble h x,
      pass_eq, if_neg hend]

/-- A pass that ends the loop has skipped garbage, and nothing else. -/
theorem pass_stop (h : (p.pass now).2 = false) : (p.pass now).1 = (p.skipGarbage (p.buffer.idxOf 0xd3), []) := by
  rw [pass_eq] at h ⊢
  by_cases hend : p.buffer.idxOf 0xd3 = p.buffer.length
  · rw [if_pos hend]
  · rw [if_neg hend] at h ⊢
    rcases attempt_cases now (preamble_skipGarbage hend) with ⟨-, hw⟩ | ⟨-, -, hr⟩ | ⟨-, -, hc⟩
    · rw [hw]
    · rw [hr] at h
      cases h
    · rw [hc] at h
      cases h

/-! ## Draining the buffer -/

/-- Frames without the times of their chunks. -/
def keys (frames : List RtcmFrame) : List (Bytes × Nat) := frames.map fun f => (f.raw, f.messageType)

@[simp] theorem keys_append (fs gs : List RtcmFrame) : keys (fs ++ gs) = keys fs ++ keys gs := List.map_append

/-- What the loop makes of the buffer. -/
def drain (p : RtcmStreamParser) : RtcmStreamParser × List (Bytes × Nat) :=
  ((loop 0 p.buffer.length p).1, keys (loop 0 p.buffer.length p).2)

theorem complete_now (now now' : ℚ) (raw rest : Bytes) (p : RtcmStreamParser) :
    (p.complete now raw rest).1 = (p.complete now' raw rest).1 ∧
      keys (p.complete now raw rest).2 = keys (p.complete now' raw rest).2 := by
  unfold complete
  split
  · exact ⟨rfl, rfl⟩
  · exact ⟨rfl, rfl⟩

/-- The time makes no difference to a pass. -/
theorem pass_now (now now' : ℚ) (p : RtcmStreamParser) : (p.pass now).1.1 = (p.pass now').1.1 ∧
    keys (p.pass now).1.2 = keys (p.pass now').1.2 ∧ (p.pass now).2 = (p.pass now').2 := by
  rw [pass_eq, pass_eq]
  by_cases hend : p.buffer.idxOf 0xd3 = p.buffer.length
  · rw [if_pos hend, if_pos hend]
    exact ⟨rfl, rfl, rfl⟩
  · rw [if_neg hend, if_neg hend]
    generalize hq : p.skipGarbage (p.buffer.idxOf 0xd3) = q
    have hpreamble : byteAt q.buffer 0 = 0xd3 := hq ▸ preamble_skipGarbage hend
    rcases attempt_cases now hpreamble with ⟨hwait, hw⟩ | ⟨hthree, hreserved, hr⟩ | ⟨hframe, hlength, hc⟩
    · rcases hwait with hshort | ⟨hframe, hlength⟩
      · rw [hw, attempt_short hshort]
        exact ⟨rfl, rfl, rfl⟩
      · rw [hw, attempt_incomplete hframe hlength]
        exact ⟨rfl, rfl, rfl⟩
    · rw [hr, attempt_header hthree hreserved]
      exact ⟨rfl, rfl, rfl⟩
    · rw [hc, attempt_complete hframe hlength]
      obtain ⟨h1, h2⟩ := complete_now now now' (q.buffer.take (announced q.buffer)) (q.buffer.drop (announced q.buffer)) q
      exact ⟨h1, h2, rfl⟩

/-- The loop step by step. -/
theorem loop_succ (now : ℚ) (fuel : Nat) (hne : p.buffer ≠ []) : loop now (fuel + 1) p =
    if (p.pass now).2 = true then
      ((loop now fuel (p.pass now).1.1).1, (p.pass now).1.2 ++ (loop now fuel (p.pass now).1.1).2)
    else (p.pass now).1 := by
  rw [loop, if_neg hne]

theorem loop_now (now now' : ℚ) (fuel : Nat) : ∀ p : RtcmStreamParser, (loop now fuel p).1 = (loop now' fuel p).1 ∧
    keys (loop now fuel p).2 = keys (loop now' fuel p).2 := by
  induction fuel with
  | zero => exact fun p => ⟨rfl, rfl⟩
  | succ fuel ih =>
    intro p
    by_cases hne : p.buffer = []
    · rw [loop, loop, if_pos hne, if_pos hne]
      exact ⟨rfl, rfl⟩
    · obtain ⟨hstate, hkeys, hmore⟩ := pass_now now now' p
      rw [loop_succ now fuel hne, loop_succ now' fuel hne, hmore]
      split
      · obtain ⟨h1, h2⟩ := ih (p.pass now').1.1
        rw [hstate]
        exact ⟨h1, by rw [keys_append, keys_append, hkeys, h2]⟩
      · exact ⟨hstate, hkeys⟩

/-- Fuel for the length of the buffer is as good as more. -/
theorem loop_enough (now : ℚ) (fuel : Nat) (h : p.buffer.length ≤ fuel) :
    loop now fuel p = loop now p.buffer.length p := by
  induction fuel with
  | zero => rw [Nat.le_zero.mp h]
  | succ fuel ih =>
    rcases Nat.lt_or_eq_of_le h with hlt | heq
    · rw [loop_fuel now fuel p (by omega), ih (by omega)]
    · rw [heq]

theorem feed_drain (p : RtcmStreamParser) (chunk : Bytes) (now : ℚ) :
    ((p.feed chunk now).1, keys (p.feed chunk now).2) = (p.extend chunk).drain := by
  obtain ⟨h1, h2⟩ := loop_now now 0 (p.extend chunk).buffer.length (p.extend chunk)
  rw [feed_eq, drain, h1, h2]

theorem drain_nil (h : p.buffer = []) : p.drain = (p, []) := by
  rw [drain, h]
  rfl

theorem drain_stop (hne : p.buffer ≠ []) (h : (p.pass 0).2 = false) :
    p.drain = (p.skipGarbage (p.buffer.idxOf 0xd3), []) := by
  obtain ⟨n, hn⟩ := Nat.exists_eq_succ_of_ne_zero (mt List.length_eq_zero_iff.mp hne)
  rw [drain, hn, loop_succ 0 n hne, h, if_neg (by decide), pass_stop h]
  rfl

theorem drain_go (h : (p.pass 0).2 = true) : p.drain =
    ((p.pass 0).1.1.drain.1, keys (p.pass 0).1.2 ++ (p.pass 0).1.1.drain.2) := by
  have hshort := length_pass h
  have hne : p.buffer ≠ [] := by
    intro hnil
    rw [hnil] at hshort
    exact Nat.not_lt_zero _ hshort
  obtain ⟨n, hn⟩ := Nat.exists_eq_succ_of_ne_zero (mt List.length_eq_zero_iff.mp hne)
  have hfuel := loop_enough (p := (p.pass 0).1.1) 0 n (by omega)
  rw [drain, hn, loop_succ 0 n hne, if_pos h, hfuel, keys_append]
  rfl

theorem drain_skipGarbage {n : Nat} (hne : p.buffer ≠ []) (h : n ≤ p.buffer.idxOf 0xd3) :
    (p.skipGarbage n).drain = p.drain := by
  have hle : p.buffer.idxOf 0xd3 ≤ p.buffer.length := List.idxOf_le_length
  have hpass := pass_skipGarbage h 0
  by_cases hnil : (p.skipGarbage n).buffer = []
  · -- everything is garbage
    have hn : p.buffer.length ≤ n := List.drop_eq_nil_iff.mp hnil
    have hend : p.buffer.idxOf 0xd3 = p.buffer.length := by omega
    have hstop : (p.pass 0).2 = false := by rw [pass_eq, if_pos hend]
    have hall : n = p.buffer.idxOf 0xd3 := by omega
    rw [drain_nil hnil, drain_stop hne hstop, hall]
  · cases hmore : (p.pass 0).2 with
    | false =>
      rw [drain_stop hne hmore, drain_stop hnil (hpass ▸ hmore), skipGarbage_skipGarbage, buffer_skipGarbage,
        Nat.add_comm, idxOf_drop h]
    | true => rw [drain_go hmore, drain_go (hpass ▸ hmore), hpass]

/-- Draining before more bytes come is as good as draining once. -/
theorem drain_extend (x : Bytes) : ∀ (n : Nat) (p : RtcmStreamParser), p.buffer.length ≤ n →
    (p.extend x).drain = ((p.drain.1.extend x).drain.1, p.drain.2 ++ (p.drain.1.extend x).drain.2) := by
  intro n
  induction n with
  | zero =>
    intro p hn
    have hnil : p.buffer = [] := List.eq_nil_of_length_eq_zero (Nat.le_zero.mp hn)
    rw [drain_nil hnil]
    rfl
  | succ n ih =>
    intro p hn
    by_cases hne : p.buffer = []
    · rw [drain_nil hne]
      rfl
    · cases hmore : (p.pass 0).2 with
      | false =>
        have hext : (p.extend x).buffer ≠ [] := by simp [hne]
        have hidx : p.buffer.idxOf 0xd3 ≤ (p.extend x).buffer.idxOf 0xd3 := by
          rw [buffer_extend, List.idxOf_append]
          split
          · exact Nat.le_refl _
          · have hle : p.buffer.idxOf 0xd3 ≤ p.buffer.length := List.idxOf_le_length
            omega
        rw [drain_stop hne hmore, ← skipGarbage_extend List.idxOf_le_length, drain_skipGarbage hext hidx]
        rfl
      | true =>
        have hshort := length_pass hmore
        have hpass := pass_extend hmore x
        rw [drain_go hmore, drain_go (p := p.extend x) (by rw [hpass]), hpass]
        simp only
        rw [ih _ (by omega), List.append_assoc]

/-- A buffer that was drained stays as it is. -/
theorem drain_drain (p : RtcmStreamParser) : p.drain.1.drain = (p.drain.1, []) := by
  have h := drain_extend [] p.buffer.length p (Nat.le_refl _)
  rw [extend_nil, extend_nil] at h
  have hstate := congrArg Prod.fst h
  have hkeys := congrArg Prod.snd h
  simp only at hstate hkeys
  have hnone : p.drain.1.drain.2 = [] := by simpa using hkeys
  rw [← hnone]
  exact Prod.ext hstate.symm rfl

/-! ## Chunks -/

/-- Chunks are fed one after the other, each at its time. -/
def feedAll (p : RtcmStreamParser) : List (Bytes × ℚ) → RtcmStreamParser × List RtcmFrame
  | [] => (p, [])
  | (chunk, now) :: chunks =>
    let (p, frames) := p.feed chunk now
    let (p, frames') := feedAll p chunks
    (p, frames ++ frames')

theorem feedAll_append (chunks chunks' : List (Bytes × ℚ)) : ∀ p : RtcmStreamParser, p.feedAll (chunks ++ chunks') =
    (((p.feedAll chunks).1.feedAll chunks').1, (p.feedAll chunks).2 ++ ((p.feedAll chunks).1.feedAll chunks').2) := by
  induction chunks with
  | nil => exact fun p => rfl
  | cons c chunks ih =>
    intro p
    obtain ⟨chunk, now⟩ := c
    have hrest := ih (p.feed chunk now).1
    simp only [List.cons_append, feedAll, hrest, List.append_assoc]

/-- Every frame that comes out is a valid RTCM3 frame with its own type. -/
theorem feedAll_made (chunks : List (Bytes × ℚ)) : ∀ p : RtcmStreamParser, ∀ f ∈ (p.feedAll chunks).2,
    validRtcm3 f.raw = true ∧ f.messageType = typeBits f.raw := by
  induction chunks with
  | nil => exact fun p f hf => absurd hf List.not_mem_nil
  | cons c chunks ih =>
    intro p f hf
    rcases List.mem_append.mp hf with hf | hf
    · have hmade := feed_made p c.1 c.2 f hf
      exact ⟨hmade.valid, hmade.type⟩
    · exact ih _ f hf

/-- The stream that chunks are cut from. -/
def streamOf (chunks : List (Bytes × ℚ)) : Bytes := (chunks.map Prod.fst).flatten

/-- Feeding chunks is feeding them all at once. -/
theorem feedAll_drain (chunks : List (Bytes × ℚ)) : ∀ {p : RtcmStreamParser}, p.drain = (p, []) →
    ((p.feedAll chunks).1, keys (p.feedAll chunks).2) = (p.extend (streamOf chunks)).drain := by
  induction chunks with
  | nil =>
    intro p hp
    rw [show streamOf [] = [] from rfl, extend_nil, hp]
    rfl
  | cons c chunks ih =>
    intro p hp
    obtain ⟨chunk, now⟩ := c
    have hfeed := feed_drain p chunk now
    have hstate := congrArg Prod.fst hfeed
    have hkeys := congrArg Prod.snd hfeed
    simp only at hstate hkeys
    have hquiet : (p.feed chunk now).1.drain = ((p.feed chunk now).1, []) := by
      rw [hstate]
      exact drain_drain _
    have hrest := ih hquiet
    have hstream : streamOf ((chunk, now) :: chunks) = chunk ++ streamOf chunks := rfl
    rw [hstream, ← extend_extend, drain_extend _ _ _ (Nat.le_refl _), ← hstate, ← hkeys, ← hrest, ← keys_append]
    rfl

theorem init_drain : ({} : RtcmStreamParser).drain = ({}, []) := rfl

/-- **Chunking makes no difference**: two ways to cut the same stream lead a fresh parser to the same frames and to the
same state, with all its counters. -/
theorem chunking_independent {chunks chunks' : List (Bytes × ℚ)} (h : streamOf chunks = streamOf chunks') :
    keys (feedAll {} chunks).2 = keys (feedAll {} chunks').2 ∧ (feedAll {} chunks).1 = (feedAll {} chunks').1 := by
  have heq := (feedAll_drain chunks init_drain).trans (h ▸ (feedAll_drain chunks' init_drain).symm)
  obtain ⟨hstate, hkeys⟩ := Prod.mk.inj heq
  exact ⟨hkeys, hstate⟩

/-- A frame between two other bytes, in one chunk and in three. -/
theorem chunking_independent_cut :
    keys (feedAll {} [([0xd3, 1, 0xd3, 0, 0, 0x47, 0xea, 0x4b, 7], 0)]).2 =
        keys (feedAll {} [([0xd3], 0), ([], 1), ([1, 0xd3, 0, 0, 0x47, 0xea], 2), ([0x4b, 7], 3)]).2 ∧
      (feedAll {} [([0xd3, 1, 0xd3, 0, 0, 0x47, 0xea, 0x4b, 7], 0)]).1 =
        (feedAll {} [([0xd3], 0), ([], 1), ([1, 0xd3, 0, 0, 0x47, 0xea], 2), ([0x4b, 7], 3)]).1 :=
  chunking_independent rfl

/-! ## Every frame of the stream -/

/-- A valid frame stands at a position of the stream. -/
def FrameAt (stream : Bytes) (position : Nat) (raw : Bytes) : Prop :=
  raw <+: stream.drop position ∧ validRtcm3 raw = true

/-- What was found in the first `position` bytes of a stream: frames that do not overlap, and every other frame that
begins there begins inside one of them. -/
structure Scanned (stream : Bytes) (position : Nat) (found : List (Nat × Bytes)) : Prop where
  frames : ∀ a ∈ found, FrameAt stream a.1 a.2 ∧ a.1 + a.2.length ≤ position
  disjoint : found.Pairwise fun a b => a.1 + a.2.length ≤ b.1
  all : ∀ i raw, i < position → FrameAt stream i raw → (i, raw) ∈ found ∨ ∃ a ∈ found, a.1 < i ∧ i < a.1 + a.2.length

/-- A candidate that waits for more bytes. -/
structure Waiting (buffer : Bytes) : Prop extends Plausible buffer where
  incomplete : buffer.length < announced buffer

/-- The header of a valid frame announces its length. -/
theorem valid_header {raw : Bytes} (h : validRtcm3 raw = true) : Plausible raw ∧ announced raw = raw.length := by
  unfold validRtcm3 at h
  split at h
  · cases h
  · rename_i hheader
    simp only [not_or, not_not, Nat.not_lt] at hheader
    simp only [Bool.and_eq_true, decide_eq_true_eq] at h
    exact ⟨⟨hheader.2.1, by omega, hheader.2.2⟩, h.1.symm⟩

/-- A frame at the beginning of the buffer begins with its header. -/
theorem header_at_front {raw buffer : Bytes} (hfront : raw <+: buffer) (h : validRtcm3 raw = true) :
    Plausible buffer ∧ raw = buffer.take (announced buffer) ∧ announced buffer ≤ buffer.length := by
  obtain ⟨hframe, hlength⟩ := valid_header h
  obtain ⟨rest, rfl⟩ := hfront
  have hthree := hframe.three
  have hbyte : ∀ i < 3, byteAt (raw ++ rest) i = byteAt raw i := fun i hi => byteAt_append_left (by omega)
  have hannounced : announced (raw ++ rest) = raw.length := by
    rw [announced, hbyte 1 (by omega), hbyte 2 (by omega)]
    exact hlength
  refine ⟨⟨?_, ?_, ?_⟩, ?_, ?_⟩
  · rw [hbyte 0 (by omega), hframe.preamble]
  · rw [List.length_append]
    omega
  · rw [hbyte 1 (by omega), hframe.reserved]
  · rw [hannounced, List.take_left]
  · rw [hannounced, List.length_append]
    omega

variable {stream : Bytes} {position : Nat} {found : List (Nat × Bytes)}

/-- No frame begins in the next `n` bytes. -/
theorem Scanned.skip (h : Scanned stream position found) (n : Nat)
    (hnone : ∀ i raw, position ≤ i → i < position + n → ¬ FrameAt stream i raw) :
    Scanned stream (position + n) found := by
  refine ⟨fun a ha => ?_, h.disjoint, fun i raw hi hat => ?_⟩
  · obtain ⟨hframe, hle⟩ := h.frames a ha
    exact ⟨hframe, Nat.le_add_right_of_le hle⟩
  · by_cases hold : i < position
    · exact h.all i raw hold hat
    · exact absurd hat (hnone i raw (Nat.le_of_not_lt hold) hi)

/-- A frame is found. -/
theorem Scanned.add (h : Scanned stream position found) {raw : Bytes} (hat : FrameAt stream position raw) :
    Scanned stream (position + raw.length) (found ++ [(position, raw)]) := by
  have hpos : 0 < raw.length := by
    have hthree := (valid_header hat.2).1.three
    omega
  refine ⟨fun a ha => ?_, ?_, fun i raw' hi hat' => ?_⟩
  · rcases List.mem_append.mp ha with ha | ha
    · obtain ⟨hframe, hle⟩ := h.frames a ha
      exact ⟨hframe, Nat.le_add_right_of_le hle⟩
    · obtain rfl := List.mem_singleton.mp ha
      exact ⟨hat, Nat.le_refl _⟩
  · rw [List.pairwise_append]
    refine ⟨h.disjoint, List.pairwise_singleton _ _, fun a ha b hb => ?_⟩
    obtain rfl := List.mem_singleton.mp hb
    exact (h.frames a ha).2
  · by_cases hold : i < position
    · rcases h.all i raw' hold hat' with hmem | ⟨a, ha, hin⟩
      · exact Or.inl (List.mem_append_left _ hmem)
      · exact Or.inr ⟨a, List.mem_append_left _ ha, hin⟩
    · have hlast : (position, raw) ∈ found ++ [(position, raw)] := List.mem_append_right _ (List.mem_singleton_self _)
      by_cases hhere : i = position
      · subst hhere
        -- only one frame begins at a position
        have hraw := (header_at_front hat.1 hat.2).2.1
        have hraw' := (header_at_front hat'.1 hat'.2).2.1
        exact Or.inl (by rwa [hraw', ← hraw])
      · refine Or.inr ⟨_, hlast, ?_, ?_⟩
        · show position < i
          omega
        · exact hi

/-- Garbage begins no frame. -/
theorem Scanned.garbage (h : Scanned stream position found) (hbuffer : p.buffer = stream.drop position) :
    Scanned stream (position + p.buffer.idxOf 0xd3) found ∧
      (p.skipGarbage (p.buffer.idxOf 0xd3)).buffer = stream.drop (position + p.buffer.idxOf 0xd3) := by
  constructor
  · refine h.skip _ fun i raw hge hlt hat => ?_
    obtain ⟨hframe, -, -⟩ := header_at_front hat.1 hat.2
    have hle : i - position ≤ p.buffer.idxOf 0xd3 := by omega
    have hdrop : stream.drop i = p.buffer.drop (i - position) := by
      rw [hbuffer, List.drop_drop]
      congr 1
      omega
    have hidx := idxOf_drop hle
    rw [hdrop] at hframe
    have hpreamble := hframe.preamble
    have hthree := hframe.three
    cases hb : p.buffer.drop (i - position) with
    | nil =>
      rw [hb] at hthree
      simp at hthree
    | cons x rest =>
      rw [hb, byteAt_cons_zero] at hpreamble
      rw [hb, hpreamble, List.idxOf_cons_self] at hidx
      omega
  · rw [buffer_skipGarbage, hbuffer, List.drop_drop]

/-- The result of draining the buffer that begins at a position. -/
structure Drained (stream : Bytes) (found : List (Nat × Bytes)) (r : RtcmStreamParser × List (Bytes × Nat)) : Prop where
  scanned : ∃ position found', position ≤ stream.length ∧ r.1.buffer = stream.drop position ∧
    Scanned stream position (found ++ found') ∧ r.2 = found'.map fun a => (a.2, typeBits a.2)
  waits : r.1.buffer.length < 3 ∨ Waiting r.1.buffer

/-- A frame, and then the rest. -/
theorem Drained.cons {raw : Bytes} {r : RtcmStreamParser × List (Bytes × Nat)}
    (h : Drained stream (found ++ [(position, raw)]) r) : Drained stream found (r.1, [(raw, typeBits raw)] ++ r.2) := by
  obtain ⟨⟨position', found', hle, hbuffer, hscanned, hkeys⟩, hwaits⟩ := h
  refine ⟨⟨position', (position, raw) :: found', hle, hbuffer, ?_, ?_⟩, hwaits⟩
  · rwa [List.append_assoc] at hscanned
  · rw [hkeys]
    rfl

theorem drain_scanned : ∀ (n : Nat) {p : RtcmStreamParser} {position : Nat} {found : List (Nat × Bytes)},
    p.buffer.length ≤ n → position ≤ stream.length → p.buffer = stream.drop position → Scanned stream position found →
    Drained stream found p.drain := by
  intro n
  induction n with
  | zero =>
    intro p position found hn hle hbuffer h
    have hnil : p.buffer = [] := List.eq_nil_of_length_eq_zero (Nat.le_zero.mp hn)
    rw [drain_nil hnil]
    exact ⟨⟨position, [], hle, hbuffer, by rwa [List.append_nil], rfl⟩, Or.inl (by rw [hnil]; exact Nat.zero_lt_succ _)⟩
  | succ n ih =>
    intro p position found hn hle hbuffer h
    by_cases hne : p.buffer = []
    · exact ih (by rw [hne]; exact Nat.zero_le _) hle hbuffer h
    obtain ⟨hgarbage, hskipped⟩ := h.garbage hbuffer
    have hidx : p.buffer.idxOf 0xd3 ≤ p.buffer.length := List.idxOf_le_length
    have hlength : p.buffer.length = stream.length - position := by rw [hbuffer, List.length_drop]
    by_cases hend : p.buffer.idxOf 0xd3 = p.buffer.length
    · -- nothing but garbage
      have hstop : (p.pass 0).2 = false := by rw [pass_eq, if_pos hend]
      rw [drain_stop hne hstop]
      refine ⟨⟨_, [], by omega, hskipped, by rwa [List.append_nil], rfl⟩, Or.inl ?_⟩
      rw [buffer_skipGarbage, List.length_drop]
      omega
    have hpass : p.pass 0 = (p.skipGarbage (p.buffer.idxOf 0xd3)).attempt 0 := by rw [pass_eq, if_neg hend]
    generalize hq : p.skipGarbage (p.buffer.idxOf 0xd3) = q at hpass hskipped
    generalize hhere : position + p.buffer.idxOf 0xd3 = here at hgarbage hskipped
    have hpreamble : byteAt q.buffer 0 = 0xd3 := hq ▸ preamble_skipGarbage hend
    have hqlength : q.buffer.length = stream.length - here := by rw [hskipped, List.length_drop]
    have hnone : ∀ raw, (Plausible q.buffer → announced q.buffer ≤ q.buffer.length →
        validRtcm3 (q.buffer.take (announced q.buffer)) = false) → ¬ FrameAt stream here raw := by
      rintro raw hinvalid ⟨hfront, hvalid⟩
      rw [← hskipped] at hfront
      obtain ⟨hframe, hraw, hannounced⟩ := header_at_front hfront hvalid
      rw [hraw, hinvalid hframe hannounced] at hvalid
      cases hvalid
    rcases attempt_cases 0 hpreamble with ⟨hwait, hw⟩ | ⟨hthree, hreserved, hr⟩ | ⟨hframe, hannounced, hc⟩
    · -- the candidate waits for more bytes
      have hstop : (p.pass 0).2 = false := by rw [hpass, hw]
      rw [drain_stop hne hstop, hq]
      refine ⟨⟨here, [], by omega, hskipped, by rwa [List.append_nil], rfl⟩, ?_⟩
      rcases hwait with hshort | ⟨hframe, hshort⟩
      · exact Or.inl hshort
      · exact Or.inr ⟨hframe, hshort⟩
    · -- no frame has this header
      have hgo : (p.pass 0).2 = true := by rw [hpass, hr]
      have hscanned : Scanned stream (here + 1) found := by
        refine hgarbage.skip 1 fun i raw hge hlt hat => ?_
        obtain rfl : i = here := by omega
        exact hnone raw (fun hframe => absurd hframe.reserved hreserved) hat
      have hrest : Drained stream found q.refuseHeader.drain := by
        refine ih ?_ ?_ ?_ hscanned
        · show (q.buffer.drop 1).length ≤ n
          rw [List.length_drop]
          omega
        · omega
        · show q.buffer.drop 1 = stream.drop (here + 1)
          rw [hskipped, List.drop_drop]
      rw [drain_go hgo, hpass, hr]
      exact hrest
    · have hgo : (p.pass 0).2 = true := by rw [hpass, hc]
      have hfour := hframe.three
      rw [drain_go hgo, hpass, hc]
      generalize hraw : q.buffer.take (announced q.buffer) = raw at hnone ⊢
      have hrawLength : raw.length = announced q.buffer := by
        rw [← hraw, List.length_take]
        omega
      cases hvalid : validRtcm3 raw with
      | false =>
        -- the candidate is refused, and all but its first byte is looked at again
        have hback : raw.drop 1 ++ q.buffer.drop (announced q.buffer) = q.buffer.drop 1 := by
          have hsplit : q.buffer = raw ++ q.buffer.drop (announced q.buffer) := by rw [← hraw, List.take_append_drop]
          have hone : 1 ≤ raw.length := by
            rw [hrawLength, announced]
            omega
          rw [← List.drop_append_of_le_length hone, ← hsplit]
        have hscanned : Scanned stream (here + 1) found := by
          refine hgarbage.skip 1 fun i raw' hge hlt hat => ?_
          obtain rfl : i = here := by omega
          exact hnone raw' (fun _ _ => hvalid) hat
        simp only [complete, if_pos hvalid, hback]
        refine ih ?_ ?_ ?_ hscanned
        · show (q.buffer.drop 1).length ≤ n
          rw [List.length_drop]
          omega
        · omega
        · show q.buffer.drop 1 = stream.drop (here + 1)
          rw [hskipped, List.drop_drop]
      | true =>
        have hat : FrameAt stream here raw := by
          refine ⟨?_, hvalid⟩
          rw [← hskipped, ← hraw]
          exact List.take_prefix _ _
        have hcomplete : (q.complete 0 raw (q.buffer.drop (announced q.buffer))).1.buffer =
            q.buffer.drop (announced q.buffer) ∧
            keys (q.complete 0 raw (q.buffer.drop (announced q.buffer))).2 = [(raw, typeBits raw)] := by
          simp [complete, hvalid, count, keys]
        obtain ⟨hrest, hkeys⟩ := hcomplete
        rw [hkeys]
        refine Drained.cons (ih ?_ ?_ ?_ (hgarbage.add hat))
        · rw [hrest, List.length_drop, announced]
          omega
        · omega
        · rw [hrest, hskipped, List.drop_drop, hrawLength, hskipped]

/-- What the parser has made of a stream. -/
structure Parsed (stream : Bytes) (frames : List (Bytes × Nat)) (buffer : Bytes) : Prop where
  /-- What is left is the end of the stream. -/
  rest : buffer <:+ stream
  /-- The frames are frames of the stream, in order and apart from each other, and every other frame begins inside one of
  them, or not before a candidate that is incomplete. -/
  found : ∃ found : List (Nat × Bytes), frames = found.map (fun a => (a.2, typeBits a.2)) ∧
    (∀ a ∈ found, FrameAt stream a.1 a.2) ∧ found.Pairwise (fun a b => a.1 + a.2.length ≤ b.1) ∧
    ∀ i raw, FrameAt stream i raw → (i, raw) ∈ found ∨ (∃ a ∈ found, a.1 < i ∧ i < a.1 + a.2.length) ∨
      (stream.length - buffer.length ≤ i ∧ Waiting buffer)

/-- **No frame is lost and none is made up**, however the stream is cut into chunks. -/
theorem stream_parsed (chunks : List (Bytes × ℚ)) :
    Parsed (streamOf chunks) (keys (feedAll {} chunks).2) (feedAll {} chunks).1.buffer := by
  have hdrain := feedAll_drain chunks init_drain
  have hstart : Scanned (streamOf chunks) 0 [] :=
    ⟨fun a ha => absurd ha List.not_mem_nil, List.Pairwise.nil, fun i _ hi _ => absurd hi (Nat.not_lt_zero i)⟩
  have hwhole : (({} : RtcmStreamParser).extend (streamOf chunks)).buffer = (streamOf chunks).drop 0 := rfl
  have hdrained := drain_scanned _ (Nat.le_refl _) (Nat.zero_le _) hwhole hstart
  rw [← hdrain] at hdrained
  obtain ⟨⟨position, found, hle, hbuffer, hscanned, hkeys⟩, hwaits⟩ := hdrained
  simp only [List.nil_append] at hbuffer hscanned hkeys hwaits
  refine ⟨?_, found, hkeys, fun a ha => (hscanned.frames a ha).1, hscanned.disjoint, fun i raw hat => ?_⟩
  · rw [hbuffer]
    exact List.drop_suffix _ _
  · by_cases hold : i < position
    · rcases hscanned.all i raw hold hat with hmem | hin
      · exact Or.inl hmem
      · exact Or.inr (Or.inl hin)
    · refine Or.inr (Or.inr ⟨?_, ?_⟩)
      · rw [hbuffer, List.length_drop]
        omega
      · -- the frame fits in the buffer, so the buffer is not short
        rcases hwaits with hshort | hwaiting
        · obtain ⟨hframe, -, -⟩ := header_at_front hat.1 hat.2
          have hthree := hframe.three
          rw [List.length_drop] at hthree
          rw [hbuffer, List.length_drop] at hshort
          omega
        · exact hwaiting

/-- What comes out of the buffer and a chunk is a part of them, and what is left is their end. -/
theorem feed_infix (p : RtcmStreamParser) (chunk : Bytes) (now : ℚ) :
    (p.feed chunk now).1.buffer <:+ p.buffer ++ chunk ∧ ∀ f ∈ (p.feed chunk now).2, f.raw <:+: p.buffer ++ chunk := by
  have hfeed := feed_drain p chunk now
  have hstart : Scanned (p.buffer ++ chunk) 0 [] :=
    ⟨fun a ha => absurd ha List.not_mem_nil, List.Pairwise.nil, fun i _ hi _ => absurd hi (Nat.not_lt_zero i)⟩
  obtain ⟨⟨position, found, -, hbuffer, hscanned, hkeys⟩, -⟩ :=
    drain_scanned (p := p.extend chunk) _ (Nat.le_refl _) (Nat.zero_le _) rfl hstart
  rw [← hfeed] at hbuffer hkeys
  simp only [buffer_extend, List.nil_append] at hbuffer hkeys hscanned
  constructor
  · rw [hbuffer]
    exact List.drop_suffix _ _
  · intro f hf
    have hmem : (f.raw, f.messageType) ∈ keys (p.feed chunk now).2 := List.mem_map_of_mem hf
    rw [hkeys] at hmem
    obtain ⟨a, ha, heq⟩ := List.mem_map.mp hmem
    obtain ⟨hfront, -⟩ := (hscanned.frames a ha).1
    rw [← (Prod.mk.inj heq).1]
    exact hfront.isInfix.trans (List.drop_suffix _ _).isInfix

/-! ## A stream of nothing but frames -/

/-- A frame at the beginning of the buffer comes out at once. -/
theorem pass_frame {raw rest : Bytes} (hvalid : validRtcm3 raw = true) (hbuffer : p.buffer = raw ++ rest) (now : ℚ) :
    p.pass now = (p.complete now raw rest, true) := by
  have hfront : raw <+: p.buffer := ⟨rest, hbuffer.symm⟩
  obtain ⟨hframe, hraw, hannounced⟩ := header_at_front hfront hvalid
  have hlength : announced p.buffer = raw.length := by
    have htake := congrArg List.length hraw
    rw [List.length_take] at htake
    omega
  have hidx : p.buffer.idxOf 0xd3 = 0 := by
    have hpreamble := hframe.preamble
    have hthree := hframe.three
    cases hb : p.buffer with
    | nil =>
      rw [hb] at hthree
      exact absurd hthree (by decide)
    | cons b rest =>
      rw [hb] at hpreamble
      obtain rfl : b = 0xd3 := hpreamble
      exact List.idxOf_cons_self
  have hskip : p.skipGarbage 0 = p := rfl
  have hnonempty : 0 ≠ p.buffer.length := by
    have hthree := hframe.three
    omega
  rw [pass_eq, hidx, if_neg hnonempty, hskip, attempt_complete hframe hannounced, ← hraw, hlength, hbuffer,
    List.drop_left]

/-- The bytes that belong to no frame. -/
def refused (s : Stats) : Nat := s.garbageBytes + s.headerFailures + s.lengthFailures + s.crcFailures

/-- Frames come out as they are, and nothing is refused. -/
theorem drain_frames (frames : List Bytes) : ∀ {p : RtcmStreamParser}, (∀ raw ∈ frames, validRtcm3 raw = true) →
    p.buffer = frames.flatten →
      p.drain.2 = frames.map (fun raw => (raw, typeBits raw)) ∧ refused p.drain.1.stats = refused p.stats := by
  induction frames with
  | nil =>
    intro p _ hbuffer
    rw [drain_nil hbuffer]
    exact ⟨rfl, rfl⟩
  | cons raw frames ih =>
    intro p hvalid hbuffer
    have hraw : validRtcm3 raw = true := hvalid raw List.mem_cons_self
    have hpass := pass_frame hraw hbuffer 0
    have hgo : (p.pass 0).2 = true := by rw [hpass]
    have hcomplete : (p.complete 0 raw frames.flatten).1.buffer = frames.flatten ∧
        refused (p.complete 0 raw frames.flatten).1.stats = refused p.stats ∧
        keys (p.complete 0 raw frames.flatten).2 = [(raw, typeBits raw)] := by
      unfold complete
      rw [if_neg (by rw [hraw]; decide)]
      exact ⟨rfl, rfl, rfl⟩
    obtain ⟨hrest, hrefused, hkeys⟩ := hcomplete
    obtain ⟨hframes, hfailures⟩ := ih (fun raw h => hvalid raw (List.mem_cons_of_mem _ h)) hrest
    rw [drain_go hgo, hpass, hkeys]
    constructor
    · rw [hframes]
      rfl
    · exact hfailures.trans hrefused

/-- A stream of valid frames is parsed to these frames and their types, however it is cut, and no byte is refused. -/
theorem frames_keys {frames : List Bytes} (hvalid : ∀ raw ∈ frames, validRtcm3 raw = true) {chunks : List (Bytes × ℚ)}
    (hstream : streamOf chunks = frames.flatten) :
    keys (feedAll {} chunks).2 = frames.map (fun raw => (raw, typeBits raw)) ∧
      refused (feedAll {} chunks).1.stats = 0 := by
  have hdrain := feedAll_drain chunks init_drain
  have hframes := drain_frames (p := ({} : RtcmStreamParser).extend (streamOf chunks)) frames hvalid hstream
  rwa [← hdrain] at hframes

/-- **A stream of valid frames** is parsed to these frames, however it is cut, and no candidate is refused. -/
theorem frames_parsed {frames : List Bytes} (hvalid : ∀ raw ∈ frames, validRtcm3 raw = true) {chunks : List (Bytes × ℚ)}
    (hstream : streamOf chunks = frames.flatten) :
    (feedAll {} chunks).2.map RtcmFrame.raw = frames ∧ (feedAll {} chunks).1.stats.crcFailures = 0 := by
  obtain ⟨hkeys, hrefused⟩ := frames_keys hvalid hstream
  refine ⟨?_, (Nat.add_eq_zero_iff.mp hrefused).2⟩
  have hraw := congrArg (List.map Prod.fst) hkeys
  simpa only [keys, List.map_map, Function.comp_def, List.map_id'] using hraw

/-- The beginning of such a stream is parsed to the first of these frames. -/
theorem frames_front {frames : List Bytes} (hvalid : ∀ raw ∈ frames, validRtcm3 raw = true) {chunks : List (Bytes × ℚ)}
    (hstream : streamOf chunks <+: frames.flatten) : (feedAll {} chunks).2.map RtcmFrame.raw <+: frames := by
  obtain ⟨rest, hrest⟩ := hstream
  have hall : streamOf (chunks ++ [(rest, 0)]) = frames.flatten := by simp [streamOf, ← hrest]
  obtain ⟨hframes, -⟩ := frames_parsed hvalid hall
  rw [feedAll_append, List.map_append] at hframes
  exact ⟨_, hframes⟩

/-- A refused candidate stays counted. -/
theorem crcFailures_pass (p : RtcmStreamParser) (now : ℚ) : p.stats.crcFailures ≤ (p.pass now).1.1.stats.crcFailures := by
  have hcomplete : ∀ (q : RtcmStreamParser) raw rest,
      q.stats.crcFailures ≤ (q.complete now raw rest).1.stats.crcFailures := by
    intro q raw rest
    unfold complete
    split
    · exact Nat.le_succ _
    · exact Nat.le_refl _
  unfold pass
  simp only
  split
  · exact Nat.le_refl _
  split
  · exact Nat.le_refl _
  split
  · exact Nat.le_refl _
  split
  · exact Nat.le_refl _
  split
  · exact Nat.le_refl _
  · exact hcomplete (p.skipGarbage _) _ _

theorem crcFailures_loop (now : ℚ) (fuel : Nat) : ∀ p : RtcmStreamParser,
    p.stats.crcFailures ≤ (loop now fuel p).1.stats.crcFailures := by
  induction fuel with
  | zero => exact fun p => Nat.le_refl _
  | succ fuel ih =>
    intro p
    by_cases hne : p.buffer = []
    · rw [loop, if_pos hne]
    · rw [loop_succ now fuel hne]
      split
      · exact (crcFailures_pass p now).trans (ih _)
      · exact crcFailures_pass p now

theorem crcFailures_feedAll (chunks : List (Bytes × ℚ)) : ∀ p : RtcmStreamParser,
    p.stats.crcFailures ≤ (p.feedAll chunks).1.stats.crcFailures := by
  induction chunks with
  | nil => exact fun p => Nat.le_refl _
  | cons c chunks ih => exact fun p => (crcFailures_loop c.2 _ (p.extend c.1)).trans (ih _)

/-! ## What a stream is parsed to -/

/-- The frames of a stream, by a fresh parser. -/
def parse (stream : Bytes) : List Bytes := (feedAll {} [(stream, 0)]).2.map RtcmFrame.raw

/-- What a fresh parser keeps of a stream. -/
def remainder (stream : Bytes) : Bytes := (feedAll {} [(stream, 0)]).1.buffer

/-- A pass looks at nothing but the buffer. -/
theorem pass_congr {q : RtcmStreamParser} (h : p.buffer = q.buffer) (now : ℚ) :
    (p.pass now).1.2 = (q.pass now).1.2 ∧ (p.pass now).1.1.buffer = (q.pass now).1.1.buffer ∧
      (p.pass now).2 = (q.pass now).2 := by
  have hskip : ∀ n, (p.skipGarbage n).buffer = (q.skipGarbage n).buffer := fun n => congrArg (List.drop n) h
  have hcomplete : ∀ (p q : RtcmStreamParser) raw rest, (p.complete now raw rest).2 = (q.complete now raw rest).2 ∧
      (p.complete now raw rest).1.buffer = (q.complete now raw rest).1.buffer := by
    intro p q raw rest
    unfold complete
    split <;> exact ⟨rfl, rfl⟩
  simp only [pass, h, hskip]
  split
  · exact ⟨rfl, hskip _, rfl⟩
  split
  · exact ⟨rfl, hskip _, rfl⟩
  split
  · exact ⟨rfl, rfl, rfl⟩
  split
  · exact ⟨rfl, rfl, rfl⟩
  split
  · exact ⟨rfl, hskip _, rfl⟩
  · obtain ⟨hframes, hbuffer⟩ := hcomplete (p.skipGarbage (q.buffer.idxOf 0xd3)) (q.skipGarbage (q.buffer.idxOf 0xd3)) _ _
    exact ⟨hframes, hbuffer, rfl⟩

theorem loop_congr (now : ℚ) (fuel : Nat) : ∀ {p q : RtcmStreamParser}, p.buffer = q.buffer →
    (loop now fuel p).2 = (loop now fuel q).2 ∧ (loop now fuel p).1.buffer = (loop now fuel q).1.buffer := by
  induction fuel with
  | zero => exact fun h => ⟨rfl, h⟩
  | succ fuel ih =>
    intro p q h
    by_cases hne : q.buffer = []
    · rw [loop, loop, if_pos hne, if_pos (h.trans hne)]
      exact ⟨rfl, h⟩
    · obtain ⟨hframes, hbuffer, hmore⟩ := pass_congr h now
      rw [loop_succ now fuel (h ▸ hne), loop_succ now fuel hne, hmore]
      split
      · obtain ⟨hframes', hbuffer'⟩ := ih hbuffer
        exact ⟨by rw [hframes, hframes'], hbuffer'⟩
      · exact ⟨hframes, hbuffer⟩

theorem parse_nil : parse [] = [] ∧ remainder [] = [] := ⟨rfl, rfl⟩

/-- A parser that has kept what a fresh one would keep of the stream, whatever it has counted, makes of the next chunk
what the longer stream has more. -/
theorem feed_parse {stream : Bytes} (h : p.buffer = remainder stream) (chunk : Bytes) (now : ℚ) :
    parse (stream ++ chunk) = parse stream ++ (p.feed chunk now).2.map RtcmFrame.raw ∧
      (p.feed chunk now).1.buffer = remainder (stream ++ chunk) := by
  have hcut : streamOf [(stream ++ chunk, 0)] = streamOf [(stream, 0), (chunk, now)] := by simp [streamOf]
  obtain ⟨hkeys, hstate⟩ := chunking_independent hcut
  have hbuffer : (p.extend chunk).buffer = ((feedAll {} [(stream, 0)]).1.extend chunk).buffer := by
    rw [buffer_extend, buffer_extend, h]
    rfl
  obtain ⟨hframes, hrest⟩ := loop_congr now (p.extend chunk).buffer.length hbuffer
  have hraws := congrArg (List.map Prod.fst) hkeys
  simp only [keys, List.map_map, Function.comp_def] at hraws
  constructor
  · rw [feed_eq, hframes, hbuffer]
    refine hraws.trans ?_
    have hone : ∀ p : RtcmStreamParser, (p.feedAll [(chunk, now)]).2 = (p.feed chunk now).2 := fun p => List.append_nil _
    rw [show [(stream, (0 : ℚ)), (chunk, now)] = [(stream, 0)] ++ [(chunk, now)] from rfl, feedAll_append,
      List.map_append, hone]
    rfl
  · rw [feed_eq, hrest, hbuffer]
    exact (congrArg RtcmStreamParser.buffer hstate).symm

end RtcmStreamParser

end LoraLink.Rtcm
