import LoraLink.Firmware.Machine
import LoraLink.Lib.Run

/-!
# What one step of the firmware can do

`Core` is the part of the state that the session rules read and write: the output queue, the counters and the input
buffer leave it alone. `Handled`, `Ended` and `Stepped` list the outcomes of a frame, of the end of a transmission and
of a step, each with its calls and the core it leaves; `handle_spec` and `step_spec` say that these are all outcomes.
Every fact about runs is proved by cases on `Stepped`.
-/

namespace LoraLink.Firmware

/-- The state of the session and of the transmission. -/
structure Core where
  rs : RS
  ready : Bool
  session : Nat
  lastSeq : Nat
  txSession : Nat
  txSeq : Nat
  active : Bool
  pending : Bool
  haveLast : Bool
  lastReq : Bytes
  lastResp : Bytes

def Fw.core (s : Fw) : Core :=
  { rs := s.rs, ready := s.ready, session := s.session, lastSeq := s.lastSeq, txSession := s.txSession
    txSeq := s.txSeq, active := s.active, pending := s.pending, haveLast := s.haveLast, lastReq := s.lastReq
    lastResp := s.lastResp }

namespace Core

/-- A new session. -/
def reset (s : Core) (ses : Nat) : Core :=
  { s with session := ses, active := true, lastSeq := 0, haveLast := false, lastReq := [], lastResp := []
           pending := false }

/-- A request is accepted. -/
def accept (s : Core) (b : Bytes) : Core := { s with lastSeq := seqOf b, haveLast := false, lastReq := b }

/-- A response is kept for a retry. -/
def cache (s : Core) (r : Bytes) : Core := { s with lastResp := r, haveLast := true }

/-- A transmission starts for the request with the given sequence. -/
def onAir (s : Core) (seq : Nat) : Core :=
  { s with rs := .transmitting, pending := true, txSession := s.session, txSeq := seq }

/-- The transmitter is off. -/
def offAir (s : Core) (rs : RS) : Core := { s with rs := rs }

/-- The pending request is no longer pending. -/
def settle (s : Core) : Core := { s with pending := false }

end Core

/-- A frame that `handle` does not drop. -/
def Valid (b : Bytes) : Prop := wellFormed b = true ∧ sessionOf b ≠ 0 ∧ seqOf b ≠ 0

/-- The response `r` goes to the session and sequence of the request `b`. -/
def Addressed (r b : Bytes) : Prop := sessionOf r = sessionOf b ∧ seqOf r = seqOf b

/-- A response that reports how a transmission ended: a success, or a radio failure. -/
def IsResult (r : Bytes) : Prop := typeOf r = Msg.txok ∨ typeOf r = Msg.err ∧ r16 (r.drop 16) = E.radio

/-- A SEND with a payload that may go on air. -/
def IsSend (b : Bytes) : Prop := Valid b ∧ typeOf b = Msg.send ∧ 1 ≤ lengthOf b ∧ lengthOf b ≤ AM

/-- The responses offered to the output queue. -/
def responses (cs : List Call) : List Bytes :=
  cs.filterMap fun | .putQ b false => some b | _ => none

/-! ## Calls and core of the small functions -/

namespace Fw

@[simp] theorem core_note (s : Fw) (call : Call) : (s.note call).core = s.core := rfl
@[simp] theorem calls_note (s : Fw) (call : Call) : (s.note call).calls = s.calls ++ [call] := rfl

@[simp] theorem core_count (f : C → C) (s : Fw) : (s.count f).core = s.core := rfl
@[simp] theorem calls_count (f : C → C) (s : Fw) : (s.count f).calls = s.calls := rfl
@[simp] theorem core_clearIrq (s : Fw) : s.clearIrq.core = s.core := rfl
@[simp] theorem calls_clearIrq (s : Fw) : s.clearIrq.calls = s.calls := rfl
@[simp] theorem core_setRs (rs : RS) (s : Fw) : (s.setRs rs).core = s.core.offAir rs := rfl
@[simp] theorem calls_setRs (rs : RS) (s : Fw) : (s.setRs rs).calls = s.calls := rfl
@[simp] theorem core_clearPending (s : Fw) : s.clearPending.core = s.core.settle := rfl
@[simp] theorem calls_clearPending (s : Fw) : s.clearPending.calls = s.calls := rfl
@[simp] theorem core_countRadio (s : Fw) : s.countRadio.core = s.core := rfl
@[simp] theorem calls_countRadio (s : Fw) : s.countRadio.calls = s.calls := rfl
@[simp] theorem core_countAccepted (s : Fw) : s.countAccepted.core = s.core := rfl
@[simp] theorem calls_countAccepted (s : Fw) : s.countAccepted.calls = s.calls := rfl
@[simp] theorem core_resetSession (s : Fw) (ses : Nat) : (s.resetSession ses).core = s.core.reset ses := rfl
@[simp] theorem core_acceptRequest (s : Fw) (b : Bytes) : (s.acceptRequest b).core = s.core.accept b := rfl
@[simp] theorem core_prepareTx (hw : Hw) (p : Bytes) (seq : Nat) (s : Fw) :
    (s.prepareTx hw p seq).core = s.core.onAir seq := rfl
@[simp] theorem calls_prepareTx (hw : Hw) (p : Bytes) (seq : Nat) (s : Fw) :
    (s.prepareTx hw p seq).calls = s.calls := rfl

theorem closeGap_core (s : Fw) (offset : Nat) :
    (s.closeGap offset).core = s.core ∧ (s.closeGap offset).calls = s.calls := by
  unfold closeGap
  generalize List.range (s.qn - 1 - offset) = l
  have h : ∀ (l : List Nat) (t : Fw), t.core = s.core ∧ t.calls = s.calls →
      (l.foldl (fun t k => { t with q := t.q.set ((t.qh + (offset + k)) % QD) (t.slot (offset + k + 1)) }) t).core =
        s.core ∧
      (l.foldl (fun t k => { t with q := t.q.set ((t.qh + (offset + k)) % QD) (t.slot (offset + k + 1)) }) t).calls =
        s.calls := by
    intro l
    induction l with
    | nil => exact fun t ht => ht
    | cons k l ih => exact fun t ht => ih _ ht
  exact h l s ⟨rfl, rfl⟩

theorem putQ_core_calls (s : Fw) (b : Bytes) (event : Bool) :
    (s.putQ b event).core = s.core ∧ (s.putQ b event).calls = s.calls ++ [.putQ b event] := by
  unfold putQ
  simp only
  split
  · split
    · exact ⟨rfl, rfl⟩
    · split
      · exact ⟨rfl, rfl⟩
      · rename_i offset _
        exact closeGap_core (s.note (.putQ b event)) offset
  · exact ⟨rfl, rfl⟩

@[simp] theorem core_putQ (s : Fw) (b : Bytes) (event : Bool) : (s.putQ b event).core = s.core :=
  (putQ_core_calls s b event).1

@[simp] theorem calls_putQ (s : Fw) (b : Bytes) (event : Bool) : (s.putQ b event).calls = s.calls ++ [.putQ b event] :=
  (putQ_core_calls s b event).2

@[simp] theorem core_reply (s : Fw) (type : UInt8) (seq : Nat) (p : Bytes) :
    (s.reply type seq p).core = s.core.cache (frame type s.session seq p) :=
  core_putQ _ _ _

@[simp] theorem calls_reply (s : Fw) (type : UInt8) (seq : Nat) (p : Bytes) :
    (s.reply type seq p).calls = s.calls ++ [.putQ (frame type s.session seq p) false] := calls_putQ _ _ _

@[simp] theorem core_reply_uncached (s : Fw) (type : UInt8) (seq : Nat) (p : Bytes) :
    (s.reply type seq p false).core = s.core := core_putQ _ _ _

@[simp] theorem calls_reply_uncached (s : Fw) (type : UInt8) (seq : Nat) (p : Bytes) :
    (s.reply type seq p false).calls = s.calls ++ [.putQ (frame type s.session seq p) false] := calls_putQ _ _ _

/-- Listening again ends in `recv` or `down`. -/
theorem listen_core (hw : Hw) {s : Fw} (h : s.rs ≠ .transmitting) :
    (s.listen hw).calls = s.calls ∧ ∃ rs', rs' ≠ RS.transmitting ∧ (s.listen hw).core = s.core.offAir rs' := by
  unfold listen
  split
  · exact ⟨rfl, s.rs, h, rfl⟩
  · simp only
    split
    · exact ⟨rfl, .recv, by decide, rfl⟩
    · exact ⟨rfl, .down, by decide, rfl⟩

/-- A received packet leaves the core alone and offers at most an event. -/
theorem received_core (hw : Hw) (b : Bytes) (n : Nat) (s : Fw) : (s.received hw b n).core = s.core ∧
    ∃ ev, (s.received hw b n).calls = s.calls ++ ev ∧ (ev = [] ∨ ∃ e, ev = [.putQ e true]) := by
  unfold received
  simp only
  split
  · exact ⟨rfl, [], by simp, Or.inl rfl⟩
  · split
    · exact ⟨rfl, [], by simp, Or.inl rfl⟩
    · split
      · exact ⟨rfl, [], by simp, Or.inl rfl⟩
      · exact ⟨core_putQ _ _ _, _, calls_putQ _ _ _, Or.inr ⟨_, rfl⟩⟩

/-- Writing a queued frame leaves the core alone and offers nothing. -/
theorem flush_core (s : Fw) (availableForWrite : Int) (written : Nat) :
    (s.flush availableForWrite written).core = s.core ∧
      ∃ w, (s.flush availableForWrite written).calls = s.calls ++ w ∧ (w = [] ∨ ∃ bs, w = [.serialWrite bs]) := by
  unfold flush
  split
  · exact ⟨rfl, [], by simp, Or.inl rfl⟩
  · simp only
    split
    · exact ⟨rfl, [], by simp, Or.inl rfl⟩
    · exact ⟨rfl, _, rfl, Or.inr ⟨_, rfl⟩⟩

end Fw

/-! ## Frames: what kind of response -/

theorem addressed_frame {b : Bytes} {ses seq : Nat} (type : UInt8) (p : Bytes) (hs : ses = sessionOf b)
    (hq : seq = seqOf b) : Addressed (frame type ses seq p) b := by
  subst hs hq
  exact ⟨by rw [sessionOf_frame, Nat.mod_eq_of_lt (sessionOf_lt b)],
    by rw [seqOf_frame, Nat.mod_eq_of_lt (seqOf_lt b)]⟩

/-- A frame of another type than TXOK and ERR is no result. -/
theorem not_isResult_frame {type : UInt8} (ses seq : Nat) (p : Bytes) (h1 : type ≠ Msg.txok) (h2 : type ≠ Msg.err) :
    ¬ IsResult (frame type ses seq p) := by
  rw [IsResult, typeOf_frame]
  rintro (h | ⟨h, -⟩)
  · exact h1 h
  · exact h2 h

/-- The code of an error frame. -/
theorem code_errorFrame (ses seq code : Nat) (detail : Int) (type : UInt8) :
    r16 ((frame Msg.err ses seq (errorPayload code detail type)).drop 16) = code % 2 ^ 16 := by
  have h := u16_be16 code (w16 (detail.emod (2 ^ 16)).toNat ++ [type] ++
    w16 (crc (frameHead Msg.err ses seq (errorPayload code detail type))))
  rw [← h]
  simp [frame, frameHead, r16, w16, w32, be16, be32, errorPayload]

/-- An error is a result exactly when it is a radio failure. -/
theorem isResult_errorFrame (ses seq : Nat) {code : Nat} (detail : Int) (type : UInt8) (h : code < 2 ^ 16) :
    IsResult (frame Msg.err ses seq (errorPayload code detail type)) ↔ code = E.radio := by
  rw [IsResult, typeOf_frame, code_errorFrame, Nat.mod_eq_of_lt h]
  simp [Msg.err, Msg.txok]

/-! ## A frame -/

/-- A new request of the active session: the conditions under which `handle` accepts it. -/
structure Fresh (s : Core) (b : Bytes) : Prop where
  valid : Valid b
  active : s.active = true
  session : sessionOf b = s.session
  newer : s.lastSeq < seqOf b
  idle : s.pending = false
  empty : typeOf b = Msg.hello → lengthOf b = 0

/-- The conditions under which a request goes on air, as the packet given. -/
structure Clear (s : Core) (b packet : Bytes) : Prop where
  send : IsSend b
  ready : s.ready = true
  free : s.rs ≠ .transmitting
  packet : ∃ boot air, packet = airPacket boot air (payloadOf b)

/-- The outcomes of a frame. -/
inductive Handled (s : Core) (b : Bytes) : List Call → Core → Prop
  | ignored (h : ¬ Valid b) : Handled s b [] s
  | refused {r : Bytes} (hv : Valid b) (ha : Addressed r b) (hr : ¬ IsResult r) : Handled s b [.putQ r false] s
  | replayed (hv : Valid b) (hact : s.active = true) (hses : sessionOf b = s.session) (hseq : seqOf b = s.lastSeq)
      (hidle : s.pending = false) (hlast : s.haveLast = true) (hb : b = s.lastReq) :
      Handled s b [.putQ s.lastResp false] s
  | opened {r : Bytes} (hv : Valid b) (ht : typeOf b = Msg.hello) (hl : lengthOf b = 0)
      (hnew : s.active = false ∨ sessionOf b ≠ s.session) (ha : Addressed r b) (hr : ¬ IsResult r) :
      Handled s b [.resetSession (sessionOf b), .saveReq b, .putQ r false]
        (((s.reset (sessionOf b)).accept b).cache r)
  | answered {r : Bytes} (hf : Fresh s b) (ha : Addressed r b) (hr : ¬ IsResult r) :
      Handled s b [.saveReq b, .putQ r false] ((s.accept b).cache r)
  | failed {r packet : Bytes} {st : Int} {rs : RS} (hf : Fresh s b) (hgo : Clear s b packet) (hst : st ≠ 0)
      (hrs : rs ≠ .transmitting) (ha : Addressed r b) (hr : typeOf r = Msg.err ∧ IsResult r) :
      Handled s b [.saveReq b, .startTransmit packet st, .putQ r false]
        (((((s.accept b).onAir (seqOf b)).offAir rs).settle).cache r)
  | started {packet : Bytes} (hf : Fresh s b) (hgo : Clear s b packet) :
      Handled s b [.saveReq b, .startTransmit packet 0] ((s.accept b).onAir (seqOf b))

namespace Fw

variable {hw : Hw} {b : Bytes} {s : Fw}

/-- An error that is not kept for a retry refuses the frame. -/
theorem refused_error (hv : Valid b) (hses : sessionOf b = s.session) {code : Nat} (hc : code < 2 ^ 16)
    (hne : code ≠ E.radio) (type : UInt8) :
    ∃ calls, (s.error (seqOf b) code 0 type false).calls = s.calls ++ calls ∧
      Handled s.core b calls (s.error (seqOf b) code 0 type false).core := by
  refine ⟨_, calls_reply_uncached _ _ _ _, ?_⟩
  rw [error, core_reply_uncached]
  exact .refused hv (addressed_frame _ _ hses.symm rfl) (by rwa [isResult_errorFrame _ _ _ _ hc])

theorem refused_errorFor (hv : Valid b) {code : Nat} (hc : code < 2 ^ 16) (hne : code ≠ E.radio) (type : UInt8) :
    ∃ calls, (s.errorFor (sessionOf b) (seqOf b) code 0 type).calls = s.calls ++ calls ∧
      Handled s.core b calls (s.errorFor (sessionOf b) (seqOf b) code 0 type).core := by
  refine ⟨_, calls_putQ _ _ _, ?_⟩
  rw [errorFor, core_putQ]
  exact .refused hv (addressed_frame _ _ rfl rfl) (by rwa [isResult_errorFrame _ _ _ _ hc])

/-- The end of a transmission that did not start. -/
theorem listen_spec (hw : Hw) {s : Fw} {c : Core} {rs : RS} (h : s.core = c.offAir rs) (hrs : rs ≠ .transmitting) :
    (s.listen hw).calls = s.calls ∧ ∃ rs', rs' ≠ RS.transmitting ∧ (s.listen hw).core = c.offAir rs' := by
  have hne : s.rs ≠ .transmitting := by
    have : s.rs = rs := congrArg Core.rs h
    rwa [this]
  obtain ⟨hcalls, rs', hrs', hcore⟩ := listen_core hw hne
  exact ⟨hcalls, rs', hrs', by rw [hcore, h]; rfl⟩

theorem sendAir_spec (hf : Fresh s.core b) (hsend : IsSend b) {t : Fw} (ht : t.core = s.core.accept b) :
    ∃ calls, (t.sendAir hw (payloadOf b) (seqOf b)).calls = t.calls ++ calls ∧
      Handled s.core b (.saveReq b :: calls) (t.sendAir hw (payloadOf b) (seqOf b)).core := by
  have hses : t.session = sessionOf b := by rw [hf.session]; exact congrArg Core.session ht
  have haddr : ∀ type p, Addressed (frame type t.session (seqOf b) p) b :=
    fun type p => addressed_frame type p hses rfl
  unfold sendAir
  by_cases hready : t.ready = false
  · rw [if_pos hready]
    refine ⟨_, calls_reply _ _ _ _, ?_⟩
    rw [error, core_reply, ht]
    exact .answered hf (haddr _ _) (by simp [isResult_errorFrame, E.notready, E.radio])
  rw [if_neg hready]
  by_cases hair : t.rs = .transmitting ∨ t.pending = true
  · rw [if_pos hair]
    refine ⟨_, calls_reply _ _ _ _, ?_⟩
    rw [error, core_reply, ht]
    exact .answered hf (haddr _ _) (by simp [isResult_errorFrame, E.busy, E.radio])
  rw [if_neg hair]
  have hgo : Clear s.core b (t.prepareTx hw (payloadOf b) (seqOf b)).txPacket := by
    refine ⟨hsend, ?_, fun h => hair (Or.inl ?_), _, _, rfl⟩
    · have : t.ready = s.core.ready := congrArg Core.ready ht
      rw [← this]; simpa using hready
    · exact (congrArg Core.rs ht).trans h
  by_cases hst : hw.startTransmit ≠ radiolibErrNone
  · simp only [if_pos hst]
    obtain ⟨hcalls, rs', hrs', hcore⟩ := @listen_spec hw
      (((((t.prepareTx hw (payloadOf b) (seqOf b)).note (.startTransmit
        (t.prepareTx hw (payloadOf b) (seqOf b)).txPacket hw.startTransmit)).countRadio.setRs .down).clearPending.error
        (seqOf b) E.radio hw.startTransmit Msg.send))
      ((((s.core.accept b).onAir (seqOf b)).settle).cache
        (frame Msg.err t.session (seqOf b) (errorPayload E.radio hw.startTransmit Msg.send))) .down
      (by rw [error, core_reply]; simp [ht]; rfl) (by decide)
    refine ⟨_, by rw [hcalls, error, calls_reply]; simp; rfl, ?_⟩
    rw [hcore]
    exact .failed hf hgo hst hrs' (haddr _ _) ⟨rfl, by simp [isResult_errorFrame, E.radio]⟩
  · simp only [if_neg hst]
    refine ⟨_, rfl, ?_⟩
    simp only [core_count, core_note, core_prepareTx, ht]
    rw [not_not.mp hst]
    exact .started hf hgo

/-- A reply to an accepted request that is not a result. -/
theorem answered_reply (hf : Fresh s.core b) {t : Fw} (ht : t.core = s.core.accept b) {type : UInt8} {p : Bytes}
    (hr : ¬ IsResult (frame type t.session (seqOf b) p)) :
    ∃ calls, (t.reply type (seqOf b) p).calls = t.calls ++ calls ∧
      Handled s.core b (.saveReq b :: calls) (t.reply type (seqOf b) p).core := by
  have hses : t.session = sessionOf b := by rw [hf.session]; exact congrArg Core.session ht
  refine ⟨_, calls_reply _ _ _ _, ?_⟩
  rw [core_reply, ht]
  exact .answered hf (addressed_frame _ _ hses rfl) hr

theorem serve_spec (hf : Fresh s.core b) :
    ∃ calls, (s.serve hw b).calls = s.calls ++ .saveReq b :: calls ∧
      Handled s.core b (.saveReq b :: calls) (s.serve hw b).core := by
  suffices h : ∃ calls, (s.serve hw b).calls = (s.acceptRequest b).calls ++ calls ∧
      Handled s.core b (.saveReq b :: calls) (s.serve hw b).core by
    obtain ⟨calls, hc, hh⟩ := h
    exact ⟨calls, by rw [hc]; exact List.append_assoc _ _ _, hh⟩
  have herr : ∀ code, code < 2 ^ 16 → code ≠ E.radio → ∃ calls,
      ((s.acceptRequest b).error (seqOf b) code 0 (typeOf b)).calls = (s.acceptRequest b).calls ++ calls ∧
        Handled s.core b (.saveReq b :: calls) ((s.acceptRequest b).error (seqOf b) code 0 (typeOf b)).core :=
    fun code hc hne => answered_reply hf rfl (by rwa [isResult_errorFrame _ _ _ _ hc])
  unfold serve
  simp only
  split
  · rename_i ht
    split
    · exact herr _ (by decide) (by decide)
    · rename_i hl
      have hsend : IsSend b := ⟨hf.valid, ht, by omega, by omega⟩
      have hcore : (((s.acceptRequest b).countAccepted.count fun c => { c with sendAccepted := c.sendAccepted + 1 })).core
          = s.core.accept b := by simp
      exact sendAir_spec hf hsend hcore
  · split
    · split
      · exact herr _ (by decide) (by decide)
      · exact answered_reply (t := (s.acceptRequest b).countAccepted) hf (by simp)
          (not_isResult_frame _ _ _ (by decide) (by decide))
    · split
      · split
        · exact herr _ (by decide) (by decide)
        · exact answered_reply (t := (s.acceptRequest b).countAccepted) hf (by simp)
            (not_isResult_frame _ _ _ (by decide) (by decide))
      · exact herr _ (by decide) (by decide)

/-- The branches of `handle` for a retry: the kept response, or an error. -/
theorem retry_spec (hv : Valid b) (hact : s.core.active = true) (hses : sessionOf b = s.core.session)
    (hseq : seqOf b = s.core.lastSeq) (hidle : s.core.pending = false) (type : UInt8) :
    ∃ calls,
      (if s.haveLast = true ∧ b = s.lastReq then s.putQ s.lastResp false
        else s.error (seqOf b) E.reused 0 type false).calls = s.calls ++ calls ∧
      Handled s.core b calls
        (if s.haveLast = true ∧ b = s.lastReq then s.putQ s.lastResp false
          else s.error (seqOf b) E.reused 0 type false).core := by
  split
  · rename_i h
    refine ⟨_, calls_putQ _ _ _, ?_⟩
    rw [core_putQ]
    exact .replayed hv hact hses hseq hidle h.1 h.2
  · exact refused_error hv hses (by decide) (by decide) _

theorem handleRequest_spec (hv : Valid b) (ht : typeOf b ≠ Msg.hello) :
    ∃ calls, (s.handleRequest hw b).calls = s.calls ++ calls ∧ Handled s.core b calls (s.handleRequest hw b).core := by
  unfold handleRequest
  simp only
  split
  · exact refused_errorFor hv (by decide) (by decide) _
  · rename_i hin
    simp only [not_or, not_not, Bool.not_eq_false] at hin
    split
    · exact refused_error hv hin.2 (by decide) (by decide) _
    · split
      · rename_i hseq
        split
        · exact refused_error hv hin.2 (by decide) (by decide) _
        · rename_i hp
          exact retry_spec hv hin.1 hin.2 hseq (Bool.eq_false_iff.mpr hp) _
      · split
        · exact refused_error hv hin.2 (by decide) (by decide) _
        · rename_i hlt hne hp
          obtain ⟨calls, hc, hh⟩ := @serve_spec hw b s ⟨hv, hin.1, hin.2, by show s.lastSeq < _; omega,
            Bool.eq_false_iff.mpr hp, fun h => absurd h ht⟩
          exact ⟨_, hc, hh⟩

/-- The end of an accepted HELLO. -/
theorem greet_spec (hw : Hw) (hses : s.session = sessionOf b) : ∃ r, Addressed r b ∧ ¬ IsResult r ∧
    ((s.accept b).countAccepted.info hw (seqOf b)).core = (s.core.accept b).cache r ∧
    ((s.accept b).countAccepted.info hw (seqOf b)).calls = s.calls ++ [.saveReq b, .putQ r false] := by
  have hcore := core_reply (s.accept b).countAccepted Msg.info (seqOf b)
  have hcalls := calls_reply (s.accept b).countAccepted Msg.info (seqOf b)
  exact ⟨_, addressed_frame _ _ hses rfl, not_isResult_frame _ _ _ (by decide) (by decide), hcore _,
    (hcalls _).trans (List.append_assoc _ [_] _)⟩

theorem handleHello_spec (hv : Valid b) (ht : typeOf b = Msg.hello) :
    ∃ calls, (s.handleHello hw b).calls = s.calls ++ calls ∧ Handled s.core b calls (s.handleHello hw b).core := by
  unfold handleHello
  simp only
  split
  · exact refused_errorFor hv (by decide) (by decide) _
  · rename_i hl
    rw [not_not] at hl
    split
    · rename_i h
      exact refused_error hv h.2.1 (by decide) (by decide) _
    · rename_i hbusy
      split
      · rename_i hnew
        obtain ⟨r, ha, hr, hcore, hcalls⟩ := greet_spec hw (s := s.resetSession (sessionOf b)) (b := b) rfl
        exact ⟨_, hcalls.trans (List.append_assoc _ [_] _), by rw [hcore]; exact .opened hv ht hl hnew ha hr⟩
      · rename_i hold
        simp only [not_or, not_not, Bool.not_eq_false] at hold
        have hidle : s.pending = false := by
          cases hp : s.pending
          · rfl
          · exact absurd ⟨hold.1, hold.2, hp⟩ hbusy
        split
        · exact refused_error hv hold.2 (by decide) (by decide) _
        · split
          · rename_i hseq
            exact retry_spec hv hold.1 hold.2 hseq hidle _
          · rename_i hlt hne
            have hf : Fresh s.core b := ⟨hv, hold.1, hold.2, by show s.lastSeq < _; omega, hidle, fun _ => hl⟩
            obtain ⟨r, ha, hr, hcore, hcalls⟩ := greet_spec hw (s := s) hold.2.symm
            exact ⟨_, hcalls, by rw [hcore]; exact .answered hf ha hr⟩

/-- What `handle` does with a frame. -/
theorem handle_spec (hw : Hw) (b : Bytes) (s : Fw) :
    ∃ calls, (s.handle hw b).calls = s.calls ++ calls ∧ Handled s.core b calls (s.handle hw b).core := by
  unfold handle
  split
  · rename_i h
    exact ⟨[], by simp [countUsbBad], .ignored fun hv => by simp [hv.1] at h⟩
  · rename_i hwf
    split
    · rename_i h
      exact ⟨[], by simp [countUsbBad], .ignored fun hv => h.elim hv.2.1 hv.2.2⟩
    · rename_i hid
      simp only [not_or] at hid
      have hv : Valid b := ⟨by simpa using hwf, hid⟩
      simp only
      split
      · rename_i ht
        exact handleHello_spec (s := s.count fun c => { c with usbFrames := c.usbFrames + 1 }) hv ht
      · rename_i ht
        exact handleRequest_spec (s := s.count fun c => { c with usbFrames := c.usbFrames + 1 }) hv ht

theorem handleHello_again (hw : Hw) (hl : lengthOf b = 0) (hact : s.active = true) (hses : sessionOf b = s.session)
    (hseq : seqOf b = s.lastSeq) (hidle : s.pending = false) (hlast : s.haveLast = true ∧ b = s.lastReq) :
    s.handleHello hw b = s.putQ s.lastResp false := by
  have hempty : ¬ lengthOf b ≠ 0 := not_not.mpr hl
  have hbusy : ¬ (s.active = true ∧ sessionOf b = s.session ∧ s.pending = true) := by simp [hidle]
  have hin : ¬ (s.active = false ∨ sessionOf b ≠ s.session) := by simp [hact, hses]
  have hlt : ¬ seqOf b < s.lastSeq := by omega
  rw [handleHello]
  simp only
  rw [if_neg hempty, if_neg hbusy, if_neg hin, if_neg hlt, if_pos hseq, if_pos hlast]

theorem handleRequest_again (hw : Hw) (hact : s.active = true) (hses : sessionOf b = s.session)
    (hseq : seqOf b = s.lastSeq) (hidle : s.pending = false) (hlast : s.haveLast = true ∧ b = s.lastReq) :
    s.handleRequest hw b = s.putQ s.lastResp false := by
  have hbusy : ¬ s.pending = true := by simp [hidle]
  have hin : ¬ (s.active = false ∨ sessionOf b ≠ s.session) := by simp [hact, hses]
  have hlt : ¬ seqOf b < s.lastSeq := by omega
  rw [handleRequest]
  rw [if_neg hin, if_neg hlt, if_pos hseq, if_neg hbusy, if_pos hlast]

/-- A retry of the last request gets the kept response again, and changes nothing else. -/
theorem handle_again (hw : Hw) (hv : Valid b) (hl : typeOf b = Msg.hello → lengthOf b = 0)
    (hact : s.core.active = true) (hses : sessionOf b = s.core.session) (hseq : seqOf b = s.core.lastSeq)
    (hidle : s.core.pending = false) (hlast : s.core.haveLast = true) (hb : b = s.core.lastReq) :
    (s.handle hw b).calls = s.calls ++ [.putQ s.core.lastResp false] ∧ (s.handle hw b).core = s.core := by
  suffices h : s.handle hw b = (s.count fun c => { c with usbFrames := c.usbFrames + 1 }).putQ s.lastResp false by
    rw [h]
    exact ⟨calls_putQ _ _ _, core_putQ _ _ _⟩
  have hid : ¬ (sessionOf b = 0 ∨ seqOf b = 0) := fun h => h.elim hv.2.1 hv.2.2
  rw [handle, if_neg (by simp [hv.1]), if_neg hid]
  split
  · rename_i ht
    exact handleHello_again hw (hl ht) hact hses hseq hidle ⟨hlast, hb⟩
  · exact handleRequest_again hw hact hses hseq hidle ⟨hlast, hb⟩

end Fw

/-! ## The end of a transmission, and a step -/

/-- The type of the response that tells how a transmission ended. -/
def resultType (e : Call) : UInt8 := if e = .finishTransmit 0 then Msg.txok else Msg.err

/-- The calls that end a transmission. -/
def IsEnd (e : Call) : Prop := e = .standby ∨ ∃ st, e = .finishTransmit st

/-- The outcomes of the end of a transmission: a result for the request of the running session, or none. -/
inductive Ended (s : Core) : Call → List Call → Core → Prop
  | own {e : Call} {r : Bytes} {rs : RS} (hact : s.active = true) (hses : s.session = s.txSession)
      (hr : IsResult r ∧ typeOf r = resultType e) (ha : sessionOf r = s.session % 2 ^ 32 ∧ seqOf r = s.txSeq % 2 ^ 32)
      (hrs : rs ≠ .transmitting) : Ended s e [e, .putQ r false] (((s.offAir rs).settle).cache r)
  | foreign {e : Call} {rs : RS} (h : ¬ (s.active = true ∧ s.session = s.txSession)) (hrs : rs ≠ .transmitting) :
      Ended s e [e] (s.offAir rs)

/-- The outcomes of a step. -/
inductive Stepped (s : Core) : Input → List Call → Core → Prop
  | handled {hw : Hw} {b : Bytes} {calls : List Call} {s' : Core} (h : Handled s b calls s') :
      Stepped s (.handle hw b) calls s'
  | ended {i : Input} {e : Call} {calls : List Call} {s' : Core} (hi : ∀ hw b, i ≠ .handle hw b)
      (hair : s.rs = .transmitting) (he : IsEnd e) (h : Ended s e calls s') : Stepped s i calls s'
  | quiet {i : Input} {calls : List Call} {s' : Core} (hi : ∀ hw b, i ≠ .handle hw b)
      (hcalls : calls = [] ∨ (∃ e, calls = [.putQ e true]) ∨ ∃ bs, calls = [.serialWrite bs])
      (hs : s' = s ∨ s.rs ≠ .transmitting ∧ ∃ rs, rs ≠ RS.transmitting ∧ s' = s.offAir rs) : Stepped s i calls s'

namespace Fw

/-- The end of the transmission that the running session started, once the transmitter is off. -/
theorem ended_reply {s : Fw} {c : Core} {e : Call} {rs : RS} (hs : s.core = c.offAir rs) (hact : c.active = true)
    (hses : c.session = c.txSession) (hrs : rs ≠ .transmitting) {type : UInt8} {p : Bytes}
    (hr : IsResult (frame type c.session c.txSeq p) ∧ type = resultType e) (hw : Hw) :
    ∃ calls, ((s.clearPending.reply type s.txSeq p).listen hw).calls = s.calls ++ calls ∧
      Ended c e (e :: calls) ((s.clearPending.reply type s.txSeq p).listen hw).core := by
  have hseq : s.txSeq = c.txSeq := congrArg Core.txSeq hs
  have hsess : s.clearPending.session = c.session := congrArg Core.session hs
  have hcore : (s.clearPending.reply type s.txSeq p).core =
      ((c.settle).cache (frame type c.session c.txSeq p)).offAir rs := by
    rw [core_reply, core_clearPending, hs, hsess, hseq]; rfl
  obtain ⟨hcalls, rs', hrs', hl⟩ := listen_spec hw hcore hrs
  refine ⟨[.putQ (frame type c.session c.txSeq p) false], ?_, ?_⟩
  · rw [hcalls, calls_reply, calls_clearPending, hsess, hseq]
  · rw [hl]
    exact .own hact hses hr ⟨sessionOf_frame _ _ _ _, seqOf_frame _ _ _ _⟩ hrs'

theorem ended_foreign {s : Fw} {c : Core} {e : Call} {rs : RS} (hs : s.core = c.offAir rs)
    (h : ¬ (c.active = true ∧ c.session = c.txSession)) (hrs : rs ≠ .transmitting) (hw : Hw) :
    ∃ calls, (s.listen hw).calls = s.calls ++ calls ∧ Ended c e (e :: calls) (s.listen hw).core := by
  obtain ⟨hcalls, rs', hrs', hl⟩ := listen_spec hw hs hrs
  exact ⟨[], by simp [hcalls], by rw [hl]; exact .foreign h hrs'⟩

theorem ownTx_iff (s : Fw) : s.ownTx = true ↔ s.core.active = true ∧ s.core.session = s.core.txSession := by
  simp [ownTx, core]

theorem txDone_spec (hw : Hw) (s : Fw) :
    ∃ calls, ((s.txDone hw).listen hw).calls = s.calls ++ calls ∧
      Ended s.core (.finishTransmit hw.finishTransmit) calls ((s.txDone hw).listen hw).core := by
  suffices h : ∃ calls, ((s.txDone hw).listen hw).calls = (s.note (.finishTransmit hw.finishTransmit)).calls ++ calls ∧
      Ended s.core (.finishTransmit hw.finishTransmit) (.finishTransmit hw.finishTransmit :: calls)
        ((s.txDone hw).listen hw).core by
    obtain ⟨calls, hc, hh⟩ := h
    exact ⟨_, by rw [hc]; exact List.append_assoc _ _ _, hh⟩
  have hown : ∀ t : Fw, t.core = s.core.offAir .down → (t.ownTx = true ↔ s.core.active = true ∧
      s.core.session = s.core.txSession) := fun t ht => by rw [ownTx_iff, ht]; rfl
  unfold txDone
  by_cases hst : hw.finishTransmit = radiolibErrNone
  · have ht : (((s.note (.finishTransmit hw.finishTransmit)).setRs .down).count fun c => { c with tx := c.tx + 1 }).core =
        s.core.offAir .down := by simp
    simp only [if_pos hst]
    split
    · rename_i h
      rw [hown _ ht] at h
      exact ended_reply ht h.1 h.2 (by decide) ⟨Or.inl rfl, by rw [hst]; rfl⟩ hw
    · rename_i h
      rw [hown _ ht] at h
      exact ended_foreign ht h (by decide) hw
  · have ht : ((s.note (.finishTransmit hw.finishTransmit)).setRs .down).countRadio.core = s.core.offAir .down := by simp
    have herr : Msg.err = resultType (.finishTransmit hw.finishTransmit) := by
      simp only [radiolibErrNone] at hst
      simp [resultType, hst]
    simp only [if_neg hst]
    split
    · rename_i h
      rw [hown _ ht] at h
      exact ended_reply ht h.1 h.2 (by decide) ⟨by simp [isResult_errorFrame, E.radio], herr⟩ hw
    · rename_i h
      rw [hown _ ht] at h
      exact ended_foreign ht h (by decide) hw

theorem radioTask_spec (hw : Hw) (s : Fw) :
    ∃ calls, (s.radioTask hw).calls = s.calls ++ calls ∧ Stepped s.core (.radioTask hw) calls (s.radioTask hw).core := by
  have hi : ∀ hw' b, Input.radioTask hw ≠ .handle hw' b := by simp
  unfold radioTask
  split
  · exact ⟨[], by simp, .quiet hi (Or.inl rfl) (Or.inl rfl)⟩
  · simp only
    split
    · rename_i hair
      obtain ⟨calls, hc, hh⟩ := txDone_spec hw s.clearIrq
      exact ⟨calls, hc, .ended hi hair (Or.inr ⟨_, rfl⟩) hh⟩
    · rename_i hair
      have hrs : s.core.rs ≠ .transmitting := hair
      split
      · obtain ⟨hcore, ev, hev, hcase⟩ := received_core hw (radioBuffer hw.packet) hw.packetLength s.clearIrq
        obtain ⟨hcalls, rs', hrs', hl⟩ := @listen_spec hw _ s.core s.core.rs hcore hrs
        refine ⟨ev, by rw [hcalls, hev]; rfl, .quiet hi ?_ (Or.inr ⟨hrs, rs', hrs', hl⟩)⟩
        exact hcase.elim Or.inl fun h => Or.inr (Or.inl h)
      · obtain ⟨hcalls, rs', hrs', hl⟩ := @listen_spec hw s.clearIrq.countRadio s.core s.core.rs rfl hrs
        exact ⟨[], by simp [hcalls], .quiet hi (Or.inl rfl) (Or.inr ⟨hrs, rs', hrs', hl⟩)⟩

/-- The watchdog fires: a transmission is on air for too long. -/
def watchdogFires (hw : Hw) (s : Fw) : Prop :=
  s.rs = .transmitting ∧ txWatchdogMs ≤ (hw.millis + 2 ^ 32 - s.txStartedMillis) % 2 ^ 32

theorem txWatchdog_quiet {hw : Hw} {s : Fw} (h : ¬ s.watchdogFires hw) : s.txWatchdog hw = s := by
  rw [txWatchdog, if_pos]
  by_contra hno
  simp only [not_or, not_not, Nat.not_lt] at hno
  exact h hno

theorem txWatchdog_ended {hw : Hw} {s : Fw} (h : s.watchdogFires hw) :
    ∃ calls, (s.txWatchdog hw).calls = s.calls ++ calls ∧ Ended s.core .standby calls (s.txWatchdog hw).core := by
  have hgo : ¬ (s.rs ≠ .transmitting ∨ (hw.millis + 2 ^ 32 - s.txStartedMillis) % 2 ^ 32 < txWatchdogMs) := by
    simp only [not_or, not_not, Nat.not_lt]
    exact h
  have ht : ((s.countRadio.note .standby).setRs .down).core = s.core.offAir .down := by simp
  have herr : Msg.err = resultType .standby := by simp [resultType]
  have hcons : ∀ t : Fw, (∃ calls, t.calls = ((s.countRadio.note .standby).setRs .down).calls ++ calls ∧
      Ended s.core .standby (.standby :: calls) t.core) →
      ∃ calls, t.calls = s.calls ++ calls ∧ Ended s.core .standby calls t.core := by
    rintro t ⟨calls, hc, hh⟩
    exact ⟨_, by rw [hc]; exact List.append_assoc _ _ _, hh⟩
  rw [txWatchdog, if_neg hgo]
  simp only
  split
  · rename_i h
    rw [ownTx_iff, ht] at h
    have hr : IsResult (frame Msg.err s.core.session s.core.txSeq (errorPayload E.radio radiolibErrUnknown Msg.send)) :=
      (isResult_errorFrame _ _ _ _ (by decide)).mpr rfl
    have hended := ended_reply (e := .standby) ht h.1 h.2 (by decide) ⟨hr, herr⟩ hw
    exact hcons _ hended
  · rename_i h
    rw [ownTx_iff, ht] at h
    exact hcons _ (ended_foreign ht h (by decide) hw)

theorem txWatchdog_spec (hw : Hw) (s : Fw) :
    ∃ calls, (s.txWatchdog hw).calls = s.calls ++ calls ∧
      Stepped s.core (.txWatchdog hw) calls (s.txWatchdog hw).core := by
  have hi : ∀ hw' b, Input.txWatchdog hw ≠ .handle hw' b := by simp
  by_cases h : s.watchdogFires hw
  · obtain ⟨calls, hc, hh⟩ := txWatchdog_ended h
    exact ⟨calls, hc, .ended hi h.1 (Or.inl rfl) hh⟩
  · rw [txWatchdog_quiet h]
    exact ⟨[], by simp, .quiet hi (Or.inl rfl) (Or.inl rfl)⟩

end Fw

/-- The start: no session, nothing on air. -/
theorem setup_core (d : Board) : ∃ rs ready, rs ≠ RS.transmitting ∧ (setup d).core =
    { rs := rs, ready := ready, session := 0, lastSeq := 0, txSession := 0, txSeq := 0, active := false
      pending := false, haveLast := false, lastReq := [], lastResp := [] } := by
  unfold setup
  simp only
  split
  · exact ⟨.down, false, by decide, rfl⟩
  · split
    · obtain ⟨-, rs, hrs, hcore⟩ := Fw.listen_core d.hw (s := { ({} : Fw) with
        boot := if d.boot % 2 ^ 32 = 0 then 1 else d.boot % 2 ^ 32
        airNext := if d.airNext % 2 ^ 32 = 0 then 1 else d.airNext % 2 ^ 32, mac := d.mac, ready := true })
        (by simp)
      exact ⟨rs, true, hrs, hcore⟩
    · exact ⟨.down, false, by decide, rfl⟩

/-- Everything one step can do. -/
theorem step_spec (i : Input) (s : Fw) : Stepped s.core i (step i s).calls (step i s).core := by
  have hbegin : ∀ t : Fw, (∃ calls, t.calls = ({ s with calls := [] } : Fw).calls ++ calls ∧
      Stepped s.core i calls t.core) → Stepped s.core i t.calls t.core := by
    rintro t ⟨calls, hc, hh⟩
    have : t.calls = calls := by simpa using hc
    rwa [this]
  apply hbegin
  cases i with
  | handle hw b =>
    obtain ⟨calls, hc, hh⟩ := Fw.handle_spec hw b { s with calls := [] }
    exact ⟨calls, hc, .handled hh⟩
  | isr => exact ⟨[], rfl, .quiet (by simp) (Or.inl rfl) (Or.inl rfl)⟩
  | radioTask hw => exact Fw.radioTask_spec hw { s with calls := [] }
  | txWatchdog hw => exact Fw.txWatchdog_spec hw { s with calls := [] }
  | flush availableForWrite written =>
    obtain ⟨hcore, w, hw, hcase⟩ := Fw.flush_core { s with calls := [] } availableForWrite written
    exact ⟨w, hw, .quiet (by simp) (hcase.elim Or.inl fun h => Or.inr (Or.inr h)) (Or.inl hcore)⟩

/-! ## The end of a transmission and the change of a session, by the input -/

/-- The input ends the transmission that is on air. -/
def Input.endsTx : Input → Fw → Prop
  | .radioTask _, s => s.irq = true ∧ s.ready = true ∧ s.rs = .transmitting
  | .txWatchdog hw, s => s.watchdogFires hw
  | _, _ => False

/-- The call by which it does. -/
def Input.ending : Input → Call
  | .radioTask hw => .finishTransmit hw.finishTransmit
  | _ => .standby

theorem Input.isEnd_ending (i : Input) : IsEnd i.ending := by
  cases i with
  | radioTask hw => exact Or.inr ⟨_, rfl⟩
  | handle | isr | txWatchdog | flush => exact Or.inl rfl

/-- A step that ends a transmission makes that call, and answers if the transmission is the running session's. -/
theorem step_ended {i : Input} {s : Fw} (h : i.endsTx s) : Ended s.core i.ending (step i s).calls (step i s).core := by
  cases i with
  | handle | isr | flush => exact absurd h id
  | radioTask hw =>
    obtain ⟨hirq, hready, hair⟩ := h
    obtain ⟨calls, hc, hh⟩ := Fw.txDone_spec hw ({ s with calls := [] } : Fw).clearIrq
    have hstep : step (.radioTask hw) s = (({ s with calls := [] } : Fw).clearIrq.txDone hw).listen hw := by
      rw [step, Fw.perform, Fw.radioTask, if_neg (by simp [hirq, hready])]
      exact if_pos hair
    have hcalls : (step (.radioTask hw) s).calls = calls := by rw [hstep, hc]; rfl
    rw [hcalls, hstep]
    exact hh
  | txWatchdog hw =>
    obtain ⟨calls, hc, hh⟩ := Fw.txWatchdog_ended (s := { s with calls := [] }) h
    have hcalls : (step (.txWatchdog hw) s).calls = calls := hc
    rw [hcalls]
    exact hh

/-- Nothing but a step with a transmission on air makes such a call. -/
theorem Stepped.of_end {s s' : Core} {i : Input} {calls : List Call} {e : Call} (h : Stepped s i calls s')
    (hc : e ∈ calls) (he : IsEnd e) : s.rs = .transmitting ∧ ∀ hw b, i ≠ .handle hw b := by
  cases h with
  | handled h => rcases he with rfl | ⟨st, rfl⟩ <;> cases h <;> simp at hc
  | ended hi hair => exact ⟨hair, hi⟩
  | quiet _ hcalls =>
    rcases hcalls with rfl | ⟨b, rfl⟩ | ⟨bs, rfl⟩
    · simp at hc
    · rcases he with rfl | ⟨st, rfl⟩ <;> simp at hc
    · rcases he with rfl | ⟨st, rfl⟩ <;> simp at hc

theorem endsTx_of_end {i : Input} {s : Fw} {e : Call} (h : e ∈ (step i s).calls) (he : IsEnd e) : i.endsTx s := by
  obtain ⟨hair, hi⟩ := (step_spec i s).of_end h he
  cases i with
  | handle hw b => exact absurd rfl (hi hw b)
  | isr => simp [step, Fw.perform, Fw.isr] at h
  | radioTask hw =>
    by_cases hidle : s.irq = false ∨ s.ready = false
    · rw [step, Fw.perform, Fw.radioTask, if_pos hidle] at h
      exact absurd h (by simp)
    · simp only [not_or, Bool.not_eq_false] at hidle
      exact ⟨hidle.1, hidle.2, hair⟩
  | txWatchdog hw =>
    by_contra hno
    rw [step, Fw.perform, Fw.txWatchdog_quiet (s := { s with calls := [] }) hno] at h
    exact absurd h (by simp)
  | flush availableForWrite written =>
    obtain ⟨-, w, hw, hcase⟩ := Fw.flush_core { s with calls := [] } availableForWrite written
    have hcalls : (step (.flush availableForWrite written) s).calls = w := hw
    rw [hcalls] at h
    rcases hcase with rfl | ⟨bs, rfl⟩
    · simp at h
    · rcases he with rfl | ⟨st, rfl⟩ <;> simp at h

/-- The input is a HELLO that opens a session other than the running one. -/
def Input.changesSession : Input → Fw → Prop
  | .handle _ b, s => Valid b ∧ typeOf b = Msg.hello ∧ lengthOf b = 0 ∧ (s.active = false ∨ sessionOf b ≠ s.session)
  | _, _ => False

/-- The frame `b` is accepted in the state `s`: it opens a session, or is a new request of the running one. -/
def Accepts (s : Core) (b : Bytes) : Prop :=
  (Valid b ∧ typeOf b = Msg.hello ∧ lengthOf b = 0 ∧ (s.active = false ∨ sessionOf b ≠ s.session)) ∨ Fresh s b

theorem Input.not_endsTx_of_changesSession {i : Input} {s : Fw} (h : i.changesSession s) : ¬ i.endsTx s := by
  cases i with
  | handle hw b => exact id
  | isr | radioTask | txWatchdog | flush => exact absurd h id

theorem Fw.handleHello_opens {b : Bytes} {s : Fw} (hw : Hw) (hl : lengthOf b = 0)
    (hnew : s.active = false ∨ sessionOf b ≠ s.session) : s.handleHello hw b =
      ((s.resetSession (sessionOf b)).accept b).countAccepted.info hw (seqOf b) := by
  have hbusy : ¬ (s.active = true ∧ sessionOf b = s.session ∧ s.pending = true) := by
    rintro ⟨hact, hses, -⟩
    rcases hnew with hoff | hne
    · exact Bool.noConfusion (hact.symm.trans hoff)
    · exact hne hses
  rw [Fw.handleHello]
  simp only
  rw [if_neg (not_not.mpr hl), if_neg hbusy, if_pos hnew]

/-- A valid frame is counted, and handled by its type. -/
theorem step_valid {hw : Hw} {b : Bytes} {s : Fw} (hv : Valid b) :
    step (.handle hw b) s = if typeOf b = Msg.hello
      then (({ s with calls := [] } : Fw).count fun c => { c with usbFrames := c.usbFrames + 1 }).handleHello hw b
      else (({ s with calls := [] } : Fw).count fun c => { c with usbFrames := c.usbFrames + 1 }).handleRequest hw b := by
  have hid : ¬ (sessionOf b = 0 ∨ seqOf b = 0) := fun h => h.elim hv.2.1 hv.2.2
  rw [step, Fw.perform, Fw.handle, if_neg (by simp [hv.1]), if_neg hid]

/-- A HELLO that opens a session resets it and is answered. -/
theorem step_greets {hw : Hw} {b : Bytes} {s : Fw} (h : (Input.handle hw b).changesSession s) : ∃ r, Addressed r b ∧
    (step (.handle hw b) s).calls = [.resetSession (sessionOf b), .saveReq b, .putQ r false] ∧
    (step (.handle hw b) s).core = ((s.core.reset (sessionOf b)).accept b).cache r := by
  obtain ⟨hv, ht, hl, hnew⟩ := h
  rw [step_valid hv, if_pos ht, Fw.handleHello_opens (s := ({ s with calls := [] } : Fw).count _) hw hl hnew]
  generalize hu : (({ s with calls := [] } : Fw).count fun c => { c with usbFrames := c.usbFrames + 1 }) = u
  have hcore : u.core = s.core := by rw [← hu]; rfl
  have hcalls : u.calls = [] := by rw [← hu]; rfl
  obtain ⟨r, ha, -, hlast, hmade⟩ := Fw.greet_spec hw (s := u.resetSession (sessionOf b)) (b := b) rfl
  refine ⟨r, ha, ?_, ?_⟩
  · rw [hmade, show (u.resetSession (sessionOf b)).calls = u.calls ++ [.resetSession (sessionOf b)] from rfl, hcalls]
    rfl
  · rw [hlast, Fw.core_resetSession, hcore]

theorem step_opens {i : Input} {s : Fw} (h : i.changesSession s) : ∃ b r, Addressed r b ∧
    (step i s).calls = [.resetSession (sessionOf b), .saveReq b, .putQ r false] ∧
    (step i s).core = ((s.core.reset (sessionOf b)).accept b).cache r := by
  cases i with
  | isr | radioTask | txWatchdog | flush => exact absurd h id
  | handle hw b => exact ⟨b, step_greets h⟩

theorem Fw.handleHello_saves {hw : Hw} {b : Bytes} {s : Fw} (hf : Fresh s.core b) (ht : typeOf b = Msg.hello) :
    .saveReq b ∈ (s.handleHello hw b).calls := by
  obtain ⟨-, hact, hses, hnewer, hidle, hempty⟩ := hf
  have hbusy : ¬ (s.active = true ∧ sessionOf b = s.session ∧ s.pending = true) := fun h =>
    Bool.noConfusion (hidle.symm.trans h.2.2)
  have hin : ¬ (s.active = false ∨ sessionOf b ≠ s.session) := fun h =>
    h.elim (fun hoff => Bool.noConfusion (hact.symm.trans hoff)) fun hne => hne hses
  have hlt : ¬ seqOf b < s.lastSeq := Nat.not_lt_of_lt hnewer
  have hne : ¬ seqOf b = s.lastSeq := Nat.ne_of_gt hnewer
  obtain ⟨r, -, -, -, hcalls⟩ := Fw.greet_spec hw (s := s) hses.symm
  rw [Fw.handleHello]
  simp only
  rw [if_neg (not_not.mpr (hempty ht)), if_neg hbusy, if_neg hin, if_neg hlt, if_neg hne, hcalls]
  simp

theorem Fw.handleRequest_saves {hw : Hw} {b : Bytes} {s : Fw} (hf : Fresh s.core b) :
    .saveReq b ∈ (s.handleRequest hw b).calls := by
  obtain ⟨calls, hcalls, -⟩ := @Fw.serve_spec hw b s hf
  obtain ⟨-, hact, hses, hnewer, hidle, -⟩ := hf
  have hin : ¬ (s.active = false ∨ sessionOf b ≠ s.session) := fun h =>
    h.elim (fun hoff => Bool.noConfusion (hact.symm.trans hoff)) fun hne => hne hses
  have hlt : ¬ seqOf b < s.lastSeq := Nat.not_lt_of_lt hnewer
  have hne : ¬ seqOf b = s.lastSeq := Nat.ne_of_gt hnewer
  have hbusy : ¬ s.pending = true := fun h => Bool.noConfusion (hidle.symm.trans h)
  rw [Fw.handleRequest]
  rw [if_neg hin, if_neg hlt, if_neg hne, if_neg hbusy, hcalls]
  simp

/-- What is accepted is kept as the last request. -/
theorem step_saves {hw : Hw} {b : Bytes} {s : Fw} (h : Accepts s.core b) :
    .saveReq b ∈ (step (.handle hw b) s).calls := by
  rcases h with hopens | hf
  · obtain ⟨r, -, hcalls, -⟩ := @step_greets hw b s hopens
    rw [hcalls]
    simp
  · rw [step_valid hf.valid]
    split
    · rename_i ht
      exact Fw.handleHello_saves (s := ({ s with calls := [] } : Fw).count _) hf ht
    · exact Fw.handleRequest_saves (s := ({ s with calls := [] } : Fw).count _) hf

end LoraLink.Firmware
