import LoraLink.Firmware.Queue

/-!
# Frames that the firmware refuses

`Refused` lists the frames that `handle` answers without taking them: none of them touches the session, the kept
request and its response, or a transmission.

- `Unmoved`: a state that a response left, all else as before;
- `handle_refused`: a refused frame is answered by one response, and leaves the rest unmoved.
-/

namespace LoraLink.Firmware

variable {s : Fw} {b : Bytes}

/-- A frame of the running session. -/
def OfSession (s : Fw) (b : Bytes) : Prop := s.active = true ∧ sessionOf b = s.session

/-- The valid frames that `handle` does not take, in the order of its checks. -/
inductive Refused (s : Fw) (b : Bytes) : Prop
  | helloPayload (ht : typeOf b = Msg.hello) (hl : lengthOf b ≠ 0)
  | foreign (ht : typeOf b ≠ Msg.hello) (hs : ¬ OfSession s b)
  /-- A stale sequence, or the last one again. -/
  | used (hs : OfSession s b) (hseq : seqOf b ≤ s.lastSeq)
  | busy (hs : OfSession s b) (hp : s.pending = true)

/-- A response `r` is offered to the output queue; but for the queue and the two counters, `s'` is `s`. -/
def Unmoved (r : Bytes) (s s' : Fw) : Prop := ∃ q qt qn drops, s' =
  { s with q := q, qt := qt, qn := qn, c := { s.c with usbFrames := s.c.usbFrames + 1, drops := drops }
           calls := s.calls ++ [.putQ r false] }

namespace Fw

/-- The frame is counted. -/
def countFrame (s : Fw) : Fw := s.count fun c => { c with usbFrames := c.usbFrames + 1 }

theorem unmoved_putQ (s : Fw) (r : Bytes) : Unmoved r s (s.countFrame.putQ r false) := putQ_response s.countFrame r

theorem unmoved_error (s : Fw) (seq code : Nat) (type : UInt8) :
    ∃ r, Unmoved r s (s.countFrame.error seq code 0 type false) :=
  ⟨_, unmoved_putQ s (frame Msg.err s.session seq (errorPayload code 0 type))⟩

theorem unmoved_errorFor (s : Fw) (ses seq code : Nat) (type : UInt8) :
    ∃ r, Unmoved r s (s.countFrame.errorFor ses seq code 0 type) :=
  ⟨_, unmoved_putQ s (frame Msg.err ses seq (errorPayload code 0 type))⟩

/-- The last request again: the kept response, or an error. -/
theorem unmoved_again (s : Fw) (seq : Nat) (type : UInt8) : ∃ r, Unmoved r s
    (if s.haveLast = true ∧ b = s.lastReq then s.countFrame.putQ s.lastResp false
      else s.countFrame.error seq E.reused 0 type false) := by
  split
  · exact ⟨_, unmoved_putQ s _⟩
  · exact unmoved_error s _ _ _

theorem handleHello_refused (hw : Hw) (ht : typeOf b = Msg.hello) (h : Refused s b) :
    ∃ r, Unmoved r s (s.countFrame.handleHello hw b) := by
  unfold handleHello
  simp only
  split
  · exact unmoved_errorFor s _ _ _ _
  · rename_i hl
    split
    · exact unmoved_error s _ _ _
    · rename_i hbusy
      -- only a sequence of the running session is left to refuse
      obtain ⟨hs, hseq⟩ : OfSession s b ∧ seqOf b ≤ s.lastSeq := by
        cases h with
        | helloPayload _ hpayload => exact absurd hpayload hl
        | foreign hother _ => exact absurd ht hother
        | used hs hseq => exact ⟨hs, hseq⟩
        | busy hs hp => exact absurd ⟨hs.1, hs.2, hp⟩ hbusy
      have hold : ¬ (s.countFrame.active = false ∨ sessionOf b ≠ s.countFrame.session) := by
        rintro (hinactive | hother)
        · exact Bool.false_ne_true (hinactive.symm.trans hs.1)
        · exact hother hs.2
      rw [if_neg hold]
      split
      · exact unmoved_error s _ _ _
      · rename_i hlt
        have heq : seqOf b = s.countFrame.lastSeq := Nat.le_antisymm hseq (Nat.le_of_not_lt hlt)
        rw [if_pos heq]
        exact unmoved_again s _ _

theorem handleRequest_refused (hw : Hw) (ht : typeOf b ≠ Msg.hello) (h : Refused s b) :
    ∃ r, Unmoved r s (s.countFrame.handleRequest hw b) := by
  unfold handleRequest
  simp only
  split
  · exact unmoved_errorFor s _ _ _ _
  · rename_i hin
    split
    · exact unmoved_error s _ _ _
    · rename_i hlt
      split
      · split
        · exact unmoved_error s _ _ _
        · exact unmoved_again s _ _
      · rename_i hne
        have hp : s.countFrame.pending = true := by
          cases h with
          | helloPayload hhello _ => exact absurd hhello ht
          | foreign _ hs =>
            refine absurd ?_ hin
            by_contra hno
            simp only [not_or, Bool.not_eq_false, not_not] at hno
            exact hs hno
          | used _ hseq => exact absurd (Nat.le_antisymm hseq (Nat.le_of_not_lt hlt)) hne
          | busy _ hp => exact hp
        rw [if_pos hp]
        exact unmoved_error s _ _ _

end Fw

/-- A frame that fails a check is only counted; one that is refused gets one response, and moves nothing else. -/
theorem handle_refused (s : Fw) (hw : Hw) (b : Bytes) :
    (¬ Valid b → s.handle hw b = { s with c := { s.c with usbBad := s.c.usbBad + 1 } }) ∧
      (Valid b → Refused s b → ∃ r, Unmoved r s (s.handle hw b)) := by
  constructor
  · intro hbad
    unfold Fw.handle
    split
    · rfl
    · rename_i hwf
      split
      · rfl
      · rename_i hid
        simp only [not_or] at hid
        exact absurd ⟨by simpa using hwf, hid⟩ hbad
  · intro hv h
    have hid : ¬ (sessionOf b = 0 ∨ seqOf b = 0) := fun hzero => hzero.elim hv.2.1 hv.2.2
    rw [Fw.handle, if_neg (by simp [hv.1]), if_neg hid]
    show ∃ r,
      Unmoved r s (if typeOf b = Msg.hello then s.countFrame.handleHello hw b else s.countFrame.handleRequest hw b)
    split
    · rename_i ht
      exact Fw.handleHello_refused hw ht h
    · rename_i ht
      exact Fw.handleRequest_refused hw ht h

/-- A request before any HELLO is refused. -/
theorem handle_refused_early : ∃ r, Unmoved r (setup {}) ((setup {}).handle {} (frame Msg.getStatus 7 1 [])) := by
  have hvalid : Valid (frame Msg.getStatus 7 1 []) := ⟨by decide +kernel, by decide +kernel, by decide +kernel⟩
  have hforeign : ¬ OfSession (setup {}) (frame Msg.getStatus 7 1 []) := fun h => absurd h.1 (by decide +kernel)
  exact (handle_refused (setup {}) {} (frame Msg.getStatus 7 1 [])).2 hvalid (.foreign (by decide) hforeign)

end LoraLink.Firmware
