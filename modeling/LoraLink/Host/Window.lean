import LoraLink.Host.Modem
import LoraLink.Lib.Path

/-!
# The command window

The transport allows one request at a time. `Window` is what matters of its state, and `Window.on` says how each
event changes it: this is the account of the transport that its results are about. `Allowed` lists what each event
needs, `Path` is a list of events each of which was allowed when it happened, and `Good` is what every path keeps.
-/

namespace LoraLink.Host

open LoraLink.Protocol

/-- The connection, the session and the one request that is waiting. -/
structure Window where
  connected : Bool := false
  handshake : Bool := false
  ready : Bool := false
  session : Nat
  sequence : Nat := 0
  /-- The request being written: sequence and type. -/
  writing : Option (Nat × Nat) := none
  /-- The request waiting for its response: sequence, type and time. -/
  pending : Option (Nat × Nat × ℚ) := none
  /-- The sends accepted, and those that the caller knows of. -/
  sends : List Nat := []
  returned : List Nat := []
  /-- How many payloads were too long for a frame. -/
  tooLong : Nat := 0
  /-- The outcomes taken, and those to be taken. -/
  taken : List Outcome := []
  outcomes : List Outcome := []

/-- The accounts of a window: the sends accepted, those returned, the payloads too long and the outcomes taken. -/
structure Books where
  sends : List Nat
  returned : List Nat
  tooLong : Nat
  taken : List Outcome

/-- The frames handled. -/
def framesIn (H : List Event) : List Frame := H.filterMap fun | .frame f => some f | _ => none

@[simp] theorem framesIn_append (H E : List Event) : framesIn (H ++ E) = framesIn H ++ framesIn E :=
  List.filterMap_append

namespace Window

/-- The fields that only a send, or taking the outcomes, changes. -/
def books (w : Window) : Books := ⟨w.sends, w.returned, w.tooLong, w.taken⟩

/-- The send that is waiting. -/
def pendingSend (w : Window) : Option Nat :=
  match w.pending with
  | some (sequence, typ, _) => if typ = Msg.radioSend then some sequence else none
  | none => none

/-- The request that is waiting leaves the table; a send gets the outcome given. -/
def settle (w : Window) (completed : Option Bool) : Window :=
  { w with pending := none, outcomes := w.outcomes ++ w.pendingSend.toList.map fun sequence => (sequence, completed) }

/-- A frame closes the window when it answers the request that is waiting. -/
def onFrame (w : Window) (f : Frame) : Window :=
  match w.pending with
  | none => w
  | some (sequence, typ, _) =>
    if f.session ≠ w.session ∨ f.sequence ≠ sequence then w
    else if f.msgType = Msg.info then
      if typ = Msg.hello then
        match parseInfo f.payload with
        | some info => { w with handshake := true, ready := decide (info.radioReady ≠ 0), pending := none }
        | none => w
      else w
    else if f.msgType = Msg.radioTxResult then
      if typ = Msg.radioSend then w.settle (some (parseTxResult f.payload).isSome) else w
    else if f.msgType = Msg.diagnostics then if typ = Msg.getDiagnostics then w.settle none else w
    else if f.msgType = Msg.error then
      match parseError f.payload with
      | some (_, _, failedType) => if failedType = typ then w.settle (some false) else w
      | none => w
    else w

def on (w : Window) : Event → Window
  | .opened => { w with connected := true }
  | .session s =>
    { w with session := s, sequence := 0, handshake := false, ready := false, writing := none, pending := none }
  | .lost => { w.settle none with connected := false, handshake := false, ready := false, writing := none }
  | .request typ _ sequence _ _ => { w with sequence := sequence, writing := some (sequence, typ) }
  | .unencodable sequence _ => { w with sequence := sequence, writing := none, tooLong := w.tooLong + 1 }
  | .accepted typ sequence started =>
    { w with
      pending := some (sequence, typ, started), writing := none
      sends := if typ = Msg.radioSend then w.sends ++ [sequence] else w.sends }
  | .frame f => w.onFrame f
  | .deadline now =>
    match w.pending with
    | some (_, _, started) => if now - started > 3 then w.settle none else w
    | none => w
  | .took outcomes => { w with taken := w.taken ++ outcomes, outcomes := [] }
  | .sent sequence => { w with returned := w.returned ++ [sequence] }
  | .wrote _ | .received _ | .refused | .raised _ => w

/-- The request of type `typ` may be sent: HELLO opens a session, and the others need its INFO. -/
def MayRequest (w : Window) (typ : Nat) : Prop :=
  (typ = Msg.hello ∧ w.sequence = 0 ∧ w.handshake = false) ∨
    (typ = Msg.radioSend ∧ w.handshake = true ∧ w.ready = true) ∨ (typ = Msg.getDiagnostics ∧ w.handshake = true)

theorem MayRequest.typ_le {w : Window} {typ : Nat} (h : w.MayRequest typ) : typ ≤ 255 := by
  rcases h with ⟨rfl, -⟩ | ⟨rfl, -⟩ | ⟨rfl, -⟩ <;> decide

/-- What an event needs. -/
def Allowed (w : Window) : Event → Prop
  | .opened => w.connected = false
  | .session s => 0 < s ∧ s ≤ Modem.maxSequence ∧ w.connected = true ∧ w.pendingSend = none
  | .request typ s sequence _ table =>
    table = [] ∧ w.connected = true ∧ w.pending = none ∧ s = w.session ∧ sequence = w.sequence + 1 ∧
      sequence ≤ Modem.maxSequence ∧ w.MayRequest typ
  | .unencodable sequence payload =>
    w.pending = none ∧ w.handshake = true ∧ maxUsbPayload < payload.length ∧ sequence = w.sequence + 1 ∧
      sequence ≤ Modem.maxSequence
  | .accepted typ sequence _ => w.writing = some (sequence, typ)
  | .sent sequence => w.sends = w.returned ++ [sequence]
  | .took outcomes => outcomes = w.outcomes
  | _ => True

/-- The window while the next request, of type `typ`, is being written. -/
def asked (w : Window) (typ : Nat) (payload : Bytes) : Window :=
  w.on (.request typ w.session (w.sequence + 1) payload [])

/-- What is true of the window at all times. -/
structure Good (w : Window) : Prop where
  session : 0 < w.session ∧ w.session ≤ Modem.maxSequence
  sequence : w.sequence ≤ Modem.maxSequence
  up : w.handshake = true → w.connected = true ∧ 0 < w.sequence
  ready : w.ready = true → w.handshake = true
  pending : ∀ sequence typ started, w.pending = some (sequence, typ, started) →
    w.connected = true ∧ sequence = w.sequence ∧
      ((typ = Msg.hello ∧ sequence = 1 ∧ w.handshake = false) ∨
        ((typ = Msg.radioSend ∨ typ = Msg.getDiagnostics) ∧ w.handshake = true))
  writing : ∀ sequence typ, w.writing = some (sequence, typ) →
    w.pending = none ∧ w.connected = true ∧ sequence = w.sequence ∧
      ((typ = Msg.hello ∧ sequence = 1 ∧ w.handshake = false) ∨
        ((typ = Msg.radioSend ∨ typ = Msg.getDiagnostics) ∧ w.handshake = true))
  /-- Every send accepted has one outcome, unless it is the one waiting. -/
  sends : w.sends = (w.taken ++ w.outcomes).map Prod.fst ++ w.pendingSend.toList

/-! ## Every event keeps the window good -/

variable {w : Window}

@[simp] theorem pendingSend_none (h : w.pending = none) : w.pendingSend = none := by rw [pendingSend, h]

theorem Good.settle (h : Good w) (completed : Option Bool) : Good (w.settle completed) := by
  refine ⟨h.session, h.sequence, h.up, h.ready, fun _ _ _ hp => by simp [Window.settle] at hp, fun q typ hw => ?_, ?_⟩
  · exact ⟨rfl, (h.writing q typ hw).2⟩
  · rw [pendingSend_none (w := w.settle completed) rfl]
    show w.sends = _
    rw [h.sends]
    cases hp : w.pendingSend <;> simp [Window.settle, hp]

theorem onFrame_session {f : Frame} (h : f.session ≠ w.session) : w.onFrame f = w := by
  rw [onFrame]
  cases w.pending with
  | none => rfl
  | some p => exact if_pos (Or.inl h)

/-- A frame of another type than those that answer a request. -/
theorem onFrame_type {f : Frame} (h : f.msgType ≠ Msg.info ∧ f.msgType ≠ Msg.radioTxResult ∧
    f.msgType ≠ Msg.diagnostics ∧ f.msgType ≠ Msg.error) : w.onFrame f = w := by
  rw [onFrame]
  cases w.pending with
  | none => rfl
  | some p =>
    obtain ⟨h1, h2, h3, h4⟩ := h
    simp only [if_neg h1, if_neg h2, if_neg h3, if_neg h4, ite_self]

theorem onFrame_unasked {f : Frame} (h : ¬ ∃ typ t, w.pending = some (f.sequence, typ, t)) : w.onFrame f = w := by
  rw [onFrame]
  cases hp : w.pending with
  | none => rfl
  | some p =>
    have hne : f.sequence ≠ p.1 := fun heq => h ⟨p.2.1, p.2.2, by rw [hp, heq]⟩
    exact if_pos (Or.inr hne)

/-- Everything a frame can do: nothing, or close the window, or end the handshake. -/
theorem onFrame_cases (w : Window) (f : Frame) :
    w.onFrame f = w ∨ (∃ completed, w.onFrame f = w.settle completed) ∨
      ∃ started info, w.pending = some (f.sequence, Msg.hello, started) ∧ f.session = w.session ∧
        f.msgType = Msg.info ∧ parseInfo f.payload = some info ∧
        w.onFrame f = { w with handshake := true, ready := decide (info.radioReady ≠ 0), pending := none } := by
  rw [onFrame]
  cases hp : w.pending with
  | none => exact Or.inl rfl
  | some p =>
    obtain ⟨q, typ, t⟩ := p
    simp only
    split
    · exact Or.inl rfl
    · rename_i hmatch
      simp only [not_or, not_not] at hmatch
      split
      · rename_i htype
        split
        · rename_i htyp
          split
          · rename_i info hinfo
            exact Or.inr (Or.inr ⟨t, info, by rw [hmatch.2, htyp], hmatch.1, htype, hinfo, rfl⟩)
          · exact Or.inl rfl
        · exact Or.inl rfl
      · repeat' split
        all_goals first | exact Or.inl rfl | exact Or.inr (Or.inl ⟨_, rfl⟩)

theorem deadline_cases (w : Window) (now : ℚ) :
    w.on (.deadline now) = w ∨ w.on (.deadline now) = w.settle none := by
  simp only [on]
  repeat' split
  all_goals first | exact Or.inl rfl | exact Or.inr rfl

/-- Neither a frame nor the clock changes the books. -/
theorem onFrame_books (f : Frame) : (w.onFrame f).books = w.books := by
  rcases w.onFrame_cases f with h | ⟨completed, h⟩ | ⟨_, _, _, _, _, _, h⟩ <;> rw [h] <;> rfl

theorem deadline_books (now : ℚ) : (w.on (.deadline now)).books = w.books := by
  rcases w.deadline_cases now with h | h
  · rw [h]
  · rw [h]
    rfl

theorem Good.onFrame (h : Good w) (f : Frame) : Good (w.onFrame f) := by
  rcases w.onFrame_cases f with hon | ⟨completed, hon⟩ | ⟨t, info, hp, hs, htype, hinfo, hon⟩
  · rwa [hon]
  · rw [hon]
    exact h.settle completed
  · obtain ⟨hup, hq, hcase⟩ := h.pending _ _ _ hp
    have hpos : 0 < w.sequence := by
      rcases hcase with ⟨-, h1, -⟩ | ⟨-, hs⟩
      · omega
      · exact (h.up hs).2
    have hnow : w.writing = none := by
      cases hw : w.writing with
      | none => rfl
      | some r => exact absurd ((h.writing r.1 r.2 hw).1.symm.trans hp) (by simp)
    have hsend : w.pendingSend = none := by simp [pendingSend, hp, Msg.hello, Msg.radioSend]
    have hsends := h.sends
    rw [hsend] at hsends
    rw [hon]
    exact ⟨h.session, h.sequence, fun _ => ⟨hup, hpos⟩, fun _ => rfl, by simp, by simp [hnow], hsends⟩

/-- Every event that is allowed keeps the window good. -/
theorem Good.on (h : Good w) {e : Event} (he : w.Allowed e) : Good (w.on e) := by
  cases e with
  | opened =>
    exact { h with up := fun hs => ⟨rfl, (h.up hs).2⟩, pending := fun q typ t hp => ⟨rfl, (h.pending q typ t hp).2⟩
                   writing := fun q typ hp => ⟨(h.writing q typ hp).1, rfl, (h.writing q typ hp).2.2⟩ }
  | session s =>
    obtain ⟨h1, h2, -, hsend⟩ := he
    refine ⟨⟨h1, h2⟩, by simp [Window.on,
      Modem.maxSequence], by simp [Window.on], by simp [Window.on], by simp [Window.on], by simp [Window.on], ?_⟩
    have hs := h.sends
    rw [hsend] at hs
    exact hs
  | lost =>
    have hs := h.settle none
    exact { hs with up := by simp [Window.on], ready := by simp [Window.on], pending := by simp [Window.on, Window.settle]
                    writing := by simp [Window.on] }
  | request typ s q payload table =>
    obtain ⟨-, hup, hnone, -, hq, hmax, hmay⟩ := he
    refine ⟨h.session, hmax, fun hs => ⟨(h.up hs).1, ?_⟩, h.ready, fun _ _ _ hp => ?_, fun q' typ' hw => ?_, h.sends⟩
    · show 0 < q
      omega
    · exact absurd (hnone.symm.trans hp) (by simp)
    · simp only [Window.on, Option.some.injEq, Prod.mk.injEq] at hw
      obtain ⟨rfl, rfl⟩ := hw
      refine ⟨hnone, hup, rfl, ?_⟩
      rcases hmay with ⟨ht, h0, hs⟩ | ⟨ht, hs, -⟩ | ⟨ht, hs⟩
      · exact Or.inl ⟨ht, by omega, hs⟩
      · exact Or.inr ⟨Or.inl ht, hs⟩
      · exact Or.inr ⟨Or.inr ht, hs⟩
  | unencodable q payload =>
    obtain ⟨hnone, hs, -, hq, hmax⟩ := he
    refine ⟨h.session, hmax, fun hs => ⟨(h.up hs).1, ?_⟩, h.ready, fun _ _ _ hp => ?_, by simp [Window.on], h.sends⟩
    · show 0 < q
      omega
    · exact absurd (hnone.symm.trans hp) (by simp)
  | accepted typ q t =>
    obtain ⟨hnone, hup, hq, hcase⟩ := h.writing q typ he
    refine ⟨h.session, h.sequence, h.up, h.ready, fun q' typ' t' hp => ?_, by simp [Window.on], ?_⟩
    · simp only [Window.on, Option.some.injEq, Prod.mk.injEq] at hp
      obtain ⟨rfl, rfl, rfl⟩ := hp
      exact ⟨hup, hq, hcase⟩
    · have hs := h.sends
      rw [pendingSend_none hnone] at hs
      by_cases ht : typ = Msg.radioSend
      · simp only [Window.on, ht, if_true, hs]
        simp [pendingSend]
      · simpa [Window.on, pendingSend, ht] using hs
  | frame f => exact h.onFrame f
  | deadline now =>
    rcases w.deadline_cases now with hon | hon <;> rw [hon]
    · exact h
    · exact h.settle none
  | took outs =>
    have hs := h.sends
    rw [← show outs = w.outcomes from he] at hs
    have hs' : w.sends = (w.taken ++ outs ++ []).map Prod.fst ++ w.pendingSend.toList := by rw [hs, List.append_nil]
    exact { h with sends := hs' }
  | sent => exact { h with }
  | wrote | received | refused | raised => exact h

/-! ## Paths -/

/-- A list of events from the window `w₀`, each allowed when it happened, and the window they lead to. -/
abbrev Path (w₀ : Window) : List Event → Window → Prop := LoraLink.Path Allowed on w₀

theorem Path.good {w₀ : Window} {es : List Event} (h : Path w₀ es w) (h₀ : Good w₀) : Good w :=
  h.inv h₀ fun _ _ hw he => hw.on he

theorem tooLong_on (w : Window) (e : Event) : w.tooLong ≤ (w.on e).tooLong := by
  cases e with
  | unencodable => exact Nat.le_succ _
  | frame f => exact (congrArg Books.tooLong (onFrame_books (w := w) f)).ge
  | deadline now => exact (congrArg Books.tooLong (deadline_books (w := w) now)).ge
  | opened | session | lost | wrote | request | accepted | received | took | sent | refused | raised =>
    exact Nat.le_refl _

theorem Path.tooLong_le {w₀ : Window} {es : List Event} (h : Path w₀ es w) : w₀.tooLong ≤ w.tooLong :=
  h.inv (P := fun v => w₀.tooLong ≤ v.tooLong) (Nat.le_refl _) fun v e hv _ => Nat.le_trans hv (tooLong_on v e)

end Window

end LoraLink.Host
