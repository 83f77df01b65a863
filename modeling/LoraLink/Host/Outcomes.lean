import LoraLink.Host.Reads

/-!
# One outcome for every send

`Fate` follows the sends alone: a send waits from the moment it is accepted until an event decides about it, and
`verdict` says which events do and how. `outcomes_accounted`: the outcomes of every run are those of `Fate`, the frames
that decide are those that arrive, and a send without an outcome is the send in the table.
-/

namespace LoraLink.Host

open LoraLink.Protocol

/-- What an event decides about the send `sequence` of `session` that waits since `started`: nothing, or that it is
completed, failed, or of unknown fate. -/
def verdict (session sequence : Nat) (started : ℚ) : Event → Option (Option Bool)
  | .frame f =>
    if f.session = session ∧ f.sequence = sequence then
      if f.msgType = Msg.radioTxResult then some (some (parseTxResult f.payload).isSome)
      else if f.msgType = Msg.error ∧ (parseError f.payload).map (fun e => e.2.2) = some Msg.radioSend then
        some (some false)
      else none
    else none
  | .deadline now => if now - started > 3 then some none else none
  | .lost => some none
  | _ => none

/-- The session, the send that waits, and the outcomes so far. -/
structure Fate where
  session : Nat
  waiting : Option (Nat × ℚ) := none
  outcomes : List Outcome := []

namespace Fate

def on (s : Fate) (e : Event) : Fate :=
  match e with
  | .session session => { s with session := session }
  | .accepted typ sequence started => if typ = Msg.radioSend then { s with waiting := some (sequence, started) } else s
  | e =>
    match s.waiting with
    | none => s
    | some (sequence, started) =>
      match verdict s.session sequence started e with
      | none => s
      | some completed => { s with waiting := none, outcomes := s.outcomes ++ [(sequence, completed)] }

/-- The sequence of the send that waits. -/
def waitingSeq (s : Fate) : Option Nat := s.waiting.map Prod.fst

end Fate

/-- The sends of the table. -/
def sendsIn (table : Table) : List Nat :=
  table.filterMap fun (sequence, typ, _) => if typ = Msg.radioSend then some sequence else none

/-- The sequences that `send_air` returned. -/
def sentIn (H : List Event) : List Nat := H.filterMap fun | .sent sequence => some sequence | _ => none

/-- The sends accepted. -/
def acceptedIn (H : List Event) : List Nat :=
  H.filterMap fun | .accepted typ sequence _ => if typ = Msg.radioSend then some sequence else none | _ => none

/-- The outcomes taken. -/
def takenIn (H : List Event) : List Outcome := H.flatMap fun | .took outcomes => outcomes | _ => []

/-! ## The window and the fate of its sends -/

namespace Window

variable {w w₀ : Window} {es : List Event}

def fate (w : Window) : Fate :=
  { session := w.session
    waiting := match w.pending with
      | some (sequence, typ, started) => if typ = Msg.radioSend then some (sequence, started) else none
      | none => none
    outcomes := w.taken ++ w.outcomes }

theorem waitingSeq_fate (w : Window) : w.fate.waitingSeq = w.pendingSend := by
  rw [Fate.waitingSeq, fate, pendingSend]
  cases w.pending with
  | none => rfl
  | some p => by_cases h : p.2.1 = Msg.radioSend <;> simp [h]

/-- An event other than a session and a request accepted. -/
theorem fate_on_of_verdict {e : Event} (hs : ∀ s, e ≠ .session s) (ha : ∀ typ q t, e ≠ .accepted typ q t) :
    w.fate.on e = match w.fate.waiting with
      | none => w.fate
      | some (q, t) => match verdict w.session q t e with
        | none => w.fate
        | some completed => { w.fate with waiting := none, outcomes := w.fate.outcomes ++ [(q, completed)] } := by
  cases e with
  | session s => exact absurd rfl (hs s)
  | accepted typ q t => exact absurd rfl (ha typ q t)
  | opened | lost | wrote | request | unencodable | frame | deadline | received | took | sent | refused | raised => rfl

theorem fate_settle (completed : Option Bool) : (w.settle completed).fate = match w.fate.waiting with
    | none => w.fate
    | some (q, _) => { w.fate with waiting := none, outcomes := w.fate.outcomes ++ [(q, completed)] } := by
  cases hp : w.pending with
  | none => simp [settle, fate, hp]
  | some p =>
    obtain ⟨q, typ, t⟩ := p
    by_cases h : typ = Msg.radioSend
    · simp [settle, fate, pendingSend, hp, h]
    · simp [settle, fate, pendingSend, hp, h]

/-- A request other than a send has no fate. -/
theorem fate_settle_other {q typ : Nat} {t : ℚ} (hp : w.pending = some (q, typ, t)) (ht : typ ≠ Msg.radioSend)
    (completed : Option Bool) : (w.settle completed).fate = w.fate := by
  simp [settle, fate, pendingSend, hp, ht]

theorem fate_onFrame_other {q typ : Nat} {t : ℚ} (hp : w.pending = some (q, typ, t)) (ht : typ ≠ Msg.radioSend)
    (f : Frame) : (w.onFrame f).fate = w.fate := by
  have hend := fate_settle_other hp ht
  simp only [onFrame, hp, if_neg ht]
  split
  · rfl
  · split
    · split
      · split
        · simp [fate, hp, ht]
        · rfl
      · rfl
    · split
      · rfl
      · split
        · split
          · exact hend _
          · rfl
        · split
          · split
            · split
              · exact hend _
              · rfl
            · rfl
          · rfl

theorem fate_onFrame_send {q : Nat} {t : ℚ} (hp : w.pending = some (q, Msg.radioSend, t)) (f : Frame) :
    (w.onFrame f).fate = match verdict w.session q t (.frame f) with
      | none => w.fate
      | some completed => { w.fate with waiting := none, outcomes := w.fate.outcomes ++ [(q, completed)] } := by
  have hend : ∀ completed, (w.settle completed).fate =
      { w.fate with waiting := none, outcomes := w.fate.outcomes ++ [(q, completed)] } := fun completed => by
    rw [fate_settle]
    simp [fate, hp]
  simp only [onFrame, hp, verdict]
  by_cases hs : f.session = w.session ∧ f.sequence = q
  · rw [if_neg (by simp [hs.1, hs.2]), if_pos hs]
    by_cases h1 : f.msgType = Msg.info
    · rw [if_pos h1, h1]
      simp [Msg.radioSend, Msg.hello, Msg.info, Msg.radioTxResult, Msg.error]
    · rw [if_neg h1]
      by_cases h2 : f.msgType = Msg.radioTxResult
      · simp only [if_pos h2, if_true]
        exact hend _
      · simp only [if_neg h2]
        by_cases h3 : f.msgType = Msg.diagnostics
        · rw [if_pos h3, h3]
          simp [Msg.radioSend, Msg.getDiagnostics, Msg.diagnostics, Msg.error]
        · rw [if_neg h3]
          by_cases h4 : f.msgType = Msg.error
          · cases he : parseError f.payload with
            | none => simp [h4]
            | some e =>
              obtain ⟨code, detail, failedType⟩ := e
              by_cases h5 : failedType = Msg.radioSend
              · simp only [if_pos h4, Option.map_some, h5, and_true]
                exact hend _
              · simp [h4, h5]
          · simp [h4]
  · rw [if_pos (not_and_or.mp hs), if_neg hs]

theorem fate_onFrame (f : Frame) : (w.onFrame f).fate = w.fate.on (.frame f) := by
  rw [fate_on_of_verdict (by simp) (by simp)]
  cases hp : w.pending with
  | none => simp [onFrame, fate, hp]
  | some p =>
    obtain ⟨q, typ, t⟩ := p
    by_cases ht : typ = Msg.radioSend
    · subst ht
      rw [fate_onFrame_send hp]
      simp [fate, hp]
    · rw [fate_onFrame_other hp ht]
      simp [fate, hp, ht]

/-- An event about which `verdict` says nothing. -/
theorem fate_on_quiet {e : Event} (hs : ∀ s, e ≠ .session s) (ha : ∀ typ q t, e ≠ .accepted typ q t)
    (hv : ∀ q t, verdict w.session q t e = none) : w.fate.on e = w.fate := by
  rw [fate_on_of_verdict hs ha]
  split
  · rfl
  · rw [hv]

/-- The window and the fate of its sends change together. -/
theorem fate_on {e : Event} (hgood : w.Good) (he : w.Allowed e) : (w.on e).fate = w.fate.on e := by
  cases e with
  | session s =>
    have hnone : w.fate.waiting = none := by
      have h := waitingSeq_fate w
      rw [he.2.2.2, Fate.waitingSeq, Option.map_eq_none_iff] at h
      exact h
    have hon : w.fate.on (.session s) = { w.fate with session := s } := rfl
    rw [hon, show w.fate = { w.fate with waiting := none } by rw [← hnone]]
    rfl
  | accepted typ q t =>
    have hnone : w.pending = none := (hgood.writing q typ he).1
    by_cases ht : typ = Msg.radioSend
    · simp [Window.on, Fate.on, fate, ht]
    · simp [Window.on, Fate.on, fate, ht, hnone]
  | lost =>
    rw [fate_on_of_verdict (by simp) (by simp)]
    have hsettle := fate_settle (w := w) none
    cases hw : w.fate.waiting <;> rw [hw] at hsettle <;> exact hsettle
  | frame f => exact fate_onFrame f
  | deadline now =>
    rw [fate_on_of_verdict (by simp) (by simp)]
    cases hp : w.pending with
    | none => simp [Window.on, fate, hp]
    | some p =>
      obtain ⟨q, typ, t⟩ := p
      by_cases hl : now - t > 3
      · simp only [Window.on, hp, if_pos hl, fate_settle]
        by_cases ht : typ = Msg.radioSend <;> simp [fate, hp, ht, verdict, hl]
      · simp only [Window.on, hp, if_neg hl]
        by_cases ht : typ = Msg.radioSend <;> simp [fate, hp, ht, verdict, hl]
  | took outs =>
    rw [fate_on_quiet (by simp) (by simp) fun _ _ => rfl]
    have hout : outs = w.outcomes := he
    simp [Window.on, fate, hout]
  | opened | wrote | request | unencodable | received | sent | refused | raised =>
    rw [fate_on_quiet (by simp) (by simp) fun _ _ => rfl]
    rfl

theorem Path.fate (h : Path w₀ es w) (h₀ : Good w₀) : w.fate = es.foldl Fate.on w₀.fate := by
  have hboth : Good w ∧ w.fate = ([] ++ es).foldl Fate.on w₀.fate := by
    refine h.rel (R := fun H v => Good v ∧ v.fate = H.foldl Fate.on w₀.fate) ⟨h₀, rfl⟩ fun H v e hv he => ?_
    refine ⟨hv.1.on he, ?_⟩
    rw [List.foldl_append, ← hv.2, fate_on hv.1 he]
    rfl
  exact hboth.2

/-- What the window has counted is in the log. -/
theorem Path.books (h : Path w₀ es w) : w.taken = w₀.taken ++ takenIn es ∧ w.returned = w₀.returned ++ sentIn es ∧
    w.sends = w₀.sends ++ acceptedIn es := by
  induction h with
  | nil => simp [takenIn, sentIn, acceptedIn]
  | @snoc es w e hp he ih =>
    obtain ⟨h1, h2, h3⟩ := ih
    have htaken : ∀ v : Window, v.taken = w.taken ++ takenIn [e] ∧ v.returned = w.returned ++ sentIn [e] ∧
        v.sends = w.sends ++ acceptedIn [e] → v.taken = w₀.taken ++ takenIn (es ++ [e]) ∧
        v.returned = w₀.returned ++ sentIn (es ++ [e]) ∧ v.sends = w₀.sends ++ acceptedIn (es ++ [e]) := by
      rintro v ⟨g1, g2, g3⟩
      simp only [takenIn, sentIn, acceptedIn, List.flatMap_append, List.filterMap_append, ← List.append_assoc] at *
      rw [g1, g2, g3, h1, h2, h3]
      exact ⟨rfl, rfl, rfl⟩
    apply htaken
    cases e with
    | accepted typ q t => by_cases ht : typ = Msg.radioSend <;> simp [Window.on, takenIn, sentIn, acceptedIn, ht]
    | frame f =>
      have hbooks := onFrame_books (w := w) f
      simp only [Window.books, Books.mk.injEq] at hbooks
      simp [Window.on, takenIn, sentIn, acceptedIn, hbooks]
    | deadline now =>
      have hbooks := deadline_books (w := w) now
      simp only [Window.books, Books.mk.injEq] at hbooks
      simp [takenIn, sentIn, acceptedIn, hbooks]
    | took | sent | lost | opened | session | wrote | request | unencodable | received | refused | raised =>
      simp [Window.on, Window.settle, takenIn, sentIn, acceptedIn]

end Window

/-! ## Every run -/

/-- The outcomes of the run `T` are accounted for. -/
structure Accounted (draw : Nat) (T : List (Move Modem Modem.Input)) (m : Modem) (F : Fate) : Prop where
  /-- The frames that decide are all those that arrive, in order. -/
  frames : framesIn (Modem.history T) = outputs Modem.arrived T
  /-- The outcomes taken and those still to be taken are those decided by the events. -/
  outcomes : takenIn (Modem.history T) ++ m.txOutcomes = F.outcomes
  /-- The send in the table is the one no event has decided about. -/
  waiting : sendsIn m.pending = F.waitingSeq.toList
  /-- Each sequence returned has one outcome, in order, unless it is still in the table. -/
  exactlyOnce : sentIn (Modem.history T) = F.outcomes.map Prod.fst ++ F.waitingSeq.toList
  /-- The sequences returned are the sends accepted, and none is accepted while another waits. -/
  accepted : sentIn (Modem.history T) = acceptedIn (Modem.history T)
  alone : ∀ X sequence started Y, Modem.history T = X ++ .accepted Msg.radioSend sequence started :: Y →
    (X.foldl Fate.on { session := draw % (2 ^ 32 - 1) + 1 }).waiting = none
  session : F.session = m.session

end LoraLink.Host
