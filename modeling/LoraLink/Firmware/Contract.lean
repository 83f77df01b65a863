import LoraLink.Firmware.Spec

/-!
# The request and response contract of the firmware

In a run whose sessions are all new, every frame that passes the integrity check is answered once: at once, or, for a
SEND that goes on air, when the transmission ends in the same session. A retry of the last request gets the same
response again.

- `Coherent`: the session rules keep the request, the response and the transmission together;
- `late_own`, `late_foreign`, `late_off`: what the radio offers after a transmission has started, by whether the
  running session started it;
- `step_saves_iff`: which requests are accepted;
- `kept_run`: a response stays kept until the next request is accepted.
-/

namespace LoraLink.Firmware

/-- The session values made active by the calls given. -/
def resets (cs : List Call) : List Nat := cs.filterMap fun | .resetSession ses => some ses | _ => none

/-- The calls of a move. -/
def callsOf (x : Move Fw Input) : List Call := x.after.calls

/-- The calls of a trace. -/
abbrev history (T : List (Move Fw Input)) : List Call := outputs callsOf T

/-- No HELLO of the trace makes a session active that was active before. -/
def NewSessions (T : List (Move Fw Input)) : Prop := (resets (history T)).Nodup

instance (T : List (Move Fw Input)) : Decidable (NewSessions T) := inferInstanceAs (Decidable (List.Nodup _))

/-- The call starts a transmission. -/
def Call.starts : Call → Bool
  | .startTransmit _ st => st == 0
  | _ => false

/-- The move starts a transmission. -/
def starts (x : Move Fw Input) : Bool := x.after.calls.any Call.starts

/-- The responses of a step of the radio tasks. -/
def radioResponses : Input → List Call → List Bytes
  | .handle _ _, _ => []
  | _, calls => responses calls

/-- The type of the response to a SEND whose transmission the input ends. -/
def Input.resultType : Input → UInt8
  | .radioTask hw => if hw.finishTransmit = radiolibErrNone then Msg.txok else Msg.err
  | _ => Msg.err

/-- The responses that the radio tasks offer before the next transmission starts. -/
def late : List (Move Fw Input) → List Bytes
  | [] => []
  | x :: T => if starts x then [] else radioResponses x.input x.after.calls ++ late T

/-- What the request `b` on air is owed by the moves that follow its start: a step that ends the transmission offers one
response, a success exactly when the driver reports one to the radio task; behind that step, or behind a change of the
session before it, the radio offers none. -/
def Owed (b : Bytes) : List (Move Fw Input) → Prop
  | [] => True
  | y :: T =>
    starts y = false ∧
    (y.input.changesSession y.before → radioResponses y.input y.after.calls = [] ∧ late T = []) ∧
    (y.input.endsTx y.before →
      (∃ r, radioResponses y.input y.after.calls = [r] ∧ Addressed r b ∧ typeOf r = y.input.resultType) ∧ late T = []) ∧
    (¬ y.input.changesSession y.before → ¬ y.input.endsTx y.before →
      radioResponses y.input y.after.calls = [] ∧ Owed b T)

@[simp] theorem resets_append (cs ds : List Call) : resets (cs ++ ds) = resets cs ++ resets ds :=
  List.filterMap_append

@[simp] theorem responses_append (cs ds : List Call) : responses (cs ++ ds) = responses cs ++ responses ds :=
  List.filterMap_append

/-! ## The invariant -/

/-- The request, the response and the transmission of a session belong together. -/
structure Coherent (s : Core) : Prop where
  last : s.active = true → s.session = sessionOf s.lastReq ∧ s.lastSeq = seqOf s.lastReq
  waiting : s.pending = true →
    s.rs = .transmitting ∧ s.active = true ∧ s.txSession = s.session ∧ s.txSeq = s.lastSeq ∧ s.haveLast = false
  answered : s.active = true → s.pending = false → s.haveLast = true

theorem Handled.coherent {s s' : Core} {b : Bytes} {calls : List Call} (h : Handled s b calls s') (hs : Coherent s) :
    Coherent s' := by
  cases h with
  | ignored | refused | replayed => exact hs
  | opened => exact ⟨fun _ => ⟨rfl, rfl⟩, by simp [Core.cache, Core.accept, Core.reset], fun _ _ => rfl⟩
  | answered hf =>
    refine ⟨fun _ => ⟨hf.session.symm, rfl⟩, fun hp => ?_, fun _ _ => rfl⟩
    exact absurd (hf.idle.symm.trans hp) (by simp)
  | failed hf => exact ⟨fun _ => ⟨hf.session.symm, rfl⟩, by simp [Core.cache, Core.settle], fun _ _ => rfl⟩
  | started hf => exact ⟨fun _ => ⟨hf.session.symm, rfl⟩, fun _ => ⟨rfl, hf.active, rfl, rfl, rfl⟩,
      fun _ hp => by simp [Core.onAir] at hp⟩

theorem Stepped.coherent {s s' : Core} {i : Input} {calls : List Call} (h : Stepped s i calls s') (hs : Coherent s) :
    Coherent s' := by
  cases h with
  | handled h => exact h.coherent hs
  | ended _ hair _ h =>
    cases h with
    | own => exact ⟨hs.last, by simp [Core.cache, Core.settle], fun _ _ => rfl⟩
    | foreign hno =>
      refine ⟨hs.last, fun hp => ?_, hs.answered⟩
      obtain ⟨-, hact, hses, -, -⟩ := hs.waiting hp
      exact absurd ⟨hact, hses.symm⟩ hno
  | quiet _ _ h =>
    rcases h with rfl | ⟨hair, rs, -, rfl⟩
    · exact hs
    · exact ⟨hs.last, fun hp => absurd (hs.waiting hp).1 hair, hs.answered⟩

/-- What holds besides after a history of new sessions: the running session started what is on air only if it waits
for it, and the kept response belongs to the last request. -/
structure Settled (H : List Call) (s : Core) : Prop where
  coherent : Coherent s
  seen : s.active = true → s.session ∈ resets H
  aired : s.rs = .transmitting → s.txSession ∈ resets H
  own : s.rs = .transmitting → s.active = true → s.session = s.txSession → s.pending = true
  kept : s.active = true → s.pending = false → Addressed s.lastResp s.lastReq

theorem Settled.mono {H : List Call} {s : Core} (h : Settled H s) (calls : List Call) : Settled (H ++ calls) s :=
  { h with
    seen := fun hact => by rw [resets_append]; exact List.mem_append_left _ (h.seen hact)
    aired := fun hair => by rw [resets_append]; exact List.mem_append_left _ (h.aired hair) }

theorem Handled.settled {H : List Call} {s s' : Core} {b : Bytes} {calls : List Call} (h : Handled s b calls s')
    (hs : Settled H s) (hnew : (resets (H ++ calls)).Nodup) : Settled (H ++ calls) s' := by
  have hco := h.coherent hs.coherent
  have hmono := hs.mono calls
  cases h with
  | ignored | refused | replayed => exact hmono
  | opened hv ht hl hne ha hr =>
    rw [resets_append] at hnew
    have hfresh : sessionOf b ∉ resets H := fun hin =>
      (List.nodup_append.mp hnew).2.2 _ hin _ (by simp [resets]) rfl
    refine ⟨hco, fun _ => ?_, hmono.aired, fun hair _ hses => ?_, fun _ _ => ha⟩
    · rw [resets_append]
      simp [Core.cache, Core.accept, Core.reset, resets]
    · have hses' : sessionOf b = s.txSession := hses
      exact absurd (hses' ▸ hs.aired hair) hfresh
  | answered hf ha =>
    refine ⟨hco, hmono.seen, hmono.aired, fun hair hact hses => ?_, fun _ _ => ha⟩
    exact absurd (hf.idle.symm.trans (hs.own hair hact hses)) (by simp)
  | failed hf hgo hst hrs ha =>
    exact ⟨hco, hmono.seen, fun hair => absurd hair hrs, fun hair => absurd hair hrs, fun _ _ => ha⟩
  | started hf =>
    exact ⟨hco, hmono.seen, fun _ => hmono.seen hf.active, fun _ _ _ => rfl, fun _ hp => by simp [Core.onAir] at hp⟩

/-- A response to the transmission that the running session waits for goes to the last request. -/
theorem Coherent.addressed {s : Core} (hs : Coherent s) (hp : s.pending = true) {r : Bytes}
    (ha : sessionOf r = s.session % 2 ^ 32 ∧ seqOf r = s.txSeq % 2 ^ 32) : Addressed r s.lastReq := by
  obtain ⟨-, hact, -, hseq, -⟩ := hs.waiting hp
  obtain ⟨hs', hq'⟩ := hs.last hact
  refine ⟨ha.1.trans ?_, ha.2.trans ?_⟩
  · rw [hs', Nat.mod_eq_of_lt (sessionOf_lt _)]
  · rw [hseq, hq', Nat.mod_eq_of_lt (seqOf_lt _)]

theorem Stepped.settled {H : List Call} {s s' : Core} {i : Input} {calls : List Call} (h : Stepped s i calls s')
    (hs : Settled H s) (hnew : (resets (H ++ calls)).Nodup) : Settled (H ++ calls) s' := by
  have hco := h.coherent hs.coherent
  have hmono := hs.mono calls
  cases h with
  | handled h => exact h.settled hs hnew
  | ended _ hair _ h =>
    cases h with
    | own hact hses hr ha hrs =>
      have hp := hs.own hair hact hses
      exact ⟨hco, hmono.seen, fun hair => absurd hair hrs, fun hair => absurd hair hrs,
        fun _ _ => hs.coherent.addressed hp ha⟩
    | foreign hno hrs =>
      exact ⟨hco, hmono.seen, fun hair => absurd hair hrs, fun hair => absurd hair hrs, hmono.kept⟩
  | quiet _ _ h =>
    rcases h with rfl | ⟨hair, rs, hrs, rfl⟩
    · exact hmono
    · exact ⟨hco, hmono.seen, fun hair => absurd hair hrs, fun hair => absurd hair hrs, hmono.kept⟩

theorem setup_settled (d : Board) : Settled [] (setup d).core := by
  obtain ⟨rs, ready, hrs, hcore⟩ := setup_core d
  rw [hcore]
  exact ⟨⟨by simp, by simp, by simp⟩, by simp, fun hair => absurd hair hrs, fun hair => absurd hair hrs, by simp⟩

/-- In a run of new sessions everything belongs together before every step. -/
theorem settled_before {d : Board} {is : List Input} {T₁ T₂ : List (Move Fw Input)} {x : Move Fw Input}
    (h : trace step (setup d) is = T₁ ++ x :: T₂) (hnew : NewSessions (trace step (setup d) is)) :
    Settled (history T₁) x.before.core := by
  have hfront : (resets (history T₁)).Nodup := by
    rw [NewSessions, h, history, outputs_append, resets_append] at hnew
    exact (List.nodup_append.mp hnew).1
  refine @trace_rel _ _ step _ callsOf (fun H s => (resets H).Nodup → Settled H s.core) (fun _ => True) _
    (fun _ => setup_settled d) (fun H i s ih _ hn => ?_) _ _ _ _ h (fun _ _ => trivial) hfront
  refine (step_spec i s).settled (ih ?_) hn
  rw [resets_append] at hn
  exact (List.nodup_append.mp hn).1

/-! ## What the radio offers after a transmission has started -/

/-- A frame starts a transmission only when nothing is on air. -/
theorem Handled.starts_or {s s' : Core} {b : Bytes} {calls : List Call} (h : Handled s b calls s') :
    (calls.any Call.starts = true ∧ s.rs ≠ .transmitting) ∨
      (calls.any Call.starts = false ∧ (s.rs ≠ .transmitting → s'.rs ≠ .transmitting)) := by
  cases h with
  | ignored | refused | replayed | opened | answered => exact Or.inr ⟨rfl, id⟩
  | failed _ _ hst hrs => exact Or.inr ⟨by simp [Call.starts, hst], fun _ => hrs⟩
  | started _ hgo => exact Or.inl ⟨rfl, hgo.free⟩

theorem radioResponses_of_ne {i : Input} (hi : ∀ hw b, i ≠ .handle hw b) (calls : List Call) :
    radioResponses i calls = responses calls := by
  cases i with
  | handle hw b => exact absurd rfl (hi hw b)
  | isr | radioTask | txWatchdog | flush => rfl

/-- The calls of the end of a transmission start none. -/
theorem Ended.starts {s s' : Core} {e : Call} {calls : List Call} (he : IsEnd e) (h : Ended s e calls s') :
    calls.any Call.starts = false := by
  rcases he with rfl | ⟨st, rfl⟩ <;> cases h <;> rfl

/-- The calls of a step that neither takes a frame nor ends a transmission. -/
theorem quiet_calls {calls : List Call}
    (h : calls = [] ∨ (∃ e, calls = [.putQ e true]) ∨ ∃ bs, calls = [.serialWrite bs]) :
    calls.any Call.starts = false ∧ responses calls = [] ∧ resets calls = [] := by
  rcases h with rfl | ⟨e, rfl⟩ | ⟨bs, rfl⟩ <;> exact ⟨rfl, rfl, rfl⟩

/-- The transmission on air is for another session than the running one. -/
structure Foreign (s : Core) : Prop where
  air : s.rs = .transmitting
  active : s.active = true
  other : s.session ≠ s.txSession

/-- The running session waits for the transmission on air. -/
structure Own (s : Core) : Prop where
  air : s.rs = .transmitting
  pending : s.pending = true

section Steps

variable {s s' : Core} {i : Input} {calls : List Call}

theorem Stepped.off (h : Stepped s i calls s') (hs : s.rs ≠ .transmitting) :
    calls.any Call.starts = true ∨
      (calls.any Call.starts = false ∧ radioResponses i calls = [] ∧ s'.rs ≠ .transmitting) := by
  cases h with
  | handled h =>
    rcases h.starts_or with ⟨hstart, -⟩ | ⟨hno, hrs⟩
    · exact Or.inl hstart
    · exact Or.inr ⟨hno, rfl, hrs hs⟩
  | ended _ hair => exact absurd hair hs
  | quiet hi hcalls h =>
    obtain ⟨hno, hres, -⟩ := quiet_calls hcalls
    refine Or.inr ⟨hno, by rw [radioResponses_of_ne hi, hres], ?_⟩
    rcases h with rfl | ⟨-, rs, hrs, rfl⟩
    · exact hs
    · exact hrs

theorem Stepped.foreign (h : Stepped s i calls s') (hs : Foreign s) (hnew : s.txSession ∉ resets calls) :
    calls.any Call.starts = false ∧ radioResponses i calls = [] ∧ s'.txSession = s.txSession ∧
      (Foreign s' ∨ s'.rs ≠ .transmitting) := by
  cases h with
  | handled h =>
    cases h with
    | ignored | refused | replayed => exact ⟨rfl, rfl, rfl, Or.inl hs⟩
    | opened =>
      exact ⟨rfl, rfl, rfl, Or.inl ⟨hs.air, rfl, fun hses => hnew (List.mem_cons.mpr (Or.inl hses.symm))⟩⟩
    | answered => exact ⟨rfl, rfl, rfl, Or.inl ⟨hs.air, hs.active, hs.other⟩⟩
    | failed _ hgo => exact absurd hs.air hgo.free
    | started _ hgo => exact absurd hs.air hgo.free
  | ended hi _ he h =>
    refine ⟨h.starts he, ?_⟩
    rw [radioResponses_of_ne hi]
    cases h with
    | own _ hses => exact absurd hses hs.other
    | foreign _ hrs => exact ⟨by rcases he with rfl | ⟨st, rfl⟩ <;> rfl, rfl, Or.inr hrs⟩
  | quiet hi hcalls h =>
    obtain ⟨hno, hres, -⟩ := quiet_calls hcalls
    refine ⟨hno, by rw [radioResponses_of_ne hi, hres], ?_⟩
    rcases h with rfl | ⟨hair, -⟩
    · exact ⟨rfl, Or.inl hs⟩
    · exact absurd hs.air hair

/-- A frame that does not change the session, while the running session waits. -/
theorem Handled.own {b : Bytes} (h : Handled s b calls s') (hs : Own s)
    (hsame : ¬ (Valid b ∧ typeOf b = Msg.hello ∧ lengthOf b = 0 ∧ (s.active = false ∨ sessionOf b ≠ s.session))) :
    calls.any Call.starts = false ∧ s' = s := by
  have hwait : ¬ Fresh s b := fun hf => Bool.noConfusion (hf.idle.symm.trans hs.pending)
  cases h with
  | ignored | refused | replayed => exact ⟨rfl, rfl⟩
  | opened hv ht hl hne => exact absurd ⟨hv, ht, hl, hne⟩ hsame
  | answered hf | failed hf | started hf => exact absurd hf hwait

/-- The end of the transmission that the running session waits for. -/
theorem Ended.own_reply {e : Call} (h : Ended s e calls s') (hco : Coherent s) (hs : Own s) :
    ∃ r rs, calls = [e, .putQ r false] ∧ Addressed r s.lastReq ∧ typeOf r = resultType e ∧ rs ≠ RS.transmitting ∧
      s' = ((s.offAir rs).settle).cache r := by
  obtain ⟨-, hact, hses, -, -⟩ := hco.waiting hs.pending
  cases h with
  | own _ _ hr ha hrs => exact ⟨_, _, rfl, hco.addressed hs.pending ha, hr.2, hrs, rfl⟩
  | foreign hno => exact absurd ⟨hact, hses.symm⟩ hno

end Steps

theorem resultType_ending {i : Input} {s : Fw} (h : i.endsTx s) : resultType i.ending = i.resultType := by
  cases i with
  | radioTask hw =>
    by_cases hst : hw.finishTransmit = radiolibErrNone
    · exact (if_pos (congrArg Call.finishTransmit hst)).trans (if_pos hst).symm
    · exact (if_neg fun h => hst (Call.finishTransmit.inj h)).trans (if_neg hst).symm
  | txWatchdog hw => rfl
  | handle | isr | flush => exact absurd h id

/-- What a step does while the running session waits: nothing to it, or it changes the session, or it ends the
transmission and answers the request. -/
inductive OwnStep (i : Input) (s t : Fw) : Prop
  | waits (hsame : ¬ i.changesSession s) (hair : ¬ i.endsTx s) (hnone : radioResponses i t.calls = [])
      (hcore : t.core = s.core)
  | changes {b : Bytes} (h : i.changesSession s) (hnone : radioResponses i t.calls = []) (hsaved : .saveReq b ∈ t.calls)
      (hforeign : Foreign t.core) (htx : t.core.txSession = s.core.txSession)
  | ends {r : Bytes} {rs : RS} (h : i.endsTx s) (hone : radioResponses i t.calls = [r])
      (haddr : Addressed r s.core.lastReq) (htype : typeOf r = i.resultType) (hrs : rs ≠ .transmitting)
      (hcore : t.core = ((s.core.offAir rs).settle).cache r)

theorem step_own {i : Input} {s : Fw} (hco : Coherent s.core) (hs : Own s.core)
    (hnew : s.core.txSession ∉ resets (step i s).calls) :
    (step i s).calls.any Call.starts = false ∧ OwnStep i s (step i s) := by
  by_cases hends : i.endsTx s
  · have hended := step_ended hends
    have hi : ∀ hw b, i ≠ .handle hw b := by
      rintro hw b rfl
      exact hends
    obtain ⟨r, rs, hcalls, haddr, htype, hrs, hcore⟩ := hended.own_reply hco hs
    refine ⟨hended.starts i.isEnd_ending, .ends hends ?_ haddr (htype.trans (resultType_ending hends)) hrs hcore⟩
    rw [radioResponses_of_ne hi, hcalls]
    rcases i.isEnd_ending with he | ⟨st, he⟩ <;> rw [he] <;> rfl
  by_cases hchange : i.changesSession s
  · obtain ⟨b, r, -, hcalls, hcore⟩ := step_opens hchange
    rw [hcalls] at hnew ⊢
    have hother : sessionOf b ≠ s.core.txSession := fun h => hnew (List.mem_cons.mpr (Or.inl h.symm))
    refine ⟨rfl, .changes (b := b) hchange ?_ (by rw [hcalls]; simp) ?_ (by rw [hcore]; rfl)⟩
    · cases i with
      | handle => rfl
      | isr | radioTask | txWatchdog | flush => exact absurd hchange id
    · rw [hcore]
      exact ⟨hs.air, rfl, hother⟩
  generalize hcalls : (step i s).calls = calls
  have hstep : Stepped s.core i calls (step i s).core := hcalls ▸ step_spec i s
  have hno : ∀ e, IsEnd e → e ∉ calls := fun e he hmem => hends (endsTx_of_end (hcalls ▸ hmem) he)
  generalize hcore : (step i s).core = c at hstep
  suffices h : calls.any Call.starts = false ∧ radioResponses i calls = [] ∧ c = s.core by
    exact ⟨h.1, .waits hchange hends (hcalls ▸ h.2.1) (hcore.trans h.2.2)⟩
  cases hstep with
  | handled h =>
    obtain ⟨hstarts, hsame⟩ := h.own hs hchange
    exact ⟨hstarts, rfl, hsame⟩
  | @ended _ e _ _ hi _ he h =>
    obtain ⟨r, rs, rfl, -⟩ := h.own_reply hco hs
    exact absurd List.mem_cons_self (hno e he)
  | quiet hi hquiet h =>
    obtain ⟨hstarts, hres, -⟩ := quiet_calls hquiet
    refine ⟨hstarts, by rw [radioResponses_of_ne hi, hres], ?_⟩
    rcases h with rfl | ⟨hoff, -⟩
    · rfl
    · exact absurd hs.air hoff

/-- Off air: the radio offers no response before the next transmission. -/
theorem late_off (is : List Input) : ∀ {s : Fw}, s.core.rs ≠ .transmitting → late (trace step s is) = [] := by
  induction is with
  | nil => exact fun _ => rfl
  | cons i is ih =>
    intro s hs
    rw [trace, late, starts]
    rcases (step_spec i s).off hs with hstart | ⟨hno, hres, hrs⟩
    · rw [if_pos hstart]
    · simp only [hno, hres, ih hrs]
      rfl

/-- On air for another session than the running one, which no HELLO brings back: no response. -/
theorem late_foreign (is : List Input) : ∀ {s : Fw}, Foreign s.core →
    s.core.txSession ∉ resets (history (trace step s is)) → late (trace step s is) = [] := by
  induction is with
  | nil => exact fun _ _ => rfl
  | cons i is ih =>
    intro s hs hnew
    rw [trace] at hnew ⊢
    rw [history, outputs_cons, resets_append, List.mem_append, not_or] at hnew
    obtain ⟨hno, hres, hsame, hnext⟩ := (step_spec i s).foreign hs hnew.1
    rw [late, starts]
    simp only [hno, hres]
    rcases hnext with hs' | hoff
    · exact ih hs' (hsame ▸ hnew.2)
    · exact late_off is hoff

/-- On air for the running session: it is owed one response, unless the session changes. -/
theorem late_own (is : List Input) : ∀ {s : Fw} {H : List Call}, Settled H s.core → Own s.core →
    (resets (H ++ history (trace step s is))).Nodup → Owed s.core.lastReq (trace step s is) := by
  induction is with
  | nil => exact fun _ _ _ => trivial
  | cons i is ih =>
    intro s H hset hs hnew
    rw [trace] at hnew ⊢
    rw [history, outputs_cons] at hnew
    have hback : s.core.txSession ∉ resets (callsOf ⟨s, i, step i s⟩ ++ history (trace step (step i s) is)) := fun h => by
      rw [resets_append] at hnew
      exact (List.nodup_append.mp hnew).2.2 _ (hset.aired hs.air) _ h rfl
    rw [resets_append, List.mem_append, not_or] at hback
    obtain ⟨hno, hcase⟩ := step_own hset.coherent hs hback.1
    refine ⟨hno, ?_⟩
    cases hcase with
    | waits hsame hair hnone hcore =>
      refine ⟨fun h => absurd h hsame, fun h => absurd h hair, fun _ _ => ⟨hnone, ?_⟩⟩
      have hnext := ih (hcore ▸ hset.mono (step i s).calls) (hcore ▸ hs) (by rw [List.append_assoc]; exact hnew)
      rw [hcore] at hnext
      exact hnext
    | changes h hnone _ hforeign htx =>
      refine ⟨fun _ => ⟨hnone, late_foreign is hforeign (htx ▸ hback.2)⟩, fun hends => ?_, fun hsame _ => absurd h hsame⟩
      exact absurd hends (Input.not_endsTx_of_changesSession h)
    | ends h hone haddr htype hrs hcore =>
      refine ⟨fun hchange => absurd h (Input.not_endsTx_of_changesSession hchange), fun _ => ?_,
        fun _ hair => absurd h hair⟩
      exact ⟨⟨_, hone, haddr, htype⟩, late_off is (by rw [hcore]; exact hrs)⟩

/-! ## The kept response -/

/-- The response `r` is kept for a retry of `b`, the last request of the running session. -/
structure Kept (s : Core) (b r : Bytes) : Prop where
  active : s.active = true
  session : s.session = sessionOf b
  seq : s.lastSeq = seqOf b
  idle : s.pending = false
  haveLast : s.haveLast = true
  req : s.lastReq = b
  resp : s.lastResp = r

/-- What an accepted request leaves: its response is kept, or it is on air. -/
theorem Handled.saved {s s' : Core} {b c : Bytes} {calls : List Call} (h : Handled s b calls s')
    (hc : .saveReq c ∈ calls) : c = b ∧ Valid b ∧ (typeOf b = Msg.hello → lengthOf b = 0) ∧
      ((∃ r, responses calls = [r] ∧ calls.any Call.starts = false ∧ Kept s' b r) ∨
        (calls.any Call.starts = true ∧ responses calls = [] ∧ Own s' ∧ s'.lastReq = b)) := by
  cases h with
  | ignored | refused | replayed => simp at hc
  | @opened r hv ht hl =>
    exact ⟨by simpa using hc, hv, fun _ => hl, Or.inl ⟨r, rfl, rfl, ⟨rfl, rfl, rfl, rfl, rfl, rfl, rfl⟩⟩⟩
  | @answered r hf =>
    exact ⟨by simpa using hc, hf.valid, hf.empty,
      Or.inl ⟨r, rfl, rfl, ⟨hf.active, hf.session.symm, rfl, hf.idle, rfl, rfl, rfl⟩⟩⟩
  | @failed r packet st _ hf _ hst =>
    have hno : ([.saveReq b, .startTransmit packet st, .putQ r false] : List Call).any Call.starts = false := by
      simp [Call.starts, hst]
    exact ⟨by simpa using hc, hf.valid, hf.empty,
      Or.inl ⟨r, rfl, hno, ⟨hf.active, hf.session.symm, rfl, rfl, rfl, rfl, rfl⟩⟩⟩
  | started hf => exact ⟨by simpa using hc, hf.valid, hf.empty, Or.inr ⟨rfl, rfl, ⟨rfl, rfl⟩, rfl⟩⟩

theorem Stepped.kept {H : List Call} {s s' : Core} {i : Input} {calls : List Call} {b r : Bytes}
    (h : Stepped s i calls s') (hset : Settled H s) (hs : Kept s b r) (hno : ∀ c, .saveReq c ∉ calls) :
    Kept s' b r := by
  cases h with
  | @handled _ c _ _ h =>
    cases h with
    | ignored | refused | replayed => exact hs
    | opened | answered | failed | started => exact absurd (by simp) (hno c)
  | ended _ hair _ h =>
    cases h with
    | own hact hses => exact Bool.noConfusion (hs.idle.symm.trans (hset.own hair hact hses))
    | foreign => exact { hs with }
  | quiet _ _ h =>
    rcases h with rfl | ⟨-, rs, -, rfl⟩
    · exact hs
    · exact { hs with }

/-- Only a frame makes the firmware keep a request. -/
theorem Stepped.saved {s s' : Core} {i : Input} {calls : List Call} {c : Bytes} (h : Stepped s i calls s')
    (hc : .saveReq c ∈ calls) : ∃ hw, i = .handle hw c ∧ Handled s c calls s' := by
  cases h with
  | @handled hw b _ _ h =>
    obtain ⟨rfl, -⟩ := h.saved hc
    exact ⟨hw, rfl, h⟩
  | ended _ _ he h => rcases he with rfl | ⟨st, rfl⟩ <;> cases h <;> simp at hc
  | quiet _ hcalls => rcases hcalls with rfl | ⟨e, rfl⟩ | ⟨bs, rfl⟩ <;> simp at hc

/-- Exactly what is accepted is kept as the last request. -/
theorem step_saves_iff {hw : Hw} {b : Bytes} {s : Fw} :
    .saveReq b ∈ (step (.handle hw b) s).calls ↔ Accepts s.core b := by
  refine ⟨fun h => ?_, step_saves⟩
  obtain ⟨-, -, hh⟩ := (step_spec (.handle hw b) s).saved h
  generalize (step (.handle hw b) s).calls = calls at h hh
  generalize (step (.handle hw b) s).core = s' at hh
  cases hh with
  | ignored | refused | replayed => simp at h
  | opened hv ht hl hnew => exact Or.inl ⟨hv, ht, hl, hnew⟩
  | answered hf | failed hf | started hf => exact Or.inr hf

/-- A response stays kept until the next request is accepted. -/
theorem kept_run {b r : Bytes} (is : List Input) : ∀ {s : Fw} {H : List Call}, Settled H s.core → Kept s.core b r →
    (resets (H ++ history (trace step s is))).Nodup → (∀ c, .saveReq c ∉ history (trace step s is)) →
    Kept (run step s is).core b r := by
  induction is with
  | nil => exact fun _ hs _ _ => hs
  | cons i is ih =>
    intro s H hset hs hnew hno
    rw [trace, history, outputs_cons] at hnew hno
    simp only [List.mem_append, not_or, callsOf] at hnew hno
    rw [← List.append_assoc] at hnew
    have hfirst : (resets (H ++ (step i s).calls)).Nodup := by
      rw [resets_append] at hnew
      exact (List.nodup_append.mp hnew).1
    have hstep := step_spec i s
    exact ih (hstep.settled hset hfirst) (hstep.kept hset hs fun c => (hno c).1) hnew fun c => (hno c).2

/-- The response to the request on air is kept from the end of its transmission on. -/
theorem kept_own (is : List Input) : ∀ {s : Fw} {H : List Call}, Settled H s.core → Own s.core →
    (resets (H ++ history (trace step s is))).Nodup → (∀ c, .saveReq c ∉ history (trace step s is)) →
    (run step s is).core.pending = false →
    ∃ r, late (trace step s is) = [r] ∧ Kept (run step s is).core s.core.lastReq r := by
  induction is with
  | nil => exact fun _ hs _ _ hidle => Bool.noConfusion (hidle.symm.trans hs.pending)
  | cons i is ih =>
    intro s H hset hs hnew hno hidle
    rw [trace, history, outputs_cons] at hnew hno
    simp only [List.mem_append, not_or, callsOf] at hnew hno
    rw [← List.append_assoc] at hnew
    have hfirst : (resets (H ++ (step i s).calls)).Nodup := by
      rw [resets_append] at hnew
      exact (List.nodup_append.mp hnew).1
    have hback : s.core.txSession ∉ resets (step i s).calls := fun h => by
      rw [resets_append] at hfirst
      exact (List.nodup_append.mp hfirst).2.2 _ (hset.aired hs.air) _ h rfl
    have hstep := step_spec i s
    obtain ⟨hstarts, hcase⟩ := step_own hset.coherent hs hback
    rw [trace, late, starts]
    simp only [hstarts]
    cases hcase with
    | waits _ _ hnone hcore =>
      obtain ⟨r, hr, hkept⟩ := ih (hcore ▸ hset.mono (step i s).calls) (hcore ▸ hs) hnew (fun c => (hno c).2) hidle
      exact ⟨r, by simp [hnone, hr], hcore ▸ hkept⟩
    | changes _ _ hsaved => exact absurd hsaved (hno _).1
    | @ends r _ _ hone haddr _ hrs hcore =>
      have hoff : (step i s).core.rs ≠ .transmitting := by rw [hcore]; exact hrs
      obtain ⟨-, hact, -⟩ := hset.coherent.waiting hs.pending
      obtain ⟨hses, hseq⟩ := hset.coherent.last hact
      have hkept : Kept (step i s).core s.core.lastReq r := by
        rw [hcore]
        exact ⟨hact, hses, hseq, rfl, rfl, rfl, rfl⟩
      exact ⟨r, by simp [hone, late_off is hoff],
        kept_run is (hstep.settled hset hfirst) hkept hnew fun c => (hno c).2⟩

/-! ## The contract -/

/-- A valid frame is answered at once, or it goes on air. -/
theorem Handled.answer {H : List Call} {s s' : Core} {b : Bytes} {calls : List Call} (h : Handled s b calls s')
    (hset : Settled H s) (hv : Valid b) :
    (calls.any Call.starts = false ∧ ∃ r, responses calls = [r] ∧ Addressed r b) ∨
      (calls.any Call.starts = true ∧ IsSend b ∧ responses calls = [] ∧ Own s' ∧ s'.lastReq = b) := by
  cases h with
  | ignored hno => exact absurd hv hno
  | refused _ ha | opened _ _ _ _ ha | answered _ ha => exact Or.inl ⟨rfl, _, rfl, ha⟩
  | replayed _ hact _ _ hidle _ hb => exact Or.inl ⟨rfl, _, rfl, hb ▸ hset.kept hact hidle⟩
  | failed _ _ hst _ ha => exact Or.inl ⟨by simp [Call.starts, hst], _, rfl, ha⟩
  | started _ hgo => exact Or.inr ⟨rfl, hgo.send, rfl, ⟨rfl, rfl⟩, rfl⟩

section Runs

variable {d : Board} {is : List Input} {T₁ T₂ : List (Move Fw Input)} {x : Move Fw Input}

/-- A run of new sessions, cut at a move: what holds before the move and behind it. -/
theorem settled_move (h : trace step (setup d) is = T₁ ++ x :: T₂) (hnew : NewSessions (trace step (setup d) is)) :
    Stepped x.before.core x.input x.after.calls x.after.core ∧ Settled (history T₁) x.before.core ∧
      Settled (history T₁ ++ x.after.calls) x.after.core ∧
      (resets ((history T₁ ++ x.after.calls) ++ history T₂)).Nodup := by
  have hset := settled_before h hnew
  obtain ⟨-, -, -, -, -, hafter, -⟩ := trace_split h
  have hstep := step_spec x.input x.before
  rw [← hafter] at hstep
  have hnodup : (resets ((history T₁ ++ x.after.calls) ++ history T₂)).Nodup := by
    rw [NewSessions, h, history, outputs_append, outputs_cons] at hnew
    rw [List.append_assoc]
    exact hnew
  have hfirst : (resets (history T₁ ++ x.after.calls)).Nodup := by
    rw [resets_append] at hnodup
    exact (List.nodup_append.mp hnodup).1
  exact ⟨hstep, hset, hstep.settled hset hfirst, hnodup⟩

/-- A valid frame is answered at once, or it is a SEND that goes on air and is owed one response. -/
theorem answered_once (h : trace step (setup d) is = T₁ ++ x :: T₂) (hnew : NewSessions (trace step (setup d) is))
    {hw : Hw} {b : Bytes} (hx : x.input = .handle hw b) (hv : Valid b) :
    (starts x = false ∧ ∃ r, responses x.after.calls = [r] ∧ Addressed r b) ∨
      (starts x = true ∧ IsSend b ∧ responses x.after.calls = [] ∧ Owed b T₂) := by
  obtain ⟨hstep, hset, hnext, hnodup⟩ := settled_move h hnew
  obtain ⟨-, post, -, -, -, -, rfl⟩ := trace_split h
  rw [hx] at hstep
  have hh : Handled x.before.core b x.after.calls x.after.core := by
    generalize x.after.calls = calls at hstep
    cases hstep with
    | handled hh => exact hh
    | ended hi | quiet hi => exact absurd rfl (hi hw b)
  rcases hh.answer hset hv with hnow | ⟨hstart, hsend, hnone, hown, hreq⟩
  · exact Or.inl hnow
  · have howed := late_own post hnext hown hnodup
    rw [hreq] at howed
    exact Or.inr ⟨hstart, hsend, hnone, howed⟩

/-- A retry of the last accepted request gets its response again, and does nothing else. -/
theorem retry_response (h : trace step (setup d) is = T₁ ++ x :: T₂) (hnew : NewSessions (trace step (setup d) is))
    {b : Bytes} (hb : .saveReq b ∈ x.after.calls) (hlast : ∀ c, .saveReq c ∉ history T₂)
    (hidle : (run step (setup d) is).pending = false) :
    ∃ r, responses x.after.calls ++ (if starts x then late T₂ else []) = [r] ∧
      ∀ hw, (step (.handle hw b) (run step (setup d) is)).calls = [.putQ r false] ∧
        (step (.handle hw b) (run step (setup d) is)).core = (run step (setup d) is).core := by
  obtain ⟨hstep, -, hnext, hnodup⟩ := settled_move h hnew
  obtain ⟨pre, post, rfl, -, hbefore, hafter, rfl⟩ := trace_split h
  have hfinal : run step (setup d) (pre ++ x.input :: post) = run step x.after post := by
    rw [run_append, run, ← hbefore, ← hafter]
  rw [hfinal] at hidle ⊢
  obtain ⟨hw, -, hh⟩ := hstep.saved hb
  obtain ⟨-, hv, hl, hcase⟩ := hh.saved hb
  -- the response is kept at the end, whether it was offered at once or late
  have hkept : ∃ r, responses x.after.calls ++ (if starts x then late (trace step x.after post) else []) = [r] ∧
      Kept (run step x.after post).core b r := by
    rcases hcase with ⟨r, hr, hno, hk⟩ | ⟨hstart, hnone, hown, hreq⟩
    · exact ⟨r, by simp [hr, starts, hno], kept_run post hnext hk hnodup hlast⟩
    · obtain ⟨r, hr, hk⟩ := kept_own post hnext hown hnodup hlast hidle
      exact ⟨r, by simp [hnone, starts, hstart, hr], hreq ▸ hk⟩
  obtain ⟨r, hr, hk⟩ := hkept
  refine ⟨r, hr, fun hw => ?_⟩
  have hagain := Fw.handle_again (s := { run step x.after post with calls := [] }) hw hv hl hk.active hk.session.symm
    hk.seq.symm hk.idle hk.haveLast hk.req.symm
  have hresp : ({ run step x.after post with calls := [] } : Fw).core.lastResp = r := hk.resp
  rw [hresp] at hagain
  exact hagain

end Runs

/-- The contract that a run keeps. -/
structure Contract (d : Board) (is : List Input) : Prop where
  /-- Before the first transmission the radio offers no response. -/
  quiet : late (trace step (setup d) is) = []
  /-- A valid frame gets one response: at once, or when its transmission ends in its session. -/
  answered : ∀ T₁ x T₂ hw b, trace step (setup d) is = T₁ ++ x :: T₂ → x.input = .handle hw b → Valid b →
    (starts x = false ∧ ∃ r, responses x.after.calls = [r] ∧ Addressed r b) ∨
      (starts x = true ∧ IsSend b ∧ responses x.after.calls = [] ∧ Owed b T₂)
  /-- A request is accepted exactly if it opens a session, or is a new one of the running session with none pending. -/
  accepted : ∀ T₁ x T₂ hw b, trace step (setup d) is = T₁ ++ x :: T₂ → x.input = .handle hw b →
    (.saveReq b ∈ x.after.calls ↔ Accepts x.before.core b)
  /-- While nothing is pending, the last accepted request gets its response again, and nothing else happens. -/
  retried : ∀ T₁ x T₂ b, trace step (setup d) is = T₁ ++ x :: T₂ → .saveReq b ∈ x.after.calls →
    (∀ c, .saveReq c ∉ history T₂) → (run step (setup d) is).pending = false →
    ∃ r, responses x.after.calls ++ (if starts x then late T₂ else []) = [r] ∧
      ∀ hw, (step (.handle hw b) (run step (setup d) is)).calls = [.putQ r false] ∧
        (step (.handle hw b) (run step (setup d) is)).core = (run step (setup d) is).core

/-- **The contract**: every run of new sessions keeps it. -/
theorem request_response_contract (d : Board) (is : List Input) (hnew : NewSessions (trace step (setup d) is)) :
    Contract d is := by
  obtain ⟨rs, ready, hrs, hcore⟩ := setup_core d
  refine ⟨late_off is (by rw [hcore]; exact hrs), fun T₁ x T₂ hw b h hx hv => ?_, fun T₁ x T₂ hw b h hx => ?_,
    fun T₁ x T₂ b h hb hlast hidle => ?_⟩
  · exact answered_once h hnew hx hv
  · obtain ⟨-, -, -, -, -, hafter, -⟩ := trace_split h
    rw [hafter, hx]
    exact step_saves_iff
  · exact retry_response h hnew hb hlast hidle

/-- A SEND that is repeated on air and after its end, one that the watchdog ends, and one that the session does not
outlive. -/
def sendRun : List Input :=
  let hello (ses : Nat) := frame Msg.hello ses 1 []
  let send (seq : Nat) := frame Msg.send 7 seq [1, 2, 3]
  [.handle {} (hello 7), .handle {} (send 2), .handle {} (send 2), .isr, .radioTask {}, .handle {} (send 2),
    .handle {} (send 3), .txWatchdog { millis := 2000 }, .handle {} (send 4), .handle {} (hello 8), .isr, .radioTask {}]

theorem request_response_contract_sendRun :
    (trace step (setup {}) sendRun).map (fun x => (responses x.after.calls).map typeOf) =
        [[Msg.info], [], [Msg.err], [], [Msg.txok], [Msg.txok], [], [Msg.err], [], [Msg.info], [], []] ∧
      NewSessions (trace step (setup {}) sendRun) ∧ Contract {} sendRun :=
  have hnew : NewSessions (trace step (setup {}) sendRun) := by decide +kernel
  ⟨by decide +kernel, hnew, request_response_contract {} sendRun hnew⟩

end LoraLink.Firmware
