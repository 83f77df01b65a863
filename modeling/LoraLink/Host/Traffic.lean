import LoraLink.Host.Outcomes

/-!
# What the transport asks

- `sendAir_lastAsks`: a send that returns a sequence has asked for its payload;
- `Numbered`: while the sessions are new, no two requests have the same session and sequence;
- `Owned`: a send that is reported completed has been so by a frame of its own session and sequence.
-/

namespace LoraLink.Host

open LoraLink.Protocol

/-- The sessions begun. -/
def sessionsIn (H : List Event) : List Nat := H.filterMap fun | .session s => some s | _ => none

@[simp] theorem sessionsIn_append (H E : List Event) : sessionsIn (H ++ E) = sessionsIn H ++ sessionsIn E :=
  List.filterMap_append

namespace Modem

open Prog

/-! ## The request of a send -/

/-- The last request has the payload. -/
def LastAsks (payload : Bytes) (m : Modem) : Prop := (requestFrames m.log).getLast?.map Frame.payload = some payload

theorem LastAsks.log {payload : Bytes} {m m' : Modem} (h : LastAsks payload m) {e : Event}
    (hlog : m'.log = m.log ++ [e]) (he : requestFrames [e] = []) : LastAsks payload m' := by
  rw [LastAsks, hlog, requestFrames_append, he, List.append_nil]
  exact h

theorem lastAsks_kept (payload : Bytes) : Kept (LastAsks payload) where
  face := by
    intro m h m' _ _ hlog _
    rw [LastAsks, hlog]
    exact h
  quiet := by
    intro e m he h
    refine h.log rfl ?_
    cases e with
    | opened | lost | wrote | request | frame => exact he.elim
    | session | unencodable | accepted | deadline | received | took | sent | refused | raised => rfl
  lost := fun h => h.log rfl rfl

theorem request_lastAsks (typ : Nat) (payload : Bytes) :
    Triple (fun _ => True) (request typ payload) fun r m => ∀ q, r = .ok q → LastAsks payload m := by
  have hkept := lastAsks_kept payload
  have hraise : ∀ e : Exn, Triple (fun _ => True) (raise e : Op Nat) fun r m => ∀ q, r = .ok q → LastAsks payload m :=
    fun e m _ q hq => by cases hq
  refine Triple.get_bind fun m _ => Triple.ite (fun _ => hraise _) fun _ => ?_
  refine Triple.seq (R := fun _ _ => True) (fun _ _ => trivial) fun sequence => ?_
  refine Triple.seq (R := fun _ _ => True) (fun _ _ => trivial) fun _ => Triple.get_bind fun m _ => ?_
  cases encodeFrame typ m.session sequence payload with
  | none => exact Triple.seq (R := fun _ _ => True) (fun _ _ => trivial) fun _ => hraise _
  | some raw =>
    refine Triple.seq (R := fun _ => LastAsks payload) (fun m' _ => ?_) fun _ => ?_
    · show (requestFrames (m'.log ++ _)).getLast?.map Frame.payload = some payload
      rw [requestFrames_append]
      exact congrArg (Option.map Frame.payload) List.getLast?_concat
    · refine Triple.weaken (P := LastAsks payload) (Q := fun _ => LastAsks payload) ?_ (fun _ h => h) fun r m h q _ => h
      refine Triple.keep_bind (hkept.write (fun h => h.log rfl rfl) raw) fun _ => ?_
      refine Triple.keep_bind hkept.monotonic fun now => Triple.keep_bind (fun m h => ?_) fun _ => ?_
      · exact hkept.face (hkept.quiet (e := .accepted typ sequence now) trivial h) _ rfl rfl rfl rfl
      · exact Triple.keep_bind (hkept.add _ _) fun _ => Kept.pure sequence

/-- A send that returns a sequence has asked for its payload last. -/
theorem sendAir_lastAsks (payload : Bytes) :
    Triple (fun _ => True) (sendAir payload) fun r m => ∀ q, r = .ok (some q) → LastAsks payload m := by
  refine Triple.get_bind fun m _ => Triple.ite (fun _ m _ q hq => by cases hq) fun _ => ?_
  refine Triple.bind (R := fun _ _ => True) (fun _ _ => trivial) (fun rotated => ?_) fun e m _ q hq => by cases hq
  refine Triple.ite (fun _ m _ q hq => by cases hq) fun _ => ?_
  refine Triple.seq (R := fun _ _ => True) (fun _ _ => trivial) fun _ => ?_
  refine Triple.seq (R := fun _ _ => True) (fun _ _ => trivial) fun _ => ?_
  refine Triple.tryCatch (R := fun r m => ∀ q, r = .ok (some q) → LastAsks payload m) ?_ (fun _ _ h => h) fun e => ?_
  · refine (request_lastAsks Msg.radioSend payload).bind (fun sequence m h q hq => h sequence rfl) fun e m _ q hq => ?_
    cases hq
  · exact Triple.ite (fun _ m _ q hq => by cases hq) fun _ m _ q hq => by cases hq

theorem step_lastAsks {io : Io} {payload : Bytes} {m : Modem} {q : Nat}
    (h : (step (.sendAir io payload) m).log.getLast? = some (.sent q)) :
    LastAsks payload (step (.sendAir io payload) m) := by
  have hasks := sendAir_lastAsks payload (m.enter io) trivial
  rw [step] at h ⊢
  generalize sendAir payload (m.enter io) = res at h hasks ⊢
  obtain ⟨_ | _ | sequence, m'⟩ := res
  · simp [leave] at h
  · simp [leave] at h
  · exact (hasks sequence rfl).log rfl rfl

end Modem

/-! ## No two requests alike -/

/-- The session and the sequence of a frame. -/
def key (f : Frame) : Nat × Nat := (f.session, f.sequence)

namespace Window

variable {w w₀ : Window}

/-- The request is written or waits. -/
def Asking (w : Window) (sequence typ : Nat) : Prop :=
  w.writing = some (sequence, typ) ∨ ∃ started, w.pending = some (sequence, typ, started)

/-- The requests of the events `H`, whose sessions are new, in the window that they lead to. -/
structure Numbered (s₀ : Nat) (H : List Event) (w : Window) : Prop where
  session : w.session ∈ s₀ :: sessionsIn H
  earlier : ∀ f ∈ requestFrames H, f.session ∈ s₀ :: sessionsIn H ∧ (f.session = w.session → f.sequence ≤ w.sequence)
  nodup : ((requestFrames H).map key).Nodup
  current : ∀ sequence typ, w.Asking sequence typ →
    ∃ f, (requestFrames H).getLast? = some f ∧ f.msgType = typ ∧ key f = (w.session, sequence)

/-- An event that is neither a request nor a session. -/
theorem Numbered.keep {s₀ : Nat} {H : List Event} (h : Numbered s₀ H w) {e : Event} {w' : Window}
    (he : requestFrames [e] = [] ∧ sessionsIn [e] = []) (hsession : w'.session = w.session)
    (hsequence : w.sequence ≤ w'.sequence) (hasking : ∀ sequence typ, w'.Asking sequence typ → w.Asking sequence typ) :
    Numbered s₀ (H ++ [e]) w' := by
  have hsessions : sessionsIn (H ++ [e]) = sessionsIn H := by rw [sessionsIn_append, he.2, List.append_nil]
  have hrequests : requestFrames (H ++ [e]) = requestFrames H := by rw [requestFrames_append, he.1, List.append_nil]
  refine ⟨?_, ?_, ?_, ?_⟩
  · rw [hsession, hsessions]
    exact h.session
  · rw [hrequests, hsession, hsessions]
    exact fun f hf => ⟨(h.earlier f hf).1, fun hs => ((h.earlier f hf).2 hs).trans hsequence⟩
  · rw [hrequests]
    exact h.nodup
  · rw [hrequests, hsession]
    exact fun sequence typ ha => h.current sequence typ (hasking sequence typ ha)

theorem asking_settle (completed : Option Bool) (sequence typ : Nat) (h : (w.settle completed).Asking sequence typ) :
    w.Asking sequence typ := by
  rcases h with h | ⟨t, h⟩
  · exact Or.inl h
  · exact absurd h (by simp [settle])

theorem Numbered.on {s₀ : Nat} {H : List Event} (h : Numbered s₀ H w) {e : Event} (he : w.Allowed e)
    (hnew : (s₀ :: sessionsIn (H ++ [e])).Nodup) : Numbered s₀ (H ++ [e]) (w.on e) := by
  cases e with
  | session s =>
    rw [sessionsIn_append, ← List.cons_append] at hnew
    have hfresh : s ∉ s₀ :: sessionsIn H := fun hin => (List.nodup_append.mp hnew).2.2 s hin s List.mem_cons_self rfl
    have hrequests : requestFrames (H ++ [.session s]) = requestFrames H := by
      rw [requestFrames_append]
      exact List.append_nil _
    have hsessions : s₀ :: sessionsIn (H ++ [.session s]) = (s₀ :: sessionsIn H) ++ [s] := by
      rw [sessionsIn_append]
      rfl
    refine ⟨?_, fun f hf => ?_, ?_, fun sequence typ ha => ?_⟩
    · rw [hsessions]
      exact List.mem_append_right _ List.mem_cons_self
    · rw [hrequests] at hf
      rw [hsessions]
      refine ⟨List.mem_append_left _ (h.earlier f hf).1, fun hs => ?_⟩
      have hsame : f.session = s := hs
      exact absurd (hsame ▸ (h.earlier f hf).1) hfresh
    · rw [hrequests]
      exact h.nodup
    · rcases ha with ha | ⟨t, ha⟩
      · cases ha
      · cases ha
  | request typ s sequence payload table =>
    obtain ⟨-, -, hnone, rfl, rfl, -, -⟩ := he
    have hrequests : requestFrames (H ++ [.request typ w.session (w.sequence + 1) payload table]) =
        requestFrames H ++ [⟨typ, w.session, w.sequence + 1, payload⟩] := requestFrames_append _ _
    have hsessions : sessionsIn (H ++ [.request typ w.session (w.sequence + 1) payload table]) = sessionsIn H := by
      rw [sessionsIn_append]
      exact List.append_nil _
    refine ⟨?_, ?_, ?_, fun sequence' typ' ha => ?_⟩
    · rw [hsessions]
      exact h.session
    · rw [hrequests, hsessions]
      intro f hf
      rcases List.mem_append.mp hf with hf | hf
      · exact ⟨(h.earlier f hf).1, fun hs => Nat.le_succ_of_le ((h.earlier f hf).2 hs)⟩
      · obtain rfl := List.mem_singleton.mp hf
        exact ⟨h.session, fun _ => Nat.le_refl _⟩
    · rw [hrequests, List.map_append, List.nodup_append]
      refine ⟨h.nodup, List.pairwise_singleton _ _, ?_⟩
      rintro a ha b hb rfl
      obtain ⟨f, hf, hkey⟩ := List.mem_map.mp ha
      obtain ⟨hs, hq⟩ := Prod.mk.inj (hkey.trans (List.mem_singleton.mp hb))
      have hle := (h.earlier f hf).2 hs
      have hq' : f.sequence = w.sequence + 1 := hq
      omega
    · rcases ha with ha | ⟨t, ha⟩
      · obtain ⟨rfl, rfl⟩ : w.sequence + 1 = sequence' ∧ typ = typ' := by simpa [Window.on] using ha
        rw [hrequests]
        exact ⟨_, List.getLast?_concat, rfl, rfl⟩
      · exact absurd (hnone.symm.trans ha) (by simp)
  | unencodable sequence payload =>
    obtain ⟨hnone, -, -, rfl, -⟩ := he
    refine h.keep ⟨rfl, rfl⟩ rfl (Nat.le_succ _) fun sequence typ ha => ?_
    rcases ha with ha | ⟨t, ha⟩
    · cases ha
    · exact Or.inr ⟨t, ha⟩
  | accepted typ sequence started =>
    refine h.keep ⟨rfl, rfl⟩ rfl (Nat.le_refl _) fun sequence' typ' ha => ?_
    rcases ha with ha | ⟨t, ha⟩
    · cases ha
    · obtain ⟨rfl, rfl, -⟩ : sequence = sequence' ∧ typ = typ' ∧ started = t := by simpa [Window.on] using ha
      exact Or.inl he
  | frame f =>
    rcases w.onFrame_cases f with hon | ⟨completed, hon⟩ | ⟨t, info, hp, -, -, -, hon⟩
    · refine h.keep ⟨rfl, rfl⟩ ?_ ?_ ?_ <;> simp only [Window.on, hon]
      · exact Nat.le_refl _
      · exact fun _ _ ha => ha
    · refine h.keep ⟨rfl, rfl⟩ ?_ ?_ ?_ <;> simp only [Window.on, hon]
      · rfl
      · exact Nat.le_refl _
      · exact asking_settle completed
    · refine h.keep ⟨rfl, rfl⟩ ?_ ?_ ?_ <;> simp only [Window.on, hon]
      · exact Nat.le_refl _
      · rintro sequence typ (ha | ⟨t, ha⟩)
        · exact Or.inl ha
        · cases ha
  | deadline now =>
    rcases w.deadline_cases now with hon | hon <;> rw [hon]
    · exact h.keep ⟨rfl, rfl⟩ rfl (Nat.le_refl _) fun _ _ ha => ha
    · exact h.keep ⟨rfl, rfl⟩ rfl (Nat.le_refl _) (asking_settle none)
  | lost =>
    refine h.keep ⟨rfl, rfl⟩ rfl (Nat.le_refl _) fun sequence typ ha => ?_
    rcases ha with ha | ⟨t, ha⟩
    · cases ha
    · cases ha
  | opened | took | sent | wrote | received | refused | raised =>
    exact h.keep ⟨rfl, rfl⟩ rfl (Nat.le_refl _) fun _ _ ha => ha

theorem Path.numbered {H : List Event} (h : Path w₀ H w) (hstart : w₀.writing = none ∧ w₀.pending = none)
    (hnew : (w₀.session :: sessionsIn H).Nodup) : Numbered w₀.session H w := by
  refine h.rel (R := fun E v => (w₀.session :: sessionsIn E).Nodup → Numbered w₀.session E v) (H := []) (fun _ => ?_)
    (fun E v e ih he hnew => ih ?_ |>.on he hnew) hnew
  · refine ⟨List.mem_cons_self, fun f hf => absurd hf List.not_mem_nil, List.nodup_nil, fun sequence typ ha => ?_⟩
    rcases ha with ha | ⟨t, ha⟩
    · exact absurd (hstart.1.symm.trans ha) (by simp)
    · exact absurd (hstart.2.symm.trans ha) (by simp)
  · rw [sessionsIn_append, ← List.cons_append] at hnew
    exact (List.nodup_append.mp hnew).1

end Window

/-! ## Completed sends -/

/-- `K` lists the sessions of the sends whose fate is `s`: the one that waits is of the running session, and one that
is completed has `D`. -/
structure Owned (D : Nat → Nat → Prop) (K : List Nat) (s : Fate) : Prop where
  length : K.length = s.outcomes.length + s.waiting.toList.length
  waiting : s.waiting.isSome = true → K.getLast? = some s.session
  completed : ∀ (i sequence session : Nat), s.outcomes[i]? = some (sequence, some true) → K[i]? = some session →
    D session sequence

theorem Owned.mono {D D' : Nat → Nat → Prop} {K : List Nat} {s : Fate} (h : Owned D K s)
    (hD : ∀ session sequence, D session sequence → D' session sequence) : Owned D' K s :=
  { h with completed := fun i sequence session hi hK => hD _ _ (h.completed i sequence session hi hK) }

/-- There is a session for each of the sends accepted. -/
theorem Owned.sends {D : Nat → Nat → Prop} {K : List Nat} {w : Window} (h : Owned D K w.fate) (hgood : w.Good) :
    K.length = w.sends.length := by
  have hwaiting := congrArg (fun o => o.toList.length) (Window.waitingSeq_fate w)
  have hlength := h.length
  rw [hgood.sends, List.length_append, List.length_map, ← hwaiting, hlength, Fate.waitingSeq]
  cases w.fate.waiting <;> rfl

/-- The frame reports a completed send. -/
def reports (f : Frame) : Bool := f.msgType = Msg.radioTxResult ∧ (parseTxResult f.payload).isSome = true

theorem verdict_completed {session sequence : Nat} {started : ℚ} {e : Event}
    (h : verdict session sequence started e = some (some true)) :
    ∃ f, e = .frame f ∧ f.session = session ∧ f.sequence = sequence ∧ reports f = true := by
  cases e with
  | frame f =>
    simp only [verdict] at h
    split at h
    · rename_i hkey
      split at h
      · rename_i htyp
        have hparse : (parseTxResult f.payload).isSome = true := by simpa using h
        exact ⟨f, rfl, hkey.1, hkey.2, by simp [reports, htyp, hparse]⟩
      · split at h
        · cases h
        · cases h
    · cases h
  | deadline now =>
    simp only [verdict] at h
    split at h
    · cases h
    · cases h
  | lost => cases h
  | opened | session | wrote | request | unencodable | accepted | received | took | sent | refused | raised => cases h

/-- An event about which there is a verdict, or that changes nothing. -/
theorem Owned.judge {D : Nat → Nat → Prop} {K : List Nat} {s s' : Fate} (h : Owned D K s) {e : Event}
    (hon : s' = match s.waiting with
      | none => s
      | some (sequence, started) => match verdict s.session sequence started e with
        | none => s
        | some completed => { s with waiting := none, outcomes := s.outcomes ++ [(sequence, completed)] })
    (he : ∀ f, e = .frame f → reports f = true → D f.session f.sequence) : Owned D K s' := by
  cases hw : s.waiting with
  | none =>
    rw [hw] at hon
    exact hon ▸ h
  | some p =>
    obtain ⟨q, t⟩ := p
    rw [hw] at hon
    cases hv : verdict s.session q t e with
    | none =>
      simp only [hv] at hon
      exact hon ▸ h
    | some completed =>
      simp only [hv] at hon
      subst hon
      have hlength := h.length
      rw [hw] at hlength
      refine ⟨by simp [hlength], fun hs => by simp at hs, fun i sequence session hi hK => ?_⟩
      rw [List.getElem?_append] at hi
      split at hi
      · exact h.completed i sequence session hi hK
      · rename_i hge
        -- the send that waits is the last one, and of the running session
        have hlen : K.length = s.outcomes.length + 1 := hlength
        obtain ⟨hi', heq⟩ := List.getElem?_eq_some_iff.mp hi
        have hlast : i = K.length - 1 := by
          simp only [List.length_singleton] at hi'
          omega
        rw [List.getElem_singleton] at heq
        obtain ⟨rfl, rfl⟩ := Prod.mk.inj heq
        have hsession := h.waiting (by rw [hw]; rfl)
        rw [List.getLast?_eq_getElem?, ← hlast, hK] at hsession
        obtain ⟨f, rfl, hs, rfl, hf⟩ := verdict_completed hv
        rw [Option.some.inj hsession, ← hs]
        exact he f rfl hf

theorem Owned.on {D : Nat → Nat → Prop} {K : List Nat} {w : Window} (h : Owned D K w.fate) (hgood : w.Good) {e : Event}
    (he : w.Allowed e) (hD : ∀ f, e = .frame f → reports f = true → D f.session f.sequence) :
    ∃ K', Owned D (K ++ K') (w.on e).fate := by
  rw [Window.fate_on hgood he]
  have hjudge : ∀ (_ : ∀ s, e ≠ .session s) (_ : ∀ typ q t, e ≠ .accepted typ q t), Owned D (K ++ []) (w.fate.on e) :=
    fun hs ha => by
      rw [List.append_nil]
      exact h.judge (Window.fate_on_of_verdict hs ha) hD
  cases e with
  | session s =>
    have hnone : w.fate.waiting = none := by
      have hwaiting := Window.waitingSeq_fate w
      rw [he.2.2.2, Fate.waitingSeq, Option.map_eq_none_iff] at hwaiting
      exact hwaiting
    refine ⟨[], ?_⟩
    rw [List.append_nil]
    exact ⟨h.length, fun hs => by simp [Fate.on, hnone] at hs, h.completed⟩
  | accepted typ q t =>
    by_cases ht : typ = Msg.radioSend
    · have hnone : w.fate.waiting = none := by
        have hpending : w.pending = none := (hgood.writing q typ he).1
        simp [Window.fate, hpending]
      have hon : w.fate.on (.accepted typ q t) = { w.fate with waiting := some (q, t) } := if_pos ht
      have hlength := h.length
      rw [hnone] at hlength
      have hK : K.length = w.fate.outcomes.length := hlength
      rw [hon]
      refine ⟨[w.fate.session], by simp [hK], fun _ => List.getLast?_concat, fun i sequence session hi hs => ?_⟩
      obtain ⟨hi', -⟩ := List.getElem?_eq_some_iff.mp hi
      rw [List.getElem?_append_left (by rw [hK]; exact hi')] at hs
      exact h.completed i sequence session hi hs
    · have hon : w.fate.on (.accepted typ q t) = w.fate := if_neg ht
      rw [hon]
      exact ⟨[], by rwa [List.append_nil]⟩
  | opened | lost | wrote | request | unencodable | frame | deadline | received | took | sent | refused | raised =>
    exact ⟨[], hjudge (by simp) (by simp)⟩

/-- Along a path the sends gain sessions. -/
theorem Window.Path.owned {D : Nat → Nat → Prop} {K : List Nat} {w₀ w : Window} {es : List Event}
    (hpath : Window.Path w₀ es w) (h : Owned D K w₀.fate) (hgood : w₀.Good)
    (hD : ∀ f ∈ framesIn es, reports f = true → D f.session f.sequence) : ∃ K', Owned D (K ++ K') w.fate := by
  suffices hboth : w.Good ∧ ((∀ f ∈ framesIn es, reports f = true → D f.session f.sequence) →
      ∃ K', Owned D (K ++ K') w.fate) from hboth.2 hD
  refine hpath.rel (H := []) (R := fun E v => v.Good ∧ ((∀ f ∈ framesIn E, reports f = true → D f.session f.sequence) →
    ∃ K', Owned D (K ++ K') v.fate)) ⟨hgood, fun _ => ⟨[], by rwa [List.append_nil]⟩⟩ fun E v e ih he => ?_
  refine ⟨ih.1.on he, fun hframes => ?_⟩
  rw [framesIn_append] at hframes
  obtain ⟨K', hK'⟩ := ih.2 fun f hf => hframes f (List.mem_append_left _ hf)
  obtain ⟨K'', hK''⟩ := hK'.on ih.1 he fun f hf =>
    hframes f (List.mem_append_right _ (by subst hf; exact List.mem_cons_self))
  exact ⟨K' ++ K'', by rwa [← List.append_assoc]⟩

end LoraLink.Host
