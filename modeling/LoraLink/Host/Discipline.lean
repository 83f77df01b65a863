import LoraLink.Host.Refine

/-!
# The discipline of the requests

What a run of the transport writes: one request at a time, numbered from 1 in each session, HELLO first, and a send
or a diagnostics request only after the INFO that answered the HELLO. `Talked` finds the HELLO and the INFO in the log
of every path to a window with a completed handshake, `Counted` numbers the requests.
-/

namespace LoraLink.Host

open LoraLink.Protocol

/-- How many requests the session has been sent. -/
def countRequest (n : Nat) : Event → Nat
  | .session _ => 0
  | .request _ _ _ _ _ => n + 1
  | _ => n

def requestsIn (H : List Event) : Nat := H.foldl countRequest 0

/-- The session that the log is in, from the session `s` on. -/
def lastSession (s : Nat) (H : List Event) : Nat :=
  H.foldl (fun s e => match e with | .session s' => s' | _ => s) s

/-- No session begins, and the connection is not lost. -/
def Unbroken (H : List Event) : Prop := ∀ e ∈ H, (∀ s, e ≠ .session s) ∧ e ≠ .lost

/-- The session `s` has been sent its HELLO. -/
def Greeted (H : List Event) (s : Nat) : Prop :=
  ∃ X payload Y, H = X ++ .request Msg.hello s 1 payload [] :: Y ∧ Unbroken Y

/-- The HELLO of the session `s` has been answered by `info`, and neither the session nor the connection has gone
since. -/
def Informed (H : List Event) (s : Nat) (info : Info) : Prop :=
  ∃ X f Y, H = X ++ .frame f :: Y ∧ Greeted X s ∧ f.msgType = Msg.info ∧ f.session = s ∧ f.sequence = 1 ∧
    parseInfo f.payload = some info ∧ Unbroken Y

theorem Unbroken.snoc {H : List Event} (h : Unbroken H) {e : Event} (hs : ∀ s, e ≠ .session s) (hl : e ≠ .lost) :
    Unbroken (H ++ [e]) := by
  intro e' he'
  rcases List.mem_append.mp he' with he' | he'
  · exact h e' he'
  · rw [List.mem_singleton.mp he']
    exact ⟨hs, hl⟩

theorem Greeted.snoc {H : List Event} {s : Nat} (h : Greeted H s) {e : Event} (hs : ∀ s, e ≠ .session s)
    (hl : e ≠ .lost) : Greeted (H ++ [e]) s := by
  obtain ⟨X, payload, Y, rfl, hY⟩ := h
  exact ⟨X, payload, Y ++ [e], by simp, hY.snoc hs hl⟩

theorem Informed.snoc {H : List Event} {s : Nat} {info : Info} (h : Informed H s info) {e : Event}
    (hs : ∀ s, e ≠ .session s) (hl : e ≠ .lost) : Informed (H ++ [e]) s info := by
  obtain ⟨X, f, Y, rfl, hX, h1, h2, h3, h4, hY⟩ := h
  exact ⟨X, f, Y ++ [e], by simp, hX, h1, h2, h3, h4, hY.snoc hs hl⟩

namespace Window

variable {w w₀ : Window} {es : List Event}

/-- What the log says about the session that the window is in. -/
structure Talked (H : List Event) (w : Window) : Prop where
  writing : ∀ q, w.writing = some (q, Msg.hello) → Greeted H w.session
  pending : ∀ q t, w.pending = some (q, Msg.hello, t) → Greeted H w.session
  handshake : w.handshake = true → ∃ info, Informed H w.session info ∧ w.ready = decide (info.radioReady ≠ 0)

/-- An event that leaves the session and the connection, and adds no handshake and no HELLO. -/
theorem Talked.keep {H : List Event} {w v : Window} (h : Talked H w) {e : Event} (hs : ∀ s, e ≠ .session s)
    (hl : e ≠ .lost) (hsession : v.session = w.session)
    (hw : ∀ q, v.writing = some (q, Msg.hello) → w.writing = some (q, Msg.hello))
    (hp : ∀ q t, v.pending = some (q, Msg.hello, t) → w.pending = some (q, Msg.hello, t))
    (hh : v.handshake = true → w.handshake = true ∧ v.ready = w.ready) : Talked (H ++ [e]) v := by
  refine ⟨fun q hq => ?_, fun q t hq => ?_, fun hv => ?_⟩
  · exact hsession ▸ (h.writing q (hw q hq)).snoc hs hl
  · exact hsession ▸ (h.pending q t (hp q t hq)).snoc hs hl
  · obtain ⟨info, hinfo, hready⟩ := h.handshake (hh hv).1
    exact ⟨info, hsession ▸ hinfo.snoc hs hl, (hh hv).2.trans hready⟩

/-- The window stays as it is, or closes. -/
theorem Talked.settle {H : List Event} (h : Talked H w) {e : Event} (hs : ∀ s, e ≠ .session s) (hl : e ≠ .lost)
    (completed : Option Bool) : Talked (H ++ [e]) (w.settle completed) :=
  h.keep hs hl rfl (fun _ hq => hq) (fun _ _ hq => by simp [Window.settle] at hq) fun hh => ⟨hh, rfl⟩

theorem Talked.same {H : List Event} (h : Talked H w) {e : Event} (hs : ∀ s, e ≠ .session s) (hl : e ≠ .lost) :
    Talked (H ++ [e]) w :=
  h.keep hs hl rfl (fun _ hq => hq) (fun _ _ hq => hq) fun hh => ⟨hh, rfl⟩

theorem Talked.on {H : List Event} (h : Talked H w) (hgood : w.Good) {e : Event} (he : w.Allowed e) :
    Talked (H ++ [e]) (w.on e) := by
  cases e with
  | session s => exact ⟨by simp [Window.on], by simp [Window.on], by simp [Window.on]⟩
  | lost => exact ⟨by simp [Window.on], by simp [Window.on, Window.settle], by simp [Window.on]⟩
  | request typ s q payload table =>
    obtain ⟨rfl, hup, hnone, rfl, hq, -, hmay⟩ := he
    refine ⟨fun q' hw => ?_, fun _ _ hp => absurd (hnone.symm.trans hp) (by simp), fun hh => ?_⟩
    · simp only [Window.on, Option.some.injEq, Prod.mk.injEq] at hw
      obtain ⟨rfl, rfl⟩ := hw
      have hfirst : w.sequence = 0 := by
        rcases hmay with ⟨-, h0, -⟩ | ⟨ht, -⟩ | ⟨ht, -⟩
        · exact h0
        · simp [Msg.hello, Msg.radioSend] at ht
        · simp [Msg.hello, Msg.getDiagnostics] at ht
      rw [hfirst] at hq
      subst hq
      exact ⟨H, payload, [], rfl, fun _ h => by simp at h⟩
    · obtain ⟨info, hinfo, hready⟩ := h.handshake hh
      exact ⟨info, hinfo.snoc (by simp) (by simp), hready⟩
  | accepted typ q t =>
    refine ⟨by simp [Window.on], fun q' t' hp => ?_, fun hh => ?_⟩
    · simp only [Window.on, Option.some.injEq, Prod.mk.injEq] at hp
      obtain ⟨rfl, rfl, rfl⟩ := hp
      exact (h.writing q he).snoc (by simp) (by simp)
    · obtain ⟨info, hinfo, hready⟩ := h.handshake hh
      exact ⟨info, hinfo.snoc (by simp) (by simp), hready⟩
  | frame f =>
    show Talked _ (w.onFrame f)
    rcases w.onFrame_cases f with hon | ⟨completed, hon⟩ | ⟨t, info, hp, hs, htype, hinfo, hon⟩ <;> rw [hon]
    · exact h.same (by simp) (by simp)
    · exact h.settle (by simp) (by simp) completed
    · have hq : f.sequence = 1 := by
        rcases (hgood.pending _ _ _ hp).2.2 with ⟨-, h1, -⟩ | ⟨ht | ht, -⟩
        · exact h1
        · simp [Msg.hello, Msg.radioSend] at ht
        · simp [Msg.hello, Msg.getDiagnostics] at ht
      refine ⟨fun q hw => ?_, by simp, fun _ => ⟨info, ?_, rfl⟩⟩
      · exact absurd ((hgood.writing q Msg.hello hw).1.symm.trans hp) (by simp)
      · exact ⟨H, f, [], rfl, h.pending _ t hp, htype, hs, hq, hinfo, fun _ h => by simp at h⟩
  | deadline now =>
    rcases w.deadline_cases now with hon | hon <;> rw [hon]
    · exact h.same (by simp) (by simp)
    · exact h.settle (by simp) (by simp) none
  | unencodable q payload =>
    exact h.keep (by simp) (by simp) rfl (by simp [Window.on]) (fun _ _ hq => hq) fun hh => ⟨hh, rfl⟩
  | opened | wrote | received | took | sent | refused | raised =>
    exact h.keep (by simp) (by simp) rfl (fun _ hq => hq) (fun _ _ hq => hq) fun hh => ⟨hh, rfl⟩

theorem Path.talked (h : Path w₀ es w) (h₀ : Good w₀) (hstart : Talked [] w₀) : Talked es w := by
  have hboth : Good w ∧ Talked ([] ++ es) w :=
    h.rel (R := fun H v => Good v ∧ Talked H v) ⟨h₀, hstart⟩ fun _ _ _ hv he => ⟨hv.1.on he, hv.2.on hv.1 he⟩
  exact hboth.2

/-- The window counts the requests of its session, unless a payload was too long. -/
structure Counted (w₀ : Window) (H : List Event) (w : Window) : Prop where
  sequence : w.tooLong = w₀.tooLong → w.sequence = requestsIn H
  session : w.session = lastSession w₀.session H

theorem Counted.on {H : List Event} (h : Counted w₀ H w) (hle : w₀.tooLong ≤ w.tooLong) {e : Event}
    (he : w.Allowed e) : Counted w₀ (H ++ [e]) (w.on e) := by
  -- an event that is neither a session nor a request
  have hkeep : ∀ v : Window, v.tooLong = w.tooLong → v.sequence = w.sequence → v.session = w.session →
      (∀ n, countRequest n e = n) → (∀ s, lastSession s [e] = s) → Counted w₀ (H ++ [e]) v := by
    intro v hlong hseq hsession hcount hlast
    have hl : lastSession w₀.session (H ++ [e]) = lastSession (lastSession w₀.session H) [e] := List.foldl_append
    have hr : requestsIn (H ++ [e]) = countRequest (requestsIn H) e := List.foldl_append
    refine ⟨fun heq => ?_, ?_⟩
    · rw [hseq, hr, hcount]
      exact h.sequence (hlong ▸ heq)
    · rw [hsession, hl, hlast]
      exact h.session
  cases e with
  | session s => exact ⟨fun _ => by simp [Window.on, requestsIn, countRequest], by simp [Window.on, lastSession]⟩
  | request typ s q payload table =>
    obtain ⟨-, -, -, -, hq, -⟩ := he
    refine ⟨fun heq => ?_, ?_⟩
    · have hseq := h.sequence heq
      simp only [requestsIn] at hseq
      simp [Window.on, requestsIn, countRequest, hq, hseq]
    · simpa [Window.on, lastSession] using h.session
  | unencodable q payload =>
    refine ⟨fun heq => ?_, ?_⟩
    · simp only [Window.on] at heq
      omega
    · simpa [Window.on, lastSession] using h.session
  | frame f =>
    have hsame : (w.onFrame f).tooLong = w.tooLong ∧ (w.onFrame f).sequence = w.sequence ∧
        (w.onFrame f).session = w.session := by
      rcases w.onFrame_cases f with hon | ⟨completed, hon⟩ | ⟨_, _, _, _, _, _, hon⟩ <;> rw [hon] <;>
        exact ⟨rfl, rfl, rfl⟩
    exact hkeep _ hsame.1 hsame.2.1 hsame.2.2 (fun _ => rfl) fun _ => rfl
  | deadline now =>
    have hsame : (w.on (.deadline now)).tooLong = w.tooLong ∧ (w.on (.deadline now)).sequence = w.sequence ∧
        (w.on (.deadline now)).session = w.session := by
      rcases w.deadline_cases now with hon | hon <;> rw [hon] <;> exact ⟨rfl, rfl, rfl⟩
    exact hkeep _ hsame.1 hsame.2.1 hsame.2.2 (fun _ => rfl) fun _ => rfl
  | opened | lost | wrote | accepted | received | took | sent | refused | raised =>
    exact hkeep _ rfl rfl rfl (fun _ => rfl) fun _ => rfl

theorem Path.counted (h : Path w₀ es w) (hseq : w₀.sequence = 0) : Counted w₀ es w := by
  have hstart : Counted w₀ [] w₀ := ⟨fun _ => hseq, rfl⟩
  have hboth : w₀.tooLong ≤ w.tooLong ∧ Counted w₀ ([] ++ es) w :=
    h.rel (R := fun H v => w₀.tooLong ≤ v.tooLong ∧ Counted w₀ H v) ⟨Nat.le_refl _, hstart⟩ fun _ v e hv he =>
      ⟨Nat.le_trans hv.1 (tooLong_on v e), hv.2.on hv.1 he⟩
  exact hboth.2

end Window

/-! ## Every run -/

/-- The requests of a log that begins in the session `s₀`. -/
def InOrder (s₀ : Nat) (H : List Event) : Prop :=
  ∀ X typ s sequence payload table Y, H = X ++ .request typ s sequence payload table :: Y →
    table = [] ∧ s = lastSession s₀ X ∧ sequence = requestsIn X + 1 ∧ sequence ≤ Modem.maxSequence ∧
      (typ = Msg.hello ↔ sequence = 1) ∧
      (typ ≠ Msg.hello → (typ = Msg.radioSend ∨ typ = Msg.getDiagnostics) ∧
        ∃ info, Informed X s info ∧ (typ = Msg.radioSend → info.radioReady ≠ 0))

/-- The discipline of a run that has logged `H` and left the transport `m`. -/
structure Orderly (s₀ : Nat) (H : List Event) (m : Modem) : Prop where
  requests : InOrder s₀ H
  table : m.pending.length ≤ 1
  sendAir : ∀ io payload, payload.length ≤ maxUsbPayload → ∃ r, (Modem.sendAir payload (m.enter io)).1 = .ok r
  tick : ∀ io idle, ∃ events, (Modem.tick idle (m.enter io)).1 = .ok events
  close : ∀ io, (Modem.close (m.enter io)).1 = .ok ()

/-- **The discipline**: a run whose payloads fit in a frame raises nothing, and writes its requests one at a time, in
order, and only in a session that has been answered. -/
theorem request_discipline (draw : Nat) (reconnectSeconds : ℚ) (is : List Modem.Input) (hfits : ∀ i ∈ is, i.Fits) :
    Orderly (draw % (2 ^ 32 - 1) + 1) (Modem.history (trace Modem.step (Modem.init draw reconnectSeconds) is))
      (run Modem.step (Modem.init draw reconnectSeconds) is) := by
  have h₀ := Modem.init_steady draw reconnectSeconds
  obtain ⟨w, hpath, hw, hlong⟩ := Modem.run_steady is h₀
  refine ⟨fun X typ s q payload table Y hH => ?_, ?_, fun io payload hl => ?_, fun io idle => ?_, fun io => ?_⟩
  · rw [hH] at hpath
    obtain ⟨v, (hv : Window.Path _ X v), hallow, (htail : Window.Path _ Y w)⟩ := hpath.split
    have hshort : v.tooLong = (Modem.window₀ draw).tooLong := by
      have h1 := hv.tooLong_le
      have h2 := Nat.le_trans (Window.tooLong_on v _) htail.tooLong_le
      rw [hlong hfits] at h2
      exact Nat.le_antisymm h2 h1
    have hcount := hv.counted rfl
    have hgood := hv.good h₀.good
    have htalk := hv.talked h₀.good ⟨by simp [Modem.window₀], by simp [Modem.window₀], by simp [Modem.window₀]⟩
    obtain ⟨htable, -, -, hs, hq, hmax, hmay⟩ := hallow
    refine ⟨htable, hs.trans hcount.session, by rw [hq, hcount.sequence hshort], hmax, ?_, fun hne => ?_⟩
    · rcases hmay with ⟨ht, h0, -⟩ | ⟨ht, hh, -⟩ | ⟨ht, hh⟩
      · exact ⟨fun _ => by omega, fun _ => ht⟩
      · have hpos := (hgood.up hh).2
        exact ⟨fun h => by rw [ht] at h; simp [Msg.hello, Msg.radioSend] at h, fun h => by omega⟩
      · have hpos := (hgood.up hh).2
        exact ⟨fun h => by rw [ht] at h; simp [Msg.hello, Msg.getDiagnostics] at h, fun h => by omega⟩
    · rcases hmay with ⟨ht, -⟩ | ⟨ht, hh, hr⟩ | ⟨ht, hh⟩
      · exact absurd ht hne
      · obtain ⟨info, hinfo, hready⟩ := htalk.handshake hh
        exact ⟨Or.inl ht, info, hs ▸ hinfo, fun _ => by simpa [hr] using hready⟩
      · obtain ⟨info, hinfo, -⟩ := htalk.handshake hh
        refine ⟨Or.inr ht, info, hs ▸ hinfo, fun h => ?_⟩
        rw [ht] at h
        simp [Msg.radioSend, Msg.getDiagnostics] at h
  · rw [hw.pending]
    cases w.pending <;> simp
  · have hs := Modem.sendAir_spec payload _ (hw.enter io)
    generalize Modem.sendAir payload _ = res at hs
    obtain ⟨r, m'⟩ := res
    cases r with
    | ok q => exact ⟨q, rfl⟩
    | error e => exact absurd hl (Nat.not_le.mpr hs.1)
  · have hs := Modem.tick_spec idle _ (hw.inWindow io)
    generalize Modem.tick idle _ = res at hs
    obtain ⟨r, m'⟩ := res
    cases r with
    | ok events => exact ⟨events, rfl⟩
    | error e => exact absurd hs id
  · have hs := Modem.close_spec _ (hw.inWindow io)
    generalize Modem.close _ = res at hs
    obtain ⟨r, m'⟩ := res
    cases r with
    | ok u => rfl
    | error e => exact absurd hs id

/-- Sends before the port opens, before the INFO, with it, and over the open window; then the answer, and a poll. -/
def greetedRun : List Modem.Input :=
  [.sendAir {} [1, 2, 3], .tick { writes := [.wrote 1, .wrote 20] } true, .sendAir {} [1, 2, 3],
    .tick { read := encodeFrame Msg.info 2 1 (List.replicate 16 0 ++ [1] ++ List.replicate 5 0) } true,
    .sendAir { writes := [.wrote 23] } [1, 2, 3], .sendAir {} [4],
    .tick { read := encodeFrame Msg.radioTxResult 2 2 (List.replicate 12 0) } true,
    .tick { clock := fun _ => 6, writes := [.wrote 20] } true]

/-- The requests of a log: type, session and sequence. -/
def requestsOf : List Event → List (Nat × Nat × Nat)
  | [] => []
  | .request typ s sequence _ _ :: H => (typ, s, sequence) :: requestsOf H
  | _ :: H => requestsOf H

set_option maxRecDepth 100000 in
theorem request_discipline_greetedRun : (∀ i ∈ greetedRun, i.Fits) ∧
    requestsOf (Modem.history (trace Modem.step (Modem.init 0 1) greetedRun)) =
      [(Msg.hello, 2, 1), (Msg.radioSend, 2, 2), (Msg.getDiagnostics, 2, 3)] ∧
    Orderly 1 (Modem.history (trace Modem.step (Modem.init 0 1) greetedRun))
      (run Modem.step (Modem.init 0 1) greetedRun) := by
  have hfits : ∀ i ∈ greetedRun, i.Fits := by
    rintro i hi io payload rfl
    simp only [greetedRun, List.mem_cons, Modem.Input.sendAir.injEq, List.not_mem_nil, or_false, reduceCtorEq,
      false_or] at hi
    rcases hi with ⟨-, rfl⟩ | ⟨-, rfl⟩ | ⟨-, rfl⟩ | ⟨-, rfl⟩ <;> decide
  exact ⟨hfits, by decide +kernel, request_discipline 0 1 greetedRun hfits⟩

end LoraLink.Host
