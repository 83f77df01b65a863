import LoraLink.Host.Keep
import LoraLink.Host.Refine

/-!
# What the transport reads

- `face_tickRead`: behind the read the frames are handled one after the other, and all of them if nothing is raised;
- `step_reads`: a call feeds its decoder with the bytes of the port, and handles the first of the frames that this
  yields, all if it returns;
- `run_handles`: a run from the start raises nothing in `tick`, so the frames handled are those that arrive.
-/

namespace LoraLink.Host

open LoraLink.Protocol

/-- The requests, as frames. -/
def requestFrames (H : List Event) : List Frame :=
  H.filterMap fun | .request typ session sequence payload _ => some ⟨typ, session, sequence, payload⟩ | _ => none

@[simp] theorem requestFrames_append (H E : List Event) : requestFrames (H ++ E) = requestFrames H ++ requestFrames E :=
  List.filterMap_append

/-- The frame can be encoded. -/
def Encodable (f : Frame) : Prop :=
  f.msgType ≤ 255 ∧ 0 < f.session ∧ f.session ≤ 0xffffffff ∧ f.sequence ≤ 0xffffffff ∧ f.payload.length ≤ maxUsbPayload

theorem encodable_of_encodeFrame {typ session sequence : Nat} {payload raw : Bytes}
    (h : encodeFrame typ session sequence payload = some raw) : Encodable ⟨typ, session, sequence, payload⟩ := by
  simp only [encodeFrame, Option.ite_none_left_eq_some, not_or, not_not, not_lt] at h
  exact ⟨h.1.1, h.1.2.1.1, h.1.2.1.2, h.1.2.2, h.2.1⟩

namespace Modem

open Prog

/-! ## The frames of a call -/

/-- The decoder of the open port has `P`, the frames handled are `L`, and the requests were encoded. -/
structure Face (P : StreamDecoder → Prop) (L : List Frame) (m : Modem) : Prop where
  decoder : m.connected = true → P m.decoder
  frames : framesIn m.log = L
  encodable : ∀ f ∈ requestFrames m.log, Encodable f

variable {P : StreamDecoder → Prop} {L : List Frame}

/-- An event that is neither a frame nor a request. -/
theorem Face.log {P' : StreamDecoder → Prop} {m m' : Modem} (h : Face P L m) {e : Event} (hlog : m'.log = m.log ++ [e])
    (he : framesIn [e] = [] ∧ requestFrames [e] = []) (hdecoder : m'.connected = true → P' m'.decoder) :
    Face P' L m' := by
  refine ⟨hdecoder, ?_, ?_⟩
  · rw [hlog, framesIn_append, he.1, List.append_nil]
    exact h.frames
  · rw [hlog, requestFrames_append, he.2, List.append_nil]
    exact h.encodable

theorem Face.wrote {m : Modem} (h : Face P L m) (bs : Bytes) : Face P L { m with log := m.log ++ [.wrote bs] } :=
  h.log rfl ⟨rfl, rfl⟩ h.decoder

theorem Face.ask {m : Modem} (h : Face P L m) {typ sequence : Nat} {payload raw : Bytes}
    (hraw : encodeFrame typ m.session sequence payload = some raw) :
    Face P L { m with log := m.log ++ [.request typ m.session sequence payload m.pending] } := by
  refine ⟨h.decoder, ?_, fun f hf => ?_⟩
  · rw [framesIn_append, h.frames]
    exact List.append_nil L
  · rw [requestFrames_append] at hf
    rcases List.mem_append.mp hf with hf | hf
    · exact h.encodable f hf
    · obtain rfl := List.mem_singleton.mp hf
      exact encodable_of_encodeFrame hraw

/-- A frame is handled. -/
theorem Face.frame {m : Modem} (h : Face P L m) (f : Frame) :
    Face P (L ++ [f]) { m with log := m.log ++ [.frame f] } := by
  refine ⟨h.decoder, ?_, ?_⟩
  · rw [framesIn_append, h.frames]
    rfl
  · rw [requestFrames_append]
    exact fun g hg => h.encodable g ((List.mem_append.mp hg).resolve_right List.not_mem_nil)

theorem face_kept (P : StreamDecoder → Prop) (L : List Frame) : Kept (Face P L) where
  face := by
    intro m h m' hconnected hdecoder hlog _
    refine ⟨?_, ?_, ?_⟩
    · rw [hconnected, hdecoder]
      exact h.decoder
    · rw [hlog]
      exact h.frames
    · rw [hlog]
      exact h.encodable
  quiet := by
    intro e m he h
    refine h.log rfl ?_ h.decoder
    cases e with
    | opened | lost | wrote | request | frame => exact he.elim
    | session | unencodable | accepted | deadline | received | took | sent | refused | raised => exact ⟨rfl, rfl⟩
  lost := fun h => h.log rfl ⟨rfl, rfl⟩ fun hup => by cases hup

theorem face_request (typ : Nat) (payload : Bytes) : Triple (Face P L) (request typ payload) fun _ => Face P L :=
  (face_kept P L).request (fun h => h.wrote _) (fun hraw h => h.ask hraw) typ payload

theorem openSerial_up {m : Modem} (h : m.connected = true) : openSerial m = (.ok (), m) := by
  show (if m.connected = true then _ else _ : Op Unit) m = _
  rw [if_pos h]
  rfl

/-- The decoder with which a call reads. -/
def decoderAt (m : Modem) : StreamDecoder := if m.connected then m.decoder else {}

/-- The bytes that a tick reads: those of the port, if it is open by then. -/
def bytesAt (m : Modem) : Bytes := if (openSerial m).2.connected then m.io.read.getD [] else []

/-- Behind the read the decoder has been fed the bytes, and the frames handled are the first of those it made of them. -/
theorem face_tickRead (idle : Bool) (raw : Bytes) {d : StreamDecoder} :
    Triple (fun m => Face P [] m ∧ m.decoder = d) (tickRead idle raw) fun r m =>
      ∃ L, L <+: (d.feed raw).2 ∧ Face (· = (d.feed raw).1) L m ∧ ∀ events, r = .ok events → L = (d.feed raw).2 :=
  Kept.tickRead idle raw (face_kept _) (fun _ => face_request)
    (fun _ h => ⟨(face_kept _ _).face h.1 _ rfl rfl rfl rfl, h.2⟩)
    (fun _ h => ⟨h.2, fun _ => rfl, h.1.frames, h.1.encodable⟩) fun _ f _ h => h.frame f

/-- Up to the read of the call of `m` no frame is handled. -/
def Before (m m' : Modem) : Prop := Face (· = m.decoderAt) [] m' ∧ m'.io.read = m.io.read

theorem before_kept (m : Modem) : Kept (Before m) where
  face := fun h m' hconnected hdecoder hlog hread =>
    ⟨(face_kept _ _).face h.1 m' hconnected hdecoder hlog hread, hread.trans h.2⟩
  quiet := fun he h => ⟨(face_kept _ _).quiet he h.1, h.2⟩
  lost := fun h => ⟨(face_kept _ _).lost h.1, h.2⟩

theorem before_openSerial {m : Modem} (hlog : m.log = []) :
    Triple (fun m' => m' = m) openSerial (Returns fun _ => Before m) := by
  have hstart : m.connected = false ∨ m.decoder = m.decoderAt → Before m m := fun hcase => by
    refine ⟨⟨fun hup => ?_, ?_, ?_⟩, rfl⟩
    · exact hcase.resolve_left fun hdown => absurd (hdown.symm.trans hup) (by decide)
    · rw [hlog]
      rfl
    · rw [hlog]
      exact fun f hf => absurd hf List.not_mem_nil
  cases hup : m.connected with
  | true =>
    rintro _ rfl
    rw [openSerial_up hup]
    exact hstart (Or.inr (if_pos hup).symm)
  | false =>
    have hnew : m.decoderAt = {} := if_neg (by simp [hup])
    refine ((before_kept m).openSerial ?_ ?_ fun h _ => ?_).pre ?_
    · exact (before_kept m).write (fun h => ⟨h.1.wrote _, h.2⟩) [0]
    · exact (before_kept m).request (fun h => ⟨h.1.wrote _, h.2⟩) fun hraw h => ⟨h.1.ask hraw, h.2⟩
    · exact ⟨h.1.log rfl ⟨rfl, rfl⟩ fun _ => hnew.symm, h.2⟩
    · rintro _ rfl
      exact hstart (Or.inl hup)

/-- What a call leaves that reads with `d`, from a port that has the bytes `raw`, and gets the bytes `got`: the first of
the frames are handled, and all that arrive if it returns. -/
def Read (d : StreamDecoder) (raw got : Bytes) (returns : Prop) (m : Modem) : Prop :=
  ∃ L, L <+: (d.feed raw).2 ∧ Face (· = (d.feed raw).1) L m ∧ (returns → L = (d.feed got).2)

theorem face_tick (idle : Bool) {m : Modem} (hlog : m.log = []) :
    Read m.decoderAt (m.io.read.getD []) m.bytesAt (∃ events, (tick idle m).1 = .ok events) (tick idle m).2 := by
  -- the state in which the port is read
  have hopen : Triple (fun m' => m' = m) openSerial (Returns fun _ m' => Before m m' ∧ m' = (openSerial m).2) := by
    intro m' hm
    rw [hm]
    have hbefore := before_openSerial hlog m rfl
    generalize openSerial m = res at hbefore
    obtain ⟨_ | u, m''⟩ := res
    · exact hbefore.elim
    · exact ⟨hbefore, rfl⟩
  have hkept := face_kept (· = (m.decoderAt.feed (m.io.read.getD [])).1) []
  have htick := hkept.tick idle (Q := fun r => Read m.decoderAt (m.io.read.getD []) m.bytesAt (∃ events, r = .ok events))
    hopen (fun h hcase => ⟨?_, ?_⟩) (fun h hup raw hraw => ?_)
  · exact htick m rfl
  · refine ⟨fun hup => ?_, h.1.1.frames, h.1.1.encodable⟩
    rcases hcase with hdown | hread
    · exact absurd (hdown.symm.trans hup) (by decide)
    · rw [← h.1.2, hread]
      exact h.1.1.decoder hup
  · have hnone : m.bytesAt = [] := by
      unfold bytesAt
      rcases hcase with hdown | hread
      · rw [← h.2, hdown]
        rfl
      · rw [← h.1.2, hread]
        exact ite_self _
    rw [hnone]
    exact fun r m' h => ⟨[], List.nil_prefix, h, fun _ => rfl⟩
  · have hsome : m.bytesAt = raw := by
      unfold bytesAt
      rw [← h.2, hup, if_pos rfl, ← h.1.2, hraw]
      rfl
    rw [hsome, ← h.1.2, hraw, Option.getD_some]
    refine (@face_tickRead (· = m.decoderAt) idle raw m.decoderAt).weaken ?_ ?_
    · rintro _ rfl
      exact ⟨h.1.1, h.1.1.decoder hup⟩
    · rintro r m' ⟨L, hprefix, hface, hall⟩
      exact ⟨L, hprefix, hface, fun ⟨events, hok⟩ => hall events hok⟩

variable {d : StreamDecoder} {raw got : Bytes} {returns : Prop} {m : Modem}

theorem Read.quiet {e : Event} (h : Read d raw got returns m) (he : Quiet e) :
    Read d raw got returns { m with log := m.log ++ [e] } := by
  obtain ⟨L, hprefix, hface, hall⟩ := h
  exact ⟨L, hprefix, (face_kept _ _).quiet he hface, hall⟩

/-- The other calls handle no frame, and neither open the port nor touch its decoder. -/
theorem step_deaf {i : Input} (hi : ∀ io idle, i ≠ .tick io idle) (m : Modem) :
    Face (fun d => m.connected = true ∧ d = m.decoder) [] (step i m) := by
  have henter : ∀ io, Face (fun d => m.connected = true ∧ d = m.decoder) [] (m.enter io) := fun io =>
    ⟨fun hup => ⟨hup, rfl⟩, rfl, fun f hf => absurd hf List.not_mem_nil⟩
  have hkept := face_kept (fun d => m.connected = true ∧ d = m.decoder) []
  cases i with
  | sendAir io payload =>
    have h := hkept.sendAir face_request payload (m.enter io) (henter io)
    rw [step]
    generalize sendAir payload (m.enter io) = res at h
    obtain ⟨_ | _ | sequence, m'⟩ := res <;> exact hkept.quiet (e := _) trivial h
  | tick io idle => exact absurd rfl (hi io idle)
  | takeTxOutcomes => exact hkept.quiet (e := .took m.txOutcomes) trivial (hkept.face (henter m.io) _ rfl rfl rfl rfl)
  | close io =>
    have h := hkept.close (m.enter io) (henter io)
    rw [step]
    generalize close (m.enter io) = res at h
    obtain ⟨_ | u, m'⟩ := res
    · exact hkept.quiet (e := _) trivial h
    · exact h

/-- The bytes that the port has for a call. -/
def readBy : Input → Bytes
  | .tick io _ => io.read.getD []
  | _ => []

/-- The bytes that a call of `m` gets. -/
def gotBy (m : Modem) : Input → Bytes
  | .tick io _ => (m.enter io).bytesAt
  | _ => []

/-- A tick returns. -/
def TickReturns (m : Modem) (i : Input) : Prop :=
  ∀ io idle, i = .tick io idle → ∃ events, (tick idle (m.enter io)).1 = .ok events

/-- A call leaves its decoder fed with the bytes of the port, and handles the frames that this yields, up to one at which
it raises. -/
theorem step_reads (i : Input) (m : Modem) : Read m.decoderAt (readBy i) (m.gotBy i) (m.TickReturns i) (step i m) := by
  by_cases hi : ∃ io idle, i = .tick io idle
  · obtain ⟨io, idle, rfl⟩ := hi
    obtain ⟨L, hprefix, hface, hall⟩ : Read m.decoderAt (io.read.getD []) (m.enter io).bytesAt
        (∃ events, (tick idle (m.enter io)).1 = .ok events) (step (.tick io idle) m) := by
      have h := @face_tick idle (m.enter io) rfl
      rw [step]
      generalize tick idle (m.enter io) = res at h ⊢
      obtain ⟨_ | events, m'⟩ := res <;> exact h.quiet (e := _) trivial
    exact ⟨L, hprefix, hface, fun hreturns => hall (hreturns io idle rfl)⟩
  · have hnone : readBy i = [] ∧ m.gotBy i = [] := by
      cases i with
      | tick io idle => exact absurd ⟨io, idle, rfl⟩ hi
      | sendAir | takeTxOutcomes | close => exact ⟨rfl, rfl⟩
    have h := step_deaf (fun io idle he => hi ⟨io, idle, he⟩) m
    rw [hnone.1, hnone.2]
    refine ⟨[], List.nil_prefix, ⟨fun hup => ?_, h.frames, h.encodable⟩, fun _ => rfl⟩
    obtain ⟨hwas, hsame⟩ := h.decoder hup
    exact hsame.trans (if_pos hwas).symm

/-! ## The frames of a run -/

/-- The frames that arrive in a call: what its decoder makes of the bytes. -/
def arrived (x : Move Modem Input) : List Frame := (x.before.decoderAt.feed (x.before.gotBy x.input)).2

end Modem

end LoraLink.Host
