import LoraLink.Firmware.Queue
import LoraLink.Host.Port
import LoraLink.Lib.Run
import LoraLink.Usb.Agreement
import LoraLink.Usb.Transparency

/-!
# Refused sends

The transport and the modem, joined by the bytes that the port takes. They reach the modem in order, whenever it reads
them, and its input buffer outlives a reopened port. What the transport reads, and when, is any input. A byte on the
wire is marked if `send_air` wrote it and returned `None`.

- `Harmless`: a frame that starts no transmission unless nothing in it is marked;
- `call_sound`: a call leaves harmless frames on the wire if it does not cut its frame right before the delimiter;
- `refused_untransmitted`: then no refused send is transmitted, and `refused_transmitted` is what happens otherwise.
-/

namespace LoraLink.Wire

open LoraLink.Firmware

/-- What happens on the link: a call of the transport, a byte that the modem reads, or another of its tasks. -/
inductive Event
  | called (i : Host.Modem.Input) (log : List Host.Event)
  | byte (refused : Bool) (z : UInt8) (calls : List Call)
  | task (calls : List Call)

structure Link where
  host : Host.Modem
  fw : Fw
  /-- The bytes on their way to the modem, marked if a refused send has written them. -/
  wire : List (Bool × UInt8) := []
  log : List Event := []

inductive Input
  | call (i : Host.Modem.Input)
  | usbByte (hw : Hw)
  | isr
  | radioTask (hw : Hw)
  | txWatchdog (hw : Hw)
  | flush (availableForWrite : Int) (written : Nat)

/-- The call is a send that returned `None`. -/
def refused : Host.Modem.Input → List Host.Event → Bool
  | .sendAir _ _, log =>
    match log.getLast? with
    | some .refused => true
    | _ => false
  | _, _ => false

def call (i : Host.Modem.Input) (s : Link) : Link :=
  let host := Host.Modem.step i s.host
  { s with
    host := host, log := [.called i host.log]
    wire := s.wire ++ (Host.writtenIn host.log).map fun z => (refused i host.log, z) }

/-- The modem reads the next byte, if there is one. -/
def usbByte (hw : Hw) (s : Link) : Link :=
  match s.wire with
  | [] => { s with log := [] }
  | (r, z) :: wire =>
    let fw := Fw.usbByte hw z { s.fw with calls := [] }
    { s with fw := fw, wire := wire, log := [.byte r z fw.calls] }

/-- The modem does something else. -/
def task (i : Firmware.Input) (s : Link) : Link :=
  let fw := Firmware.step i s.fw
  { s with fw := fw, log := [.task fw.calls] }

def next : Input → Link → Link
  | .call i, s => call i s
  | .usbByte hw, s => usbByte hw s
  | .isr, s => task .isr s
  | .radioTask hw, s => task (.radioTask hw) s
  | .txWatchdog hw, s => task (.txWatchdog hw) s
  | .flush availableForWrite written, s => task (.flush availableForWrite written) s

def init (d : Board) (draw : Nat) (reconnectSeconds : ℚ) : Link :=
  { host := Host.Modem.init draw reconnectSeconds, fw := setup d }

/-- The events of a move. -/
def eventsOf (x : Move Link Input) : List Event := x.after.log

/-- The events of a trace. -/
abbrev history (T : List (Move Link Input)) : List Event := outputs eventsOf T

/-- How an event changes the bytes that the modem has read since the last delimiter. -/
def frameOn (e : List (Bool × UInt8)) : Event → List (Bool × UInt8)
  | .byte r z _ => if z = 0 then [] else e ++ [(r, z)]
  | _ => e

/-- The bytes that the modem has read since the last delimiter. -/
def frameIn (H : List Event) : List (Bool × UInt8) := H.foldl frameOn []

/-- No frame whose reading starts a transmission has a byte of a refused send. -/
def Untransmitted (H : List Event) : Prop :=
  ∀ X r z calls Y, H = X ++ .byte r z calls :: Y → attempts calls ≠ [] → ∀ x ∈ frameIn X, x.1 = false

/-- The write of the frame of a send either succeeds, or the port takes less than the frame without its delimiter. -/
def clearCut (m : Host.Modem) : Input → Bool
  | .call (.sendAir io payload) =>
    !m.readyForSend || m.sequence == Host.Modem.maxSequence ||
      match Protocol.encodeFrame Protocol.Msg.radioSend m.session (m.sequence + 1) payload with
      | none => true
      | some raw => Host.completes io.writes raw.length || decide (Host.taken io.writes raw.length + 1 < raw.length)
  | _ => true

/-! ## The modem -/

/-- A frame that `handle` transmits. -/
structure Sends (b : Bytes) : Prop where
  wellFormed : wellFormed b = true
  typ : typeOf b = Firmware.Msg.send
  length : (payloadOf b).length ≤ AM

theorem handle_sends {hw : Hw} {b : Bytes} {s : Fw} (hcalls : s.calls = []) (h : attempts (s.handle hw b).calls ≠ []) :
    Sends b := by
  have hsent : (s.handle hw b).air.sent ≠ [] := h
  rcases Fw.air_handle hw b s with hair | ⟨⟨htyp, -, hlength⟩, -⟩
  · rw [hair, Fw.air, hcalls] at hsent
    exact absurd rfl hsent
  · refine ⟨?_, htyp, hlength⟩
    by_contra hno
    unfold Fw.handle at h
    rw [if_pos (by simpa using hno)] at h
    have hnone : attempts s.calls ≠ [] := h
    rw [hcalls] at hnone
    exact absurd rfl hnone

/-- A byte starts a transmission only as the delimiter of a frame. -/
theorem usbByte_sends {hw : Hw} {z : UInt8} {s : Fw} (h : attempts (Fw.usbByte hw z { s with calls := [] }).calls ≠ []) :
    z = 0 ∧ s.over = false ∧ s.inb ≠ [] ∧ ∃ b, dec s.inb = some b ∧ Sends b := by
  unfold Fw.usbByte at h
  by_cases hz : z = 0
  · rw [if_pos hz] at h
    simp only at h
    by_cases hopen : s.over = false ∧ s.inb ≠ []
    · rw [if_pos hopen] at h
      cases hdec : dec s.inb with
      | none =>
        rw [hdec] at h
        exact absurd rfl h
      | some b =>
        rw [hdec] at h
        exact ⟨hz, hopen.1, hopen.2, b, rfl, handle_sends rfl h⟩
    · rw [if_neg hopen] at h
      exact absurd rfl h
  · rw [if_neg hz] at h
    exfalso
    split at h
    · exact h rfl
    · split at h
      · exact h rfl
      · exact h rfl

/-- The input buffer. -/
def input (s : Fw) : Bytes × Bool := (s.inb, s.over)

theorem input_keeps (i : Bytes × Bool) : Fw.Keeps (fun _ => True) fun s => input s = i where
  face := by
    intro s h s' houter _
    simp only [Fw.outer, Prod.mk.injEq] at houter
    obtain ⟨hinb, hover, -⟩ := houter
    rw [input, hinb, hover]
    exact h
  put := by
    intro s b _ h
    obtain ⟨q, qt, qn, drops, queued, heq⟩ := s.putQ_fields b false
    rw [heq]
    exact h
  resp := fun _ h => h
  kept := fun _ => trivial
  other := fun _ => trivial

theorem input_received (hw : Hw) (b : Bytes) (n : Nat) (s : Fw) : input (s.received hw b n) = input s := by
  unfold Fw.received
  simp only
  split
  · rfl
  · split
    · rfl
    · split
      · rfl
      · obtain ⟨q, qt, qn, drops, queued, heq⟩ := Fw.putQ_fields (s.count fun c => { c with rx := c.rx + 1 }) _ true
        rw [heq]
        rfl

/-- Nothing but the reading of bytes changes the input buffer. -/
theorem input_step {i : Firmware.Input} (hi : ∀ hw b, i ≠ .handle hw b) (s : Fw) :
    input (Firmware.step i s) = input s := by
  have hkeeps := input_keeps (input s)
  have hbegin : input { s with calls := [] } = input s := rfl
  cases i with
  | handle hw b => exact absurd rfl (hi hw b)
  | isr => rfl
  | radioTask hw => exact hkeeps.radioTask hbegin hw (fun _ _ _ _ _ => trivial) fun _ => input_received hw _ _ _
  | txWatchdog hw => exact hkeeps.txWatchdog hbegin hw
  | flush availableForWrite written =>
    show input (Fw.flush { s with calls := [] } availableForWrite written) = _
    unfold Fw.flush
    split
    · rfl
    · simp only
      split
      · rfl
      · rfl

/-! ## Frames on the wire -/

/-- A frame that starts no transmission, unless nothing in it is marked. -/
def Harmless (e : List (Bool × UInt8)) : Prop :=
  ∀ b, dec (e.map Prod.snd) = some b → Sends b → ∀ x ∈ e, x.1 = false

/-- Behind the bytes `e` of a frame, the wire completes harmless frames, and leaves one. -/
def Safe (e : List (Bool × UInt8)) : List (Bool × UInt8) → Prop
  | [] => Harmless e
  | x :: wire => if x.2 = 0 then Harmless e ∧ Safe [] wire else Safe (e ++ [x]) wire

/-- The bytes behind the last delimiter. -/
def rest (e : List (Bool × UInt8)) : List (Bool × UInt8) → List (Bool × UInt8)
  | [] => e
  | x :: wire => if x.2 = 0 then rest [] wire else rest (e ++ [x]) wire

variable {e w w' : List (Bool × UInt8)}

theorem rest_append (w' : List (Bool × UInt8)) : rest e (w ++ w') = rest (rest e w) w' := by
  induction w generalizing e with
  | nil => rfl
  | cons x w ih =>
    simp only [List.cons_append, rest]
    split
    · exact ih
    · exact ih

theorem Safe.append (h : Safe e w) (h' : Safe (rest e w) w') : Safe e (w ++ w') := by
  induction w generalizing e with
  | nil => exact h'
  | cons x w ih =>
    simp only [Safe, rest, List.cons_append] at h h' ⊢
    split
    · rename_i hz
      rw [if_pos hz] at h h'
      exact ⟨h.1, ih h.2 h'⟩
    · rename_i hz
      rw [if_neg hz] at h h'
      exact ih h h'

theorem Safe.rest (h : Safe e w) : Harmless (rest e w) := by
  induction w generalizing e with
  | nil => exact h
  | cons x w ih =>
    simp only [Safe, Wire.rest] at h ⊢
    split
    · rename_i hz
      rw [if_pos hz] at h
      exact ih h.2
    · rename_i hz
      rw [if_neg hz] at h
      exact ih h

/-- Nothing is marked. -/
theorem harmless_unmarked (h : ∀ x ∈ e, x.1 = false) : Harmless e := fun _ _ _ => h

theorem safe_unmarked (he : ∀ x ∈ e, x.1 = false) (hw : ∀ x ∈ w, x.1 = false) : Safe e w := by
  induction w generalizing e with
  | nil => exact harmless_unmarked he
  | cons x w ih =>
    have hrest : ∀ y ∈ w, y.1 = false := fun y hy => hw y (List.mem_cons_of_mem _ hy)
    simp only [Safe]
    split
    · exact ⟨harmless_unmarked he, ih (by simp) hrest⟩
    · refine ih (fun y hy => ?_) hrest
      rcases List.mem_append.mp hy with hy | hy
      · exact he y hy
      · rw [List.mem_singleton.mp hy]
        exact hw x List.mem_cons_self

theorem rest_snoc (x : Bool × UInt8) (hx : x.2 = 0) : rest e (w ++ [x]) = [] := by
  rw [rest_append]
  simp [rest, hx]

/-- Bytes without a delimiter belong to the frame. -/
theorem rest_nonzero (h : ∀ x ∈ w, x.2 ≠ 0) : rest e w = e ++ w := by
  induction w generalizing e with
  | nil => exact (List.append_nil e).symm
  | cons x w ih =>
    rw [rest, if_neg (h x List.mem_cons_self), ih fun y hy => h y (List.mem_cons_of_mem _ hy), List.append_assoc]
    rfl

theorem safe_nonzero (h : ∀ x ∈ w, x.2 ≠ 0) : Safe e w ↔ Harmless (e ++ w) := by
  induction w generalizing e with
  | nil => rw [Safe, List.append_nil]
  | cons x w ih =>
    rw [Safe, if_neg (h x List.mem_cons_self), ih fun y hy => h y (List.mem_cons_of_mem _ hy), List.append_assoc]
    rfl

/-! ## What a call leaves on the wire -/

open Protocol in
/-- Of a frame that is cut, the modem finds nothing to transmit before its last byte. -/
theorem cut_sends {typ session sequence : Nat} {payload raw p b : Bytes}
    (hraw : encodeFrame typ session sequence payload = some raw)
    (hp : p <+: cobsEncode (rawFrame typ session sequence payload)) (hdec : dec p = some b) (hb : Sends b) :
    b = rawFrame typ session sequence payload ∧ p = cobsEncode (rawFrame typ session sequence payload) := by
  have hpayload : payload.length ≤ 256 := by
    simp only [encodeFrame, Option.ite_none_left_eq_some] at hraw
    exact Nat.not_lt.mp hraw.2.1
  have hlength := length_frame (UInt8.ofNat typ) session sequence payload
  have hlengthOf := lengthOf_frame (UInt8.ofNat typ) session sequence payload
  rw [frame_eq_rawFrame] at hlength hlengthOf
  rw [Nat.mod_eq_of_lt (by omega)] at hlengthOf
  generalize rawFrame typ session sequence payload = d at hp hlength hlengthOf ⊢
  have hwf := hb.wellFormed
  simp only [wellFormed, Bool.and_eq_true, decide_eq_true_eq, beq_iff_eq] at hwf
  obtain ⟨⟨⟨⟨⟨⟨⟨h18, -⟩, -⟩, -⟩, -⟩, -⟩, hown⟩, -⟩ := hwf
  have hne : p ≠ [] := by
    rintro rfl
    obtain rfl : [] = b := Option.some.inj hdec
    simp at h18
  rw [dec_eq hne, cobsDecode_eq hne, Option.bind_eq_some_iff] at hdec
  obtain ⟨b', hread, hroom⟩ := hdec
  obtain rfl : b' = b := by
    split at hroom
    · exact Option.some.inj hroom
    · cases hroom
  rw [cobsEncode_eq_stuff] at hp ⊢
  by_cases hwhole : p = Cobs.stuff d
  · rw [hwhole, Cobs.unstuff_stuff] at hread
    exact ⟨(Option.some.inj hread).symm, hwhole⟩
  · exfalso
    have hd : d ≠ [] := by
      rintro rfl
      rw [List.length_nil] at hlength
      omega
    obtain ⟨⟨r, hr⟩, hfull⟩ := Cobs.unstuff_prefix hd hp hwhole hread
    have hsame : lengthOf d = lengthOf b' := by
      rw [← hr, lengthOf, lengthOf, r16, r16, u16, u16, List.drop_append_of_le_length (by omega)]
      rw [byteAt_append_left (by rw [List.length_drop]; omega), byteAt_append_left (by rw [List.length_drop]; omega)]
    have hall : b'.length = d.length := by omega
    have hb' : b' = d := by
      rw [← hr, List.length_append] at hall
      rw [← hr, List.eq_nil_of_length_eq_zero (by omega : r.length = 0), List.append_nil]
    have hshort := hb.length
    rw [Fw.length_payloadOf hb.wellFormed] at hshort
    have hlong := hfull hb'
    simp only [AM] at hshort
    omega

open Protocol in
/-- A marked part of a frame is harmless if it is no send, or not all that is before the delimiter. -/
theorem cut_safe {typ session sequence : Nat} {payload raw p : Bytes}
    (hraw : encodeFrame typ session sequence payload = some raw) (hp : p <+: raw)
    (hno : Sends (rawFrame typ session sequence payload) → p.length + 1 < raw.length) :
    Safe [] (p.map fun z => (true, z)) := by
  have hends := Host.Modem.encodeFrame_ends hraw
  have hnonzero : ∀ p : Bytes, p <+: cobsEncode (rawFrame typ session sequence payload) →
      ∀ x ∈ p.map fun z => (true, z), x.2 ≠ 0 := by
    intro p hp x hx
    obtain ⟨z, hz, rfl⟩ := List.mem_map.mp hx
    have hmem := hp.subset hz
    rw [cobsEncode_eq_stuff] at hmem
    exact Cobs.stuff_ne_zero _ z hmem
  have hharmless : ∀ p' : Bytes, p' <+: p → p' <+: cobsEncode (rawFrame typ session sequence payload) →
      Harmless (p'.map fun z => (true, z)) := by
    intro p' hpre hp' b hdec hb
    have hsnd : (p'.map fun z => (true, z)).map Prod.snd = p' := by
      rw [List.map_map]
      exact List.map_id p'
    rw [hsnd] at hdec
    obtain ⟨rfl, hwhole⟩ := cut_sends hraw hp' hdec hb
    have hshort := hno hb
    have hle := hpre.length_le
    rw [hends, ← hwhole, List.length_append, List.length_singleton] at hshort
    omega
  rw [hends] at hp
  rcases List.prefix_concat_iff.mp hp with hall | hpart
  · have hpre := List.prefix_append (cobsEncode (rawFrame typ session sequence payload)) [0]
    rw [← hall] at hpre
    rw [hall, List.map_append]
    refine Safe.append ((safe_nonzero (hnonzero _ (List.prefix_refl _))).mpr (hharmless _ hpre (List.prefix_refl _))) ?_
    rw [rest_nonzero (hnonzero _ (List.prefix_refl _))]
    exact ⟨hharmless _ hpre (List.prefix_refl _), fun _ _ _ x hx => absurd hx List.not_mem_nil⟩
  · exact (safe_nonzero (hnonzero _ hpart)).mpr (hharmless _ (List.prefix_refl _) hpart)

/-- A send that was refused, by its log. -/
theorem refused_log {io : Host.Io} {payload : Bytes} {m : Host.Modem}
    (h : refused (.sendAir io payload) (Host.Modem.step (.sendAir io payload) m).log = true) :
    ∃ m', Host.Modem.sendAir payload (m.enter io) = (.ok none, m') ∧
      Host.Modem.step (.sendAir io payload) m = m'.leave [.refused] := by
  rw [Host.Modem.step] at h ⊢
  generalize Host.Modem.sendAir payload (m.enter io) = res at h ⊢
  obtain ⟨e | _ | sequence, m'⟩ := res
  · simp [refused, Host.Modem.leave] at h
  · exact ⟨m', rfl, rfl⟩
  · simp [refused, Host.Modem.leave] at h

/-- A call leaves harmless frames on the wire, and the last one is closed while the port is open. -/
theorem call_sound (i : Host.Modem.Input) {m : Host.Modem} {e : List (Bool × UInt8)} (he : Harmless e)
    (hclosed : m.connected = true → e = []) (hclear : clearCut m (.call i) = true) {r : Bool}
    (hr : refused i (Host.Modem.step i m).log = r) :
    Safe e ((Host.writtenIn (Host.Modem.step i m).log).map fun z => (r, z)) ∧
      ((Host.Modem.step i m).connected = true →
        rest e ((Host.writtenIn (Host.Modem.step i m).log).map fun z => (r, z)) = []) := by
  have hlined := Host.Modem.step_lined i m
  refine ⟨?_, fun hup => ?_⟩
  · by_cases hnothing : Host.writtenIn (Host.Modem.step i m).log = []
    · rw [hnothing]
      exact he
    · cases r with
      | false =>
        have hunmarked : ∀ bs : Bytes, ∀ x ∈ bs.map fun z => (false, z), x.1 = false := by
          intro bs x hx
          obtain ⟨z, -, rfl⟩ := List.mem_map.mp hx
          rfl
        cases hup : m.connected with
        | true =>
          rw [hclosed hup]
          exact safe_unmarked (by simp) (hunmarked _)
        | false =>
          have hhead := (hlined.begins hup).resolve_left hnothing
          obtain ⟨bs, hbs⟩ := List.head?_eq_some_iff.mp hhead
          rw [hbs, List.map_cons, Safe, if_pos rfl]
          exact ⟨he, safe_unmarked (by simp) (hunmarked bs)⟩
      | true =>
        cases i with
        | tick | takeTxOutcomes | close => cases hr
        | sendAir io payload =>
          obtain ⟨m', hrun, hstep⟩ := refused_log hr
          have hcut := @Host.Modem.sendAir_cut payload (m.enter io) rfl (m.enter io) rfl
          rw [hrun] at hcut
          have hlog : Host.writtenIn (Host.Modem.step (.sendAir io payload) m).log = Host.writtenIn m'.log := by
            rw [hstep]
            exact Host.Modem.writtenIn_quiet (e := .refused) trivial _
          rw [hlog] at hnothing ⊢
          obtain ⟨hup, raw, hpre, hframe⟩ := (hcut rfl).resolve_left hnothing
          rw [hclosed hup]
          rcases hframe with ⟨session, sequence, hraw⟩ | ⟨hready, hmax, hraw, hfails, hwritten⟩
          · refine cut_safe hraw hpre fun hsends => ?_
            have htyp := hsends.typ
            rw [← frame_eq_rawFrame, typeOf_frame] at htyp
            exact absurd htyp (by decide)
          · refine cut_safe hraw hpre fun _ => ?_
            have hready' : m.readyForSend = true := hready
            have hmax' : (m.sequence == Host.Modem.maxSequence) = false := beq_false_of_ne hmax
            have hraw' : Protocol.encodeFrame Protocol.Msg.radioSend m.session (m.sequence + 1) payload = some raw := hraw
            have hfails' : Host.completes io.writes raw.length = false := hfails
            simp only [clearCut, hready', hmax', hraw', hfails', Bool.not_true, Bool.false_or,
              decide_eq_true_eq] at hclear
            have hle : (Host.writtenIn m'.log).length ≤ Host.taken io.writes raw.length := by
              rw [hwritten, List.length_take]
              exact Nat.min_le_left _ _
            omega
  · rcases hlined.ends hup with ⟨hnothing, hwas⟩ | hlast
    · rw [hnothing]
      exact hclosed hwas
    · obtain ⟨bs, hbs⟩ := List.getLast?_eq_some_iff.mp hlast
      rw [hbs, List.map_append]
      exact rest_snoc (r, 0) rfl

/-! ## Every run -/

theorem frameIn_append (H E : List Event) : frameIn (H ++ E) = E.foldl frameOn (frameIn H) := List.foldl_append

/-- What holds after the events `H`. -/
structure Sound (H : List Event) (s : Link) : Prop where
  /-- The input buffer holds the bytes since the last delimiter, as far as it has room. -/
  buffer : ∃ d, Alongside ((frameIn H).map Prod.snd) s.fw d
  safe : Safe (frameIn H) s.wire
  closed : s.host.connected = true → rest (frameIn H) s.wire = []
  untransmitted : Untransmitted H

theorem Untransmitted.snoc {H : List Event} (h : Untransmitted H) {e : Event} (he : ∀ r z calls, e = .byte r z calls →
    attempts calls ≠ [] → ∀ x ∈ frameIn H, x.1 = false) : Untransmitted (H ++ [e]) := by
  intro X r z calls Y hsplit
  rcases List.append_eq_append_iff.mp hsplit with ⟨Z, rfl, hZ⟩ | ⟨Z, rfl, hZ⟩
  · rcases List.cons_eq_append_iff.mp hZ with ⟨rfl, hY⟩ | ⟨Z', rfl, hnil⟩
    · rw [List.append_nil]
      exact he r z calls (List.cons.inj hY).1.symm
    · simp at hnil
  · rcases List.cons_eq_append_iff.mp hZ with ⟨rfl, hY⟩ | ⟨Z', rfl, -⟩
    · rw [List.append_nil] at he
      exact he r z calls (List.cons.inj hY).1
    · exact h X r z calls Z' rfl

theorem Alongside.of_input {e : Bytes} {s s' : Fw} {d : Protocol.StreamDecoder} (h : Alongside e s d)
    (hs : input s' = input s) : Alongside e s' d := by
  obtain ⟨hinb, hover⟩ := Prod.mk.inj hs
  exact { h with inb := hinb.trans h.inb, «over» := hover.trans h.over }

theorem Sound.task {H : List Event} {s : Link} (h : Sound H s) {i : Firmware.Input} (hi : ∀ hw b, i ≠ .handle hw b) :
    Sound (H ++ (task i s).log) (task i s) := by
  have hframe : frameIn (H ++ (Wire.task i s).log) = frameIn H := frameIn_append H _
  obtain ⟨d, hd⟩ := h.buffer
  refine ⟨⟨d, ?_⟩, ?_, ?_, h.untransmitted.snoc fun r z calls he => by cases he⟩
  · rw [hframe]
    exact Alongside.of_input hd (input_step hi s.fw)
  · rw [hframe]
    exact h.safe
  · rw [hframe]
    exact h.closed

theorem Sound.usbByte {H : List Event} {s : Link} (h : Sound H s) (hw : Hw) :
    Sound (H ++ (usbByte hw s).log) (usbByte hw s) := by
  cases hwire : s.wire with
  | nil =>
    have hrun : Wire.usbByte hw s = { s with log := [] } := by
      unfold Wire.usbByte
      rw [hwire]
    rw [hrun, List.append_nil]
    exact ⟨h.buffer, h.safe, h.closed, h.untransmitted⟩
  | cons x wire =>
    obtain ⟨r, z⟩ := x
    have hsends := @usbByte_sends hw z s.fw
    obtain ⟨d, hd⟩ := h.buffer
    have hbuffer : ∃ d, Alongside ((if z = 0 then [] else frameIn H ++ [(r, z)]).map Prod.snd)
        (Fw.usbByte hw z { s.fw with calls := [] }) d := by
      have hstart : Alongside ((frameIn H).map Prod.snd) { s.fw with calls := [] } d := Alongside.of_input hd rfl
      by_cases hz : z = 0
      · rw [if_pos hz, hz]
        exact ⟨_, alongside_zero hstart hw⟩
      · rw [if_neg hz, List.map_append]
        exact ⟨_, alongside_byte hstart hw hz⟩
    have hrun : Wire.usbByte hw s = { s with
        fw := Fw.usbByte hw z { s.fw with calls := [] }, wire := wire
        log := [.byte r z (Fw.usbByte hw z { s.fw with calls := [] }).calls] } := by
      unfold Wire.usbByte
      rw [hwire]
    rw [hrun]
    generalize Fw.usbByte hw z { s.fw with calls := [] } = fw at hsends hbuffer
    have hframe : frameIn (H ++ [.byte r z fw.calls]) = if z = 0 then [] else frameIn H ++ [(r, z)] := frameIn_append H _
    have hsafe := h.safe
    have hclosed := h.closed
    rw [hwire] at hsafe hclosed
    refine ⟨?_, ?_, ?_, h.untransmitted.snoc fun r' z' calls he hne => ?_⟩
    · rw [hframe]
      exact hbuffer
    · rw [hframe]
      simp only [Safe] at hsafe
      by_cases hz : z = 0
      · rw [if_pos hz] at hsafe ⊢
        exact hsafe.2
      · rw [if_neg hz] at hsafe ⊢
        exact hsafe
    · rw [hframe]
      simp only [rest] at hclosed
      by_cases hz : z = 0
      · rw [if_pos hz] at hclosed ⊢
        exact hclosed
      · rw [if_neg hz] at hclosed ⊢
        exact hclosed
    · obtain ⟨rfl, rfl, rfl⟩ := Event.byte.inj he
      obtain ⟨rfl, hopen, -, b, hdec, hb⟩ := hsends hne
      simp only [Safe, if_true] at hsafe
      have hroom : (frameIn H).length ≤ UE := by
        have hover := hd.over
        rw [hopen, List.length_map] at hover
        exact Nat.not_lt.mp (of_decide_eq_false hover.symm)
      rw [hd.inb, List.take_of_length_le (by rwa [List.length_map])] at hdec
      exact hsafe.1 b hdec hb

theorem Sound.call {H : List Event} {s : Link} (h : Sound H s) {i : Host.Modem.Input}
    (hclear : clearCut s.host (.call i) = true) : Sound (H ++ (call i s).log) (call i s) := by
  have hframe : frameIn (H ++ (Wire.call i s).log) = frameIn H := frameIn_append H _
  obtain ⟨hsafe, hclosed⟩ := call_sound i h.safe.rest h.closed hclear rfl
  refine ⟨?_, ?_, fun hup => ?_, h.untransmitted.snoc fun r z calls he => by cases he⟩
  · rw [hframe]
    exact h.buffer
  · rw [hframe]
    exact h.safe.append hsafe
  · rw [hframe]
    exact (rest_append _).trans (hclosed hup)

theorem init_sound (d : Board) (draw : Nat) (reconnectSeconds : ℚ) : Sound [] (init d draw reconnectSeconds) := by
  obtain ⟨hinb, hover⟩ := setup_buffer d
  refine ⟨⟨{}, fun x hx => absurd hx List.not_mem_nil, hinb, hover, rfl, rfl, rfl⟩, ?_, fun hup => rfl, ?_⟩
  · exact fun _ _ _ x hx => absurd hx List.not_mem_nil
  · intro X r z calls Y hsplit
    simp at hsplit

/-- **Refused sends**: in a run in which the port never takes all of a refused send but its delimiter or more, the modem
never transmits one. -/
theorem refused_untransmitted (d : Board) (draw : Nat) (reconnectSeconds : ℚ) (is : List Input)
    (hclear : ∀ x ∈ trace next (init d draw reconnectSeconds) is, clearCut x.before.host x.input = true) :
    Untransmitted (history (trace next (init d draw reconnectSeconds) is)) := by
  have hrun := @run_rel _ _ next _ eventsOf Sound (fun x => clearCut x.before.host x.input = true) [] _
    (init_sound d draw reconnectSeconds) ?_ is hclear
  · rw [List.nil_append] at hrun
    exact hrun.untransmitted
  · intro H i s h hgood
    cases i with
    | call i => exact h.call hgood
    | usbByte hw => exact h.usbByte hw
    | isr => exact h.task (by simp)
    | radioTask hw => exact h.task (by simp)
    | txWatchdog hw => exact h.task (by simp)
    | flush availableForWrite written => exact h.task (by simp)

/-! ## A refused send that is transmitted -/

/-- The bytes that the modem has written to the port. -/
def writtenBack (H : List Event) : Bytes := H.flatMap fun
  | .task calls => calls.flatMap fun
    | .serialWrite bs => bs
    | _ => []
  | _ => []

/-- A call has been a refused send. -/
def refusedIn (H : List Event) : Bool := H.any fun
  | .called i log => refused i log
  | _ => false

/-- The modem's answer to the first `HELLO`. -/
def answer : Bytes :=
  Firmware.enc (frame Firmware.Msg.info 7 1
    ([0, 0, 0, 0, 0, 0] ++ w32 1 ++ w32 15 ++ w16 AM ++ [1, 1] ++ w32 0)) ++ [0]

/-- A session is opened and answered; then a send, of whose frame the port takes `n` bytes before it raises; then the
port is reopened, and the modem reads the next byte. -/
def cutRun (n : Nat) : List Input :=
  let io : Host.Io := { writes := [.wrote 100, .wrote 100], draws := fun _ => 6 }
  [.call (.tick io true)] ++ List.replicate 21 (.usbByte {}) ++ [.flush 100 100] ++
    [.call (.tick { read := some answer } false), .call (.sendAir { writes := [.raised n] } [5])] ++
    List.replicate n (.usbByte {}) ++ [.call (.tick { io with clock := fun _ => 2 } true)]

/-- A byte read after the events `H`, with a byte of a refused send before it in its frame, starts a transmission. -/
theorem usbByte_transmits {H : List Event} {s : Link} {hw : Hw} (hwire : s.wire ≠ [])
    (hstarts : (attempts (usbByte hw s).fw.calls).isEmpty = false) (hmark : (frameIn H).any Prod.fst = true) :
    ¬ Untransmitted (H ++ (usbByte hw s).log) := by
  intro h
  obtain ⟨⟨r, z⟩, wire, hcons⟩ := List.exists_cons_of_ne_nil hwire
  have hlog : (usbByte hw s).log = [.byte r z (usbByte hw s).fw.calls] := by
    unfold usbByte
    rw [hcons]
  rw [hlog] at h
  obtain ⟨x, hx, htrue⟩ := List.any_eq_true.mp hmark
  have hfalse := h H r z _ [] rfl (fun hnil => by rw [hnil] at hstarts; exact absurd hstarts (by decide)) x hx
  rw [hfalse] at htrue
  exact absurd htrue (by decide)

/-- The port takes all of the frame but its delimiter; the send is refused, and the delimiter with which the reopened
port starts completes the frame. -/
theorem refused_transmitted :
    writtenBack (history (trace next (init {} 0 1) (cutRun 20 ++ [.usbByte {}]))) = answer ∧
      refusedIn (history (trace next (init {} 0 1) (cutRun 20 ++ [.usbByte {}]))) = true ∧
      ¬ Untransmitted (history (trace next (init {} 0 1) (cutRun 20 ++ [.usbByte {}]))) := by
  refine ⟨by decide +kernel, by decide +kernel, ?_⟩
  have hhistory : history (trace next (init {} 0 1) (cutRun 20 ++ [.usbByte {}])) =
      history (trace next (init {} 0 1) (cutRun 20)) ++ (usbByte {} (run next (init {} 0 1) (cutRun 20))).log := by
    rw [trace_snoc]
    exact (outputs_append _ _).trans (congrArg _ (List.append_nil _))
  rw [hhistory]
  exact usbByte_transmits (by decide +kernel) (by decide +kernel) (by decide +kernel)

/-- The port takes half of the frame. -/
theorem refused_untransmitted_cutRun :
    refusedIn (history (trace next (init {} 0 1) (cutRun 10 ++ [.usbByte {}]))) = true ∧
      Untransmitted (history (trace next (init {} 0 1) (cutRun 10 ++ [.usbByte {}]))) := by
  refine ⟨by decide +kernel, refused_untransmitted {} 0 1 (cutRun 10 ++ [.usbByte {}]) ?_⟩
  have hall : (trace next (init {} 0 1) (cutRun 10 ++ [.usbByte {}])).all
      (fun x => clearCut x.before.host x.input) = true := by decide +kernel
  exact fun x hx => List.all_eq_true.mp hall x hx

end LoraLink.Wire
