import LoraLink.App.Reassembler
import LoraLink.Lib.Run
import LoraLink.Service.Base

/-!
# The robot service

`RobotService` of `service.py` over any transport. Of the TCP output only what it answers matters to the service: how
many clients a published frame reaches. `log` lists what the current call did, as in `BaseService`.

- `Relays`: a relation between the payloads acted on, the frames published and the reassembler;
- `run_spec`: what every payload keeps, every run keeps, whatever the transport delivers and the output answers.
-/

namespace LoraLink.Service

open LoraLink.Application LoraLink.Host Prog
open scoped List

/-- What escapes from a step of the robot. -/
inductive RobotFailure
  | transport (e : Exn)
  | keyError
  | outputError
deriving DecidableEq, Repr

inductive RobotEvent
  | received (payloads : List Bytes)
  | published (raw : Bytes)
  | raised (e : RobotFailure)
deriving DecidableEq, Repr

/-- The metrics of the robot. -/
inductive RobotMetric
  | applicationDecodeFailures
  | applicationNonRtcmFrames
  | rtcmFragmentsAccepted
  | rtcmFragmentsRejected
  | rtcmFramesCompleted
  | rtcmFramesDelivered
  | rtcmOutputBytes
  | rtcmTcpClientsDelivered
  | rtcmReassemblyTimeouts
  | rtcmReassemblyConflicts
deriving DecidableEq, Repr

/-- What the output answers during one call: the clients that each published frame reaches, unless `publish` raises,
and whether `flush` returns. -/
structure Output where
  publish : Nat → Option Nat := fun _ => some 0
  flush : Bool := true

structure RobotService (T : Type) where
  transport : T
  output : Output := {}
  reassembler : Reassembler := {}
  metrics : Metrics RobotMetric := .empty
  log : List RobotEvent := []

namespace RobotService

variable {T E : Type}

abbrev Op (T α : Type) : Type := Prog (RobotService T) RobotFailure α

/-- A call of a method of the transport. -/
def ofTransport {α : Type} (x : Prog T Exn α) : Op T α := fun r =>
  match x r.transport with
  | (.ok a, t) => (.ok a, { r with transport := t })
  | (.error e, t) => (.error (.transport e), { r with transport := t })

def note (e : RobotEvent) : Op T Unit := modify fun r => { r with log := r.log ++ [e] }

def add (name : RobotMetric) (amount : Nat := 1) : Op T Unit :=
  modify fun r => { r with metrics := r.metrics.add name amount }

def set (name : RobotMetric) (value : Nat) : Op T Unit :=
  modify fun r => { r with metrics := r.metrics.set name value }

/-- `self.output.publish(raw)`. -/
def publish (raw : Bytes) : Op T Nat := do
  note (.published raw)
  let answers := (← get).output.publish
  modify fun r => { r with output := { r.output with publish := fun k => answers (k + 1) } }
  match answers 0 with
  | some delivered => return delivered
  | none => raise .outputError

/-- `self.reassembler.add(frame, now)`, with what it returns or raises as its value. -/
def reassemble (f : Frame) (now : ℚ) : Op T (Except Raised (Option Bytes)) := fun r =>
  let (result, reassembler) := r.reassembler.add f now
  (.ok result, { r with reassembler := reassembler })

/-- The body of the loop of `step`. -/
def receive (now : ℚ) (payload : Bytes) : Op T Unit := do
  match decode payload with
  | .error _ => add .applicationDecodeFailures
  | .ok f =>
    if f.typ ≠ rtcmFragment then add .applicationNonRtcmFrames
    else
      match ← reassemble f now with
      | .error .keyError => raise .keyError
      | .error (.applicationError _) => add .rtcmFragmentsRejected
      | .ok none => add .rtcmFragmentsAccepted
      | .ok (some raw) => do
        add .rtcmFragmentsAccepted
        add .rtcmFramesCompleted
        add .rtcmFramesDelivered
        add .rtcmOutputBytes raw.length
        let delivered ← publish raw
        add .rtcmTcpClientsDelivered delivered

/-- `self.output.flush()`. -/
def flush : Op T Unit := do
  if (← get).output.flush then pure () else raise .outputError

def step [Transport T E] (io : E) (now : ℚ) : Op T Unit := do
  let payloads ← ofTransport (Transport.tick io true)
  note (.received payloads)
  forEach (receive now) payloads
  modify fun r => { r with reassembler := (r.reassembler.expire now).2 }
  flush
  let r ← get
  set .rtcmReassemblyTimeouts r.reassembler.timeoutCount
  set .rtcmReassemblyConflicts r.reassembler.conflictCount

/-! ## Start and steps -/

/-- `RobotService(transport, output, metrics)`. -/
def init (t : T) : RobotService T := { transport := t }

/-- One step, with what the outside answers during it. -/
structure Input (E : Type) where
  io : E
  output : Output := {}
  now : ℚ

/-- One call of `step`; if something escapes from it, that stands at the end of the log. -/
def next [Transport T E] (i : Input E) (r : RobotService T) : RobotService T :=
  match step i.io i.now { r with output := i.output, log := [] } with
  | (.ok _, r) => r
  | (.error e, r) => { r with log := r.log ++ [.raised e] }

/-- The events of a move. -/
def eventsOf (x : Move (RobotService T) (Input E)) : List RobotEvent := x.after.log

/-- The events of a trace. -/
abbrev history (trace : List (Move (RobotService T) (Input E))) : List RobotEvent := outputs eventsOf trace

/-! ## What a run keeps -/

/-- The payloads that the transport has delivered. -/
def receivedIn (H : List RobotEvent) : List Bytes := H.flatMap fun
  | .received payloads => payloads
  | _ => []

/-- The frames that were published. -/
def publishedIn (H : List RobotEvent) : List Bytes := H.filterMap fun
  | .published raw => some raw
  | _ => none

/-- The frame that `add` has returned. -/
def returned : Except Raised (Option Bytes) → List Bytes
  | .ok (some raw) => [raw]
  | _ => []

/-- A relation between the payloads acted on, the frames published and the reassembler, kept by everything that the
robot does with a payload. -/
structure Relays (I : List Bytes → List Bytes → Reassembler → Prop) : Prop where
  skip : ∀ {done published r payload}, I done published r →
    (∀ f, decode payload = .ok f → f.typ ≠ rtcmFragment) → I (done ++ [payload]) published r
  add : ∀ {done published r payload f now}, I done published r → decode payload = .ok f → f.typ = rtcmFragment →
    I (done ++ [payload]) (published ++ returned (r.add f now).1) (r.add f now).2
  expire : ∀ {done published r now}, I done published r → I done published (r.expire now).2

section Relays

variable {I : List Bytes → List Bytes → Reassembler → Prop} {H : List RobotEvent} {R : List Bytes}

@[simp] theorem publishedIn_append (H H' : List RobotEvent) : publishedIn (H ++ H') = publishedIn H ++ publishedIn H' :=
  List.filterMap_append

@[simp] theorem receivedIn_append (H H' : List RobotEvent) : receivedIn (H ++ H') = receivedIn H ++ receivedIn H' :=
  List.flatMap_append

/-- The payloads `done` have been acted on; the transport has delivered `received`. -/
structure Relayed (I : List Bytes → List Bytes → Reassembler → Prop) (H : List RobotEvent) (done received : List Bytes)
    (r : RobotService T) : Prop where
  received : receivedIn (H ++ r.log) = received
  keeps : I done (publishedIn (H ++ r.log)) r.reassembler

/-- Some of the payloads delivered have been acted on, in order. -/
def Relaying (I : List Bytes → List Bytes → Reassembler → Prop) (H : List RobotEvent) (r : RobotService T) : Prop :=
  ∃ done, done <+ receivedIn (H ++ r.log) ∧ I done (publishedIn (H ++ r.log)) r.reassembler

variable {done : List Bytes}

theorem Relayed.relaying {r : RobotService T} (h : Relayed I H done R r) (hdone : done <+ R) : Relaying I H r :=
  ⟨done, h.received ▸ hdone, h.keeps⟩

theorem publish_spec (raw : Bytes) : Triple (fun r => receivedIn (H ++ r.log) = R ∧
    I done (publishedIn (H ++ r.log) ++ [raw]) r.reassembler) (publish raw : Op T Nat) (fun _ => Relayed I H done R) := by
  have hnote : ∀ r : RobotService T, (receivedIn (H ++ r.log) = R ∧
      I done (publishedIn (H ++ r.log) ++ [raw]) r.reassembler) →
      Relayed I H done R { r with log := r.log ++ [.published raw] } := by
    rintro r ⟨hreceived, hkeeps⟩
    constructor
    · rw [← hreceived, ← List.append_assoc, receivedIn_append]
      exact List.append_nil _
    · rw [← List.append_assoc, publishedIn_append]
      exact hkeeps
  refine (Triple.modify hnote).seq fun _ => Triple.get_bind fun r _ => ?_
  refine (Triple.modify (R := Relayed I H done R) fun r h => { h with }).seq fun _ => ?_
  split
  · exact fun r h => h
  · exact fun r h => h

/-- One payload is acted on, whether or not something escapes. -/
theorem receive_spec (hI : Relays I) (now : ℚ) (payload : Bytes) :
    Triple (Relayed I H done R) (receive now payload : Op T Unit) (fun _ => Relayed I H (done ++ [payload]) R) := by
  have hadd : ∀ name amount, Triple (Relayed I H (done ++ [payload]) R) (add name amount : Op T Unit)
      (fun _ => Relayed I H (done ++ [payload]) R) := fun _ _ _ h => { h with }
  have hskip : (∀ f, decode payload = .ok f → f.typ ≠ rtcmFragment) → ∀ name, Triple (Relayed I H done R)
      (add name : Op T Unit) (fun _ => Relayed I H (done ++ [payload]) R) := by
    intro hno name r h
    exact ⟨h.received, hI.skip h.keeps hno⟩
  unfold receive
  split
  · rename_i e he
    exact hskip (fun f hf => by rw [he] at hf; cases hf) _
  · rename_i f hf
    apply Triple.ite
    · intro htyp
      refine hskip (fun g hg => ?_) _
      rw [hf] at hg
      cases hg
      exact htyp
    · intro htyp
      rw [not_not] at htyp
      have hreassemble : Triple (Relayed I H done R) (reassemble f now : Op T (Except Raised (Option Bytes)))
          (Returns fun result r => receivedIn (H ++ r.log) = R ∧
            I (done ++ [payload]) (publishedIn (H ++ r.log) ++ returned result) r.reassembler) :=
        fun r h => ⟨h.received, hI.add h.keeps hf htyp⟩
      refine hreassemble.seq fun result => ?_
      have hquiet : returned result = [] → ∀ r : RobotService T, (receivedIn (H ++ r.log) = R ∧
          I (done ++ [payload]) (publishedIn (H ++ r.log) ++ returned result) r.reassembler) →
          Relayed I H (done ++ [payload]) R r := by
        rintro hnone r ⟨hreceived, hkeeps⟩
        rw [hnone, List.append_nil] at hkeeps
        exact ⟨hreceived, hkeeps⟩
      match result with
      | .error .keyError => exact fun r h => hquiet rfl r h
      | .error (.applicationError _) => exact fun r h => hadd _ _ r (hquiet rfl r h)
      | .ok none => exact fun r h => hadd _ _ r (hquiet rfl r h)
      | .ok (some raw) =>
        let Due : RobotService T → Prop := fun r => receivedIn (H ++ r.log) = R ∧
          I (done ++ [payload]) (publishedIn (H ++ r.log) ++ [raw]) r.reassembler
        have hcount : ∀ name amount, Triple Due (add name amount : Op T Unit) (Returns fun _ => Due) := fun _ _ _ h => h
        refine (hcount _ _).seq fun _ => (hcount _ _).seq fun _ => (hcount _ _).seq fun _ => (hcount _ _).seq fun _ => ?_
        exact (publish_spec raw).bind (fun delivered => hadd _ _) fun e r h => h

/-- All payloads are acted on, up to one that something escapes from. -/
theorem receiveAll_spec (hI : Relays I) (now : ℚ) (payloads : List Bytes) : ∀ {done : List Bytes}, done ++ payloads <+ R →
    Triple (Relayed I H done R) (forEach (receive now) payloads : Op T Unit) (fun _ => Relaying I H) := by
  induction payloads with
  | nil =>
    intro done hdone r h
    rw [List.append_nil] at hdone
    exact h.relaying hdone
  | cons payload payloads ih =>
    intro done hdone
    have hnext : done ++ [payload] ++ payloads <+ R := by rwa [List.append_assoc, List.singleton_append]
    have hpart : done ++ [payload] <+ R := (List.sublist_append_left _ _).trans hnext
    exact (receive_spec hI now payload).bind (fun _ => ih hnext) fun e r h => h.relaying hpart

theorem step_spec [Transport T E] (hI : Relays I) (io : E) (now : ℚ) :
    Triple (fun r => r.log = [] ∧ Relaying I H r) (step io now : Op T Unit) (fun _ => Relaying I H) := by
  have htick : Triple (fun r => r.log = [] ∧ Relaying I H r) (ofTransport (Transport.tick io true) : Op T (List Bytes))
      (fun _ r => r.log = [] ∧ Relaying I H r) := by
    intro r h
    unfold ofTransport
    split
    · exact h
    · exact h
  refine htick.bind (fun payloads => ?_) fun e r h => h.2
  have hnote : ∀ r : RobotService T, (r.log = [] ∧ Relaying I H r) → ∃ done, done <+ receivedIn H ∧
      Relayed I H done (receivedIn H ++ payloads) { r with log := r.log ++ [.received payloads] } := by
    rintro r ⟨hlog, done, hdone, hkeeps⟩
    rw [hlog, List.append_nil] at hdone hkeeps
    refine ⟨done, hdone, ?_, ?_⟩
    · simp [hlog, receivedIn]
    · rw [hlog, List.nil_append, publishedIn_append]
      simpa [publishedIn] using hkeeps
  refine (Triple.modify hnote).seq fun _ => Triple.exists_pre fun done => Triple.assume fun hdone => ?_
  refine (receiveAll_spec hI now payloads (hdone.append_right payloads)).bind (fun _ => ?_) fun e r h => h
  have hexpire : ∀ r : RobotService T, Relaying I H r →
      Relaying I H { r with reassembler := (r.reassembler.expire now).2 } :=
    fun r ⟨done, hdone, hkeeps⟩ => ⟨done, hdone, hI.expire hkeeps⟩
  refine (Triple.modify hexpire).seq fun _ => ?_
  have hflush : Triple (Relaying I H) (flush : Op T Unit) (fun _ => Relaying I H) := by
    refine Triple.get_bind fun r _ => ?_
    split
    · exact fun r h => h
    · exact fun r h => h
  exact hflush.bind (fun _ r h => h) fun e r h => h

/-- Every call keeps it. -/
theorem next_spec [Transport T E] (hI : Relays I) (i : Input E) {r : RobotService T}
    (h : ∃ done, done <+ receivedIn H ∧ I done (publishedIn H) r.reassembler) : Relaying I H (next i r) := by
  have hstart : Relaying I H { r with output := i.output, log := [] } := by
    obtain ⟨done, hdone, hkeeps⟩ := h
    exact ⟨done, by rwa [List.append_nil], by rwa [List.append_nil]⟩
  have hs := step_spec hI i.io i.now { r with output := i.output, log := [] } ⟨rfl, hstart⟩
  unfold next
  generalize step i.io i.now { r with output := i.output, log := [] } = res at hs
  obtain ⟨result, r'⟩ := res
  cases result with
  | ok u => exact hs
  | error e =>
    obtain ⟨done, hdone, hkeeps⟩ := hs
    refine ⟨done, ?_, ?_⟩
    · rw [← List.append_assoc, receivedIn_append]
      exact hdone.trans (List.sublist_append_left _ _)
    · rw [← List.append_assoc, publishedIn_append]
      show I done (publishedIn (H ++ r'.log) ++ []) r'.reassembler
      rwa [List.append_nil]

/-- Every run keeps it: some of the payloads delivered have been acted on, in order. -/
theorem run_spec [Transport T E] (hI : Relays I) (hinit : I [] [] {}) (t : T) (js : List (Input E)) :
    ∃ done, done <+ receivedIn (history (trace next (init t) js)) ∧
      I done (publishedIn (history (trace next (init t) js))) (run next (init t) js).reassembler := by
  let P : List RobotEvent → RobotService T → Prop := fun H r =>
    ∃ done, done <+ receivedIn H ∧ I done (publishedIn H) r.reassembler
  have hstart : P [] (init t) := ⟨[], List.Sublist.refl _, hinit⟩
  have hrun := run_rel (P := P) (G := fun _ => True) (f := eventsOf) hstart
    (fun H i r h _ => next_spec hI i h) js fun _ _ => trivial
  rwa [List.nil_append] at hrun

/-- Only valid frames are published. -/
theorem published_valid [Transport T E] (t : T) (js : List (Input E)) :
    ∀ raw ∈ publishedIn (history (trace next (init t) js)), validRtcm3 raw = true := by
  have hI : Relays fun _ published _ => ∀ raw ∈ published, validRtcm3 raw = true := by
    refine ⟨fun h _ => h, fun {done published r payload f now} h _ _ raw hraw => ?_, fun h => h⟩
    obtain hraw | hraw := List.mem_append.mp hraw
    · exact h raw hraw
    · generalize hadd : (r.add f now).1 = result at hraw
      rcases result with e | _ | raw'
      · cases hraw
      · cases hraw
      · rw [List.mem_singleton.mp hraw]
        exact Reassembler.add_valid hadd
  obtain ⟨_, -, h⟩ := run_spec hI (by simp) t js
  exact h

end Relays

end RobotService

end LoraLink.Service
