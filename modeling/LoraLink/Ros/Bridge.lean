import LoraLink.Ros.Fresh
import LoraLink.Service.EndToEnd
import LoraLink.Service.Output

/-!
# From the base to ROS

The TCP output of the robot and the reader of the ROS bridge on the two ends of a port. Connections are numbered in the
order in which they are made, and the output accepts them in this order, maybe later. The bytes that a socket of the
output has taken are on their way until the reader receives them, in order, or its connection ends.

- `Since`: what the output has published since a connection was made;
- `Fed`: what the parser of the reader has seen of its connection;
- `published_to_ros`: the frames that ROS gets are frames that the base has ingested.
-/

namespace LoraLink.Ros

open Application Rtcm RtcmStreamParser Service Service.TcpRtcmOutput
open scoped List

/-! ## The two ends -/

/-- `served` and `seen` are what has been logged by the two ends, for the statements about runs: nothing reads them. -/
structure Bridge where
  output : TcpRtcmOutput := {}
  reader : State
  /-- The number of connections that have been made to the port. -/
  connects : Nat := 0
  /-- The last connection of the reader, and what is on its way over it. -/
  client : Option Nat := none
  line : Bytes := []
  served : List TcpRtcmOutput.Event := []
  seen : List Event := []

/-- What the network does for the reader: `n` bytes at most have come, or the end of the stream. -/
inductive Signal
  | connected
  | fails
  | quiet
  | ends (now : ℚ)
  | bytes (n : Nat) (now : ℚ)

namespace Bridge

/-- The connections that a call accepts. -/
def accepts : TcpRtcmOutput.Input → Nat
  | .publish _ _ arrivals more _ => arrivals + more
  | .flush _ arrivals _ => arrivals

/-- A call of the output, which can accept only connections that have been made. -/
def serve (i : TcpRtcmOutput.Input) (b : Bridge) : Bridge :=
  if b.output.arrivals + accepts i ≤ b.connects then
    let output := TcpRtcmOutput.next i b.output
    let line := match b.client with
      | some client => b.line ++ taken client output.log
      | none => b.line
    { b with output := output, line := line, served := b.served ++ output.log }
  else b

/-- What the reader is answered: `recv(4096)` returns bytes that are on their way. -/
def answer (signal : Signal) (b : Bridge) : Answer × Bridge :=
  match b.reader.thread, signal with
  | .connect, .connected => (.connected, { b with connects := b.connects + 1, client := some b.connects, line := [] })
  | .receive _, .bytes n now =>
    let bytes := b.line.take (min n 4096)
    if bytes = [] then (.timeout, b) else (.chunk bytes now, { b with line := b.line.drop (min n 4096) })
  | _, .ends now => (.chunk [] now, b)
  | _, .fails => (.osError, b)
  | _, _ => (.timeout, b)

/-- A step of one thread of the reader. -/
def read (i : Input) (b : Bridge) : Bridge :=
  { b with reader := (act i b.reader).1, seen := b.seen ++ (act i b.reader).2 }

inductive Input
  | serve (i : TcpRtcmOutput.Input)
  /-- Another client connects. -/
  | arrive
  /-- The process of the output ends, and another one begins. -/
  | restart
  | close
  | run (signal : Signal)
  | call (limit : Nat) (now : ℚ)
  | take

def step (i : Input) (b : Bridge) : Bridge :=
  match i with
  | .serve i => b.serve i
  | .arrive => { b with connects := b.connects + 1 }
  -- connections that were made before are not accepted by the new process
  | .restart => { b with output := { arrivals := b.connects } }
  | .close => b.read .close
  | .run signal => (b.answer signal).2.read (.run (b.answer signal).1)
  | .call limit now => b.read (.call limit now)
  | .take => b.read .take

def init (queueSize : Nat) : Bridge := { reader := Ros.init queueSize }

end Bridge

/-! ## Connections that are accepted -/

theorem accept_arrivals (n : Nat) : ∀ s : TcpRtcmOutput, (s.accept n).arrivals = s.arrivals + n := by
  induction n with
  | zero => exact fun s => rfl
  | succ n ih =>
    intro s
    have hone : s.acceptOne.arrivals = s.arrivals + 1 := by
      unfold acceptOne
      simp only
      split <;> rfl
    rw [TcpRtcmOutput.accept, ih, hone]
    omega

theorem flush_arrivals (now : ℚ) (arrivals : Nat) (answer : Nat → TcpRtcmOutput.Answer) (s : TcpRtcmOutput) :
    (s.flush now arrivals answer).arrivals = s.arrivals + arrivals := by
  have hloop : Looped (fun _ => True) (id (s.accept arrivals))
      (id ((s.accept arrivals).clients.foldl (flushClient now answer) (s.accept arrivals))) := by
    refine looped_foldl id (fun s p hp => ?_) _
    obtain ⟨hkeys, harrivals, E, hE, -⟩ := flushClient_looped now answer s hp
    exact ⟨hkeys, harrivals, E, hE, fun _ _ => trivial⟩
  exact hloop.arrivals.trans (accept_arrivals arrivals s)

theorem next_arrivals (i : TcpRtcmOutput.Input) (s : TcpRtcmOutput) :
    (TcpRtcmOutput.next i s).arrivals = s.arrivals + Bridge.accepts i := by
  cases i with
  | flush now arrivals answer => exact flush_arrivals now arrivals answer _
  | publish raw now arrivals more answer =>
    let s₁ : TcpRtcmOutput := ({ s with log := [] } : TcpRtcmOutput).accept arrivals |>.note (.published raw now)
    have hloop : (s₁.clients.foldl (publishClient raw now) (0, s₁)).2.arrivals = s₁.arrivals :=
      (looped_foldl Prod.snd (fun r p _ => publishClient_looped raw now r p) (0, s₁)).arrivals
    have hfirst : s₁.arrivals = s.arrivals + arrivals := accept_arrivals arrivals _
    have hall := flush_arrivals now more answer (s₁.clients.foldl (publishClient raw now) (0, s₁)).2
    rw [hloop, hfirst, Nat.add_assoc] at hall
    exact hall

/-! ## What has been published -/

/-- The frames published, in order. -/
def publishedOn (S : List TcpRtcmOutput.Event) : List Bytes := S.filterMap fun
  | .published raw _ => some raw
  | _ => none

@[simp] theorem publishedOn_append (S S' : List TcpRtcmOutput.Event) :
    publishedOn (S ++ S') = publishedOn S ++ publishedOn S' := List.filterMap_append

variable {S : List TcpRtcmOutput.Event} {front : List Bytes} {client : Nat}

/-- When a connection was made, `front` had been published; what has been since it was accepted is behind that. -/
structure Since (front : List Bytes) (client : Nat) (S : List TcpRtcmOutput.Event) : Prop where
  begins : front <+: publishedOn S
  joined : ∀ fs, since client S = some fs → ∃ before, publishedOn S = before ++ fs.map Prod.fst ∧ front <+: before

theorem Since.snoc (h : Since front client S) (e : TcpRtcmOutput.Event) : Since front client (S ++ [e]) := by
  have hsince : since client (S ++ [e]) = sinceOn client (since client S) e := by rw [since_append]; rfl
  refine ⟨h.begins.trans (by simp), fun fs hfs => ?_⟩
  rw [hsince] at hfs
  cases e with
  | joined c =>
    have hsame : publishedOn (S ++ [.joined c]) = publishedOn S := by simp [publishedOn]
    rw [hsame]
    simp only [sinceOn] at hfs
    split at hfs
    · obtain rfl : [] = fs := Option.some.inj hfs
      exact ⟨publishedOn S, by simp, h.begins⟩
    · exact h.joined fs hfs
  | published raw now =>
    obtain ⟨fs', hfs', rfl⟩ := Option.map_eq_some_iff.mp hfs
    obtain ⟨before, hbefore, hfront⟩ := h.joined fs' hfs'
    exact ⟨before, by rw [publishedOn_append, hbefore, List.map_append, List.append_assoc]; rfl, hfront⟩
  | rejected _ | offered _ _ _ | took _ _ | dropped _ _ =>
    obtain ⟨before, hbefore, hfront⟩ := h.joined fs hfs
    exact ⟨before, by simp [← hbefore, publishedOn], hfront⟩

theorem Since.append (h : Since front client S) (E : List TcpRtcmOutput.Event) : Since front client (S ++ E) := by
  induction E generalizing S with
  | nil => rwa [List.append_nil]
  | cons e E ih =>
    have hnext := ih (h.snoc e)
    rwa [List.append_assoc, List.singleton_append] at hnext

/-! ## What the reader has of it -/

/-- The frames that the reader has parsed, as bytes. -/
def parsedRaw (R : List Event) : List Bytes := (parsedIn R).map fun f => f.frame.raw

/-- The parser has been fed with what has come over the connection, in `chunks`; `old` was parsed before. -/
structure Fed (parser : RtcmStreamParser) (front old : List Bytes) (client : Nat) (chunks : List (Bytes × ℚ))
    (b : Bridge) : Prop where
  connection : b.client = some client
  since : Since front client b.served
  earlier : old <+ front
  parses : (feedAll {} chunks).1 = parser
  stream : streamOf chunks ++ b.line = taken client b.served
  parsed : parsedRaw b.seen = old ++ (feedAll {} chunks).2.map RtcmFrame.raw

/-- The invariant of the two ends. -/
structure Bridged (b : Bridge) : Prop where
  intact : Intact b.served b.output
  made : b.output.arrivals ≤ b.connects
  order : (returnedIn b.seen ++ b.reader.held).Sublist (parsedIn b.seen)
  frames : parsedRaw b.seen <+ publishedOn b.served
  fed : ∀ parser ∈ b.reader.thread.parser, ∃ front old client chunks, Fed parser front old client chunks b

variable {b : Bridge}

/-- What has been parsed was published: what came over the connection is the beginning of what was published since it
was accepted. -/
theorem Fed.frames {parser : RtcmStreamParser} {old : List Bytes} {chunks : List (Bytes × ℚ)}
    (h : Fed parser front old client chunks b) (hintact : Intact b.served b.output)
    (hvalid : ∀ raw ∈ publishedOn b.served, validRtcm3 raw = true) : parsedRaw b.seen <+ publishedOn b.served := by
  have hstream : streamOf chunks <+: TcpRtcmOutput.bytesOf ((TcpRtcmOutput.since client b.served).getD []) :=
    (List.prefix_append _ b.line).trans (h.stream ▸ hintact.sent client)
  rw [h.parsed]
  cases hsince : TcpRtcmOutput.since client b.served with
  | none =>
    rw [hsince] at hstream
    have hempty : streamOf chunks <+: ([] : List Bytes).flatten := hstream
    have hnone := List.prefix_nil.mp (frames_front (by simp) hempty)
    rw [hnone, List.append_nil]
    exact h.earlier.trans h.since.begins.sublist
  | some fs =>
    obtain ⟨before, hbefore, hfront⟩ := h.since.joined fs hsince
    rw [hsince, Option.getD_some, TcpRtcmOutput.bytesOf, List.flatMap_def] at hstream
    have hfs : ∀ raw ∈ fs.map Prod.fst, validRtcm3 raw = true := fun raw hraw =>
      hvalid raw (hbefore ▸ List.mem_append_right _ hraw)
    rw [hbefore]
    exact (h.earlier.trans hfront.sublist).append (frames_front hfs hstream).sublist

/-! ## Steps -/

/-- Frames leave the reader in the order in which they were parsed. -/
theorem act_held {R : List Event} {s : State} (i : Input) (h : (returnedIn R ++ s.held).Sublist (parsedIn R)) :
    (returnedIn (R ++ (act i s).2) ++ (act i s).1.held).Sublist (parsedIn (R ++ (act i s).2)) := by
  have hnext := (act_order i s).append_left (returnedIn R)
  have hkept := h.append_right (parsedIn (act i s).2)
  simp only [returnedIn_append, parsedIn_append, List.append_assoc] at hnext hkept ⊢
  exact hnext.trans hkept

/-- Where the parser of the reader comes from. -/
theorem runStep_feeds (answer : Answer) (s : State) :
    (parsedIn (runStep answer s).2 = [] ∧ ∀ parser ∈ (runStep answer s).1.thread.parser, parser ∈ s.thread.parser) ∨
      (s.thread = .connect ∧ answer = .connected) ∨
      ∃ parser bytes now, s.thread = .receive parser ∧ answer = .chunk bytes now ∧ bytes ≠ [] := by
  fun_cases runStep answer s with
  | case3 _ behind => cases behind <;> simp [Behind.thread]
  | _ => simp_all

variable {signal : Signal}

theorem Bridged.serve (h : Bridged b) (i : TcpRtcmOutput.Input) : Bridged (b.serve i) := by
  unfold Bridge.serve
  split
  · rename_i hroom
    have hintact := h.intact.next i
    refine ⟨hintact, (next_arrivals i b.output).trans_le hroom, h.order, ?_, fun parser hparser => ?_⟩
    · exact h.frames.trans (by simp)
    · obtain ⟨front, old, client, chunks, hfed⟩ := h.fed parser hparser
      refine ⟨front, old, client, chunks, hfed.connection, hfed.since.append _, hfed.earlier, hfed.parses, ?_,
        hfed.parsed⟩
      simp only [hfed.connection]
      rw [taken_append, ← hfed.stream, List.append_assoc]
  · exact h

/-- A step of the reader that parses nothing and begins no connection. -/
theorem Bridged.quiet (h : Bridged b) {i : Input} (hparsed : parsedIn (act i b.reader).2 = [])
    (hparser : ∀ parser ∈ (act i b.reader).1.thread.parser, parser ∈ b.reader.thread.parser) : Bridged (b.read i) := by
  have hraw : parsedRaw (b.read i).seen = parsedRaw b.seen := by
    simp [Bridge.read, parsedRaw, hparsed]
  refine ⟨h.intact, h.made, act_held i h.order, hraw ▸ h.frames, fun parser hp => ?_⟩
  obtain ⟨front, old, client, chunks, hfed⟩ := h.fed parser (hparser parser hp)
  exact ⟨front, old, client, chunks, hfed.connection, hfed.since, hfed.earlier, hfed.parses, hfed.stream,
    hraw ▸ hfed.parsed⟩

/-- A connection is made. -/
theorem Bridged.connect (h : Bridged b) (hthread : b.reader.thread = .connect) :
    Bridged (({ b with connects := b.connects + 1, client := some b.connects, line := [] } : Bridge).read
      (.run .connected)) := by
  have hact : act (.run .connected) b.reader = ({ b.reader with thread := .loop {} }, []) := by
    simp [act, runStep, hthread]
  have horder := act_held (.run .connected) h.order
  obtain ⟨hnone, htaken⟩ := (h.intact.unknown h.made)
  have hsince : Since (publishedOn b.served) b.connects b.served :=
    ⟨List.prefix_refl _, fun fs hfs => by rw [h.intact.known _ h.made] at hfs; cases hfs⟩
  have hraw : parsedRaw (b.seen ++ (act (.run .connected) b.reader).2) = parsedRaw b.seen := by
    rw [hact, List.append_nil]
  refine ⟨h.intact, h.made.trans (Nat.le_succ _), horder, hraw ▸ h.frames, fun parser hp => ?_⟩
  obtain rfl : parser = {} := by
    simpa [Bridge.read, hact] using hp.symm
  exact ⟨publishedOn b.served, parsedRaw b.seen, b.connects, [], rfl, hsince, h.frames, rfl, htaken.symm,
    hraw.trans (List.append_nil _).symm⟩

/-- Bytes are received. -/
theorem Bridged.receive (h : Bridged b) {parser : RtcmStreamParser} (hthread : b.reader.thread = .receive parser)
    {n : Nat} (hbytes : b.line.take n ≠ []) (now : ℚ) (hvalid : ∀ raw ∈ publishedOn b.served, validRtcm3 raw = true) :
    Bridged (({ b with line := b.line.drop n } : Bridge).read (.run (.chunk (b.line.take n) now))) := by
  have hact : act (.run (.chunk (b.line.take n) now)) b.reader =
      ({ b.reader with thread := .feed (parser.feed (b.line.take n) now).1 (parser.feed (b.line.take n) now).2 },
        [.chunk b.reader.shared.connection (b.line.take n),
          .parsed ((parser.feed (b.line.take n) now).2.map fun frame => ⟨frame, b.reader.shared.connection⟩)]) := by
    simp [act, runStep, hthread, hbytes]
  obtain ⟨front, old, client, chunks, hfed⟩ := h.fed parser (by rw [hthread]; rfl)
  have hfeed := feedAll_append chunks [(b.line.take n, now)] {}
  rw [hfed.parses] at hfeed
  have hnext : Fed (parser.feed (b.line.take n) now).1 front old client (chunks ++ [(b.line.take n, now)])
      (({ b with line := b.line.drop n } : Bridge).read (.run (.chunk (b.line.take n) now))) := by
    refine ⟨hfed.connection, hfed.since, hfed.earlier, by rw [hfeed]; rfl, ?_, ?_⟩
    · show streamOf (chunks ++ [(b.line.take n, now)]) ++ b.line.drop n = taken client b.served
      rw [← hfed.stream]
      simp [streamOf]
    · have hparsed := hfed.parsed
      rw [hfeed]
      simp only [Bridge.read, parsedRaw, hact, parsedIn_append, List.map_append] at hparsed ⊢
      rw [hparsed]
      simp [feedAll]
  refine ⟨h.intact, h.made, act_held _ h.order, hnext.frames h.intact hvalid, fun parser' hp => ?_⟩
  obtain rfl : parser' = (parser.feed (b.line.take n) now).1 := by
    simpa [Bridge.read, hact] using hp.symm
  exact ⟨front, old, client, _, hnext⟩

theorem Bridged.run (h : Bridged b) (signal : Signal) (hvalid : ∀ raw ∈ publishedOn b.served, validRtcm3 raw = true) :
    Bridged ((b.answer signal).2.read (.run (b.answer signal).1)) := by
  -- an answer that is neither a connection nor bytes leaves what the parser has
  have hquiet : ∀ answer, answer ≠ .connected → (∀ bytes now, answer = .chunk bytes now → bytes = []) →
      Bridged (b.read (.run answer)) := by
    intro answer hconnected hbytes
    obtain ⟨hparsed, hparser⟩ | ⟨-, heq⟩ | ⟨_, bytes, now, -, heq, hne⟩ := runStep_feeds answer b.reader
    · exact h.quiet hparsed hparser
    · exact absurd heq hconnected
    · exact absurd (hbytes bytes now heq) hne
  fun_cases Bridge.answer signal b with
  | case1 hthread => exact h.connect hthread
  | case2 parser n now hthread bytes hnone => exact hquiet _ nofun nofun
  | case3 parser n now hthread bytes hsome => exact h.receive hthread hsome now hvalid
  | case4 => exact hquiet _ nofun fun _ _ heq => (Answer.chunk.inj heq).1.symm
  | case5 => exact hquiet _ nofun nofun
  | case6 => exact hquiet _ nofun nofun

/-- What has been published stays published. -/
theorem step_served (i : Bridge.Input) (b : Bridge) : publishedOn b.served <+: publishedOn (Bridge.step i b).served := by
  cases i with
  | serve i =>
    simp only [Bridge.step, Bridge.serve]
    split
    · exact ⟨_, (publishedOn_append _ _).symm⟩
    · exact List.prefix_refl _
  | run signal =>
    have hsame : (b.answer signal).2.served = b.served := by
      fun_cases Bridge.answer signal b <;> rfl
    rw [show (Bridge.step (.run signal) b).served = b.served from hsame]
  | arrive | restart | close | call _ _ | take => exact List.prefix_refl _

theorem Bridged.step (h : Bridged b) (i : Bridge.Input) (hvalid : ∀ raw ∈ publishedOn b.served, validRtcm3 raw = true) :
    Bridged (Bridge.step i b) := by
  cases i with
  | serve i => exact h.serve i
  | arrive => exact ⟨h.intact, h.made.trans (Nat.le_succ _), h.order, h.frames, fun parser hp => by
      obtain ⟨front, old, client, chunks, hfed⟩ := h.fed parser hp
      exact ⟨front, old, client, chunks, { hfed with }⟩⟩
  | restart =>
    refine ⟨⟨List.nodup_nil, Nat.zero_le _, fun client hc => h.intact.known client (h.made.trans hc), nofun,
      h.intact.sent, h.intact.fresh⟩, Nat.le_refl _, h.order, h.frames, fun parser hp => ?_⟩
    obtain ⟨front, old, client, chunks, hfed⟩ := h.fed parser hp
    exact ⟨front, old, client, chunks, { hfed with }⟩
  | close => exact h.quiet rfl fun _ hp => hp
  | run signal => exact h.run signal hvalid
  | call limit now =>
    refine h.quiet ?_ ?_ <;> simp only [act] <;> split <;> simp
  | take =>
    refine h.quiet ?_ ?_ <;> simp only [act] <;> fun_cases takeStep b.reader <;> simp

theorem run_bridged (queueSize : Nat) (is : List Bridge.Input)
    (hvalid : ∀ raw ∈ publishedOn (run Bridge.step (Bridge.init queueSize) is).served, validRtcm3 raw = true) :
    Bridged (run Bridge.step (Bridge.init queueSize) is) := by
  let P : Bridge → Prop := fun b => (∀ raw ∈ publishedOn b.served, validRtcm3 raw = true) → Bridged b
  have hinit : P (Bridge.init queueSize) := fun _ =>
    ⟨intact_init, Nat.le_refl _, List.Sublist.refl _, List.Sublist.refl _, nofun⟩
  have hstep : ∀ i b, P b → P (Bridge.step i b) := fun i b hb hvalid => by
    have hbefore : ∀ raw ∈ publishedOn b.served, validRtcm3 raw = true := fun raw hraw =>
      hvalid raw ((step_served i b).subset hraw)
    exact (hb hbefore).step i hbefore
  exact run_inv hinit hstep is hvalid

/-- What the reader returns has been published, in order and once, however often it connects. -/
theorem returned_published (queueSize : Nat) (is : List Bridge.Input)
    (hvalid : ∀ raw ∈ publishedOn (run Bridge.step (Bridge.init queueSize) is).served, validRtcm3 raw = true) :
    (returnedIn (run Bridge.step (Bridge.init queueSize) is).seen).map (fun f => f.frame.raw) <+
      publishedOn (run Bridge.step (Bridge.init queueSize) is).served := by
  have h := run_bridged queueSize is hvalid
  have hreturned : (returnedIn (run Bridge.step (Bridge.init queueSize) is).seen).Sublist
      (parsedIn (run Bridge.step (Bridge.init queueSize) is).seen) := (List.sublist_append_left _ _).trans h.order
  exact (hreturned.map _).trans h.frames

/-! ## From the base -/

section Base

open RobotService

variable {T E T' E' : Type} [Transport T E] [Transport T' E']

/-- What one process of the robot logs, over a transport. -/
abbrev robotHistory (robot : T' × List (RobotService.Input E')) : List RobotEvent :=
  RobotService.history (trace RobotService.next (RobotService.init robot.1) robot.2)

/-- Each process publishes frames whose last fragments it has received. -/
theorem robots_ended {L : List Message} (hkeys : (L.map Prod.fst).Nodup) (hvalid : ∀ m ∈ L, validRtcm3 m.2 = true)
    (robots : List (T' × List (RobotService.Input E'))) :
    framesOf (robots.flatMap fun robot => receivedIn (robotHistory robot)) <+ L.flatMap fragmentsOf →
      robots.flatMap (fun robot => publishedIn (robotHistory robot)) <+
        (framesOf (robots.flatMap fun robot => receivedIn (robotHistory robot))).filterMap (ended L) := by
  induction robots with
  | nil => exact fun _ => List.Sublist.refl _
  | cons robot robots ih =>
    intro hsent
    rw [List.flatMap_cons, framesOf_append] at hsent
    rw [List.flatMap_cons, List.flatMap_cons, framesOf_append, List.filterMap_append]
    refine List.Sublist.append ?_ (ih ((List.sublist_append_right _ _).trans hsent))
    have hstart : Heard L [] [] {} := fun _ => ⟨fun p hp => absurd hp List.not_mem_nil, List.Sublist.refl _⟩
    obtain ⟨done, hdone, hheard⟩ := RobotService.run_spec (relays_heard hkeys hvalid) hstart robot.1 robot.2
    have hframes : framesOf done <+ framesOf (receivedIn (robotHistory robot)) := hdone.filterMap _
    obtain ⟨-, hpublished⟩ := hheard (hframes.trans ((List.sublist_append_left _ _).trans hsent))
    exact hpublished.trans (hframes.filterMap _)

/-- **From the base to ROS**: if the sessions of the base are new, with fewer than `2 ^ 32 - 1` messages in each, and the
payloads that reach the robot are some of those sent, in order, mixed with others that `decode` refuses, and the robot
publishes to the output, then the frames that ROS gets are frames that the base has ingested, in order and at most once
each, however often the process of the robot is begun anew and the reader connects. -/
theorem published_to_ros (t : T) (is : List (Service.Input E)) (robots : List (T' × List (RobotService.Input E')))
    (queueSize : Nat) (ks : List Bridge.Input)
    (hnew : NewSessions (Transport.session t) (BaseService.history (trace BaseService.next (BaseService.init t) is)))
    (hlink : (robots.flatMap fun robot => receivedIn (robotHistory robot)).filter decodes <+
      sentIn (BaseService.history (trace BaseService.next (BaseService.init t) is)))
    (houtput : publishedOn (run Bridge.step (Bridge.init queueSize) ks).served =
      robots.flatMap fun robot => publishedIn (robotHistory robot)) :
    (returnedIn (run Bridge.step (Bridge.init queueSize) ks).seen).map (fun f => f.frame.raw) <+
      ingestedIn (BaseService.history (trace BaseService.next (BaseService.init t) is)) := by
  have hvalid : ∀ raw ∈ publishedOn (run Bridge.step (Bridge.init queueSize) ks).served, validRtcm3 raw = true := by
    intro raw hraw
    rw [houtput] at hraw
    obtain ⟨robot, -, hrobot⟩ := List.mem_flatMap.mp hraw
    exact published_valid robot.1 robot.2 raw hrobot
  have hreturned := returned_published queueSize ks hvalid
  rw [houtput] at hreturned
  obtain ⟨L, o, hL⟩ := run_shipped t is hnew
  have hsent : framesOf (robots.flatMap fun robot => receivedIn (robotHistory robot)) <+ L.flatMap fragmentsOf := by
    rw [← framesOf_filter]
    exact (hlink.filterMap _).trans ((List.sublist_append_left _ _).trans hL.sent)
  have hended := (robots_ended hL.keys hL.valid robots hsent).trans (hsent.filterMap (ended L))
  rw [ended_flatMap hL.keys hL.valid] at hended
  exact hreturned.trans (hended.trans ((List.sublist_append_left _ _).trans hL.frames))

end Base

/-- The reader connects and the robot publishes two frames; the second comes in two chunks, and the reader returns
both. -/
def bridgeRun : List Bridge.Input :=
  [.run .quiet, .run .quiet, .run .connected, .serve (.publish (zeroFrame 0) 0 1 0 fun _ => .accepts 6),
    .serve (.publish (zeroFrame 200) 0 0 0 fun _ => .accepts 206), .run .quiet, .run (.bytes 106 0), .run .quiet,
    .run .quiet, .run .quiet, .run .quiet, .run (.bytes 106 0), .run .quiet, .call 64 0, .take, .take, .take]

set_option maxRecDepth 100000 in
theorem published_to_ros_bridgeRun :
    (returnedIn (run Bridge.step (Bridge.init 128) bridgeRun).seen).map (fun f => f.frame.raw) =
        [zeroFrame 0, zeroFrame 200] ∧
      (returnedIn (run Bridge.step (Bridge.init 128) bridgeRun).seen).map (fun f => f.frame.raw) <+
        ingestedIn (BaseService.history (trace BaseService.next (BaseService.init ({} : Wire)) wireRun)) :=
  ⟨by decide +kernel, published_to_ros ({} : Wire) wireRun [(({} : Wire), wireDelivery)] 128 bridgeRun
    newSessions_wireRun (by decide +kernel) (by decide +kernel)⟩

end LoraLink.Ros
