import LoraLink.Host.Replies

/-!
# What the health check reports

`health_for_role` of `metrics.py` reads the metrics of the connection and, for a base, the one of its source.
`health_exact`: after every call the metrics of the connection show its flags, and the check of a robot says that the
port is open and the INFO that answered the HELLO of the session has reported the radio ready.
-/

namespace LoraLink.Host

open LoraLink.Protocol Modem

inductive Role
  | base
  | robot
deriving DecidableEq, Repr

/-- The registry is shared: the values of the transport, and the one of the names of the services that is read. -/
def healthForRole (values : Metrics Metric) (rtcmSourceConnected : Int) (role : Role) :
    Bool × List (String × Bool) :=
  let modem := decide (values .modemConnected ≠ 0)
  let handshake := decide (values .modemHandshakeComplete ≠ 0)
  let radioReady := decide (values .modemRadioReady ≠ 0)
  let checks :=
    [("modem_connected", modem), ("modem_handshake_complete", handshake), ("modem_radio_ready", radioReady)]
  let checks :=
    if role = .base then checks ++ [("rtcm_source_connected", decide (rtcmSourceConnected ≠ 0))] else checks
  (checks.all Prod.snd, checks)

/-- The check of a robot reads three metrics. -/
theorem healthForRole_robot (values : Metrics Metric) (rtcmSourceConnected : Int) :
    (healthForRole values rtcmSourceConnected .robot).1 = true ↔ values .modemConnected ≠ 0 ∧
      values .modemHandshakeComplete ≠ 0 ∧ values .modemRadioReady ≠ 0 := by
  simp [healthForRole]

/-- A flag that is shown is set where its metric is not zero. -/
theorem shown_ne_zero {b : Bool} {x : Int} (h : x = if b then 1 else 0) : x ≠ 0 ↔ b = true := by
  cases b <;> simp [h]

/-- In a phase the three flags say that the INFO that answered the HELLO has reported the radio ready. -/
theorem Modem.Phase.flags {H : List Event} {m : Modem} (h : Phase H m) :
    (m.connected = true ∧ m.handshakeComplete = true ∧ m.radioReady = true) ↔
      m.connected = true ∧ ∃ info, (infos m.session H).head? = some info ∧ info.radioReady ≠ 0 := by
  cases h with
  | down hconnected _ _ _ _ => simp [hconnected]
  | greeting t hconnected hhandshake _ _ _ hinfos => simp [hhandshake, hinfos]
  | serving info rest hconnected hhandshake hready hinfos _ _ _ => simp [hconnected, hhandshake, hready, hinfos]

variable (draw : Nat) (reconnectSeconds : ℚ)

/-- Every run ends in a phase for its history. -/
theorem run_stands (is : List Input) : ∃ H, Stands H (run step (init draw reconnectSeconds) is) ∧
    history (trace step (init draw reconnectSeconds) is) = H ++ (run step (init draw reconnectSeconds) is).log := by
  have hrun := run_rel (H := []) (f := eventsOf) (G := fun _ => True)
    (P := fun H' m => ∃ H, Stands H m ∧ H' = H ++ m.log) ⟨[], init_stands draw reconnectSeconds, rfl⟩
    (fun H' i m ⟨H, h, hH⟩ _ => ⟨H', hH ▸ (step_stands h i).1, rfl⟩) is fun _ _ => trivial
  exact hrun

/-- After every call the metrics show the flags, a `tick` also shows whether a send may begin, and the check of a robot
reports healthy when the port is open and the INFO that answered the HELLO of the session said that the radio is
ready. -/
theorem health_exact (is : List Input) :
    let m := run step (init draw reconnectSeconds) is
    Gauges m ∧ (∀ before io idle, is = before ++ [.tick io idle] → ShowsReady m) ∧
    ∀ rtcmSourceConnected, (healthForRole m.metrics rtcmSourceConnected .robot).1 = true ↔ m.connected = true ∧
      ∃ info, (infos m.session (history (trace step (init draw reconnectSeconds) is))).head? = some info ∧
        info.radioReady ≠ 0 := by
  obtain ⟨H, h, hH⟩ := run_stands draw reconnectSeconds is
  refine ⟨h.2, fun before io idle his => ?_, fun rtcmSourceConnected => ?_⟩
  · obtain ⟨w, -, hsteady, -⟩ := run_steady before (init_steady draw reconnectSeconds)
    obtain ⟨H', h', -⟩ := run_stands draw reconnectSeconds before
    have hreturns := tick_spec idle _ (hsteady.inWindow io)
    rw [his, run_append]
    generalize run step (init draw reconnectSeconds) before = m at h' hreturns
    cases htick : (tick idle (m.enter io)).1 with
    | ok events => exact (step_stands h' (.tick io idle)).2 io idle events rfl htick
    | error e =>
      rw [htick] at hreturns
      exact hreturns.elim
  · rw [healthForRole_robot, shown_ne_zero h.2.connected, shown_ne_zero h.2.handshake, shown_ne_zero h.2.radioReady, hH]
    exact h.1.flags

/-! ## An INFO that nobody asked for -/

/-- An INFO of the session has been received, whatever its sequence. -/
def Heard (session : Nat) (H : List Event) (info : Info) : Prop :=
  ∃ f, .frame f ∈ sinceSession H ∧ f.session = session ∧ f.msgType = Msg.info ∧ parseInfo f.payload = some info

/-- The payload of an INFO that reports the radio ready. -/
def readyInfo : Bytes := List.replicate 16 0 ++ [1] ++ List.replicate 5 0

/-- The first read of a connection brings an INFO that does not answer the HELLO, which has the sequence 1. -/
def unsolicited : Input :=
  .tick { writes := [.wrote 1, .wrote 20], draws := fun _ => 5, read := encodeFrame Msg.info 6 2 readyInfo } true

/-- Where the INFO does not answer the HELLO, it does not count. -/
theorem health_exact_unsolicited : ¬ ∀ draw reconnectSeconds is rtcmSourceConnected,
    let m := run step (init draw reconnectSeconds) is
    (healthForRole m.metrics rtcmSourceConnected .robot).1 = true ↔ m.connected = true ∧
      ∃ info, Heard m.session (history (trace step (init draw reconnectSeconds) is)) info ∧ info.radioReady ≠ 0 := by
  intro h
  have hill : (healthForRole (run step (init 0 1) [unsolicited]).metrics 0 .robot).1 = false := by decide +kernel
  have hup : (run step (init 0 1) [unsolicited]).connected = true := by decide +kernel
  have hheard : (framesIn (sinceSession (history (trace step (init 0 1) [unsolicited])))).any (fun f =>
      f.session = (run step (init 0 1) [unsolicited]).session ∧ f.msgType = Msg.info ∧
        (parseInfo f.payload).map Info.radioReady = some 1) = true := by decide +kernel
  obtain ⟨f, hf, hinfo⟩ := List.any_eq_true.mp hheard
  obtain ⟨e, hmem, he⟩ := List.mem_filterMap.mp hf
  cases e with
  | frame g =>
    obtain rfl : g = f := Option.some.inj he
    obtain ⟨hs, ht, hp⟩ : g.session = _ ∧ g.msgType = Msg.info ∧ _ := by simpa using hinfo
    obtain ⟨info, hinfo, hready⟩ := hp
    have hhealthy := (h 0 1 [unsolicited] 0).mpr ⟨hup, info, ⟨g, hmem, hs, ht, hinfo⟩, by rw [hready]; decide⟩
    rw [hill] at hhealthy
    cases hhealthy
  | _ => cases he

end LoraLink.Host
