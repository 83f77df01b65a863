import LoraLink.App.Stop
import LoraLink.Lib.Struct

/-!
# The bodies of application frames

The encoders and decoders of HELLO, telemetry, STOP and COMMAND_ACK. The fields are Python's integers. A function
returns what escapes it as `Raised`: an `ApplicationError` with its reason, or an error of `struct` that it has not
turned into one.

- `Packs`: what the encoders share, a check of the fields ahead of `struct.pack`;
- `helloCodec` to `ackCodec`: what one side accepts, the other one undoes;
- `bodies_inverse`: all four, and STOP bodies for session 0, which no receiver applies.
-/

namespace LoraLink.Application.Bodies

open Struct

def roleBase : Int := 1
def roleRobot : Int := 2

def ackApplied : Int := 0
def ackStaleId : Int := 6

def stateUnknown : Int := 0
def stateRunning : Int := 1
def stateStopped : Int := 2

/-- The values that stand for an unknown coordinate and for an unknown field of 16 bits. -/
def unknownI32 : Int := -2 ^ 31
def unknownU16 : Int := 0xffff

/-- Why `ApplicationError` was raised. -/
inductive Reason
  | helloFields
  | helloBody
  | helloRole
  | telemetryFieldRange
  | telemetryBody
  | telemetryReserved
  | stopTargetSession
  | stopFields
  | stopBody
  | ackIdentity
  | ackResult
  | ackState
  | ackBody
deriving DecidableEq, Repr

/-- What escapes a function: `wrongNumberOfValues` where `unpack` gave another number of values than the source takes. -/
inductive Raised
  | application (reason : Reason)
  | struct (e : StructError)
  | wrongNumberOfValues
deriving DecidableEq, Repr

structure TelemetrySample where
  uptimeMs : Int
  latitudeE7 : Int
  longitudeE7 : Int
  speedMmS : Int
  batteryMv : Int
  lastRtcmTransportAgeMs : Int
  statusFlags : Int
  fixType : Int
  satellites : Int
deriving DecidableEq, Repr

structure StopRequestBody where
  targetSession : Int
  command : Int
  reason : Int
deriving DecidableEq, Repr

structure CommandAckBody where
  requestSession : Int
  requestId : Int
  result : Int
  state : Int
deriving DecidableEq, Repr

/-- `struct.pack`, whose error escapes. -/
def packed (cs : List Code) (vs : List Int) : Except Raised Bytes := (pack cs vs).mapError .struct

/-- What the decoders share: the length of the body, its values, and what is made of them. -/
def ofBody {α : Type} (size : Nat) (short : Reason) (cs : List Code) (build : List Int → Except Raised α) (body : Bytes) :
    Except Raised α :=
  if body.length ≠ size then .error (.application short)
  else
    match unpack cs body with
    | .ok vs => build vs
    | .error e => .error (.struct e)

/-! ## HELLO -/

def helloFormat : List Code := [.B, .H]

def encodeHello (role capabilities : Int) : Except Raised Bytes :=
  if ¬ (role = roleBase ∨ role = roleRobot) ∨ ¬ (0 ≤ capabilities ∧ capabilities ≤ 0xffff) then
    .error (.application .helloFields)
  else packed helloFormat [role, capabilities]

def decodeHello : Bytes → Except Raised (Int × Int) :=
  ofBody 3 .helloBody helloFormat fun
    | [role, capabilities] =>
      if ¬ (role = roleBase ∨ role = roleRobot) then .error (.application .helloRole) else .ok (role, capabilities)
    | _ => .error .wrongNumberOfValues

/-! ## Telemetry -/

def telemetryFormat : List Code := [.I, .i, .i, .H, .H, .H, .H, .B, .B, .H]

def encodeTelemetry (s : TelemetrySample) : Except Raised Bytes :=
  match pack telemetryFormat [s.uptimeMs, s.latitudeE7, s.longitudeE7, s.speedMmS, s.batteryMv, s.lastRtcmTransportAgeMs,
    s.statusFlags, s.fixType, s.satellites, 0] with
  | .ok body => .ok body
  | .error _ => .error (.application .telemetryFieldRange)

def decodeTelemetry : Bytes → Except Raised TelemetrySample :=
  ofBody 24 .telemetryBody telemetryFormat fun
    | [uptimeMs, latitudeE7, longitudeE7, speedMmS, batteryMv, lastRtcmTransportAgeMs, statusFlags, fixType, satellites,
        reserved] =>
      if reserved ≠ 0 then .error (.application .telemetryReserved)
      else
        .ok { uptimeMs := uptimeMs, latitudeE7 := latitudeE7, longitudeE7 := longitudeE7, speedMmS := speedMmS
              batteryMv := batteryMv, lastRtcmTransportAgeMs := lastRtcmTransportAgeMs, statusFlags := statusFlags
              fixType := fixType, satellites := satellites }
    | _ => .error .wrongNumberOfValues

/-! ## STOP -/

def stopFormat : List Code := [.I, .B, .B]

def encodeStop (request : StopRequestBody) : Except Raised Bytes :=
  if ¬ (0 < request.targetSession ∧ request.targetSession ≤ 0xffffffff) then .error (.application .stopTargetSession)
  else if ¬ (0 ≤ request.command ∧ request.command ≤ 0xff) ∨ ¬ (0 ≤ request.reason ∧ request.reason ≤ 0xff) then
    .error (.application .stopFields)
  else packed stopFormat [request.targetSession, request.command, request.reason]

def decodeStop : Bytes → Except Raised StopRequestBody :=
  ofBody 6 .stopBody stopFormat fun
    | [targetSession, command, reason] => .ok { targetSession := targetSession, command := command, reason := reason }
    | _ => .error .wrongNumberOfValues

/-! ## COMMAND_ACK -/

def ackFormat : List Code := [.I, .I, .B, .B]

def encodeAck (ack : CommandAckBody) : Except Raised Bytes :=
  if ¬ (0 < ack.requestSession ∧ ack.requestSession ≤ 0xffffffff) ∨
    ¬ (0 < ack.requestId ∧ ack.requestId ≤ 0xffffffff) then
    .error (.application .ackIdentity)
  else if ¬ (ackApplied ≤ ack.result ∧ ack.result < ackStaleId + 1) then .error (.application .ackResult)
  else if ¬ (ack.state = stateUnknown ∨ ack.state = stateRunning ∨ ack.state = stateStopped) then
    .error (.application .ackState)
  else packed ackFormat [ack.requestSession, ack.requestId, ack.result, ack.state]

def decodeAck : Bytes → Except Raised CommandAckBody :=
  ofBody 10 .ackBody ackFormat fun
    | [requestSession, requestId, result, state] => do
      let ack : CommandAckBody :=
        { requestSession := requestSession, requestId := requestId, result := result, state := state }
      -- called for its checks
      let _ ← encodeAck ack
      return ack
    | _ => .error .wrongNumberOfValues

/-! ## What is accepted -/

section Accepted

variable {α : Type} {cs : List Code} {vs : List Int} {body : Bytes} {e : Raised}

theorem packed_ok : packed cs vs = .ok body ↔ pack cs vs = .ok body := by
  unfold packed
  cases pack cs vs with
  | ok b => simp [Except.mapError]
  | error e => exact ⟨nofun, nofun⟩

theorem fits_of_unpack (h : unpack cs body = .ok vs) : List.Forall₂ Code.Fits cs vs := pack_isOk.mp ⟨body, pack_unpack h⟩

variable {size : Nat} {short : Reason} {build : List Int → Except Raised α}

theorem ofBody_ok (hsize : calcsize cs = size) {v : α} : ofBody size short cs build body = .ok v ↔
    ∃ vs, unpack cs body = .ok vs ∧ build vs = .ok v := by
  unfold ofBody
  by_cases hlength : body.length = size
  · rw [if_neg (not_not.mpr hlength), unpack, if_pos (hlength.trans hsize.symm)]
    refine ⟨fun h => ⟨_, rfl, h⟩, ?_⟩
    rintro ⟨vs, hvs, h⟩
    exact Except.ok.inj hvs ▸ h
  · rw [if_pos hlength]
    constructor
    · intro h
      cases h
    · rintro ⟨vs, hvs, -⟩
      exact absurd ((unpack_ok hvs).1.trans hsize) hlength

/-- What a decoder raises: the length is wrong, or it refuses the values. -/
theorem ofBody_raises (hsize : calcsize cs = size) (h : ofBody size short cs build body = .error e) :
    e = .application short ∨ ∃ vs, vs = values cs body ∧ build vs = .error e := by
  unfold ofBody at h
  by_cases hlength : body.length = size
  · rw [if_neg (not_not.mpr hlength), unpack, if_pos (hlength.trans hsize.symm)] at h
    exact Or.inr ⟨_, rfl, h⟩
  · rw [if_pos hlength] at h
    exact Or.inl (Except.error.inj h).symm

end Accepted

/-- The two roles, and every number of 16 bits. -/
def HelloFits (v : Int × Int) : Prop := (v.1 = roleBase ∨ v.1 = roleRobot) ∧ 0 ≤ v.2 ∧ v.2 ≤ 0xffff

/-- The whole ranges of the fields, and the markers of what is unknown among them. -/
structure TelemetryFits (s : TelemetrySample) : Prop where
  uptimeMs : 0 ≤ s.uptimeMs ∧ s.uptimeMs ≤ 0xffffffff
  latitudeE7 : unknownI32 ≤ s.latitudeE7 ∧ s.latitudeE7 < 2 ^ 31
  longitudeE7 : unknownI32 ≤ s.longitudeE7 ∧ s.longitudeE7 < 2 ^ 31
  speedMmS : 0 ≤ s.speedMmS ∧ s.speedMmS ≤ unknownU16
  batteryMv : 0 ≤ s.batteryMv ∧ s.batteryMv ≤ unknownU16
  lastRtcmTransportAgeMs : 0 ≤ s.lastRtcmTransportAgeMs ∧ s.lastRtcmTransportAgeMs ≤ unknownU16
  statusFlags : 0 ≤ s.statusFlags ∧ s.statusFlags ≤ 0xffff
  fixType : 0 ≤ s.fixType ∧ s.fixType ≤ 0xff
  satellites : 0 ≤ s.satellites ∧ s.satellites ≤ 0xff

structure StopFits (request : StopRequestBody) : Prop where
  targetSession : 0 < request.targetSession ∧ request.targetSession ≤ 0xffffffff
  command : 0 ≤ request.command ∧ request.command ≤ 0xff
  reason : 0 ≤ request.reason ∧ request.reason ≤ 0xff

structure AckFits (ack : CommandAckBody) : Prop where
  requestSession : 0 < ack.requestSession ∧ ack.requestSession ≤ 0xffffffff
  requestId : 0 < ack.requestId ∧ ack.requestId ≤ 0xffffffff
  result : ackApplied ≤ ack.result ∧ ack.result ≤ ackStaleId
  state : ack.state = stateUnknown ∨ ack.state = stateRunning ∨ ack.state = stateStopped

/-- An encoder and a decoder: the encoder accepts the values that fit, the decoder returns them from what it makes, and
the encoder builds again what the decoder accepts, but for the values that it refuses; nothing but `ApplicationError` is
raised. -/
structure Inverse {α : Type} (encode : α → Except Raised Bytes) (decode : Bytes → Except Raised α)
    (fits refused : α → Prop) : Prop where
  accepts : ∀ v, (∃ body, encode v = .ok body) ↔ fits v
  decode_encode : ∀ v body, encode v = .ok body → decode body = .ok v
  encode_decode : ∀ body v, decode body = .ok v → ¬ refused v → encode v = .ok body
  refuses : ∀ v, refused v → ∃ reason, encode v = .error (.application reason)
  encode_raises : ∀ v e, encode v = .error e → ∃ reason, e = .application reason
  decode_raises : ∀ body e, decode body = .error e → ∃ reason, e = .application reason

/-- What the encoders share: the values that fit have room and are packed, the others are refused. -/
structure Packs {α : Type} (encode : α → Except Raised Bytes) (cs : List Code) (values : α → List Int)
    (fits : α → Prop) : Prop where
  packs : ∀ v, fits v → encode v = packed cs (values v)
  refuses : ∀ v, ¬ fits v → ∃ reason, encode v = .error (.application reason)
  room : ∀ v, fits v → List.Forall₂ Code.Fits cs (values v)

namespace Packs

variable {α : Type} {encode : α → Except Raised Bytes} {cs : List Code} {values : α → List Int} {fits : α → Prop}
  {v : α} {body : Bytes}

theorem ok (h : Packs encode cs values fits) : encode v = .ok body ↔ fits v ∧ pack cs (values v) = .ok body := by
  by_cases hv : fits v
  · rw [h.packs v hv, packed_ok]
    exact ⟨fun hpack => ⟨hv, hpack⟩, And.right⟩
  · obtain ⟨reason, hreason⟩ := h.refuses v hv
    rw [hreason]
    exact ⟨nofun, fun hboth => absurd hboth.1 hv⟩

theorem accepts (h : Packs encode cs values fits) : (∃ body, encode v = .ok body) ↔ fits v := by
  refine ⟨fun ⟨body, hbody⟩ => (h.ok.mp hbody).1, fun hv => ?_⟩
  obtain ⟨body, hpack⟩ := pack_isOk.mpr (h.room v hv)
  exact ⟨body, h.ok.mpr ⟨hv, hpack⟩⟩

theorem raises (h : Packs encode cs values fits) {e : Raised} (he : encode v = .error e) :
    ∃ reason, e = .application reason := by
  by_cases hv : fits v
  · obtain ⟨body, hbody⟩ := h.accepts.mpr hv
    exact nomatch hbody.symm.trans he
  · obtain ⟨reason, hreason⟩ := h.refuses v hv
    exact ⟨reason, Except.error.inj (he.symm.trans hreason)⟩

end Packs

/-! ## One codec after the other -/

theorem helloPacks : Packs (fun v => encodeHello v.1 v.2) helloFormat (fun v => [v.1, v.2]) HelloFits where
  packs v h := if_neg (by
    obtain ⟨hrole, hcapabilities⟩ := h
    tauto)
  refuses v h := ⟨.helloFields, if_pos (by
    unfold HelloFits at h
    tauto)⟩
  room v h := by
    obtain ⟨hrole, hcapabilities⟩ := h
    simp only [roleBase, roleRobot] at hrole
    simp only [helloFormat, List.forall₂_cons, Code.fits_B, Code.fits_H, List.forall₂_nil_left_iff, and_true]
    omega

theorem decodeHello_ok {body : Bytes} {role capabilities : Int} : decodeHello body = .ok (role, capabilities) ↔
    (role = roleBase ∨ role = roleRobot) ∧ unpack helloFormat body = .ok [role, capabilities] := by
  refine (ofBody_ok (show calcsize helloFormat = 3 from rfl)).trans
    ⟨?_, fun ⟨hrole, hvs⟩ => ⟨_, hvs, if_neg (not_not.mpr hrole)⟩⟩
  rintro ⟨vs, hvs, h⟩
  obtain ⟨r, c, rfl⟩ : ∃ r c, vs = [r, c] := ⟨_, _, (unpack_ok hvs).2⟩
  by_cases hrole : r = roleBase ∨ r = roleRobot
  · obtain ⟨rfl, rfl⟩ := Prod.mk.inj (Except.ok.inj ((if_neg (not_not.mpr hrole)).symm.trans h))
    exact ⟨hrole, hvs⟩
  · cases (if_pos hrole).symm.trans h

theorem helloCodec : Inverse (fun v => encodeHello v.1 v.2) decodeHello HelloFits fun _ => False where
  accepts _ := helloPacks.accepts
  decode_encode := by
    rintro ⟨role, capabilities⟩ body h
    obtain ⟨hfits, hpack⟩ := helloPacks.ok.mp h
    exact decodeHello_ok.mpr ⟨hfits.1, unpack_pack hpack⟩
  encode_decode := by
    rintro body ⟨role, capabilities⟩ h -
    obtain ⟨hrole, hunpack⟩ := decodeHello_ok.mp h
    have hfits := fits_of_unpack hunpack
    simp only [helloFormat, List.forall₂_cons, Code.fits_B, Code.fits_H] at hfits
    exact helloPacks.ok.mpr ⟨⟨hrole, by omega⟩, pack_unpack hunpack⟩
  refuses v h := h.elim
  encode_raises _ _ h := helloPacks.raises h
  decode_raises := by
    intro body e h
    rcases ofBody_raises (show calcsize helloFormat = 3 from rfl) h with he | ⟨vs, hvs, hbuild⟩
    · exact ⟨_, he⟩
    · obtain ⟨r, c, rfl⟩ : ∃ r c, vs = [r, c] := ⟨_, _, hvs⟩
      change (if ¬ _ then _ else _) = _ at hbuild
      split at hbuild
      · exact ⟨_, (Except.error.inj hbuild).symm⟩
      · cases hbuild

/-- The values of a sample, with the reserved field. -/
def fields (s : TelemetrySample) : List Int :=
  [s.uptimeMs, s.latitudeE7, s.longitudeE7, s.speedMmS, s.batteryMv, s.lastRtcmTransportAgeMs, s.statusFlags, s.fixType,
    s.satellites, 0]

/-- The samples that fit are those for whose fields there is room. -/
theorem telemetryFits_iff {s : TelemetrySample} :
    TelemetryFits s ↔ List.Forall₂ Code.Fits telemetryFormat (fields s) := by
  have hi32 : unknownI32 = -2147483648 := rfl
  have hu16 : unknownU16 = 65535 := rfl
  simp only [telemetryFormat, fields, List.forall₂_cons, Code.fits_B, Code.fits_H, Code.fits_I, Code.fits_i,
    List.forall₂_nil_left_iff, and_true]
  constructor
  · rintro ⟨h1, h2, h3, h4, h5, h6, h7, h8, h9⟩
    omega
  · intro h
    constructor <;> omega

/-- The encoder leaves the checks to `struct`. -/
theorem encodeTelemetry_eq (s : TelemetrySample) : encodeTelemetry s =
    (pack telemetryFormat (fields s)).mapError fun _ => .application .telemetryFieldRange := by
  unfold encodeTelemetry fields
  generalize pack telemetryFormat _ = packed
  cases packed with
  | ok body => rfl
  | error e => rfl

theorem telemetryPacks : Packs encodeTelemetry telemetryFormat fields TelemetryFits where
  packs s h := by
    obtain ⟨body, hpack⟩ := pack_isOk.mpr (telemetryFits_iff.mp h)
    rw [encodeTelemetry_eq, packed_ok.mpr hpack, hpack]
    rfl
  refuses s h := by
    cases hpack : pack telemetryFormat (fields s) with
    | ok body => exact absurd (telemetryFits_iff.mpr (pack_isOk.mp ⟨body, hpack⟩)) h
    | error e =>
      refine ⟨.telemetryFieldRange, ?_⟩
      rw [encodeTelemetry_eq, hpack]
      rfl
  room _ h := telemetryFits_iff.mp h

theorem decodeTelemetry_ok {s : TelemetrySample} {body : Bytes} :
    decodeTelemetry body = .ok s ↔ unpack telemetryFormat body = .ok (fields s) := by
  refine (ofBody_ok (show calcsize telemetryFormat = 24 from rfl)).trans
    ⟨?_, fun hvs => ⟨_, hvs, if_neg (not_not.mpr rfl)⟩⟩
  rintro ⟨vs, hvs, h⟩
  obtain ⟨a, b, c, d, f, g, i, j, k, reserved, rfl⟩ : ∃ a b c d f g i j k reserved,
      vs = [a, b, c, d, f, g, i, j, k, reserved] :=
    ⟨_, _, _, _, _, _, _, _, _, _, (unpack_ok hvs).2⟩
  by_cases hreserved : reserved = 0
  · have hs := Except.ok.inj ((if_neg (not_not.mpr hreserved)).symm.trans h)
    rw [← hs, hvs, hreserved]
    rfl
  · cases (if_pos hreserved).symm.trans h

theorem telemetryCodec : Inverse encodeTelemetry decodeTelemetry TelemetryFits fun _ => False where
  accepts _ := telemetryPacks.accepts
  decode_encode _ _ h := decodeTelemetry_ok.mpr (unpack_pack (telemetryPacks.ok.mp h).2)
  encode_decode _ _ h _ := by
    have hunpack := decodeTelemetry_ok.mp h
    exact telemetryPacks.ok.mpr ⟨telemetryFits_iff.mpr (fits_of_unpack hunpack), pack_unpack hunpack⟩
  refuses _ h := h.elim
  encode_raises _ _ h := telemetryPacks.raises h
  decode_raises := by
    intro body e h
    rcases ofBody_raises (show calcsize telemetryFormat = 24 from rfl) h with he | ⟨vs, hvs, hbuild⟩
    · exact ⟨_, he⟩
    · obtain ⟨a, b, c, d, f, g, i, j, k, reserved, rfl⟩ : ∃ a b c d f g i j k reserved,
          vs = [a, b, c, d, f, g, i, j, k, reserved] :=
        ⟨_, _, _, _, _, _, _, _, _, _, hvs⟩
      change (if ¬ _ then _ else _) = _ at hbuild
      split at hbuild
      · exact ⟨_, (Except.error.inj hbuild).symm⟩
      · cases hbuild

theorem stopPacks :
    Packs encodeStop stopFormat (fun request => [request.targetSession, request.command, request.reason]) StopFits where
  packs request h := by
    obtain ⟨htarget, hcommand, hreason⟩ := h
    unfold encodeStop
    rw [if_neg (not_not.mpr htarget), if_neg (by tauto)]
  refuses request h := by
    unfold encodeStop
    split
    · exact ⟨_, rfl⟩
    split
    · exact ⟨_, rfl⟩
    · rename_i htarget hfields
      exact absurd ⟨not_not.mp htarget, by tauto, by tauto⟩ h
  room request h := by
    obtain ⟨htarget, hcommand, hreason⟩ := h
    simp only [stopFormat, List.forall₂_cons, Code.fits_B, Code.fits_I, List.forall₂_nil_left_iff, and_true]
    omega

theorem decodeStop_ok {request : StopRequestBody} {body : Bytes} : decodeStop body = .ok request ↔
    unpack stopFormat body = .ok [request.targetSession, request.command, request.reason] := by
  refine (ofBody_ok (show calcsize stopFormat = 6 from rfl)).trans ⟨?_, fun hvs => ⟨_, hvs, rfl⟩⟩
  rintro ⟨vs, hvs, h⟩
  obtain ⟨a, b, c, rfl⟩ : ∃ a b c, vs = [a, b, c] := ⟨_, _, _, (unpack_ok hvs).2⟩
  rw [← Except.ok.inj h, hvs]

/-- A STOP for session 0 is refused by the encoder only. -/
theorem stopCodec : Inverse encodeStop decodeStop StopFits fun request => request.targetSession = 0 where
  accepts _ := stopPacks.accepts
  decode_encode _ _ h := decodeStop_ok.mpr (unpack_pack (stopPacks.ok.mp h).2)
  encode_decode := by
    intro body request h hne
    have hunpack := decodeStop_ok.mp h
    have hfits := fits_of_unpack hunpack
    simp only [stopFormat, List.forall₂_cons, Code.fits_B, Code.fits_I] at hfits
    exact stopPacks.ok.mpr ⟨⟨by omega, by omega, by omega⟩, pack_unpack hunpack⟩
  refuses request h := stopPacks.refuses request fun hfits => hfits.targetSession.1.ne' h
  encode_raises _ _ h := stopPacks.raises h
  decode_raises := by
    intro body e h
    rcases ofBody_raises (show calcsize stopFormat = 6 from rfl) h with he | ⟨vs, hvs, hbuild⟩
    · exact ⟨_, he⟩
    · obtain ⟨a, b, c, rfl⟩ : ∃ a b c, vs = [a, b, c] := ⟨_, _, _, hvs⟩
      cases hbuild

theorem ackPacks : Packs encodeAck ackFormat (fun ack => [ack.requestSession, ack.requestId, ack.result, ack.state])
    AckFits where
  packs ack h := by
    obtain ⟨hsession, hid, ⟨hlow, hhigh⟩, hstate⟩ := h
    unfold encodeAck
    rw [if_neg (by tauto), if_neg (not_not.mpr ⟨hlow, Int.lt_add_one_of_le hhigh⟩), if_neg (not_not.mpr hstate)]
  refuses ack h := by
    unfold encodeAck
    split
    · exact ⟨_, rfl⟩
    split
    · exact ⟨_, rfl⟩
    split
    · exact ⟨_, rfl⟩
    · rename_i hidentity hresult hstate
      obtain ⟨hlow, hhigh⟩ := not_not.mp hresult
      exact absurd ⟨by tauto, by tauto, ⟨hlow, Int.le_of_lt_add_one hhigh⟩, not_not.mp hstate⟩ h
  room ack h := by
    obtain ⟨hsession, hid, hresult, hstate⟩ := h
    simp only [ackApplied, ackStaleId, stateUnknown, stateRunning, stateStopped] at hresult hstate
    simp only [ackFormat, List.forall₂_cons, Code.fits_B, Code.fits_I, List.forall₂_nil_left_iff, and_true]
    omega

/-- The decoder builds the value and lets the encoder check it. -/
theorem decodeAck_ok {ack : CommandAckBody} {body : Bytes} : decodeAck body = .ok ack ↔
    unpack ackFormat body = .ok [ack.requestSession, ack.requestId, ack.result, ack.state] ∧
      ∃ b, encodeAck ack = .ok b := by
  refine (ofBody_ok (show calcsize ackFormat = 10 from rfl)).trans ⟨?_, fun ⟨hvs, b, hb⟩ => ⟨_, hvs, ?_⟩⟩
  · rintro ⟨vs, hvs, h⟩
    obtain ⟨a, b, c, d, rfl⟩ : ∃ a b c d, vs = [a, b, c, d] := ⟨_, _, _, _, (unpack_ok hvs).2⟩
    cases hencode : encodeAck { requestSession := a, requestId := b, result := c, state := d } with
    | error e =>
      simp only [hencode] at h
      cases h
    | ok b =>
      simp only [hencode] at h
      obtain rfl := Except.ok.inj h
      exact ⟨hvs, b, hencode⟩
  · simp only [hb]
    rfl

theorem ackCodec : Inverse encodeAck decodeAck AckFits fun _ => False where
  accepts _ := ackPacks.accepts
  decode_encode ack body h := decodeAck_ok.mpr ⟨unpack_pack (ackPacks.ok.mp h).2, body, h⟩
  encode_decode := by
    intro body ack h _
    obtain ⟨hunpack, b, hencode⟩ := decodeAck_ok.mp h
    exact ackPacks.ok.mpr ⟨(ackPacks.ok.mp hencode).1, pack_unpack hunpack⟩
  refuses _ h := h.elim
  encode_raises _ _ h := ackPacks.raises h
  decode_raises := by
    intro body e h
    rcases ofBody_raises (show calcsize ackFormat = 10 from rfl) h with he | ⟨vs, hvs, hbuild⟩
    · exact ⟨_, he⟩
    · obtain ⟨a, b, c, d, rfl⟩ : ∃ a b c d, vs = [a, b, c, d] := ⟨_, _, _, _, hvs⟩
      cases hencode : encodeAck { requestSession := a, requestId := b, result := c, state := d } with
      | error e' =>
        simp only [hencode] at hbuild
        obtain rfl := Except.error.inj hbuild
        exact ackPacks.raises hencode
      | ok b =>
        simp only [hencode] at hbuild
        cases hbuild

/-! ## STOP for session 0 -/

/-- The decoder that `StopCache` calls is this one. -/
theorem decodeStop_length {body : Bytes} (h : body.length = 6) : ∃ r, Application.decodeStop body = .ok r ∧
    decodeStop body = .ok { targetSession := r.targetSession, command := r.command, reason := r.reason } := by
  refine ⟨_, if_neg (not_not.mpr h), decodeStop_ok.mpr ?_⟩
  match body, h with
  | [a, b, c, d, e, f], h =>
    have hu32 : (Code.decode .I [a, b, c, d] : Int) = u32 [a, b, c, d, e, f] := by
      have hlt : ofBytes [a, b, c, d] < 4294967296 := by simpa using ofBytes_lt [a, b, c, d]
      have hvalue : ofBytes [a, b, c, d] = u32 [a, b, c, d, e, f] := by simp [ofBytes, u32, Nat.add_assoc]
      have hhigh : (ofBytes [a, b, c, d] : Int) < Code.I.high := by
        show (ofBytes [a, b, c, d] : Int) < 4294967296
        omega
      rw [← hvalue, Code.decode, if_pos hhigh]
    have hbyte : ∀ x : UInt8, (Code.decode .B [x] : Int) = x.toNat := by
      intro x
      have hlt := x.toNat_lt
      simp [Code.decode, ofBytes, Code.high]
      omega
    show Except.ok [Code.decode .I [a, b, c, d], Code.decode .B [e], Code.decode .B [f]] = _
    rw [hu32, hbyte, hbyte]
    rfl

/-- No receiver applies a STOP for session 0: its own session is not 0. -/
theorem zero_session_left {localSession ttlMs : Int} {c : StopCache} (hnew : StopCache.new localSession ttlMs = .ok c)
    (calls : List StopCache.Call) {f : Frame} {request : StopRequestBody} (hbody : decodeStop f.body = .ok request)
    (hzero : request.targetSession = 0) :
    StopCache.Leaves (run StopCache.next c calls) ((run StopCache.next c calls).apply f) := by
  have hpos : 0 < localSession := by
    unfold StopCache.new at hnew
    split at hnew
    · cases hnew
    · rename_i hrange
      exact (not_not.mp hrange).1
  have hrun := run_rel (P := StopCache.Remembers localSession ttlMs) (G := fun _ => True) (f := StopCache.applied)
    (StopCache.remembers_new hnew) (fun H call c h _ => StopCache.remembers_next h call) calls (fun _ _ => trivial)
  rcases StopCache.apply_cases f (run StopCache.next c calls) with happly | hleave
  · obtain ⟨⟨r, hr, htarget, -⟩, -⟩ := happly.legitimate
    obtain ⟨r', hr', hsame⟩ := decodeStop_length ((unpack_ok (decodeStop_ok.mp hbody)).1)
    obtain rfl := Except.ok.inj (hr.symm.trans hr')
    have hrequest := Except.ok.inj (hbody.symm.trans hsame)
    rw [hrequest] at hzero
    rw [hrun.config.1] at htarget
    simp only at hzero
    omega
  · exact hleave

/-- **The body codecs undo each other.** The encoders accept exactly the values whose fields are in range; what one side
accepts, the other turns back, and nothing but `ApplicationError` is raised; only a STOP body for session 0 is decoded
and not encoded, and whatever a receiver was sent before, it does not apply such a STOP. -/
theorem bodies_inverse :
    Inverse (fun v => encodeHello v.1 v.2) decodeHello HelloFits (fun _ => False) ∧
      Inverse encodeTelemetry decodeTelemetry TelemetryFits (fun _ => False) ∧
      Inverse encodeAck decodeAck AckFits (fun _ => False) ∧
      Inverse encodeStop decodeStop StopFits (fun request => request.targetSession = 0) ∧
      (∀ command reason : UInt8, decodeStop [0, 0, 0, 0, command, reason] =
        .ok { targetSession := 0, command := command.toNat, reason := reason.toNat }) ∧
      ∀ {localSession ttlMs : Int} {c : StopCache}, StopCache.new localSession ttlMs = .ok c →
        ∀ (calls : List StopCache.Call) (f : Frame) (request : StopRequestBody),
          decodeStop f.body = .ok request → request.targetSession = 0 →
            StopCache.Leaves (run StopCache.next c calls) ((run StopCache.next c calls).apply f) := by
  refine ⟨helloCodec, telemetryCodec, ackCodec, stopCodec, fun command reason => ?_,
    fun hnew calls f request hbody hzero => zero_session_left hnew calls hbody hzero⟩
  obtain ⟨r, hr, hdecode⟩ := decodeStop_length (show [0, 0, 0, 0, command, reason].length = 6 from rfl)
  rw [hdecode, ← Except.ok.inj hr]
  simp [u32, byteAt]

end LoraLink.Application.Bodies
