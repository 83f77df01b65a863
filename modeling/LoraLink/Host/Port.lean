import LoraLink.Host.Keep

/-!
# What the port is given

The bytes that a call of the transport writes, by what the port answers.

- `request_port`: a request writes as much of its frame as the port takes, and loses the connection unless that is all;
- `sendAir_cut`: a refused send has written a part of one frame, and is connected only if that is the whole;
- `step_lined`: whole frames lie between the delimiters, and a reopened port is given a delimiter first.
-/

namespace LoraLink.Host

open LoraLink.Protocol

/-- The bytes that the port has taken. -/
def writtenIn (log : List Event) : Bytes := log.flatMap fun
  | .wrote bs => bs
  | _ => []

/-- How many of the `n` bytes of a write the port takes. -/
def taken : List WriteRes → Nat → Nat
  | [], _ => 0
  | .raised k :: _, n => min k n
  | .wrote k :: ws, n => if k = 0 then 0 else min k n + taken ws (n - k)

/-- The port takes all `n` bytes of a write, and raises nothing. -/
def completes : List WriteRes → Nat → Bool
  | [], n => n == 0
  | .raised _ :: _, n => n == 0
  | .wrote k :: ws, n => n == 0 || k != 0 && completes ws (n - k)

@[simp] theorem writtenIn_append (L E : List Event) : writtenIn (L ++ E) = writtenIn L ++ writtenIn E :=
  List.flatMap_append

theorem taken_le (ws : List WriteRes) : ∀ n : Nat, taken ws n ≤ n := by
  induction ws with
  | nil => exact fun n => Nat.zero_le n
  | cons w ws ih =>
    intro n
    cases w with
    | raised k => exact Nat.min_le_right k n
    | wrote k =>
      have hrest := ih (n - k)
      simp only [taken]
      split
      · exact Nat.zero_le n
      · omega

theorem taken_of_completes {ws : List WriteRes} : ∀ {n : Nat}, completes ws n = true → taken ws n = n := by
  induction ws with
  | nil =>
    intro n h
    exact (eq_of_beq h).symm
  | cons w ws ih =>
    intro n h
    cases w with
    | raised k =>
      obtain rfl : n = 0 := eq_of_beq h
      exact Nat.min_zero k
    | wrote k =>
      rcases Nat.eq_zero_or_pos n with rfl | hn
      · exact Nat.le_zero.mp (taken_le _ 0)
      · simp only [completes, Bool.or_eq_true, beq_iff_eq, Bool.and_eq_true, bne_iff_ne] at h
        obtain ⟨hk, hrest⟩ := h.resolve_left (by omega)
        rw [taken, if_neg hk, ih hrest]
        omega

theorem take_min_add (raw : Bytes) (k n : Nat) :
    raw.take k ++ (raw.drop k).take n = raw.take (min k raw.length + n) := by
  rcases Nat.le_total k raw.length with hk | hk
  · rw [Nat.min_eq_left hk, List.take_add]
  · rw [Nat.min_eq_right hk, List.drop_of_length_le hk, List.take_of_length_le hk, List.take_nil, List.append_nil,
      List.take_of_length_le (Nat.le_add_right _ _)]

namespace Modem

open Prog

/-! ## One request -/

/-- A write of `raw`, behind the log `L`: what the port takes of it is written. -/
def Put (ws : List WriteRes) (raw : Bytes) (L : List Event) (r : Bool) (m : Modem) : Prop :=
  r = completes ws raw.length ∧ ∃ E, m.log = L ++ E ∧ writtenIn E = raw.take (taken ws raw.length)

theorem writeLoop_put (ws : List WriteRes) : ∀ (raw : Bytes) (m : Modem),
    Put ws raw m.log (writeLoop ws raw m).1.isOk (writeLoop ws raw m).2 ∧ (writeLoop ws raw m).2.connected = m.connected ∧
      ∀ e, (writeLoop ws raw m).1 = .error e → e = .osError := by
  have hnil : ∀ (ws : List WriteRes) (m : Modem), Put ws [] m.log (writeLoop ws [] m).1.isOk (writeLoop ws [] m).2 ∧
      (writeLoop ws [] m).2.connected = m.connected ∧ ∀ e, (writeLoop ws [] m).1 = .error e → e = .osError := by
    intro ws m
    have hrun : writeLoop ws [] m = (.ok (), { m with io := { m.io with writes := ws } }) := by
      unfold writeLoop
      rfl
    have hcompletes : completes ws 0 = true := by
      cases ws with
      | nil => rfl
      | cons w ws => cases w <;> rfl
    rw [hrun]
    exact ⟨⟨hcompletes.symm, [], (List.append_nil _).symm, List.take_nil.symm⟩, rfl, fun e h => by cases h⟩
  induction ws with
  | nil =>
    intro raw m
    cases raw with
    | nil => exact hnil [] m
    | cons b raw => exact ⟨⟨rfl, [], (List.append_nil _).symm, rfl⟩, rfl, fun e h => by cases h; rfl⟩
  | cons w ws ih =>
    intro raw m
    cases raw with
    | nil => exact hnil _ m
    | cons b raw =>
      cases w with
      | raised k =>
        refine ⟨⟨rfl, [.wrote ((b :: raw).take k)], rfl, ?_⟩, rfl, fun e h => by cases h; rfl⟩
        have hall := take_min_add (b :: raw) k 0
        rw [List.take_zero] at hall
        exact hall
      | wrote k =>
        have hloop : writeLoop (.wrote k :: ws) (b :: raw) = if k = 0 then raise .osError
            else (do note (.wrote ((b :: raw).take k)); add .usbBytesWritten k; writeLoop ws ((b :: raw).drop k)) := rfl
        by_cases hk : k = 0
        · have hrun : writeLoop (.wrote k :: ws) (b :: raw) m = (.error .osError, m) := by
            rw [hloop, if_pos hk]
            rfl
          rw [hrun, hk]
          exact ⟨⟨rfl, [], (List.append_nil _).symm, rfl⟩, rfl, fun e h => by cases h; rfl⟩
        · obtain ⟨m', hm', hlog, hconnected⟩ : ∃ m', writeLoop (.wrote k :: ws) (b :: raw) m =
              writeLoop ws ((b :: raw).drop k) m' ∧ m'.log = m.log ++ [.wrote ((b :: raw).take k)] ∧
              m'.connected = m.connected := by
            refine ⟨(add .usbBytesWritten k (note (.wrote ((b :: raw).take k)) m).2).2, ?_, rfl, rfl⟩
            rw [hloop, if_neg hk]
            rfl
          rw [hm']
          obtain ⟨⟨hok, E, hE, hwritten⟩, hstill, herror⟩ := ih ((b :: raw).drop k) m'
          rw [List.length_drop] at hok hwritten
          refine ⟨⟨hok.trans ?_, .wrote ((b :: raw).take k) :: E, ?_, ?_⟩, hstill.trans hconnected, herror⟩
          · simp [completes, hk]
          · rw [hE, hlog, List.append_assoc]
            rfl
          · have hcons : writtenIn (.wrote ((b :: raw).take k) :: E) = (b :: raw).take k ++ writtenIn E := rfl
            rw [hcons, hwritten, take_min_add, taken, if_neg hk]

/-- A write: what the port takes of it is written, and unless that is all the connection is lost. -/
theorem write_put (raw : Bytes) {m₀ : Modem} (hup : m₀.connected = true) : Triple (fun m => m = m₀) (write raw) fun r m =>
    Put m₀.io.writes raw m₀.log r.isOk m ∧ m.connected = completes m₀.io.writes raw.length := by
  refine Triple.get_bind fun m hm => ?_
  subst hm
  rw [if_pos hup]
  refine Triple.get_bind fun m' hm' => ?_
  subst hm'
  have hloop : Triple (fun m => m = m') (writeLoop m'.io.writes raw) fun r m =>
      Put m'.io.writes raw m'.log r.isOk m ∧ m.connected = m'.connected := by
    rintro m rfl
    obtain ⟨hput, hstill, -⟩ := writeLoop_put m.io.writes raw m
    exact ⟨hput, hstill⟩
  refine hloop.tryCatch (fun _ m h => ⟨h.1, h.2.trans (hup.trans h.1.1)⟩) fun e m h => ?_
  obtain ⟨⟨hok, E, hE, hwritten⟩, -⟩ := h
  have hlost : Triple (fun m => m.log = m'.log ++ E) (do add .usbWriteFailures; disconnect; raise e : Op Unit) fun r m =>
      r = .error e ∧ m.log = m'.log ++ E ++ [.lost] ∧ m.connected = false := by
    have hadd : Triple (fun m => m.log = m'.log ++ E) (add .usbWriteFailures) (Returns fun _ m => m.log = m'.log ++ E) :=
      fun m h => h
    exact hadd.seq fun _ => (disconnect_log _).seq fun _ m h => ⟨rfl, h⟩
  obtain ⟨herror, hlog, hdown⟩ := hlost m hE
  refine ⟨⟨?_, E ++ [.lost], ?_, ?_⟩, hdown.trans hok⟩
  · rw [herror]
    exact hok
  · rw [hlog, List.append_assoc]
  · rw [writtenIn_append, hwritten]
    exact List.append_nil _

/-- The frame `raw` is written behind the log of `m₀`, as far as the port takes it. -/
structure Cut (m₀ : Modem) (raw : Bytes) (E : List Event) (ok : Bool) (m : Modem) : Prop where
  up : m₀.connected = true
  written : writtenIn E = raw.take (taken m₀.io.writes raw.length)
  connected : m.connected = completes m₀.io.writes raw.length
  ok : ok = completes m₀.io.writes raw.length

/-- A request: nothing is written, or as much of its frame as the port takes. -/
def Asked (m₀ : Modem) (typ : Nat) (payload : Bytes) (ok : Bool) (m : Modem) : Prop :=
  ∃ E, m.log = m₀.log ++ E ∧ ((writtenIn E = [] ∧ m.connected = m₀.connected) ∨ m₀.sequence ≠ maxSequence ∧
    ∃ raw, encodeFrame typ m₀.session (m₀.sequence + 1) payload = some raw ∧ Cut m₀ raw E ok m)

/-- The state of a request before it is written: what matters is that of `m₀`, and the log is `L`. -/
structure Near (m₀ : Modem) (L : List Event) (m : Modem) : Prop where
  connected : m.connected = m₀.connected
  session : m.session = m₀.session
  writes : m.io.writes = m₀.io.writes
  log : m.log = L

theorem near_add {m₀ : Modem} {L : List Event} (name : Metric) :
    Triple (Near m₀ L) (add name) (Returns fun _ => Near m₀ L) := fun _ h => { h with }

theorem request_port (typ : Nat) (payload : Bytes) (m₀ : Modem) :
    Triple (fun m => m = m₀) (request typ payload) fun r m => Asked m₀ typ payload r.isOk m := by
  refine Triple.get_bind fun m hm => ?_
  subst hm
  refine Triple.ite (fun _ => ?_) fun hmax => ?_
  · rintro _ rfl
    exact ⟨[], (List.append_nil _).symm, Or.inl ⟨rfl, rfl⟩⟩
  have hnext : Triple (fun m' => m' = m) next (Returns fun q m' => q = m.sequence + 1 ∧ Near m m.log m') := by
    rintro _ rfl
    exact ⟨if_neg hmax, rfl, rfl, rfl, rfl⟩
  refine hnext.seq fun q => Triple.assume fun hq => (near_add _).seq fun _ => Triple.get_bind fun m' hm' => ?_
  rw [hq, hm'.session]
  cases hraw : encodeFrame typ m.session (m.sequence + 1) payload with
  | none =>
    intro m'' h
    exact ⟨[.unencodable (m.sequence + 1) payload], congrArg (· ++ _) h.log, Or.inl ⟨rfl, h.connected⟩⟩
  | some raw =>
    generalize hL : m.log ++ [Event.request typ m.session (m.sequence + 1) payload m'.pending] = L
    have hnote : Triple (Near m m.log) (note (.request typ m.session (m.sequence + 1) payload m'.pending))
        (Returns fun _ => Near m L) := fun m'' h => { h with log := (congrArg (· ++ _) h.log).trans hL }
    have hwrite : Triple (Near m L) (write raw) fun r m'' => Asked m typ payload r.isOk m'' := by
      intro m'' h
      cases hup : m''.connected with
      | true =>
        obtain ⟨⟨hok, E, hE, hwritten⟩, hstill⟩ := write_put raw hup m'' rfl
        rw [h.writes] at hok hwritten hstill
        rw [h.log, ← hL, List.append_assoc] at hE
        exact ⟨_, hE, Or.inr ⟨hmax, raw, hraw, h.connected.symm.trans hup, hwritten, hstill, hok⟩⟩
      | false =>
        have hrun : write raw m'' = (.error .osError, m'') := by
          show (if m''.connected = true then _ else raise .osError : Op Unit) m'' = _
          rw [hup]
          rfl
        rw [hrun]
        exact ⟨_, h.log.trans hL.symm, Or.inl ⟨rfl, h.connected⟩⟩
    have hend : ∀ (m₁ m₂ : Modem) (t : ℚ), Asked m typ payload true m₁ → m₂.connected = m₁.connected →
        m₂.log = m₁.log ++ [.accepted typ (m.sequence + 1) t] → Asked m typ payload true m₂ := by
      rintro m₁ m₂ t ⟨E, hE, hcut⟩ hconnected hlog
      rw [← hconnected] at hcut
      refine ⟨E ++ [.accepted typ (m.sequence + 1) t], ?_, ?_⟩
      · rw [← List.append_assoc, ← hE, hlog]
      · have hsame : writtenIn (E ++ [.accepted typ (m.sequence + 1) t]) = writtenIn E := by
          rw [writtenIn_append]
          exact List.append_nil _
        rw [hsame]
        rcases hcut with h | ⟨hmax, raw, hraw, hcut⟩
        · exact Or.inl h
        · exact Or.inr ⟨hmax, raw, hraw, { hcut with written := hsame.trans hcut.written
                                                     connected := hconnected.trans hcut.connected }⟩
    refine hnote.seq fun _ => hwrite.bind (fun _ m'' h => ?_) fun _ _ h => h
    exact hend m'' _ (m''.io.clock 0) h rfl rfl

/-! ## Whole frames between the delimiters -/

/-- What has been written begins with a delimiter if the port was closed when the call began. -/
def Begun (up : Bool) (m : Modem) : Prop := up = false → writtenIn m.log = [] ∨ (writtenIn m.log).head? = some 0

/-- And while the port is open it ends with one. -/
structure Lined (up : Bool) (m : Modem) : Prop where
  ends : m.connected = true → (writtenIn m.log = [] ∧ up = true) ∨ (writtenIn m.log).getLast? = some 0
  begins : Begun up m

theorem writtenIn_quiet {e : Event} (he : Quiet e) (L : List Event) : writtenIn (L ++ [e]) = writtenIn L := by
  rw [writtenIn_append]
  cases e with
  | opened | lost | wrote | request | frame => exact he.elim
  | session | unencodable | accepted | deadline | received | took | sent | refused | raised => exact List.append_nil _

theorem writtenIn_frame (f : Frame) (L : List Event) : writtenIn (L ++ [.frame f]) = writtenIn L := by
  rw [writtenIn_append]
  exact List.append_nil _

variable {up : Bool} {m m' : Modem}

theorem Lined.same (h : Lined up m) (hconnected : m'.connected = m.connected)
    (hwritten : writtenIn m'.log = writtenIn m.log) : Lined up m' := by
  constructor
  · rw [hconnected, hwritten]
    exact h.ends
  · rw [Begun, hwritten]
    exact h.begins

/-- A port that has been closed needs no delimiter. -/
theorem Begun.lost (h : Begun up m) {L : List Event} (hlog : m'.log = m.log ++ L) (hL : writtenIn L = [])
    (hdown : m'.connected = false) : Lined up m' := by
  refine ⟨fun hup => absurd (hdown.symm.trans hup) (by decide), ?_⟩
  rw [Begun, hlog, writtenIn_append, hL, List.append_nil]
  exact h

theorem lined_kept (up : Bool) : Kept (Lined up) where
  face := by
    intro m h m' hconnected _ hlog _
    exact h.same hconnected (by rw [hlog])
  quiet := fun he h => h.same rfl (writtenIn_quiet he _)
  lost := fun h => h.begins.lost (L := [.lost]) rfl rfl rfl

theorem encodeFrame_ends {typ session sequence : Nat} {payload raw : Bytes}
    (h : encodeFrame typ session sequence payload = some raw) :
    raw = cobsEncode (rawFrame typ session sequence payload) ++ [0] := by
  simp only [encodeFrame, Option.ite_none_left_eq_some, Option.some.injEq] at h
  exact h.2.2.symm

theorem lined_request (up : Bool) (typ : Nat) (payload : Bytes) :
    Triple (Lined up) (request typ payload) fun _ => Lined up := by
  intro m h
  obtain ⟨E, hE, ⟨hnone, hconnected⟩ | ⟨-, raw, hraw, hcut⟩⟩ := request_port typ payload m m rfl
  · refine h.same hconnected ?_
    rw [hE, writtenIn_append, hnone, List.append_nil]
  · generalize (request typ payload m).2 = m' at hE hcut
    have hbegins : Begun up m' := by
      intro hdown
      have hne : writtenIn m.log ≠ [] := by
        rcases h.ends hcut.up with ⟨-, hup⟩ | hlast
        · exact absurd (hdown.symm.trans hup) (by decide)
        · intro hnil
          rw [hnil] at hlast
          cases hlast
      have hhead := (h.begins hdown).resolve_left hne
      rw [hE, writtenIn_append, List.head?_append_of_ne_nil _ hne]
      exact Or.inr hhead
    refine ⟨fun hup => Or.inr ?_, hbegins⟩
    have hall : writtenIn E = raw := by
      rw [hcut.written, taken_of_completes (hcut.connected.symm.trans hup), List.take_length]
    rw [hE, writtenIn_append, hall, encodeFrame_ends hraw, ← List.append_assoc, List.getLast?_append]
    rfl

theorem begun_kept (up : Bool) : Kept (Begun up) where
  face := by
    intro m h m' _ _ hlog _
    rw [Begun, hlog]
    exact h
  quiet := by
    intro e m he h
    rw [Begun, writtenIn_quiet he]
    exact h
  lost := by
    intro m h
    rw [Begun, writtenIn_append]
    simpa [writtenIn, Begun] using h

/-- The delimiter that a reopened port is given. -/
theorem begun_delimiter (up : Bool) :
    Triple (Begun up) (write [0]) fun r m => Begun up m ∧ (r.isOk = true → Lined up m) := by
  intro m h
  cases hup : m.connected with
  | false =>
    have hrun : write [0] m = (.error .osError, m) := by
      show (if m.connected = true then _ else raise .osError : Op Unit) m = _
      rw [hup]
      rfl
    rw [hrun]
    exact ⟨h, fun hok => by cases hok⟩
  | true =>
    obtain ⟨⟨hok, E, hE, hwritten⟩, hstill⟩ := write_put [0] hup m rfl
    generalize write [0] m = res at hok hE hstill
    obtain ⟨r, m'⟩ := res
    have hbegun : Begun up m' := by
      intro hdown
      rw [hE, writtenIn_append, hwritten]
      rcases h hdown with hnil | hhead
      · rw [hnil, List.nil_append]
        cases taken m.io.writes [(0 : UInt8)].length with
        | zero => exact Or.inl rfl
        | succ k => exact Or.inr rfl
      · rw [List.head?_append, hhead]
        exact Or.inr rfl
    refine ⟨hbegun, fun hr => ⟨fun _ => Or.inr ?_, hbegun⟩⟩
    rw [hE, writtenIn_append, hwritten, taken_of_completes (hok.symm.trans hr), List.getLast?_append]
    rfl

theorem lined_openSerial (up : Bool) : Triple (Lined up) openSerial (Returns fun _ => Lined up) := by
  have hbegun := begun_kept up
  refine Triple.get_bind fun m _ => Triple.ite (fun _ m h => h) fun hdown => ?_
  refine Triple.seq (R := fun _ => Lined up) (fun m h => h.same rfl rfl) fun now => Triple.ite (fun _ m h => h)
    fun _ => ?_
  refine (Triple.tryCatch (P := Begun up) (R := fun r m => Begun up m ∧ (r.isOk = true → Lined up m)) ?_ ?_ ?_).pre
    fun m h => h.begins
  · have hfactory : Triple (Begun up) (serialFactory m.io.opens) fun _ => Begun up := by
      refine Triple.ite (fun _ m h => ?_) fun _ => Kept.raise _
      have hsame : writtenIn (m.log ++ [.opened]) = writtenIn m.log := by
        rw [writtenIn_append]
        exact List.append_nil _
      show up = false → writtenIn (m.log ++ [.opened]) = [] ∨ (writtenIn (m.log ++ [.opened])).head? = some 0
      rw [hsame]
      exact h
    have hfail : ∀ (e : Exn) (m : Modem), Begun up m → Begun up m ∧
        ((Except.error e : Except Exn Unit).isOk = true → Lined up m) := fun e m h => ⟨h, fun hok => by cases hok⟩
    refine hfactory.bind (fun _ => ?_) hfail
    refine Triple.bind (R := fun _ => Begun up) (fun m h => h) (fun _ => ?_) hfail
    refine hbegun.beginFreshSession.bind (fun _ => ?_) hfail
    refine (hbegun.add _ _).bind
      (fun _ => (hbegun.set _ _).bind (fun _ => (hbegun.set _ _).bind (fun _ => ?_) hfail) hfail)
      hfail
    refine (begun_delimiter up).bind (fun _ => ?_) fun e m h => hfail e m h.1
    have hhello : Triple (Lined up) sendHello fun _ => Lined up := Kept.sendHello (lined_request up)
    exact hhello.weaken (fun m h => h.2 rfl) fun r m h => ⟨h.begins, fun _ => h⟩
  · exact fun _ m h => h.2 rfl
  · refine fun e => Triple.seq (R := fun _ => Begun up) (fun m h => h.1) fun _ m h => ?_
    have hlost := disconnect_log m.log m rfl
    generalize disconnect m = res at hlost
    obtain ⟨r, m'⟩ := res
    cases r with
    | ok u => exact h.lost hlost.1 rfl hlost.2
    | error e => exact hlost.elim

/-- Every call leaves whole frames between the delimiters. -/
theorem step_lined (i : Input) (m : Modem) : Lined m.connected (step i m) := by
  have henter : ∀ io, Lined m.connected (m.enter io) := fun io => ⟨fun hup => Or.inl ⟨rfl, hup⟩, fun _ => Or.inl rfl⟩
  have hkept := lined_kept m.connected
  have hrequest := lined_request m.connected
  cases i with
  | sendAir io payload =>
    have h := hkept.sendAir hrequest payload (m.enter io) (henter io)
    rw [step]
    generalize sendAir payload (m.enter io) = res at h
    obtain ⟨_ | _ | sequence, m'⟩ := res <;> exact hkept.quiet (e := _) trivial h
  | tick io idle =>
    have hread : ∀ (d : StreamDecoder) raw, Triple (fun m' => Lined m.connected m' ∧ m'.decoder = d) (tickRead idle raw)
        fun _ => Lined m.connected := by
      intro d raw
      have hall := Kept.tickRead (F := fun _ => Lined m.connected) (J := fun m' => Lined m.connected m' ∧ m'.decoder = d)
        idle raw (fun _ => hkept) (fun _ => hrequest) (fun m' h => ⟨h.1.same rfl rfl, h.2⟩)
        (fun m' h => ⟨h.2, h.1.same rfl rfl⟩) fun _ f m' h => h.same rfl (writtenIn_frame f _)
      exact hall.weaken (fun _ h => h) fun r m' ⟨_, _, h, _⟩ => h
    have h := hkept.tick idle (lined_openSerial _) (fun h _ => ⟨h, fun _ _ h => h⟩)
      (fun {m'} h _ raw _ => (hread m'.decoder raw).pre (by rintro _ rfl; exact ⟨h, rfl⟩)) (m.enter io) (henter io)
    rw [step]
    generalize tick idle (m.enter io) = res at h
    obtain ⟨_ | events, m'⟩ := res <;> exact hkept.quiet (e := _) trivial h
  | takeTxOutcomes => exact hkept.quiet (e := .took m.txOutcomes) trivial ((henter m.io).same rfl rfl)
  | close io =>
    have h := hkept.close (m.enter io) (henter io)
    rw [step]
    generalize close (m.enter io) = res at h
    obtain ⟨_ | u, m'⟩ := res
    · exact hkept.quiet (e := _) trivial h
    · exact h

/-! ## Refused sends -/

/-- What a refused send leaves on the line: nothing, or a part of a HELLO, or what the port has taken of its frame. -/
def Leftover (m₀ : Modem) (payload : Bytes) (log : List Event) : Prop :=
  writtenIn log = [] ∨ m₀.connected = true ∧ ∃ raw, writtenIn log <+: raw ∧
    ((∃ session sequence, encodeFrame Msg.hello session sequence [] = some raw) ∨
      m₀.readyForSend = true ∧ m₀.sequence ≠ maxSequence ∧
        encodeFrame Msg.radioSend m₀.session (m₀.sequence + 1) payload = some raw ∧
        completes m₀.io.writes raw.length = false ∧ writtenIn log = raw.take (taken m₀.io.writes raw.length))

theorem nothing_kept : Kept fun m => writtenIn m.log = [] where
  face := by
    intro m h m' _ _ hlog _
    rw [hlog, h]
  quiet := fun he h => (writtenIn_quiet he _).trans h
  lost := fun h => by
    rw [writtenIn_append, h]
    rfl

theorem leftover_hello {m₀ : Modem} {payload : Bytes} (hup : m₀.connected = true) :
    Triple (fun m => writtenIn m.log = []) restartHostSession fun _ m => Leftover m₀ payload m.log := by
  have hkept := nothing_kept
  have hnothing : ∀ (m : Modem), writtenIn m.log = [] → Leftover m₀ payload m.log := fun _ h => Or.inl h
  have hhello : Triple (fun m => writtenIn m.log = []) sendHello fun _ m => Leftover m₀ payload m.log := by
    refine Triple.bind (R := fun _ m => Leftover m₀ payload m.log) (fun m h => ?_) (fun _ => Kept.pure ()) fun _ _ h => h
    obtain ⟨E, hE, ⟨hnone, -⟩ | ⟨-, raw, hraw, hcut⟩⟩ := request_port Msg.hello [] m m rfl
    · left
      rw [hE, writtenIn_append, h, hnone]
      rfl
    · refine Or.inr ⟨hup, raw, ?_, Or.inl ⟨_, _, hraw⟩⟩
      rw [hE, writtenIn_append, h, List.nil_append, hcut.written]
      exact List.take_prefix _ _
  have hfail : ∀ p, Triple (fun m => writtenIn m.log = []) (failPending p) fun _ m => writtenIn m.log = [] := by
    intro p
    obtain ⟨sequence, typ, started⟩ := p
    exact Triple.ite (fun _ => hkept.outcome _ _) fun _ => Kept.pure ()
  have hskip : ∀ {x : Op Unit} {f : Unit → Op Unit},
      (Triple (fun m => writtenIn m.log = []) x fun _ m => writtenIn m.log = []) →
      (∀ u, Triple (fun m => writtenIn m.log = []) (f u) fun _ m => Leftover m₀ payload m.log) →
      Triple (fun m => writtenIn m.log = []) (x >>= f) fun _ m => Leftover m₀ payload m.log :=
    fun hx hf => hx.bind hf fun _ m h => hnothing m h
  refine Triple.get_bind fun m _ => hskip (Triple.keep_forEach fun p _ => hfail p) fun _ => ?_
  refine hskip (fun m h => h) fun _ => hskip hkept.beginFreshSession fun _ => ?_
  refine hskip (hkept.set _ _) fun _ => hskip (hkept.set _ _) fun _ => ?_
  refine hhello.tryCatch (fun _ _ h => h) fun e => ?_
  exact Triple.ite (fun _ m h => h) fun _ => Kept.raise e

theorem sendAir_cut (payload : Bytes) {m₀ : Modem} (hlog : m₀.log = []) : Triple (fun m => m = m₀) (sendAir payload)
    fun r m => r = .ok none → Leftover m₀ payload m.log := by
  refine Triple.get_bind fun m hm => ?_
  subst hm
  refine Triple.ite (fun _ => ?_) fun hready => ?_
  · rintro _ rfl _
    exact Or.inl (congrArg writtenIn hlog)
  have hready' : m.readyForSend = true := by simpa using hready
  have hup : m.connected = true := by
    simp only [readyForSend, Bool.and_eq_true] at hready'
    exact hready'.1.1.1
  let Rotated : Except Exn Bool → Modem → Prop
    | .ok true, m' => Leftover m payload m'.log
    | .ok false, m' => m' = m ∧ m.sequence ≠ maxSequence
    | .error _, _ => True
  have hrotate : Triple (fun m' => m' = m) rotateBeforeSequenceWrap Rotated := by
    refine Triple.get_bind fun m' hm' => ?_
    subst hm'
    refine Triple.ite (fun hne m h => ⟨h, hne⟩) fun _ => ?_
    refine Triple.seq (R := fun _ m => writtenIn m.log = []) ?_ fun _ => ?_
    · rintro _ rfl
      exact congrArg writtenIn hlog
    · exact (leftover_hello hup).bind (fun _ m h => h) fun _ _ _ => trivial
  refine hrotate.bind (fun rotated => ?_) fun e m' _ hr => by cases hr
  cases rotated with
  | true => exact fun m' h _ => h
  | false =>
    refine Triple.seq (R := fun _ m' => (Near m [] m' ∧ m'.sequence = m.sequence) ∧ m.sequence ≠ maxSequence) ?_
      fun _ => ?_
    · rintro _ ⟨rfl, hne⟩
      exact ⟨⟨⟨rfl, rfl, rfl, hlog⟩, rfl⟩, hne⟩
    refine Triple.seq (R := fun _ m' => (Near m [] m' ∧ m'.sequence = m.sequence) ∧ m.sequence ≠ maxSequence)
      (fun _ h => ⟨⟨{ h.1.1 with }, h.1.2⟩, h.2⟩) fun _ => ?_
    let Tried : Except Exn (Option Nat) → Modem → Prop
      | .ok a, _ => a ≠ none
      | .error _, m' => Leftover m payload m'.log
    refine Triple.tryCatch (R := Tried) ?_ (fun a _ h hr => ?_) fun e => ?_
    · let Sent : Except Exn Nat → Modem → Prop
        | .ok _, _ => True
        | .error _, m' => Leftover m payload m'.log
      refine Triple.bind (R := Sent) (fun m' h => ?_) (fun q m' _ => Option.some_ne_none q) fun e m' h => h
      obtain ⟨⟨hnear, hsequence⟩, hne⟩ := h
      obtain ⟨E, hE, hcut⟩ := request_port Msg.radioSend payload m' m' rfl
      generalize request Msg.radioSend payload m' = res at hE hcut
      obtain ⟨r, m''⟩ := res
      cases r with
      | ok q => trivial
      | error e =>
        have hE' : m''.log = E := by
          rw [hE, hnear.log, List.nil_append]
        show Leftover m payload m''.log
        rw [hE']
        rcases hcut with ⟨hnone, -⟩ | ⟨-, raw, hraw, hcut⟩
        · exact Or.inl hnone
        · rw [hnear.session, hsequence] at hraw
          obtain ⟨-, hwritten, -, hok⟩ := hcut
          rw [hnear.writes] at hwritten hok
          refine Or.inr ⟨hup, raw, hwritten ▸ List.take_prefix _ _, Or.inr ⟨hready', hne, hraw, hok.symm, hwritten⟩⟩
    · cases hr
      exact absurd rfl h
    · refine Triple.ite (fun _ m' h _ => h) fun _ m' h hr => by cases hr

end Modem

end LoraLink.Host
