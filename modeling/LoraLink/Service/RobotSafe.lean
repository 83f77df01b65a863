import LoraLink.App.Sound
import LoraLink.Service.Robot

/-!
# The robot survives what it is sent

Whatever payloads the radio delivers, a step of the robot ends: the reassembler raises only what the step catches.

- `step_safe`: what escapes from a step comes from the transport or the output;
- `reassembler_safe`: the state of the reassembler over all runs, and what follows for the robot.
-/

namespace LoraLink.Service

open LoraLink.Application LoraLink.Host Prog

namespace RobotService

variable {T E : Type}

/-- The output does not raise. -/
def Output.Calm (o : Output) : Prop := (∀ k, o.publish k ≠ none) ∧ o.flush = true

/-- The assemblies are sound, and the output does not raise. -/
structure Safe (r : RobotService T) : Prop where
  sound : r.reassembler.shelf.Sound
  calm : Output.Calm r.output

theorem safe_add (name : RobotMetric) (amount : Nat) :
    Triple Safe (add name amount : Op T Unit) (Returns fun _ => Safe) := fun _ h => ⟨h.sound, h.calm⟩

theorem safe_set (name : RobotMetric) (value : Nat) :
    Triple Safe (set name value : Op T Unit) (Returns fun _ => Safe) := fun _ h => ⟨h.sound, h.calm⟩

theorem safe_note (e : RobotEvent) : Triple Safe (note e : Op T Unit) (Returns fun _ => Safe) :=
  fun _ h => ⟨h.sound, h.calm⟩

theorem safe_publish (raw : Bytes) : Triple Safe (publish raw : Op T Nat) (Returns fun _ => Safe) := by
  refine (safe_note _).seq fun _ => Triple.get_bind_eq fun r h => ?_
  have hnext : ∀ r' : RobotService T, r' = r →
      Safe { r' with output := { r'.output with publish := fun k => r.output.publish (k + 1) } } := by
    rintro r' rfl
    exact ⟨h.sound, fun k => h.calm.1 (k + 1), h.calm.2⟩
  refine (Triple.modify hnext).seq fun _ => ?_
  split
  · exact fun r h => h
  · rename_i hnone
    exact absurd hnone (h.calm.1 0)

theorem safe_receive (now : ℚ) (payload : Bytes) :
    Triple Safe (receive now payload : Op T Unit) (Returns fun _ => Safe) := by
  unfold receive
  split
  · exact safe_add _ _
  · rename_i f hf
    refine Triple.ite (fun _ => safe_add _ _) fun _ => ?_
    have hreassemble : Triple Safe (reassemble f now : Op T (Except Raised (Option Bytes)))
        (Returns fun result r => result ≠ .error .keyError ∧ Safe r) := fun r h =>
      ⟨Reassembler.add_raises h.sound f now, (Reassembler.sound_call h.sound (.add f now)).1, h.calm⟩
    refine hreassemble.seq fun result => Triple.assume fun hresult => ?_
    match result, hresult with
    | .error .keyError, hresult => exact absurd rfl hresult
    | .error (.applicationError _), _ => exact safe_add _ _
    | .ok none, _ => exact safe_add _ _
    | .ok (some raw), _ =>
      refine (safe_add _ _).seq fun _ => (safe_add _ _).seq fun _ => (safe_add _ _).seq fun _ => ?_
      exact (safe_add _ _).seq fun _ => (safe_publish raw).seq fun delivered => safe_add _ _

theorem safe_flush : Triple Safe (flush : Op T Unit) (Returns fun _ => Safe) := by
  refine Triple.get_bind fun r h => ?_
  rw [h.calm.2]
  exact fun r h => h

/-- What escapes from a step is what the transport raises. -/
theorem step_safe [Transport T E] (io : E) (now : ℚ) {r : RobotService T} (h : Safe r) {e : RobotFailure}
    (he : (step io now r).1 = .error e) :
    ∃ e', e = .transport e' ∧ (Transport.tick io true r.transport).1 = .error e' := by
  let P : RobotService T → Prop := fun r' => r' = r
  let Q : Except RobotFailure Unit → RobotService T → Prop := fun result _ =>
    ∀ e, result = .error e → ∃ e', e = .transport e' ∧ (Transport.tick io true r.transport).1 = .error e'
  have hreturns : ∀ result (r' : RobotService T), Returns (fun _ => Safe) result r' → Q result r' := by
    rintro result r' hresult e rfl
    exact hresult.elim
  have htick : Triple P (ofTransport (Transport.tick io true) : Op T (List Bytes)) fun result r' =>
      match result with
      | .ok _ => Safe r'
      | .error e => ∃ e', e = .transport e' ∧ (Transport.tick io true r.transport).1 = .error e' := by
    rintro r' (hr : r' = r)
    rw [hr]
    unfold ofTransport
    rcases (Transport.tick io true : Prog T Exn (List Bytes)) r.transport with ⟨e' | payloads, t⟩
    · exact ⟨e', rfl, rfl⟩
    · exact ⟨h.sound, h.calm⟩
  have hstep : Triple P (step io now : Op T Unit) Q := by
    refine htick.bind (fun payloads => ?_) fun e r' hr e' he' => ?_
    · refine Triple.weaken (Q := Returns fun _ => Safe) ?_ (fun _ h => h) hreturns
      refine (safe_note _).seq fun _ => (Triple.forEach fun payload _ => safe_receive now payload).seq fun _ => ?_
      have hexpire : ∀ r' : RobotService T, Safe r' → Safe { r' with reassembler := (r'.reassembler.expire now).2 } :=
        fun r' h => ⟨(Reassembler.sound_call h.sound (.expire now)).1, h.calm⟩
      refine (Triple.modify hexpire).seq fun _ => safe_flush.seq fun _ => Triple.get_bind fun r' _ => ?_
      exact (safe_set _ _).seq fun _ => safe_set _ _
    · cases he'
      exact hr
  exact hstep r rfl e he

/-- **The reassembler stays sound, and the robot never stops on what it receives.** After any calls of `add` and
`expire` with any frames and times, there are at most 8 assemblies and 64 blocked keys, no key of both kinds, and every
assembly has some but not all of the parts of a frame of its length; right after a call at `now` no assembly is too old
and every block lies in the future; `add` raises nothing but an `ApplicationError`. In any run of the robot, with an
output that does not raise in this step, nothing escapes from `step` but what the transport has raised. -/
theorem reassembler_safe [Transport T E] :
    (∀ calls, (run Reassembler.call {} calls).shelf.Sound ∧
      (∀ x ∈ trace Reassembler.call {} calls, x.after.shelf.Sound ∧ x.after.shelf.Timely x.input.now) ∧
      ∀ f now, ((run Reassembler.call {} calls).add f now).1 ≠ .error .keyError) ∧
    ∀ (t : T) (js : List (Input E)) (i : Input E), Output.Calm i.output →
      ∀ e, (step i.io i.now { run next (init t) js with output := i.output, log := [] }).1 = .error e →
        ∃ e', e = .transport e' ∧ (Transport.tick i.io true (run next (init t) js).transport).1 = .error e' := by
  constructor
  · intro calls
    refine ⟨Reassembler.sound_run calls, fun x hx => ?_, Reassembler.add_raises (Reassembler.sound_run calls)⟩
    have hbefore := (trace_inv (P := fun r : Reassembler => r.shelf.Sound) Reassembler.sound_nil
      (fun c _ h => (Reassembler.sound_call h c).1) hx).1
    rw [trace_step hx]
    exact Reassembler.sound_call hbefore x.input
  · intro t js i hcalm e he
    have hI : Relays fun _ _ r => r.shelf.Sound := by
      refine ⟨fun h _ => h, fun h _ _ => ?_, fun h => ?_⟩
      · exact (Reassembler.sound_call h (.add _ _)).1
      · exact (Reassembler.sound_call h (.expire _)).1
    obtain ⟨-, -, hsound⟩ := run_spec hI Reassembler.sound_nil t js
    exact step_safe i.io i.now (r := { run next (init t) js with output := i.output, log := [] }) ⟨hsound, hcalm⟩ he

end RobotService

end LoraLink.Service
