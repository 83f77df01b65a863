import LoraLink.Usb.Codec

/-!
# COBS, index by index

`cobs_decode` of `protocol.py` with its index: a byte is read at a place of the data, and a read past the end raises
`IndexError`. The recursion is the loop of the source, which ends because every pass takes the index further.

- `cobsDecodeFrom_spec`: a run from an index;
- `cobs_correct`: the code is free of zeros, of the documented length, and is decoded to what was encoded; whatever the
  decoder reads, it stays inside the data and returns less than it was given.
-/

namespace LoraLink.Protocol

inductive CobsError
  | emptyCobsFrame
  | zeroCobsCode
  | truncatedCobsFrame
deriving DecidableEq, Repr

/-- What `cobs_decode` can raise: `ProtocolError`, or `IndexError` where it reads past the end. -/
inductive Raised
  | protocolError (reason : CobsError)
  | indexError
deriving DecidableEq, Repr

/-- `data[i]`. -/
def readByte (data : Bytes) (i : Nat) : Except Raised UInt8 :=
  match data[i]? with
  | some x => .ok x
  | none => .error .indexError

/-- `data[i:end]`. Python cuts a slice that goes past the end: here it is a read past the end. -/
def readSlice (data : Bytes) (i stop : Nat) : Except Raised Bytes :=
  if stop ≤ data.length then .ok ((data.drop i).take (stop - i)) else .error .indexError

/-- The loop of `cobs_decode` from the index `i` on. -/
def cobsDecodeFrom (data : Bytes) (i : Nat) (out : Bytes) : Except Raised Bytes :=
  if i < data.length then
    match readByte data i with
    | .error e => .error e
    | .ok code =>
      if code = 0 then .error (.protocolError .zeroCobsCode)
      else
        let stop := i + 1 + code.toNat - 1
        if stop > data.length then .error (.protocolError .truncatedCobsFrame)
        else
          match readSlice data (i + 1) stop with
          | .error e => .error e
          | .ok block =>
            let out := out ++ block
            cobsDecodeFrom data stop (if code ≠ 0xff ∧ stop < data.length then out ++ [0] else out)
  else .ok out
termination_by data.length - i
decreasing_by
  have hpos : code.toNat ≠ 0 := fun h => ‹¬ code = 0› (UInt8.toNat_inj.mp h)
  omega

def cobsDecodeAt (data : Bytes) : Except Raised Bytes :=
  if data = [] then .error (.protocolError .emptyCobsFrame) else cobsDecodeFrom data 0 []

/-! ## A run of the loop -/

/-- What a run makes of the rest of the data: it raises `ProtocolError`, or its output is shorter than the data. -/
structure Decoded (data : Bytes) (rest : Bytes) (fuel : Nat) (out : Bytes) (r : Except Raised Bytes) : Prop where
  loop : cobsDecodeLoop fuel rest out = r.toOption
  result : (∃ reason, r = .error (.protocolError reason)) ∨ ∃ o, r = .ok o ∧ o.length < data.length

/-- Up to the index the output has not more bytes than were read, and at the end fewer. -/
theorem cobsDecodeFrom_spec (data : Bytes) : ∀ (fuel i : Nat) (out : Bytes), data.length - i ≤ fuel → out.length ≤ i →
    (data.length ≤ i → out.length < data.length) → Decoded data (data.drop i) fuel out (cobsDecodeFrom data i out) := by
  intro fuel
  induction fuel with
  | zero =>
    intro i out hfuel hout hend
    have hi : data.length ≤ i := by omega
    rw [cobsDecodeFrom, if_neg (by omega), List.drop_eq_nil_of_le hi]
    exact ⟨rfl, Or.inr ⟨out, rfl, hend hi⟩⟩
  | succ fuel ih =>
    intro i out hfuel hout hend
    by_cases hi : i < data.length
    · rw [cobsDecodeFrom, if_pos hi, readByte, List.getElem?_eq_getElem hi, List.drop_eq_getElem_cons hi]
      generalize data[i] = code
      simp only
      by_cases hcode : code = 0
      · rw [if_pos hcode]
        exact ⟨by rw [cobsDecodeLoop, if_pos hcode]; rfl, Or.inl ⟨_, rfl⟩⟩
      rw [if_neg hcode]
      have hpos : code.toNat ≠ 0 := fun h => hcode (UInt8.toNat_inj.mp h)
      by_cases hlong : i + 1 + code.toNat - 1 > data.length
      · rw [if_pos hlong]
        refine ⟨?_, Or.inl ⟨_, rfl⟩⟩
        rw [cobsDecodeLoop, if_neg hcode, if_pos (by rw [List.length_drop]; omega)]
        rfl
      · have hblock : i + 1 + code.toNat - 1 - (i + 1) = code.toNat - 1 := by omega
        have hlength : ((data.drop (i + 1)).take (code.toNat - 1)).length = code.toNat - 1 := by
          rw [List.length_take, List.length_drop]
          omega
        rw [if_neg hlong, readSlice, if_pos (by omega), hblock]
        generalize hstop : i + 1 + code.toNat - 1 = stop at hlong
        generalize hout' : (if code ≠ 0xff ∧ stop < data.length
          then out ++ (data.drop (i + 1)).take (code.toNat - 1) ++ [0]
          else out ++ (data.drop (i + 1)).take (code.toNat - 1)) = out'
        have hnext : out'.length ≤ stop ∧ (data.length ≤ stop → out'.length < data.length) := by
          rw [← hout']
          split
          · simp only [List.length_append, hlength, List.length_singleton]
            omega
          · simp only [List.length_append, hlength]
            omega
        have hspec := ih stop out' (by omega) hnext.1 hnext.2
        simp only [hout']
        refine ⟨?_, hspec.result⟩
        have hdrop : (data.drop (i + 1)).drop (code.toNat - 1) = data.drop stop := by
          rw [List.drop_drop]
          congr 1
          omega
        have hmore : data.drop stop ≠ [] ↔ stop < data.length := by
          rw [ne_eq, List.drop_eq_nil_iff]
          omega
        rw [cobsDecodeLoop, if_neg hcode, if_neg (by rw [List.length_drop]; omega), hdrop]
        simp only [hmore, hout']
        exact hspec.loop
    · have hend' : data.length ≤ i := by omega
      rw [cobsDecodeFrom, if_neg hi, List.drop_eq_nil_of_le hend']
      exact ⟨rfl, Or.inr ⟨out, rfl, hend hend'⟩⟩

theorem cobsDecodeAt_spec {data : Bytes} (h : data ≠ []) : Decoded data data data.length [] (cobsDecodeAt data) := by
  rw [cobsDecodeAt, if_neg h]
  exact cobsDecodeFrom_spec data data.length 0 [] (Nat.sub_le _ _) (Nat.le_refl 0) fun hend =>
    absurd (List.eq_nil_of_length_eq_zero (Nat.le_zero.mp hend)) h

/-- The model without an index is this function: `none` is an error. -/
theorem cobsDecode_eq_cobsDecodeAt (data : Bytes) : cobsDecode data = (cobsDecodeAt data).toOption := by
  by_cases h : data = []
  · rw [cobsDecode, cobsDecodeAt, if_pos h, if_pos h]
    rfl
  · rw [cobsDecode, if_neg h]
    exact (cobsDecodeAt_spec h).loop

/-- **COBS is a correct code without zeros**, of the documented length; and a decoder that is given anything raises
`ProtocolError` or returns less than it was given, and never reads past the end. -/
theorem cobs_correct :
    (∀ d, (∀ x ∈ cobsEncode d, x ≠ 0) ∧ d.length + 1 ≤ (cobsEncode d).length ∧
      (cobsEncode d).length ≤ d.length + 1 + d.length / 254 ∧ cobsDecodeAt (cobsEncode d) = .ok d) ∧
    ∀ data, data ≠ [] → (∃ reason, cobsDecodeAt data = .error (.protocolError reason)) ∨
      ∃ out, cobsDecodeAt data = .ok out ∧ out.length < data.length := by
  refine ⟨fun d => ?_, fun data h => (cobsDecodeAt_spec h).result⟩
  have hdecode := cobsDecode_cobsEncode d
  rw [cobsDecode_eq_cobsDecodeAt] at hdecode
  rw [cobsEncode_eq_stuff] at hdecode ⊢
  refine ⟨Cobs.stuff_ne_zero d, Cobs.le_length_stuff d, Cobs.length_stuff d, ?_⟩
  cases hat : cobsDecodeAt (Cobs.stuff d) with
  | error e =>
    rw [hat] at hdecode
    cases hdecode
  | ok out =>
    rw [hat] at hdecode
    exact congrArg Except.ok (Option.some.inj hdecode)

end LoraLink.Protocol
