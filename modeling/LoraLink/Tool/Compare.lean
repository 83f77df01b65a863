import LoraLink.Lib.Bytes
import LoraLink.Lib.Matcher
import Mathlib.Data.Rat.Defs

/-!
# The comparison of two streams

`compare_frames` of `rtcm_tool.py`.

- `reportsLoss_of_nodup`: where no frame repeats, frames that were lost, and nothing else, are reported as that;
- `pure_loss_iff`: in general this is so just when the longest common runs cut both streams well.
-/

namespace LoraLink.Tool

open Matcher

structure Comparison where
  sourceFrames : Nat
  receivedFrames : Nat
  matchedFramesInOrder : Nat
  missingFrames : Int
  unexpectedFrames : Int
  deliveryRatio : ℚ
  byteExactOrderedMatch : Bool
deriving DecidableEq

def compareFrames (source received : List Bytes) : Comparison :=
  let matched := matched (getMatchingBlocks source received)
  let sourceCount := source.length
  { sourceFrames := sourceCount
    receivedFrames := received.length
    matchedFramesInOrder := matched
    missingFrames := sourceCount - matched
    unexpectedFrames := received.length - matched
    deliveryRatio := if sourceCount ≠ 0 then matched / sourceCount else 1
    byteExactOrderedMatch := source = received }

/-- A report of frames that were lost, and of nothing else. -/
structure ReportsLoss (source received : List Bytes) : Prop where
  unexpected : (compareFrames source received).unexpectedFrames = 0
  matched : (compareFrames source received).matchedFramesInOrder = received.length
  missing : (compareFrames source received).missingFrames = source.length - received.length
  exact : (compareFrames source received).byteExactOrderedMatch = true ↔ received.length = source.length

/-- Nothing is lost when as much was received as was sent. -/
theorem byteExact_iff {source received : List Bytes} (h : received.Sublist source) :
    (compareFrames source received).byteExactOrderedMatch = true ↔ received.length = source.length := by
  rw [compareFrames, decide_eq_true_eq]
  constructor
  · rintro rfl
    rfl
  · exact fun hlength => (h.eq_of_length hlength).symm

/-- The report is right when every frame that was received is matched. -/
theorem reportsLoss_iff {source received : List Bytes} (h : received.Sublist source) :
    ReportsLoss source received ↔ matched (getMatchingBlocks source received) = received.length := by
  constructor
  · exact fun hreport => hreport.matched
  · intro hmatched
    refine ⟨?_, hmatched, ?_, byteExact_iff h⟩
    · exact Int.sub_eq_zero.mpr (congrArg Nat.cast hmatched.symm)
    · exact congrArg (fun n : Nat => (source.length : Int) - n) hmatched

/-- Where no frame repeats, lost frames are reported as that. -/
theorem reportsLoss_of_nodup {source received : List Bytes} (hnodup : source.Nodup) (h : received.Sublist source) :
    ReportsLoss source received :=
  (reportsLoss_iff h).mpr (matched_eq_iff.mpr (cutsWell_of_nodup (Nat.le_refl _) hnodup h))

/-- Lost frames are reported as that just when the longest common runs cut both streams well. -/
theorem pure_loss_iff {source received : List Bytes} (h : received.Sublist source) :
    ReportsLoss source received ↔ CutsWell source received :=
  (reportsLoss_iff h).trans matched_eq_iff

theorem pure_loss_iff_middle :
    ReportsLoss [[1], [2], [3]] [[1], [3]] ↔ CutsWell ([[1], [2], [3]] : List Bytes) [[1], [3]] := by
  have hlost : List.Sublist ([[1], [3]] : List Bytes) [[1], [2], [3]] := by decide
  exact pure_loss_iff hlost

/-- A frame that repeats is matched where it stands first, and what was received before it is unexpected. -/
theorem pure_loss_misreported :
    ¬ ∀ source received : List Bytes, received.Sublist source → ReportsLoss source received := by
  intro h
  have hreport := h [[0], [1], [2], [0]] [[1], [0]] (by decide)
  exact absurd hreport.unexpected (by decide +kernel)

end LoraLink.Tool
