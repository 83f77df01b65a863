import LoraLink.App.Codec
import LoraLink.Lib.Run
import Mathlib.Data.Finset.Basic
import Mathlib.Data.List.Perm.Basic
import Mathlib.Data.Rat.Defs

/-!
# The scheduler of the mixed bench

`Scheduler` of `mixed_bench.py`: a bounded list of work items, of which `pop` hands out the most urgent. A direction is
whatever can be compared (`D`), a time is a rational number of seconds. A call returns what it returns or raises, and the
scheduler as it leaves it.
-/

namespace LoraLink.Bench

open Application

def hello : Int := 0x01
def stopRequest : Int := 0x10
def commandAck : Int := 0x11
def telemetry : Int := 0x20

/-- The table `PRIORITY`. -/
def priority (typ : Int) : Option Nat :=
  if typ = commandAck then some 0
  else if typ = stopRequest then some 1
  else if typ = hello then some 1
  else if typ = telemetry then some 2
  else if typ = rtcmFragment then some 3
  else none

structure WorkItem (D : Type) where
  frame : Frame
  direction : D
  createdAt : ℚ
  order : Int
  rtcmKey : Option (Int × Int) := none
deriving DecidableEq

/-- `KeyError` for a type that is not in the table, `ValueError` for the maximum of an empty list. -/
inductive Raised
  | keyError (typ : Int)
  | valueError
deriving DecidableEq, Repr

structure Scheduler (D : Type) where
  limit : Nat := 96
  items : List (WorkItem D) := []
  highWater : Nat := 0
  queueDrops : Nat := 0
  telemetryReplaced : Nat := 0
  staleRtcmDrops : Nat := 0
  staleRtcmKeys : Finset (Int × Int) := ∅

variable {D : Type} [DecidableEq D]

namespace WorkItem

/-- `PRIORITY[typ]`. -/
def priority (item : WorkItem D) : Except Raised Nat :=
  match Bench.priority item.frame.typ with
  | some p => .ok p
  | none => .error (.keyError item.frame.typ)

/-- The number in the table; the keys of `max` and `min` are taken after all numbers were found. -/
def rank (item : WorkItem D) : Nat := (Bench.priority item.frame.typ).getD 0

/-- The order of eviction, the lowest class and the largest order number first, and the order of service. -/
def EvictedBefore (item other : WorkItem D) : Prop :=
  other.rank < item.rank ∨ item.rank = other.rank ∧ other.order < item.order

instance (item other : WorkItem D) : Decidable (item.EvictedBefore other) := inferInstanceAs (Decidable (_ ∨ _))

def ServedBefore (item other : WorkItem D) : Prop :=
  item.rank < other.rank ∨ item.rank = other.rank ∧
    (item.createdAt < other.createdAt ∨ item.createdAt = other.createdAt ∧ item.order < other.order)

instance (item other : WorkItem D) : Decidable (item.ServedBefore other) := inferInstanceAs (Decidable (_ ∨ _))

/-- An RTCM fragment that is too old. -/
def stale (now : ℚ) (item : WorkItem D) : Bool := item.frame.typ = rtcmFragment ∧ now - item.createdAt > 9 / 10

/-- A sample that a new one of its direction replaces. -/
def sampleOf (direction : D) (item : WorkItem D) : Bool := item.frame.typ = telemetry ∧ item.direction = direction

end WorkItem

namespace Scheduler

/-- Every type is looked up. -/
def lookUp (items : List (WorkItem D)) : Except Raised Unit := items.forM fun item => do let _ ← item.priority

/-- `max` and `min` of Python: the first of the items that no other one comes before, and its index. -/
def extreme (before : WorkItem D → WorkItem D → Bool) : List (WorkItem D) → Option (Nat × WorkItem D)
  | [] => none
  | item :: items =>
    match extreme before items with
    | none => some (0, item)
    | some (index, best) => if before best item then some (index + 1, best) else some (0, item)

def worstIndex (items : List (WorkItem D)) : Except Raised (Nat × WorkItem D) := do
  lookUp items
  match extreme (fun item other => item.EvictedBefore other) items with
  | some found => return found
  | none => .error .valueError

def bestIndex (items : List (WorkItem D)) : Except Raised (Nat × WorkItem D) := do
  lookUp items
  match extreme (fun item other => item.ServedBefore other) items with
  | some found => return found
  | none => .error .valueError

/-- The first loop of `push`. -/
def replaceTelemetry (direction : D) (s : Scheduler D) : Scheduler D :=
  { s with
    items := s.items.filter fun queued => ¬ queued.sampleOf direction
    telemetryReplaced := s.telemetryReplaced + s.items.countP (·.sampleOf direction) }

def append (item : WorkItem D) (s : Scheduler D) : Scheduler D :=
  { s with items := s.items ++ [item], highWater := max s.highWater (s.items.length + 1) }

def countDrop (s : Scheduler D) : Scheduler D := { s with queueDrops := s.queueDrops + 1 }

/-- The part of `push` behind the first loop. -/
def insert (item : WorkItem D) (s : Scheduler D) : Except Raised Bool × Scheduler D :=
  if s.items.length ≥ s.limit then
    match worstIndex s.items with
    | .error e => (.error e, s)
    | .ok (index, worst) =>
      match item.priority, worst.priority with
      | .error e, _ => (.error e, s)
      | _, .error e => (.error e, s)
      | .ok p, .ok q =>
        if p < q then (.ok true, ({ s with items := s.items.eraseIdx index }.countDrop).append item)
        else (.ok false, s.countDrop)
  else (.ok true, s.append item)

def push (item : WorkItem D) (s : Scheduler D) : Except Raised Bool × Scheduler D :=
  if item.frame.typ = telemetry then (s.replaceTelemetry item.direction).insert item else s.insert item

/-- The loop of `pop`. -/
def purge (now : ℚ) (s : Scheduler D) : Scheduler D :=
  { s with
    items := s.items.filter fun item => ¬ item.stale now
    staleRtcmDrops := s.staleRtcmDrops + s.items.countP (·.stale now)
    staleRtcmKeys := s.staleRtcmKeys ∪ ((s.items.filter (·.stale now)).filterMap (·.rtcmKey)).toFinset }

def pop (now : ℚ) (s : Scheduler D) : Except Raised (Option (WorkItem D)) × Scheduler D :=
  let s := s.purge now
  if s.items = [] then (.ok none, s)
  else
    match bestIndex s.items with
    | .error e => (.error e, s)
    | .ok (index, item) => (.ok (some item), { s with items := s.items.eraseIdx index })

end Scheduler

inductive Call (D : Type)
  | push (item : WorkItem D)
  | pop (now : ℚ)

def step (call : Call D) (s : Scheduler D) : Scheduler D :=
  match call with
  | .push item => (s.push item).2
  | .pop now => (s.pop now).2

end LoraLink.Bench
