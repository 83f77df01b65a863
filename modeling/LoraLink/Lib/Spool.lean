import Mathlib.Data.List.Basic
import Mathlib.Tactic.Common

/-!
# Bounded queues in which some entries yield

A queue of at most `cap` entries. One that arrives when the queue is full is refused if it yields; otherwise the oldest
of the entries that yield gives way to it, if there is one. Entries leave at the front.

- `put_cases`: what becomes of an entry that arrives;
- `Fair.next`: what is in the queue, behind what has left it, is in the order of arrival, and the entries that do not
  yield are all there.
-/

namespace LoraLink

namespace Spool

variable {α : Type} (cap : Nat) (yields : α → Bool)

/-- An entry arrives. -/
def put (a : α) (l : List α) : List α :=
  if l.length < cap then l ++ [a]
  else if yields a then l
  else
    match l.findIdx? yields with
    | none => l
    | some k => l.eraseIdx k ++ [a]

/-- The first entry leaves if it is ready. -/
def pop (ready : α → Bool) : List α → List α
  | [] => []
  | a :: l => if ready a then l else a :: l

inductive Op (α : Type)
  | put (a : α)
  | pop (ready : α → Bool)

def next : Op α → List α → List α
  | .put a => put cap yields a
  | .pop ready => pop ready

/-- There is room for the entry, or another one gives way to it. -/
def admits (a : α) (l : List α) : Bool := decide (l.length < cap) || (!yields a && l.any yields)

/-- An entry is taken in, or given out. -/
inductive Out (α : Type)
  | entered (a : α)
  | left (a : α)

/-- What an operation takes in and gives out. -/
def outs : Op α → List α → List (Out α)
  | .put a, l => if admits cap yields a l then [.entered a] else []
  | .pop _, [] => []
  | .pop ready, a :: _ => if ready a then [.left a] else []

def enteredIn (H : List (Out α)) : List α := H.filterMap fun | .entered a => some a | _ => none

def leftIn (H : List (Out α)) : List α := H.filterMap fun | .left a => some a | _ => none

@[simp] theorem enteredIn_append (H E : List (Out α)) : enteredIn (H ++ E) = enteredIn H ++ enteredIn E :=
  List.filterMap_append

@[simp] theorem leftIn_append (H E : List (Out α)) : leftIn (H ++ E) = leftIn H ++ leftIn E := List.filterMap_append

variable {cap yields} {a : α} {l : List α} {H : List (Out α)}

theorem filter_eraseIdx {p : α → Bool} (l : List α) {k : Nat} (h : l[k]? = some a) (ha : p a = false) :
    (l.eraseIdx k).filter p = l.filter p := by
  induction l generalizing k with
  | nil => rfl
  | cons b l ih =>
    cases k with
    | zero =>
      obtain rfl : b = a := by simpa using h
      simp [ha]
    | succ k =>
      have hrest := ih (k := k) (by simpa using h)
      simp [List.filter_cons, hrest]

/-- What becomes of an entry that arrives: it is refused by a full queue, or put behind the others, after the oldest
entry that yields has given way if the queue is full. -/
theorem put_cases (a : α) (l : List α) :
    (admits cap yields a l = false ∧ ¬ l.length < cap ∧ put cap yields a l = l) ∨
      (admits cap yields a l = true ∧ l.length < cap ∧ put cap yields a l = l ++ [a]) ∨
      ∃ k b, admits cap yields a l = true ∧ ¬ l.length < cap ∧ yields a = false ∧ l[k]? = some b ∧ yields b = true ∧
        (∀ (j : Nat) c, j < k → l[j]? = some c → yields c = false) ∧ put cap yields a l = l.eraseIdx k ++ [a] := by
  unfold put admits
  by_cases hroom : l.length < cap
  · exact Or.inr (Or.inl ⟨by simp [hroom], hroom, if_pos hroom⟩)
  · rw [if_neg hroom]
    cases ha : yields a with
    | true => exact Or.inl ⟨by simp [hroom], hroom, rfl⟩
    | false =>
      rw [if_neg Bool.false_ne_true]
      cases hfind : l.findIdx? yields with
      | none =>
        have hnone := List.findIdx?_eq_none_iff.mp hfind
        refine Or.inl ⟨?_, hroom, rfl⟩
        have hany : l.any yields = false := List.any_eq_false.mpr fun b hb => by simp [hnone b hb]
        simp [hroom, hany]
      | some k =>
        obtain ⟨hk, hb, hfirst⟩ := List.findIdx?_eq_some_iff_getElem.mp hfind
        refine Or.inr (Or.inr ⟨k, l[k], ?_, hroom, rfl, List.getElem?_eq_getElem hk, hb, fun j c hj hc => ?_, rfl⟩)
        · have hany : l.any yields = true := List.any_eq_true.mpr ⟨l[k], List.getElem_mem hk, hb⟩
          simp [hany]
        · have hjl : j < l.length := Nat.lt_trans hj hk
          rw [List.getElem?_eq_getElem hjl, Option.some.injEq] at hc
          rw [← hc]
          simpa using hfirst j hj

/-- What is in the queue was there, or has arrived. -/
theorem mem_put {b : α} (hb : b ∈ put cap yields a l) : b ∈ l ∨ b = a := by
  rcases @put_cases α cap yields a l with ⟨-, -, hput⟩ | ⟨-, -, hput⟩ | ⟨k, c, -, -, -, -, -, -, hput⟩
  · rw [hput] at hb
    exact Or.inl hb
  · rw [hput] at hb
    exact (List.mem_append.mp hb).imp_right List.mem_singleton.mp
  · rw [hput] at hb
    exact (List.mem_append.mp hb).imp List.mem_of_mem_eraseIdx List.mem_singleton.mp

/-- The entries that yield stay in order, and one that arrives is the last of them. -/
theorem filter_put : List.Sublist ((put cap yields a l).filter yields) (l.filter yields ++ [a].filter yields) := by
  rcases @put_cases α cap yields a l with ⟨-, -, hput⟩ | ⟨-, -, hput⟩ | ⟨k, c, -, -, -, -, -, -, hput⟩
  · rw [hput]
    exact List.sublist_append_left _ _
  · rw [hput, List.filter_append]
  · rw [hput, List.filter_append]
    exact ((List.eraseIdx_sublist l k).filter yields).append_right _

/-- The entries in the queue and those that have left it, by those that were taken in. -/
structure Fair (cap : Nat) (yields : α → Bool) (H : List (Out α)) (l : List α) : Prop where
  bound : l.length ≤ cap
  order : List.Sublist (leftIn H ++ l) (enteredIn H)
  kept : (leftIn H ++ l).filter (fun a => !yields a) = (enteredIn H).filter fun a => !yields a

theorem Fair.next (h : Fair cap yields H l) (op : Op α) :
    Fair cap yields (H ++ outs cap yields op l) (next cap yields op l) := by
  cases op with
  | put a =>
    rcases @put_cases α cap yields a l with ⟨hno, -, hput⟩ | ⟨hyes, hroom, hput⟩ |
      ⟨k, b, hyes, hfull, -, hb, hyields, -, hput⟩
    · simp only [Spool.next, outs, hput, hno, Bool.false_eq_true, if_false, List.append_nil]
      exact h
    · simp only [Spool.next, outs, hput, hyes, if_true]
      refine ⟨?_, ?_, ?_⟩
      · rw [List.length_append]
        exact hroom
      · rw [leftIn_append, enteredIn_append, ← List.append_assoc]
        simp only [leftIn, enteredIn, List.filterMap_cons, List.filterMap_nil, List.append_nil]
        exact h.order.append (List.Sublist.refl _)
      · have hkept := h.kept
        simp only [leftIn, enteredIn, List.filterMap_append, List.filterMap_cons, List.filterMap_nil, List.append_nil,
          List.filter_append, ← List.append_assoc] at hkept ⊢
        rw [hkept]
    · have hk : k < l.length := (List.getElem?_eq_some_iff.mp hb).1
      simp only [Spool.next, outs, hput, hyes, if_true]
      refine ⟨?_, ?_, ?_⟩
      · rw [List.length_append, List.length_eraseIdx_of_lt hk, List.length_singleton]
        have hbound := h.bound
        omega
      · rw [leftIn_append, enteredIn_append, ← List.append_assoc]
        simp only [leftIn, enteredIn, List.filterMap_cons, List.filterMap_nil, List.append_nil]
        refine List.Sublist.append (List.Sublist.trans ?_ h.order) (List.Sublist.refl _)
        exact (List.eraseIdx_sublist l k).append_left _
      · have hkept := h.kept
        simp only [leftIn, enteredIn, List.filterMap_append, List.filterMap_cons, List.filterMap_nil, List.append_nil,
          List.filter_append, ← List.append_assoc] at hkept ⊢
        rw [filter_eraseIdx l hb (by simp [hyields]), hkept]
  | pop ready =>
    cases l with
    | nil => simpa [Spool.next, outs, pop] using h
    | cons a l =>
      cases hready : ready a with
      | false =>
        simp only [Spool.next, outs, pop, hready, Bool.false_eq_true, if_false, List.append_nil]
        exact h
      | true =>
        simp only [Spool.next, outs, pop, hready, if_true]
        have hleft : leftIn (H ++ [.left a]) ++ l = leftIn H ++ a :: l := by
          rw [leftIn_append, List.append_assoc]
          rfl
        have hentered : enteredIn (H ++ [.left a]) = enteredIn H := by
          rw [enteredIn_append]
          exact List.append_nil _
        refine ⟨?_, ?_, ?_⟩
        · exact Nat.le_of_succ_le h.bound
        · rw [hleft, hentered]
          exact h.order
        · rw [hleft, hentered]
          exact h.kept

end Spool

end LoraLink
