import Mathlib.Data.List.Basic
import Mathlib.Tactic.Common

/-!
# Machines that read delimited segments

`reads` feeds a machine the elements of a list and collects what it puts out. `closed` are the segments of a list that
a delimiter ends.

- `filterMap_eq_iff`: a function that agrees with another one, but for more results, has the same ones on a list only
  if it has no more there;
- `Segmented.reads`: a machine that is silent inside a segment and puts out `out segment` at its delimiter puts out
  that of every closed segment, in order.
-/

namespace LoraLink

variable {α β S : Type}

/-- A function that agrees with `f` wherever `f` has a result has the same results on a list only if it has no others. -/
theorem filterMap_eq_iff {f g : α → Option β} (hfg : ∀ a, f a = none ∨ g a = f a) (l : List α) :
    l.filterMap g = l.filterMap f ↔ ∀ a ∈ l, g a = f a := by
  have hlength : ∀ l : List α, (l.filterMap f).length ≤ (l.filterMap g).length := by
    intro l
    induction l with
    | nil => exact Nat.le_refl _
    | cons a l ih =>
      rcases hfg a with hnone | hsame
      · rw [List.filterMap_cons_none hnone]
        cases hg : g a with
        | none => rwa [List.filterMap_cons_none hg]
        | some b =>
          rw [List.filterMap_cons_some hg]
          exact Nat.le_succ_of_le ih
      · simp only [List.filterMap_cons, hsame]
        cases f a with
        | none => exact ih
        | some b => exact Nat.succ_le_succ ih
  induction l with
  | nil => simp
  | cons a l ih =>
    rw [List.forall_mem_cons]
    rcases hfg a with hnone | hsame
    · cases hg : g a with
      | none =>
        rw [List.filterMap_cons_none hnone, List.filterMap_cons_none hg, hnone, and_iff_right rfl]
        exact ih
      | some b =>
        rw [List.filterMap_cons_none hnone, List.filterMap_cons_some hg, hnone]
        -- the result of `a` makes the list longer than the other one can be
        constructor
        · intro heq
          have hle := hlength l
          rw [← heq, List.length_cons] at hle
          omega
        · exact fun h => absurd h.1 (by simp)
    · rw [and_iff_right hsame]
      refine Iff.trans ?_ ih
      simp only [List.filterMap_cons, hsame]
      cases f a with
      | none => exact Iff.rfl
      | some b => exact ⟨fun h => (List.cons.inj h).2, fun h => congrArg _ h⟩

variable [BEq α] [LawfulBEq α]

/-- The segments of the list that a delimiter ends. -/
def closed (delim : α) (l : List α) : List (List α) := (l.splitOn delim).dropLast

theorem closed_cut {delim : α} {cur : List α} (hcur : delim ∉ cur) (l : List α) :
    closed delim (cur ++ delim :: l) = cur :: closed delim l := by
  rw [closed, List.splitOn_append_cons_self_of_not_mem hcur, List.dropLast_cons_of_ne_nil (List.splitOn_ne_nil _ _)]
  rfl

theorem closed_open {delim : α} {cur : List α} (hcur : delim ∉ cur) : closed delim cur = [] := by
  rw [closed, List.splitOn_eq_singleton hcur]
  rfl

/-- The segments before a delimiter, and those behind it. -/
theorem closed_append {delim : α} (l m : List α) :
    closed delim (l ++ delim :: m) = closed delim (l ++ [delim]) ++ closed delim m := by
  simp only [closed, List.splitOn_append_cons_self]
  rw [List.dropLast_append_of_ne_nil (List.splitOn_ne_nil _ _), List.splitOn_nil]
  simp

/-- What a machine puts out while it reads a list, and the state it ends in. -/
def reads (step : S → α → S × List β) (s : S) : List α → S × List β
  | [] => (s, [])
  | x :: l =>
    let (s', out) := step s x
    let (s'', out') := reads step s' l
    (s'', out ++ out')

omit [BEq α] [LawfulBEq α] in
theorem reads_append {step : S → α → S × List β} (s : S) (l m : List α) : reads step s (l ++ m) =
    ((reads step (reads step s l).1 m).1, (reads step s l).2 ++ (reads step (reads step s l).1 m).2) := by
  induction l generalizing s with
  | nil => rfl
  | cons x l ih => simp only [List.cons_append, reads, ih, List.append_assoc]

/-- `P cur s`: in the state `s` the machine has read `cur` since the last delimiter. -/
structure Segmented (delim : α) (step : S → α → S × List β) (P : List α → S → Prop) (out : List α → List β) : Prop where
  more : ∀ {cur s x}, x ≠ delim → P cur s → (step s x).2 = [] ∧ P (cur ++ [x]) (step s x).1
  ended : ∀ {cur s}, P cur s → (step s delim).2 = out cur ∧ P [] (step s delim).1

variable {delim : α} {step : S → α → S × List β} {P : List α → S → Prop} {out : List α → List β}

theorem Segmented.reads (h : Segmented delim step P out) (l : List α) : ∀ {cur : List α} {s : S}, delim ∉ cur → P cur s →
    (reads step s l).2 = (closed delim (cur ++ l)).flatMap out ∧
      ∃ rest, delim ∉ rest ∧ P rest (LoraLink.reads step s l).1 := by
  induction l with
  | nil =>
    intro cur s hcur hs
    rw [List.append_nil, closed_open hcur]
    exact ⟨rfl, cur, hcur, hs⟩
  | cons x l ih =>
    intro cur s hcur hs
    simp only [LoraLink.reads]
    by_cases hx : x = delim
    · subst hx
      obtain ⟨hout, hnext⟩ := h.ended hs
      obtain ⟨hrest, hend⟩ := ih List.not_mem_nil hnext
      rw [closed_cut hcur, List.flatMap_cons, hout, hrest, List.nil_append]
      exact ⟨rfl, hend⟩
    · obtain ⟨hout, hnext⟩ := h.more hx hs
      have hlonger : delim ∉ cur ++ [x] := by
        simp only [List.mem_append, List.mem_singleton, not_or]
        exact ⟨hcur, fun he => hx he.symm⟩
      obtain ⟨hrest, hend⟩ := ih hlonger hnext
      rw [hout, hrest, List.append_assoc]
      exact ⟨rfl, hend⟩

end LoraLink
