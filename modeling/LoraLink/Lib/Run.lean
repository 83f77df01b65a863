import Mathlib.Data.List.Basic
import Mathlib.Tactic.Common
import Mathlib.Algebra.Ring.Nat

/-!
# Runs of a step function

A machine is a step function `step : I → S → S`. `run` feeds it a list of inputs and `trace` records every step it
took as a `Move`: the state it left, the input and the state it reached.

- `run_inv`: what the start has and every step keeps holds at the end of every run, and `trace_inv` at every move;
- `run_variant`, `run_budget`: a measure that every step of a kind brings down, and one that pays for every step;
- `run_refines`: a step that refines another machine's step makes runs that refine its runs;
- `trace_split`: cutting a trace at a move cuts the inputs, and each part is a trace again;
- `trace_rel`: a relation between the outputs made so far and the state, kept by every good move, holds at every move
  of a run of good moves.
-/

namespace LoraLink

structure Move (S I : Type) where
  before : S
  input : I
  after : S

variable {S I : Type} (step : I → S → S)

def run (s : S) : List I → S
  | [] => s
  | i :: is => run (step i s) is

def trace (s : S) : List I → List (Move S I)
  | [] => []
  | i :: is => ⟨s, i, step i s⟩ :: trace (step i s) is

variable {step}

theorem run_append (s : S) (is js : List I) : run step s (is ++ js) = run step (run step s is) js := by
  induction is generalizing s with
  | nil => rfl
  | cons i is ih => exact ih _

theorem trace_append (s : S) (is js : List I) :
    trace step s (is ++ js) = trace step s is ++ trace step (run step s is) js := by
  induction is generalizing s with
  | nil => rfl
  | cons i is ih => simp only [List.cons_append, trace, run, ih]

theorem trace_snoc (s : S) (is : List I) (i : I) :
    trace step s (is ++ [i]) = trace step s is ++ [⟨run step s is, i, step i (run step s is)⟩] := by
  rw [trace_append]
  rfl

/-- What the start has and every step keeps holds at the end of every run. -/
theorem run_inv {P : S → Prop} {s : S} (h0 : P s) (hstep : ∀ i s, P s → P (step i s)) (is : List I) :
    P (run step s is) := by
  induction is generalizing s with
  | nil => exact h0
  | cons i is ih => exact ih (hstep i s h0)

/-- A measure that no input raises, and that every input of a kind brings down by one: it is used up. -/
theorem run_variant {P : S → Prop} {G : I → Prop} {m : S → Nat} {kind : I → Bool}
    (hkeep : ∀ i s, G i → P s → P (step i s))
    (hdown : ∀ i s, G i → P s → m (step i s) + (kind i).toNat ≤ max (m s) (kind i).toNat) {is : List I}
    (hG : ∀ i ∈ is, G i) {s : S} (h0 : P s) : m (run step s is) ≤ m s - is.countP kind := by
  induction is generalizing s with
  | nil => exact Nat.le_refl _
  | cons i is ih =>
    rw [List.forall_mem_cons] at hG
    have hlater := ih hG.2 (hkeep i s hG.1 h0)
    have hnow := hdown i s hG.1 h0
    rw [List.countP_cons]
    cases hkind : kind i with
    | false =>
      simp only [hkind, Bool.toNat_false] at hnow
      simp only [run, Bool.false_eq_true, if_false]
      omega
    | true =>
      simp only [hkind, Bool.toNat_true] at hnow
      simp only [run, if_true]
      omega

/-- A measure that pays for what every step costs: the whole run costs no more. -/
theorem run_budget {P : S → Prop} {G : I → Prop} {m : S → Nat} {cost : Move S I → Nat}
    (hkeep : ∀ i s, G i → P s → P (step i s)) (hpaid : ∀ i s, G i → P s → cost ⟨s, i, step i s⟩ + m (step i s) ≤ m s)
    {is : List I} (hG : ∀ i ∈ is, G i) {s : S} (h0 : P s) :
    ((trace step s is).map cost).sum + m (run step s is) ≤ m s := by
  induction is generalizing s with
  | nil => exact Nat.le_of_eq (Nat.zero_add _)
  | cons i is ih =>
    rw [List.forall_mem_cons] at hG
    have hlater := ih hG.2 (hkeep i s hG.1 h0)
    have hnow := hpaid i s hG.1 h0
    simp only [trace, run, List.map_cons, List.sum_cons]
    omega

/-- A machine seen as another one: what `abs` shows of the state moves as the state of that machine, wherever `P`
holds. -/
theorem run_refines {S' I' : Type} {step' : I' → S' → S'} {P : S → Prop} (abs : S → S') (input : I → I')
    (hstep : ∀ i s, P s → P (step i s) ∧ abs (step i s) = step' (input i) (abs s)) {s : S} (h0 : P s) (is : List I) :
    P (run step s is) ∧ abs (run step s is) = run step' (abs s) (is.map input) := by
  induction is generalizing s with
  | nil => exact ⟨h0, rfl⟩
  | cons i is ih =>
    obtain ⟨hkept, habs⟩ := hstep i s h0
    obtain ⟨hlast, hrun⟩ := ih hkept
    exact ⟨hlast, hrun.trans (by rw [habs]; rfl)⟩

/-- The moves of a trace, cut at one of them. -/
theorem trace_split {s : S} {is : List I} {T₁ T₂ : List (Move S I)} {x : Move S I}
    (h : trace step s is = T₁ ++ x :: T₂) :
    ∃ pre post, is = pre ++ x.input :: post ∧ T₁ = trace step s pre ∧ x.before = run step s pre ∧
      x.after = step x.input x.before ∧ T₂ = trace step x.after post := by
  induction is generalizing s T₁ with
  | nil => cases T₁ <;> simp [trace] at h
  | cons i is ih =>
    cases T₁ with
    | nil =>
      simp only [trace, List.nil_append, List.cons.injEq] at h
      obtain ⟨rfl, rfl⟩ := h
      exact ⟨[], is, rfl, rfl, rfl, rfl, rfl⟩
    | cons y T₁ =>
      simp only [trace, List.cons_append, List.cons.injEq] at h
      obtain ⟨rfl, h⟩ := h
      obtain ⟨pre, post, rfl, rfl, hb, ha, ht⟩ := ih h
      exact ⟨i :: pre, post, rfl, rfl, hb, ha, ht⟩

/-- Every move of a trace is a step of the machine. -/
theorem trace_step {s : S} {is : List I} {x : Move S I} (h : x ∈ trace step s is) :
    x.after = step x.input x.before := by
  obtain ⟨T₁, T₂, hT⟩ := List.append_of_mem h
  obtain ⟨_, _, _, _, _, ha, _⟩ := trace_split hT
  exact ha

/-- What the start has and every step keeps holds before and after every move. -/
theorem trace_inv {P : S → Prop} {s : S} (h0 : P s) (hstep : ∀ i s, P s → P (step i s)) {is : List I}
    {x : Move S I} (h : x ∈ trace step s is) : P x.before ∧ P x.after := by
  obtain ⟨T₁, T₂, hT⟩ := List.append_of_mem h
  obtain ⟨pre, _, _, _, hb, ha, _⟩ := trace_split hT
  have hbefore : P x.before := hb ▸ run_inv h0 hstep pre
  exact ⟨hbefore, ha ▸ hstep _ _ hbefore⟩

section Outputs

variable {E : Type} (f : Move S I → List E)

/-- The outputs of the moves, one after the other. -/
def outputs (T : List (Move S I)) : List E := T.flatMap f

variable {f}

@[simp] theorem outputs_nil : outputs f [] = [] := rfl

@[simp] theorem outputs_cons (x : Move S I) (T : List (Move S I)) : outputs f (x :: T) = f x ++ outputs f T := rfl

@[simp] theorem outputs_append (T₁ T₂ : List (Move S I)) :
    outputs f (T₁ ++ T₂) = outputs f T₁ ++ outputs f T₂ := List.flatMap_append

section Relation

variable {P : List E → S → Prop} {G : Move S I → Prop}

/-- A relation between the outputs made so far and the state, kept by every step that is a good move, holds after
every run of good moves. -/
theorem run_rel {H : List E} {s : S} (h0 : P H s)
    (hstep : ∀ H i s, P H s → G ⟨s, i, step i s⟩ → P (H ++ f ⟨s, i, step i s⟩) (step i s)) (is : List I)
    (hG : ∀ x ∈ trace step s is, G x) : P (H ++ outputs f (trace step s is)) (run step s is) := by
  induction is generalizing s H with
  | nil => simpa [trace, run] using h0
  | cons i is ih =>
    simp only [trace, List.mem_cons, forall_eq_or_imp] at hG
    simp only [trace, outputs_cons, run, ← List.append_assoc]
    exact ih (hstep H i s h0 hG.1) hG.2

/-- The same at a move inside a trace. -/
theorem trace_rel {s : S} (h0 : P [] s)
    (hstep : ∀ H i s, P H s → G ⟨s, i, step i s⟩ → P (H ++ f ⟨s, i, step i s⟩) (step i s)) {is : List I}
    {T₁ T₂ : List (Move S I)} {x : Move S I} (h : trace step s is = T₁ ++ x :: T₂)
    (hG : ∀ x ∈ trace step s is, G x) : P (outputs f T₁) x.before := by
  obtain ⟨pre, _, _, rfl, hb, _, _⟩ := trace_split h
  have hpre : ∀ y ∈ trace step s pre, G y := fun y hy => hG y (by rw [h]; exact List.mem_append_left _ hy)
  rw [hb]
  simpa using run_rel h0 hstep pre hpre

end Relation

end Outputs

end LoraLink
