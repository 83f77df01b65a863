import Mathlib.Data.List.Basic
import Mathlib.Tactic.Common

/-!
# Paths of an event system

An event system has states, events, a function `on` that says how an event changes the state, and a relation
`Allowed` that says which events may happen in a state. A path is a list of events each of which was allowed when it
happened.

- `Path.inv`: what the start has and every allowed event keeps holds at the end;
- `Path.rel`: the same for a relation between the events so far and the state;
- `Path.append`, `Path.unappend`, `Path.split`, `Path.head`: paths are put together, and taken apart at any place;
- `Path.foldl`: the end of a path is determined by its events.
-/

namespace LoraLink

variable {S E : Type} (Allowed : S → E → Prop) (on : S → E → S)

/-- A list of events from `s₀`, each allowed when it happened, and the state they lead to. -/
inductive Path (s₀ : S) : List E → S → Prop
  | nil : Path s₀ [] s₀
  | snoc {es : List E} {s : S} {e : E} (h : Path s₀ es s) (he : Allowed s e) : Path s₀ (es ++ [e]) (on s e)

namespace Path

variable {Allowed : S → E → Prop} {on : S → E → S} {s₀ s₁ s : S} {es fs : List E}

/-- What the start has and every allowed event keeps holds at the end. -/
theorem inv {P : S → Prop} (h : Path Allowed on s₀ es s) (h₀ : P s₀) (hon : ∀ s e, P s → Allowed s e → P (on s e)) :
    P s := by
  induction h with
  | nil => exact h₀
  | snoc _ he ih => exact hon _ _ ih he

/-- A relation between the events so far and the state, kept by every allowed event, holds at the end. -/
theorem rel {R : List E → S → Prop} {H : List E} (h : Path Allowed on s₀ es s) (h₀ : R H s₀)
    (hon : ∀ H s e, R H s → Allowed s e → R (H ++ [e]) (on s e)) : R (H ++ es) s := by
  induction h with
  | nil => simpa using h₀
  | snoc _ he ih =>
    rw [← List.append_assoc]
    exact hon _ _ _ ih he

theorem append (h : Path Allowed on s₀ es s₁) (h' : Path Allowed on s₁ fs s) : Path Allowed on s₀ (es ++ fs) s := by
  induction h' with
  | nil => simpa using h
  | snoc _ he ih =>
    rw [← List.append_assoc]
    exact ih.snoc he

/-- A path passes through a state between any two of its events. -/
theorem unappend (h : Path Allowed on s₀ (es ++ fs) s) :
    ∃ v, Path Allowed on s₀ es v ∧ Path Allowed on v fs s := by
  generalize hes : es ++ fs = gs at h
  induction h generalizing fs with
  | nil =>
    obtain ⟨rfl, rfl⟩ := List.append_eq_nil_iff.mp hes
    exact ⟨s₀, .nil, .nil⟩
  | @snoc gs v e hv he ih =>
    rcases List.eq_nil_or_concat fs with rfl | ⟨fs', f, rfl⟩
    · rw [List.append_nil] at hes
      exact ⟨_, hes ▸ hv.snoc he, .nil⟩
    · rw [List.concat_eq_append, ← List.append_assoc] at hes
      obtain ⟨hgs, hf⟩ := List.append_inj' hes rfl
      obtain rfl : f = e := by simpa using hf
      obtain ⟨u, hu, htail⟩ := ih hgs
      rw [List.concat_eq_append]
      exact ⟨u, hu, htail.snoc he⟩

/-- Every event of a path was allowed when it happened. -/
theorem split {X Y : List E} {e : E} (h : Path Allowed on s₀ (X ++ e :: Y) s) :
    ∃ v, Path Allowed on s₀ X v ∧ Allowed v e ∧ Path Allowed on (on v e) Y s := by
  rw [← List.singleton_append, ← List.append_assoc] at h
  obtain ⟨u, hu, htail⟩ := h.unappend
  generalize hX : X ++ [e] = es at hu
  cases hu with
  | nil => simp at hX
  | @snoc es v e' hv he =>
    obtain ⟨rfl, he'⟩ := List.append_inj' hX rfl
    obtain rfl : e = e' := by simpa using he'
    exact ⟨v, hv, he, htail⟩

/-- The end of a path is determined by its events. -/
theorem foldl (h : Path Allowed on s₀ es s) : s = es.foldl on s₀ := by
  induction h with
  | nil => rfl
  | snoc _ _ ih => rw [List.foldl_append, ← ih]; rfl

/-- The first event of a path was allowed in its first state. -/
theorem head {e : E} (h : Path Allowed on s₀ (e :: es) s) : Allowed s₀ e ∧ Path Allowed on (on s₀ e) es s := by
  obtain ⟨v, hv, he, htail⟩ := split (X := []) h
  obtain rfl : v = s₀ := hv.foldl
  exact ⟨he, htail⟩

end Path

end LoraLink
