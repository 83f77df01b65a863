import Mathlib.Tactic.Common

/-!
# Programs with state and exceptions, and their triples

`Prog σ ε α` is a program over a state `σ` that returns an `α` or raises an `ε`; the state survives both, as in a
language with mutable objects and exceptions. `Triple P x Q`: from a state with `P`, `x` ends with a result and a
state in `Q`. The rules follow the program text: `Triple.bind` and `Triple.seq` for a sequence, `Triple.ite`,
`Triple.tryCatch`, and `Triple.forEach` for a loop with an invariant.
-/

namespace LoraLink

/-- A program over the state `σ` that returns an `α` or raises an `ε`. -/
def Prog (σ ε α : Type) : Type := σ → Except ε α × σ

variable {σ ε α β : Type}

namespace Prog

instance : Monad (Prog σ ε) where
  pure a := fun s => (.ok a, s)
  bind x f := fun s =>
    match x s with
    | (.ok a, s) => f a s
    | (.error e, s) => (.error e, s)

theorem bind_ok {x : Prog σ ε α} {f : α → Prog σ ε β} {s s' : σ} {a : α} (h : x s = (.ok a, s')) :
    (x >>= f) s = f a s' := by
  show (match x s with | (.ok a, s) => f a s | (.error e, s) => (.error e, s)) = _
  rw [h]

theorem bind_error {x : Prog σ ε α} {f : α → Prog σ ε β} {s s' : σ} {e : ε} (h : x s = (.error e, s')) :
    (x >>= f) s = (.error e, s') := by
  show (match x s with | (.ok a, s) => f a s | (.error e, s) => (.error e, s)) = _
  rw [h]

def get : Prog σ ε σ := fun s => (.ok s, s)

def modify (f : σ → σ) : Prog σ ε Unit := fun s => (.ok (), f s)

def raise (e : ε) : Prog σ ε α := fun s => (.error e, s)

/-- `try x except handler`; the handler may raise again. -/
def tryCatch (x : Prog σ ε α) (handler : ε → Prog σ ε α) : Prog σ ε α := fun s =>
  match x s with
  | (.ok a, s) => (.ok a, s)
  | (.error e, s) => handler e s

/-- `if c: x`. -/
def when (c : Prop) [Decidable c] (x : Prog σ ε Unit) : Prog σ ε Unit := if c then x else pure ()

/-- `for a in l: f(a)`. -/
def forEach (f : α → Prog σ ε Unit) : List α → Prog σ ε Unit
  | [] => pure ()
  | a :: l => do
    f a
    forEach f l

end Prog

open Prog

/-- From a state with `P`, the program ends with a result and a state in `Q`. -/
def Triple (P : σ → Prop) (x : Prog σ ε α) (Q : Except ε α → σ → Prop) : Prop := ∀ s, P s → Q (x s).1 (x s).2

/-- The program returns, with a value and a state in `R`. -/
def Returns (R : α → σ → Prop) : Except ε α → σ → Prop
  | .ok a, s => R a s
  | .error _, _ => False

namespace Triple

variable {P P' : σ → Prop} {x : Prog σ ε α} {Q Q' : Except ε α → σ → Prop}

theorem weaken (h : Triple P x Q) (hP : ∀ s, P' s → P s) (hQ : ∀ r s, Q r s → Q' r s) : Triple P' x Q' :=
  fun s hs => hQ _ _ (h s (hP s hs))

theorem pre (h : Triple P x Q) (hP : ∀ s, P' s → P s) : Triple P' x Q := fun s hs => h s (hP s hs)

theorem mono {R R' : α → σ → Prop} (h : Triple P x (Returns R)) (hR : ∀ a s, R a s → R' a s) :
    Triple P x (Returns R') := by
  refine h.weaken (fun _ hs => hs) fun r s hr => ?_
  cases r with
  | ok a => exact hR a s hr
  | error e => exact hr

/-- A program that returns ends in its postcondition. -/
theorem ends {R : α → σ → Prop} (h : Triple P x (Returns R)) {s : σ} (hs : P s) : ∃ a t, x s = (.ok a, t) ∧ R a t := by
  have hret := h s hs
  rcases hx : x s with ⟨r, t⟩
  rw [hx] at hret
  cases r with
  | ok a => exact ⟨a, t, rfl, hret⟩
  | error e => exact hret.elim

theorem exists_pre {R : β → σ → Prop} (h : ∀ b, Triple (R b) x Q) : Triple (fun s => ∃ b, R b s) x Q :=
  fun s ⟨b, hb⟩ => h b s hb

/-- A precondition that does not depend on the state. -/
theorem assume {p : Prop} (h : p → Triple P x Q) : Triple (fun s => p ∧ P s) x Q := fun s hs => h hs.1 s hs.2

theorem bind {f : α → Prog σ ε β} {R : Except ε α → σ → Prop} {Q : Except ε β → σ → Prop} (hx : Triple P x R)
    (hf : ∀ a, Triple (R (.ok a)) (f a) Q) (he : ∀ e s, R (.error e) s → Q (.error e) s) : Triple P (x >>= f) Q := by
  intro s hs
  have h := hx s hs
  show Q (match x s with | (.ok a, s) => f a s | (.error e, s) => (.error e, s)).1
    (match x s with | (.ok a, s) => f a s | (.error e, s) => (.error e, s)).2
  rcases hxs : x s with ⟨r, s'⟩
  rw [hxs] at h
  cases r with
  | ok a => exact hf a s' h
  | error e => exact he e s' h

/-- A sequence whose first part does not raise. -/
theorem seq {f : α → Prog σ ε β} {R : α → σ → Prop} {Q : Except ε β → σ → Prop} (hx : Triple P x (Returns R))
    (hf : ∀ a, Triple (R a) (f a) Q) : Triple P (x >>= f) Q :=
  hx.bind hf fun _ _ h => h.elim

theorem ret {a : α} : Triple P (pure a : Prog σ ε α) (Returns fun b s => b = a ∧ P s) := fun _ hs => ⟨rfl, hs⟩

theorem modify {R : σ → Prop} {f : σ → σ} (h : ∀ s, P s → R (f s)) :
    Triple P (Prog.modify f : Prog σ ε Unit) (Returns fun _ => R) := h

theorem get_bind {f : σ → Prog σ ε α} (h : ∀ s, P s → Triple P (f s) Q) : Triple P (Prog.get >>= f) Q :=
  fun s hs => h s hs s hs

/-- A program that begins by reading the state knows it. -/
theorem get_bind_eq {f : σ → Prog σ ε α} (h : ∀ s, P s → Triple (fun t => t = s) (f s) Q) :
    Triple P (Prog.get >>= f) Q :=
  fun s hs => h s hs s rfl

theorem ite {c : Prop} [Decidable c] {y : Prog σ ε α} (hx : c → Triple P x Q) (hy : ¬ c → Triple P y Q) :
    Triple P (if c then x else y) Q := by
  split
  · exact hx ‹_›
  · exact hy ‹_›

theorem when {c : Prop} [Decidable c] {x : Prog σ ε Unit} {R : σ → Prop} (hx : c → Triple P x (Returns fun _ => R))
    (hy : ¬ c → ∀ s, P s → R s) : Triple P (Prog.when c x) (Returns fun _ => R) :=
  ite hx fun hc s hs => hy hc s hs

theorem tryCatch {handler : ε → Prog σ ε α} {R : Except ε α → σ → Prop} (hx : Triple P x R)
    (hok : ∀ a s, R (.ok a) s → Q (.ok a) s) (hh : ∀ e, Triple (R (.error e)) (handler e) Q) :
    Triple P (Prog.tryCatch x handler) Q := by
  intro s hs
  have h := hx s hs
  simp only [Prog.tryCatch]
  rcases hxs : x s with ⟨r, s'⟩
  rw [hxs] at h
  cases r with
  | ok a => exact hok a s' h
  | error e => exact hh e s' h

/-- A loop keeps what every pass keeps. -/
theorem forEach {f : β → Prog σ ε Unit} {l : List β} (h : ∀ b ∈ l, Triple P (f b) (Returns fun _ => P)) :
    Triple P (Prog.forEach f l) (Returns fun _ => P) := by
  induction l with
  | nil => exact fun _ hs => hs
  | cons b l ih =>
    exact (h b List.mem_cons_self).seq fun _ => ih fun c hc => h c (List.mem_cons_of_mem _ hc)

/-- A loop whose invariant knows the elements that are done: the first ones, and all of them unless a pass raises. -/
theorem forEach_done {f : β → Prog σ ε Unit} {I : List β → σ → Prop}
    (h : ∀ L b, Triple (I L) (f b) fun _ => I (L ++ [b])) (L₀ l : List β) :
    Triple (I L₀) (Prog.forEach f l) fun r s => ∃ L, L <+: l ∧ I (L₀ ++ L) s ∧ (r = .ok () → L = l) := by
  induction l generalizing L₀ with
  | nil => exact fun s hs => ⟨[], List.nil_prefix, by rwa [List.append_nil], fun _ => rfl⟩
  | cons b l ih =>
    refine (h L₀ b).bind (fun _ => ?_) fun e s hs => ⟨[b], List.prefix_append [b] l, hs, nofun⟩
    refine (ih (L₀ ++ [b])).weaken (fun _ hs => hs) fun r s hr => ?_
    obtain ⟨L, hprefix, hs, hall⟩ := hr
    refine ⟨b :: L, List.cons_prefix_cons.mpr ⟨rfl, hprefix⟩, ?_, fun hok => congrArg (b :: ·) (hall hok)⟩
    rwa [List.append_assoc] at hs

section Keep

variable {I : σ → Prop}

/-- A sequence keeps what both parts keep, whether or not they raise. -/
theorem keep_bind {f : α → Prog σ ε β} (hx : Triple I x fun _ => I) (hf : ∀ a, Triple I (f a) fun _ => I) :
    Triple I (x >>= f) fun _ => I := hx.bind hf fun _ _ h => h

theorem keep_when {c : Prop} [Decidable c] {x : Prog σ ε Unit} (hx : c → Triple I x fun _ => I) :
    Triple I (Prog.when c x) fun _ => I := ite hx fun _ _ h => h

theorem keep_forEach {f : β → Prog σ ε Unit} {l : List β} (h : ∀ b ∈ l, Triple I (f b) fun _ => I) :
    Triple I (Prog.forEach f l) fun _ => I := by
  induction l with
  | nil => exact fun _ hs => hs
  | cons b l ih => exact keep_bind (h b List.mem_cons_self) fun _ => ih fun c hc => h c (List.mem_cons_of_mem _ hc)

end Keep

end Triple

end LoraLink
