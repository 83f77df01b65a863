import LoraLink.Lib.Bytes
import LoraLink.Lib.Prog
import Mathlib.Data.List.Infix

/-!
# Buffers of a fixed size with checked accesses

`Buf α k` is an array of `k` elements, as a C program declares it. `load` and `store` are its accesses: an index outside
raises `OutOfBounds` instead of reaching into the memory behind it. `Returning x P`: a computation that may raise returns
a value with `P`, so that a program with this property has stayed inside its buffers.

- `load_eq`, `store_eq`: an access inside returns;
- `store_front`, `memcpy_front`: writing behind what a buffer is known to begin with;
- `memcpy`, `memcmp`: the functions of these names, byte by byte.
-/

namespace LoraLink

/-- An access outside a buffer: the index, and the size of the buffer. -/
structure OutOfBounds where
  index : Nat
  size : Nat
deriving DecidableEq, Repr

/-- An array of `k` elements. -/
structure Buf (α : Type) (k : Nat) where
  items : List α
  length_items : items.length = k

variable {ε σ α β : Type} {k m : Nat}

/-! ## Computations that return -/

/-- The computation returns a value with `P`. -/
def Returning (x : Except ε α) (P : α → Prop) : Prop := ∃ a, x = .ok a ∧ P a

theorem Returning.pure {P : α → Prop} {a : α} (h : P a) : Returning (.ok a : Except ε α) P := ⟨a, rfl, h⟩

theorem Returning.bind {x : Except ε α} {f : α → Except ε β} {P : α → Prop} {Q : β → Prop} (hx : Returning x P)
    (hf : ∀ a, P a → Returning (f a) Q) : Returning (x >>= f) Q := by
  obtain ⟨a, rfl, ha⟩ := hx
  exact hf a ha

theorem Returning.bind_eq {x : Except ε α} {f : α → Except ε β} {Q : β → Prop} {a : α} (h : x = .ok a)
    (hf : Returning (f a) Q) : Returning (x >>= f) Q := by
  subst h
  exact hf

theorem Returning.mono {x : Except ε α} {P Q : α → Prop} (hx : Returning x P) (h : ∀ a, P a → Q a) : Returning x Q := by
  obtain ⟨a, hxa, ha⟩ := hx
  exact ⟨a, hxa, h a ha⟩

/-- The same in a program with a state, which it does not touch. -/
def Prog.lift (x : Except ε α) : Prog σ ε α := fun s => (x, s)

theorem Triple.lift {x : Except ε α} {P : σ → Prop} {R : α → Prop} (h : Returning x R) :
    Triple P (Prog.lift x) (Returns fun a s => R a ∧ P s) := by
  obtain ⟨a, rfl, ha⟩ := h
  exact fun s hs => ⟨ha, hs⟩

/-- A program goes on with the value of a computation that returns. -/
theorem Triple.lift_bind {x : Except ε α} {f : α → Prog σ ε β} {P : σ → Prop} {Q : Except ε β → σ → Prop} {a : α}
    (h : x = .ok a) (hf : Triple P (f a) Q) : Triple P (Prog.lift x >>= f) Q := by
  subst h
  exact hf

/-- `x || y || …`: what stands behind the first that is true is not computed. -/
def anyOf : List (Except ε Bool) → Except ε Bool
  | [] => .ok false
  | x :: xs => do if ← x then return true else anyOf xs

/-- The checks that are known come first. -/
theorem anyOf_map_append (bs : List Bool) (xs : List (Except ε Bool)) :
    anyOf (bs.map .ok ++ xs) = if bs.any id then .ok true else anyOf xs := by
  induction bs with
  | nil => rfl
  | cons b bs ih =>
    cases b with
    | true => rfl
    | false => exact ih

theorem anyOf_map (bs : List Bool) : anyOf (bs.map .ok : List (Except ε Bool)) = .ok (bs.any id) := by
  rw [← List.append_nil (bs.map _), anyOf_map_append]
  cases bs.any id <;> rfl

namespace Buf

/-! ## Accesses -/

def fill (a : α) : Buf α k := ⟨List.replicate k a, List.length_replicate⟩

def put (b : Buf α k) (i : Nat) (a : α) : Buf α k := ⟨b.items.set i a, by rw [List.length_set, b.length_items]⟩

/-- `b[i]`. -/
def load (b : Buf α k) (i : Nat) : Except OutOfBounds α :=
  if h : i < k then .ok (b.items.get ⟨i, b.length_items.symm ▸ h⟩) else .error ⟨i, k⟩

/-- `b[i] = a`. -/
def store (b : Buf α k) (i : Nat) (a : α) : Except OutOfBounds (Buf α k) :=
  if i < k then .ok (b.put i a) else .error ⟨i, k⟩

/-- The first `n` elements, for a function that reads them. -/
def slice (b : Buf α k) (n : Nat) : Except OutOfBounds (List α) :=
  if n ≤ k then .ok (b.items.take n) else .error ⟨n - 1, k⟩

/-- `memcpy(dst + start, src + offset, n)`. -/
def memcpy (dst : Buf α k) (start : Nat) (src : Buf α m) (offset : Nat) : Nat → Except OutOfBounds (Buf α k)
  | 0 => .ok dst
  | n + 1 => do
    let dst ← memcpy dst start src offset n
    dst.store (start + n) (← src.load (offset + n))

/-- `!memcmp(a, b, n)`. -/
def memcmp [DecidableEq α] (a : Buf α k) (b : Buf α m) : Nat → Except OutOfBounds Bool
  | 0 => .ok true
  | n + 1 => do
    let same ← memcmp a b n
    let x ← a.load n
    let y ← b.load n
    return same && x == y

/-! ## What they do inside -/

theorem load_getElem (b : Buf α k) {i : Nat} (h : i < b.items.length) : b.load i = .ok b.items[i] :=
  dif_pos (b.length_items ▸ h)

theorem load_eq (b : Buf α k) {i : Nat} (h : i < k) (default : α) : b.load i = .ok (b.items.getD i default) := by
  have hi : i < b.items.length := b.length_items.symm ▸ h
  rw [load_getElem b hi, List.getD_eq_getElem?_getD, List.getElem?_eq_getElem hi, Option.getD_some]

theorem store_eq (b : Buf α k) {i : Nat} (h : i < k) (a : α) : b.store i a = .ok (b.put i a) := if_pos h

theorem slice_eq (b : Buf α k) {n : Nat} (h : n ≤ k) : b.slice n = .ok (b.items.take n) := if_pos h

/-- What is known of the beginning of a buffer grows with every store behind it. -/
theorem put_front {b : Buf α k} {p : List α} (h : p <+: b.items) (hk : p.length < k) (a : α) :
    p ++ [a] <+: (b.put p.length a).items := by
  obtain ⟨rest, hrest⟩ := h
  have hlength := b.length_items
  rw [← hrest, List.length_append] at hlength
  cases rest with
  | nil =>
    simp only [List.length_nil] at hlength
    omega
  | cons y rest =>
    refine ⟨rest, ?_⟩
    show p ++ [a] ++ rest = b.items.set p.length a
    rw [← hrest, List.set_append_right _ _ (Nat.le_refl _), Nat.sub_self, List.set_cons_zero, List.append_assoc]
    rfl

/-- Two elements, the second stored first. -/
theorem put_put_front {b : Buf α k} {p : List α} (h : p <+: b.items) (hk : p.length + 1 < k) (x y : α) :
    p ++ [x, y] <+: ((b.put (p.length + 1) y).put p.length x).items := by
  have hboth := put_front (put_front h (by omega) x) (by simpa using hk) y
  rw [List.append_assoc, List.length_append, List.length_singleton] at hboth
  have hcomm : ((b.put (p.length + 1) y).put p.length x).items = ((b.put p.length x).put (p.length + 1) y).items :=
    List.set_comm _ _ (by omega)
  rw [hcomm]
  exact hboth

theorem store_front {b : Buf α k} {p : List α} (h : p <+: b.items) {i : Nat} (hi : i = p.length) (hk : i < k) (a : α) :
    Returning (b.store i a) fun b' => p ++ [a] <+: b'.items := by
  subst hi
  exact ⟨_, b.store_eq hk a, put_front h hk a⟩

/-- A store at the first of some elements that are known up to the end. -/
theorem store_behind {b : Buf α k} {p rest : List α} {old : α} (h : b.items = p ++ old :: rest) {i : Nat}
    (hi : i = p.length) (a : α) : Returning (b.store i a) fun b' => b'.items = p ++ [a] ++ rest := by
  have hk := b.length_items
  rw [h, List.length_append, List.length_cons] at hk
  subst hi
  refine ⟨_, b.store_eq (by omega) a, ?_⟩
  show b.items.set p.length a = _
  rw [h, List.set_append_right _ _ (Nat.le_refl _), Nat.sub_self, List.set_cons_zero, List.append_assoc]
  rfl

/-- A copy to the end of what is known of the beginning. -/
theorem memcpy_front {dst : Buf α k} {p : List α} (h : p <+: dst.items) {start : Nat} (hstart : start = p.length)
    (src : Buf α m) (offset : Nat) {n : Nat} (hk : start + n ≤ k) (hm : offset + n ≤ m) :
    Returning (dst.memcpy start src offset n) fun dst' => p ++ (src.items.drop offset).take n <+: dst'.items := by
  induction n with
  | zero =>
    refine Returning.pure ?_
    rw [List.take_zero, List.append_nil]
    exact h
  | succ n ih =>
    have hsrc : offset + n < src.items.length := by
      rw [src.length_items]
      omega
    refine (ih (by omega) (by omega)).bind fun dst' hdst' => ?_
    rw [load_getElem src hsrc]
    have hfull : (p ++ (src.items.drop offset).take n).length = start + n := by
      rw [List.length_append, List.length_take, List.length_drop, src.length_items, hstart]
      omega
    refine (store_front hdst' hfull.symm (by omega) _).mono fun b hb => ?_
    have htake : (src.items.drop offset).take (n + 1) = (src.items.drop offset).take n ++ [src.items[offset + n]] := by
      rw [List.take_add_one, List.getElem?_drop, List.getElem?_eq_getElem hsrc]
      rfl
    rw [htake, ← List.append_assoc]
    exact hb

theorem memcmp_eq [DecidableEq α] {a : Buf α k} {b : Buf α m} {n : Nat} (hk : n ≤ k) (hm : n ≤ m) :
    a.memcmp b n = .ok (decide (a.items.take n = b.items.take n)) := by
  induction n with
  | zero => simp [memcmp]
  | succ n ih =>
    have ha : n < a.items.length := by
      rw [a.length_items]
      omega
    have hb : n < b.items.length := by
      rw [b.length_items]
      omega
    have hloada : a.load n = .ok a.items[n] := load_getElem a ha
    have hloadb : b.load n = .ok b.items[n] := load_getElem b hb
    have hsame : a.items.take (n + 1) = b.items.take (n + 1) ↔
        a.items.take n = b.items.take n ∧ a.items[n] = b.items[n] := by
      rw [List.take_add_one, List.take_add_one, List.getElem?_eq_getElem ha, List.getElem?_eq_getElem hb]
      refine ⟨fun h => ?_, fun h => by rw [h.1, h.2]⟩
      have hlength : (a.items.take n).length = (b.items.take n).length := by
        rw [List.length_take, List.length_take]
        omega
      obtain ⟨hfront, hlast⟩ := List.append_inj h hlength
      exact ⟨hfront, by simpa using hlast⟩
    rw [memcmp, ih (by omega) (by omega), hloada, hloadb]
    show Except.ok _ = Except.ok _
    congr 1
    rw [Bool.eq_iff_iff]
    simp [hsame]

end Buf

end LoraLink
