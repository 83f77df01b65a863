import Mathlib.Algebra.Order.Ring.Int
import Mathlib.Data.List.Basic
import Mathlib.Tactic.Common

/-!
# Byte strings and big-endian integers

Byte strings are lists of `UInt8`. `be16`, `be24` and `be32` write the low 16, 24 and 32 bits of a number with the most
significant byte first; `u16`, `u24` and `u32` read numbers back (`u16_be16`, `u24_be24`, `u32_be32`), and what they have
read is written back (`be16_u16`, `be32_u32`). Reading past the end gives zero bytes, so the readers are total.
`flatten_chunks`: a string cut into chunks of one size is put together again.
-/

namespace LoraLink

abbrev Bytes := List UInt8

/-- The byte at position `i`, zero past the end. -/
def byteAt (b : Bytes) (i : Nat) : UInt8 := b.getD i 0

def be16 (x : Nat) : Bytes := [UInt8.ofNat (x / 2 ^ 8), UInt8.ofNat x]

def be24 (x : Nat) : Bytes := [UInt8.ofNat (x / 2 ^ 16), UInt8.ofNat (x / 2 ^ 8), UInt8.ofNat x]

def be32 (x : Nat) : Bytes :=
  [UInt8.ofNat (x / 2 ^ 24), UInt8.ofNat (x / 2 ^ 16), UInt8.ofNat (x / 2 ^ 8), UInt8.ofNat x]

def u16 (p : Bytes) : Nat := (byteAt p 0).toNat * 2 ^ 8 + (byteAt p 1).toNat

def u24 (p : Bytes) : Nat := (byteAt p 0).toNat * 2 ^ 16 + (byteAt p 1).toNat * 2 ^ 8 + (byteAt p 2).toNat

def u32 (p : Bytes) : Nat :=
  (byteAt p 0).toNat * 2 ^ 24 + (byteAt p 1).toNat * 2 ^ 16 + (byteAt p 2).toNat * 2 ^ 8 + (byteAt p 3).toNat

@[simp] theorem length_be16 (x : Nat) : (be16 x).length = 2 := rfl
@[simp] theorem length_be24 (x : Nat) : (be24 x).length = 3 := rfl
@[simp] theorem length_be32 (x : Nat) : (be32 x).length = 4 := rfl

@[simp] theorem byteAt_cons_zero (x : UInt8) (b : Bytes) : byteAt (x :: b) 0 = x := rfl
@[simp] theorem byteAt_cons_succ (x : UInt8) (b : Bytes) (i : Nat) : byteAt (x :: b) (i + 1) = byteAt b i := rfl

theorem byteAt_drop (b : Bytes) (n i : Nat) : byteAt (b.drop n) i = byteAt b (n + i) := by
  simp [byteAt, List.getElem?_drop]

theorem byteAt_append_left {a b : Bytes} {i : Nat} (h : i < a.length) : byteAt (a ++ b) i = byteAt a i := by
  simp [byteAt, List.getElem?_append_left h]

theorem u16_lt (p : Bytes) : u16 p < 2 ^ 16 := by
  have h0 := (byteAt p 0).toNat_lt
  have h1 := (byteAt p 1).toNat_lt
  unfold u16; omega

theorem u32_lt (p : Bytes) : u32 p < 2 ^ 32 := by
  have h0 := (byteAt p 0).toNat_lt
  have h1 := (byteAt p 1).toNat_lt
  have h2 := (byteAt p 2).toNat_lt
  have h3 := (byteAt p 3).toNat_lt
  unfold u32; omega

/-- Reading back the low 16 bits. -/
theorem u16_be16 (x : Nat) (rest : Bytes) : u16 (be16 x ++ rest) = x % 2 ^ 16 := by
  simp [u16, be16]; omega

/-- Reading back the low 24 bits. -/
theorem u24_be24 (x : Nat) (rest : Bytes) : u24 (be24 x ++ rest) = x % 2 ^ 24 := by
  simp [u24, be24]; omega

/-- Reading back the low 32 bits. -/
theorem u32_be32 (x : Nat) (rest : Bytes) : u32 (be32 x ++ rest) = x % 2 ^ 32 := by
  simp [u32, be32]; omega

theorem take_two {p : Bytes} (h : 2 ≤ p.length) : p.take 2 = [byteAt p 0, byteAt p 1] := by
  match p, h with
  | a :: b :: _, _ => rfl

theorem take_four {p : Bytes} (h : 4 ≤ p.length) : p.take 4 = [byteAt p 0, byteAt p 1, byteAt p 2, byteAt p 3] := by
  match p, h with
  | a :: b :: c :: d :: _, _ => rfl

/-- Writing back two bytes. -/
theorem be16_u16 {p : Bytes} (h : 2 ≤ p.length) : be16 (u16 p) = p.take 2 := by
  have h0 := (byteAt p 0).toNat_lt
  have h1 := (byteAt p 1).toNat_lt
  rw [take_two h]
  simp only [be16, u16, List.cons.injEq, ← UInt8.toNat_inj, UInt8.toNat_ofNat', and_true]
  omega

/-- Writing back four bytes. -/
theorem be32_u32 {p : Bytes} (h : 4 ≤ p.length) : be32 (u32 p) = p.take 4 := by
  have h0 := (byteAt p 0).toNat_lt
  have h1 := (byteAt p 1).toNat_lt
  have h2 := (byteAt p 2).toNat_lt
  have h3 := (byteAt p 3).toNat_lt
  rw [take_four h]
  simp only [be32, u32, List.cons.injEq, ← UInt8.toNat_inj, UInt8.toNat_ofNat', and_true]
  omega

/-- The first `n` chunks of `k` elements make up the first `n * k` elements. -/
theorem flatten_chunks {α : Type} (l : List α) (k n : Nat) :
    ((List.range n).map fun i => (l.drop (i * k)).take k).flatten = l.take (n * k) := by
  induction n with
  | zero => simp
  | succ n ih =>
    rw [List.range_succ, List.map_append, List.flatten_append, ih, Nat.succ_mul, List.take_add]
    simp

end LoraLink
