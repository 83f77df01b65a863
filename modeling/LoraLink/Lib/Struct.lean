import LoraLink.Lib.Bytes

/-!
# Packed integers

`struct.pack` and `struct.unpack` of Python with a big-endian format, which is a list of `Code`s here. `pack` refuses a
value that its code has no room for, `unpack` a byte string of another length than the format's.

- `unpack_pack`, `pack_unpack`: each undoes the other;
- `pack_isOk`: the values that are packed.
-/

namespace LoraLink.Struct

/-! ## Big-endian numbers of any size -/

/-- The low `n` bytes of a number. -/
def beBytes : Nat → Nat → Bytes
  | 0, _ => []
  | n + 1, x => UInt8.ofNat (x / 256 ^ n) :: beBytes n x

def ofBytes : Bytes → Nat
  | [] => 0
  | x :: b => x.toNat * 256 ^ b.length + ofBytes b

@[simp] theorem length_beBytes (n x : Nat) : (beBytes n x).length = n := by
  induction n with
  | zero => rfl
  | succ n ih => rw [beBytes, List.length_cons, ih]

theorem ofBytes_lt (b : Bytes) : ofBytes b < 256 ^ b.length := by
  induction b with
  | nil => exact Nat.one_pos
  | cons x b ih =>
    have hx : x.toNat + 1 ≤ 256 := x.toNat_lt
    have hpow := Nat.mul_le_mul_right (256 ^ b.length) hx
    rw [ofBytes, List.length_cons, Nat.pow_succ']
    rw [Nat.add_mul] at hpow
    omega

theorem ofBytes_beBytes (n x : Nat) : ofBytes (beBytes n x) = x % 256 ^ n := by
  induction n with
  | zero => rw [beBytes, ofBytes, Nat.pow_zero, Nat.mod_one]
  | succ n ih =>
    have hsplit : x % 256 ^ (n + 1) = x % 256 ^ n + 256 ^ n * (x / 256 ^ n % 256) := Nat.mod_mul
    rw [beBytes, ofBytes, length_beBytes, ih, UInt8.toNat_ofNat', hsplit, Nat.mul_comm, Nat.add_comm]

/-- What is above the `n` bytes does not matter. -/
theorem beBytes_add (n x k : Nat) : beBytes n (k * 256 ^ n + x) = beBytes n x := by
  have hall : ∀ m, m ≤ n → beBytes m (k * 256 ^ n + x) = beBytes m x := by
    intro m
    induction m with
    | zero => exact fun _ => rfl
    | succ m ih =>
      intro hm
      have hpow : 256 ^ n = 256 ^ (n - m - 1) * 256 * 256 ^ m := by
        rw [← Nat.pow_succ, ← Nat.pow_add]
        congr 1
        omega
      rw [beBytes, beBytes, ih (by omega)]
      congr 1
      rw [hpow, ← UInt8.toNat_inj, UInt8.toNat_ofNat', UInt8.toNat_ofNat', ← Nat.mul_assoc,
        Nat.add_comm, Nat.add_mul_div_right _ _ (Nat.pow_pos (by decide)), ← Nat.mul_assoc]
      exact Nat.add_mul_mod_self_right _ _ _
  exact hall n (Nat.le_refl n)

theorem beBytes_ofBytes (b : Bytes) : beBytes b.length (ofBytes b) = b := by
  induction b with
  | nil => rfl
  | cons x b ih =>
    have hdiv : (x.toNat * 256 ^ b.length + ofBytes b) / 256 ^ b.length = x.toNat := by
      rw [Nat.add_comm, Nat.add_mul_div_right _ _ (Nat.pow_pos (by decide)), Nat.div_eq_of_lt (ofBytes_lt b),
        Nat.zero_add]
    rw [List.length_cons, ofBytes, beBytes, beBytes_add, ih, hdiv, UInt8.ofNat_toNat]

/-! ## Format codes -/

/-- A format character: an unsigned integer of one, two, four or eight bytes, or a signed one of four. -/
inductive Code
  | B
  | H
  | I
  | Q
  | i
deriving DecidableEq, Repr

inductive StructError
  | argumentOutOfRange
  | wrongNumberOfItems
  | wrongBufferSize
deriving DecidableEq, Repr

namespace Code

def size : Code → Nat
  | B => 1
  | H => 2
  | I => 4
  | Q => 8
  | i => 4

/-- The smallest value, and the first that is too large. -/
def low : Code → Int
  | i => -2 ^ 31
  | _ => 0

def high : Code → Int
  | B => 2 ^ 8
  | H => 2 ^ 16
  | I => 2 ^ 32
  | Q => 2 ^ 64
  | i => 2 ^ 31

def Fits (c : Code) (v : Int) : Prop := c.low ≤ v ∧ v < c.high

instance (c : Code) (v : Int) : Decidable (c.Fits v) := inferInstanceAs (Decidable (_ ∧ _))

def encode (c : Code) (v : Int) : Except StructError Bytes :=
  if c.Fits v then .ok (beBytes c.size (v % 256 ^ c.size).toNat) else .error .argumentOutOfRange

def decode (c : Code) (b : Bytes) : Int := if (ofBytes b : Int) < c.high then ofBytes b else ofBytes b - 256 ^ c.size

theorem width (c : Code) : (256 : Int) ^ c.size = c.high - c.low := by cases c <;> rfl

theorem natWidth (c : Code) : ((256 ^ c.size : Nat) : Int) = c.high - c.low := by cases c <;> rfl

theorem low_le (c : Code) : c.low ≤ 0 ∧ 0 < c.high := by cases c <;> decide

variable {c : Code} {v : Int} {b : Bytes}

theorem encode_ok (h : c.encode v = .ok b) : c.Fits v ∧ b = beBytes c.size (v % 256 ^ c.size).toNat := by
  unfold encode at h
  split at h
  · rename_i hfits
    injection h with h
    exact ⟨hfits, h.symm⟩
  · cases h

/-- A value that fits is what its bytes stand for: a negative one is wrapped once. -/
theorem wrap_of_fits (h : c.Fits v) : v % 256 ^ c.size = if 0 ≤ v then v else v + (c.high - c.low) := by
  obtain ⟨hlow, hhigh⟩ := h
  obtain ⟨hneg, hpos⟩ := low_le c
  rw [width]
  split
  · exact Int.emod_eq_of_lt ‹_› (by omega)
  · rw [← Int.add_emod_right]
    exact Int.emod_eq_of_lt (by omega) (by omega)

theorem decode_encode (h : c.encode v = .ok b) : c.decode b = v := by
  obtain ⟨hfits, rfl⟩ := encode_ok h
  have hwidth := natWidth c
  obtain ⟨hneg, hpos⟩ := low_le c
  have hwrap := wrap_of_fits hfits
  obtain ⟨hlow, hhigh⟩ := hfits
  have hlt : (v % 256 ^ c.size).toNat < 256 ^ c.size := by
    rw [hwrap]
    split <;> omega
  rw [decode, ofBytes_beBytes, Nat.mod_eq_of_lt hlt, hwrap, width]
  by_cases hv : 0 ≤ v
  · simp only [if_pos hv]
    split <;> omega
  · simp only [if_neg hv]
    split <;> omega

theorem fits_decode (h : b.length = c.size) : c.Fits (c.decode b) := by
  have hlt := ofBytes_lt b
  rw [h] at hlt
  have hwidth := natWidth c
  obtain ⟨hneg, hpos⟩ := low_le c
  unfold Fits decode
  rw [width]
  split <;> omega

theorem encode_decode (h : b.length = c.size) : c.encode (c.decode b) = .ok b := by
  have hlt := ofBytes_lt b
  rw [h] at hlt
  have hwidth := natWidth c
  have hval : (c.decode b % 256 ^ c.size).toNat = ofBytes b := by
    rw [wrap_of_fits (fits_decode h), decode, width]
    split <;> split <;> omega
  rw [encode, if_pos (fits_decode h), hval, ← h, beBytes_ofBytes]

end Code

@[simp] theorem Code.fits_B {v : Int} : Code.B.Fits v ↔ 0 ≤ v ∧ v < 256 := Iff.rfl
@[simp] theorem Code.fits_H {v : Int} : Code.H.Fits v ↔ 0 ≤ v ∧ v < 65536 := Iff.rfl
@[simp] theorem Code.fits_I {v : Int} : Code.I.Fits v ↔ 0 ≤ v ∧ v < 4294967296 := Iff.rfl
@[simp] theorem Code.fits_i {v : Int} : Code.i.Fits v ↔ -2147483648 ≤ v ∧ v < 2147483648 := Iff.rfl

/-! ## Formats -/

def calcsize (cs : List Code) : Nat := (cs.map Code.size).sum

def pack : List Code → List Int → Except StructError Bytes
  | [], [] => .ok []
  | c :: cs, v :: vs => do return (← c.encode v) ++ (← pack cs vs)
  | _, _ => .error .wrongNumberOfItems

/-- The values at the places of the format. -/
def values : List Code → Bytes → List Int
  | [], _ => []
  | c :: cs, b => c.decode (b.take c.size) :: values cs (b.drop c.size)

def unpack (cs : List Code) (b : Bytes) : Except StructError (List Int) :=
  if b.length = calcsize cs then .ok (values cs b) else .error .wrongBufferSize

theorem pack_cons {c : Code} {cs : List Code} {v : Int} {vs : List Int} {b : Bytes} :
    pack (c :: cs) (v :: vs) = .ok b ↔
      ∃ front rest, c.encode v = .ok front ∧ pack cs vs = .ok rest ∧ b = front ++ rest := by
  rw [pack]
  cases c.encode v with
  | error e => exact ⟨nofun, fun ⟨_, _, h⟩ => nomatch h.1⟩
  | ok front =>
    cases pack cs vs with
    | error e => exact ⟨nofun, fun ⟨_, _, h⟩ => nomatch h.2.1⟩
    | ok rest =>
      constructor
      · rintro h
        injection h with h
        exact ⟨front, rest, rfl, rfl, h.symm⟩
      · rintro ⟨_, _, hfront, hrest, rfl⟩
        injection hfront with hfront
        injection hrest with hrest
        subst hfront hrest
        rfl

theorem length_pack : ∀ {cs : List Code} {vs : List Int} {b : Bytes}, pack cs vs = .ok b → b.length = calcsize cs
  | [], [], b, h => by
    injection h with h
    rw [← h]
    rfl
  | c :: cs, v :: vs, b, h => by
    obtain ⟨front, rest, hfront, hrest, rfl⟩ := pack_cons.mp h
    rw [List.length_append, length_pack hrest, (Code.encode_ok hfront).2, length_beBytes]
    rfl
  | [], _ :: _, _, h => nomatch h
  | _ :: _, [], _, h => nomatch h

theorem values_pack : ∀ {cs : List Code} {vs : List Int} {b : Bytes}, pack cs vs = .ok b → values cs b = vs
  | [], [], _, _ => rfl
  | c :: cs, v :: vs, b, h => by
    obtain ⟨front, rest, hfront, hrest, rfl⟩ := pack_cons.mp h
    have hlength : front.length = c.size := by rw [(Code.encode_ok hfront).2, length_beBytes]
    rw [values, List.take_left' hlength, List.drop_left' hlength, values_pack hrest, Code.decode_encode hfront]
  | [], _ :: _, _, h => nomatch h
  | _ :: _, [], _, h => nomatch h

theorem unpack_pack {cs : List Code} {vs : List Int} {b : Bytes} (h : pack cs vs = .ok b) : unpack cs b = .ok vs := by
  rw [unpack, if_pos (length_pack h), values_pack h]

theorem pack_values : ∀ {cs : List Code} {b : Bytes}, b.length = calcsize cs → pack cs (values cs b) = .ok b
  | [], b, h => by
    rw [List.eq_nil_of_length_eq_zero h]
    rfl
  | c :: cs, b, h => by
    have hsize : b.length = c.size + calcsize cs := h
    have hfront : (b.take c.size).length = c.size := by
      rw [List.length_take]
      omega
    have hrest : (b.drop c.size).length = calcsize cs := by
      rw [List.length_drop]
      omega
    exact pack_cons.mpr ⟨_, _, Code.encode_decode hfront, pack_values hrest, (List.take_append_drop _ _).symm⟩

theorem unpack_ok {cs : List Code} {vs : List Int} {b : Bytes} (h : unpack cs b = .ok vs) :
    b.length = calcsize cs ∧ vs = values cs b := by
  unfold unpack at h
  split at h
  · rename_i hlength
    injection h with h
    exact ⟨hlength, h.symm⟩
  · cases h

theorem pack_unpack {cs : List Code} {vs : List Int} {b : Bytes} (h : unpack cs b = .ok vs) : pack cs vs = .ok b := by
  obtain ⟨hlength, rfl⟩ := unpack_ok h
  exact pack_values hlength

/-- `pack` accepts values that have room. -/
theorem pack_isOk : ∀ {cs : List Code} {vs : List Int}, (∃ b, pack cs vs = .ok b) ↔ List.Forall₂ Code.Fits cs vs
  | [], [] => ⟨fun _ => .nil, fun _ => ⟨_, rfl⟩⟩
  | c :: cs, v :: vs => by
    constructor
    · rintro ⟨b, h⟩
      obtain ⟨front, rest, hfront, hrest, -⟩ := pack_cons.mp h
      exact .cons (Code.encode_ok hfront).1 (pack_isOk.mp ⟨rest, hrest⟩)
    · rintro (_ | ⟨hv, hvs⟩)
      obtain ⟨rest, hrest⟩ := pack_isOk.mpr hvs
      exact ⟨_, pack_cons.mpr ⟨_, _, if_pos hv, hrest, rfl⟩⟩
  | [], _ :: _ => ⟨(fun ⟨_, h⟩ => nomatch h), nofun⟩
  | _ :: _, [] => ⟨(fun ⟨_, h⟩ => nomatch h), nofun⟩

end LoraLink.Struct
